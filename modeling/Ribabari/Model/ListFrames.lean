import Ribabari.Model.LinkedList

/-!
# Lists that share a heap

The kernel keeps all its lists on one heap. An operation on a list writes at the nodes of
that list only, so the lists without a node in common with it stay as they are.
-/

namespace Ribabari.ListFrames

open Ribabari.LinkedList Ribabari.DoublyLinked

set_option autoImplicit false

attribute [ext] ListNode

variable {α : Type*} {heap later : Heap α} {list : ListHeader}
  {nodes written before after : List Address} {node other : Address}

/-- Every list without a node among the written ones is still there, node by node. -/
def Spares (heap later : Heap α) (written : List Address) : Prop :=
  ∀ list nodes, WellFormed heap list nodes → written.Disjoint nodes →
    WellFormed later list nodes ∧ ∀ node ∈ nodes, later node = heap node

/-- What an operation on the list of these nodes leaves: the nodes that are linked then,
every content, and the lists without a node among the written ones. -/
structure Leaves (heap : Heap α) (nodes written : List Address) (result : Heap α × ListHeader)
    (linked : List Address) : Prop where
  wellFormed : WellFormed result.1 result.2 linked
  contents : ∀ node ∈ nodes, (result.1 node).content = (heap node).content
  spares : Spares heap result.1 written

theorem spares_of_unwritten (unwritten : ∀ node ∉ written, later node = heap node) :
    Spares heap later written := by
  intro list nodes wellFormed apart
  have same : ∀ node ∈ nodes, later node = heap node := fun node member =>
    unwritten node fun inside => apart inside member
  refine ⟨⟨?_, wellFormed.head, wellFormed.tail, wellFormed.size⟩, same⟩
  apply wellFormed.linked.congr
  · intro node member
    rw [same node member]
  · intro node member
    rw [same node member]

/-! ## What an operation writes -/

theorem set_next_other (link : Option Address) (differs : other ≠ node) :
    heap.setNext node link other = heap other :=
  Function.update_of_ne differs _ _

theorem set_prev_other (link : Option Address) (differs : other ≠ node) :
    heap.setPrev node link other = heap other :=
  Function.update_of_ne differs _ _

theorem list_add_other (wellFormed : WellFormed heap list nodes) (content : α)
    (outside : other ∉ node :: nodes) : (listAdd heap list node content).1 other = heap other := by
  obtain ⟨notNode, notListed⟩ := not_or.mp (List.mem_cons.not.mp outside)
  have created : Function.update heap node (listNodeCreate content) other = heap other :=
    Function.update_of_ne notNode _ _
  cases last : list.tail with
  | none =>
      simp only [listAdd, last]
      exact created
  | some final =>
      have member : final ∈ nodes := List.mem_of_getLast? (wellFormed.tail.symm.trans last)
      have notFinal : other ≠ final := fun same => notListed (same ▸ member)
      simp only [listAdd, last]
      rw [set_prev_other _ notNode, set_next_other _ notFinal, created]

theorem list_remove_node_other (wellFormed : WellFormed heap list (before ++ node :: after))
    (outside : other ∉ before ++ node :: after) :
    (listRemoveNode heap list node).1 other = heap other := by
  have linked := wellFormed.linked
  have differs : before.getLast? ≠ some node := fun last =>
    linked.apart.1 (List.mem_of_getLast? last)
  obtain ⟨next, prev⟩ :=
    list_remove_node_links list linked.prev_at linked.next_at differs other
  have notLast : before.getLast? ≠ some other := fun last =>
    outside (List.mem_append_left _ (List.mem_of_getLast? last))
  have notFirst : after.head? ≠ some other := fun first =>
    outside (List.mem_append_right _ (List.mem_cons_of_mem _ (List.mem_of_mem_head? first)))
  rw [if_neg notLast] at next
  rw [if_neg notFirst] at prev
  exact ListNode.ext (list_remove_node_content other) next prev

theorem detach_other (differs : other ≠ node) :
    (heap.setNext node none).setPrev node none other = heap other := by
  rw [set_prev_other _ differs, set_next_other _ differs]

theorem list_remove_head_empty (wellFormed : WellFormed heap list []) :
    listRemoveHead heap list = (none, heap, list) := by
  have head : list.head = none := wellFormed.head
  simp only [listRemoveHead, head]

theorem list_remove_tail_empty (wellFormed : WellFormed heap list []) :
    listRemoveTail heap list = (none, heap, list) := by
  have tail : list.tail = none := wellFormed.tail
  simp only [listRemoveTail, tail]

theorem list_remove_head_other (wellFormed : WellFormed heap list nodes)
    (outside : other ∉ nodes) : (listRemoveHead heap list).2.1 other = heap other := by
  cases nodes with
  | nil => rw [list_remove_head_empty wellFormed]
  | cons temp nodes =>
      have head : list.head = some temp := wellFormed.head
      have linked : Linked _ _ ([] ++ temp :: nodes) := wellFormed.linked
      obtain ⟨notTemp, notListed⟩ := not_or.mp (List.mem_cons.not.mp outside)
      cases next : nodes.head? with
      | none =>
          simp only [listRemoveHead, head, linked.next_at.trans next]
          exact detach_other notTemp
      | some following =>
          have member : following ∈ nodes := List.mem_of_mem_head? next
          have notFollowing : other ≠ following := fun same => notListed (same ▸ member)
          simp only [listRemoveHead, head, linked.next_at.trans next]
          rw [detach_other notTemp, set_prev_other _ notFollowing]

theorem list_remove_tail_other (wellFormed : WellFormed heap list nodes)
    (outside : other ∉ nodes) : (listRemoveTail heap list).2.1 other = heap other := by
  rcases List.eq_nil_or_concat nodes with rfl | ⟨nodes, temp, rfl⟩
  · rw [list_remove_tail_empty wellFormed]
  · rw [List.concat_eq_append] at wellFormed outside
    have tail : list.tail = some temp := by simp [wellFormed.tail]
    have linked := wellFormed.linked
    have notTemp : other ≠ temp := fun same => outside (by simp [same])
    have notListed : other ∉ nodes := fun member => outside (List.mem_append_left _ member)
    cases prev : nodes.getLast? with
    | none =>
        simp only [listRemoveTail, tail, linked.prev_at.trans prev]
        exact detach_other notTemp
    | some preceding =>
        have member : preceding ∈ nodes := List.mem_of_getLast? prev
        have notPreceding : other ≠ preceding := fun same => notListed (same ▸ member)
        simp only [listRemoveTail, tail, linked.prev_at.trans prev]
        rw [detach_other notTemp, set_next_other _ notPreceding]

theorem list_remove_head_content :
    ((listRemoveHead heap list).2.1 other).content = (heap other).content := by
  unfold listRemoveHead
  split
  · rfl
  · dsimp only
    split <;> simp

theorem list_remove_tail_content :
    ((listRemoveTail heap list).2.1 other).content = (heap other).content := by
  unfold listRemoveTail
  split
  · rfl
  · dsimp only
    split <;> simp

/-! ## The operations -/

theorem list_add_leaves (wellFormed : WellFormed heap list nodes) (fresh : node ∉ nodes)
    (content : α) :
    Leaves heap nodes (node :: nodes) (listAdd heap list node content) (nodes ++ [node]) where
  wellFormed := list_add_well_formed wellFormed fresh content
  contents := by
    intro other member
    have differs : other ≠ node := fun same => fresh (same ▸ member)
    rw [list_add_content, if_neg differs]
  spares := spares_of_unwritten fun _ outside => list_add_other wellFormed content outside

theorem list_remove_head_leaves (wellFormed : WellFormed heap list nodes) :
    (listRemoveHead heap list).1 = nodes.head? ∧
      Leaves heap nodes nodes (listRemoveHead heap list).2 nodes.tail := by
  have spares : Spares heap (listRemoveHead heap list).2.1 nodes :=
    spares_of_unwritten fun _ outside => list_remove_head_other wellFormed outside
  have contents : ∀ node ∈ nodes,
      ((listRemoveHead heap list).2.1 node).content = (heap node).content :=
    fun _ _ => list_remove_head_content
  cases nodes with
  | nil =>
      have empty := list_remove_head_empty wellFormed
      rw [empty] at contents spares ⊢
      exact ⟨rfl, wellFormed, contents, spares⟩
  | cons temp nodes =>
      obtain ⟨returned, shorter⟩ := list_remove_head_well_formed wellFormed
      exact ⟨returned, shorter, contents, spares⟩

theorem list_remove_tail_leaves (wellFormed : WellFormed heap list nodes) :
    (listRemoveTail heap list).1 = nodes.getLast? ∧
      Leaves heap nodes nodes (listRemoveTail heap list).2 nodes.dropLast := by
  have spares : Spares heap (listRemoveTail heap list).2.1 nodes :=
    spares_of_unwritten fun _ outside => list_remove_tail_other wellFormed outside
  have contents : ∀ node ∈ nodes,
      ((listRemoveTail heap list).2.1 node).content = (heap node).content :=
    fun _ _ => list_remove_tail_content
  rcases List.eq_nil_or_concat nodes with rfl | ⟨nodes, temp, rfl⟩
  · have empty := list_remove_tail_empty wellFormed
    rw [empty] at contents spares ⊢
    exact ⟨rfl, wellFormed, contents, spares⟩
  · rw [List.concat_eq_append] at *
    obtain ⟨returned, shorter⟩ := list_remove_tail_well_formed wellFormed
    rw [List.dropLast_concat]
    exact ⟨by rw [returned, List.getLast?_concat], shorter, contents, spares⟩

theorem list_remove_node_leaves (wellFormed : WellFormed heap list nodes) (member : node ∈ nodes) :
    Leaves heap nodes nodes (listRemoveNode heap list node) (nodes.erase node) := by
  obtain ⟨before, after, rfl, first⟩ := List.eq_append_cons_of_mem member
  rw [List.erase_append_right _ first, List.erase_cons_head]
  exact
    { wellFormed := list_remove_node_well_formed wellFormed
      contents := fun _ _ => list_remove_node_content _
      spares := spares_of_unwritten fun _ outside => list_remove_node_other wellFormed outside }

/-- Of a well-formed list: each operation of `list.c` does to the sequence of the nodes what
it is for, and leaves the list well formed and all other lists alone. -/
theorem list_operations (wellFormed : WellFormed heap list nodes) :
    (∀ node ∉ nodes, ∀ content,
      Leaves heap nodes (node :: nodes) (listAdd heap list node content) (nodes ++ [node]) ∧
        ((listAdd heap list node content).1 node).content = content) ∧
    ((listRemoveHead heap list).1 = nodes.head? ∧
      Leaves heap nodes nodes (listRemoveHead heap list).2 nodes.tail ∧
      (nodes = [] → listRemoveHead heap list = (none, heap, list))) ∧
    ((listRemoveTail heap list).1 = nodes.getLast? ∧
      Leaves heap nodes nodes (listRemoveTail heap list).2 nodes.dropLast ∧
      (nodes = [] → listRemoveTail heap list = (none, heap, list))) ∧
    (∀ node ∈ nodes, Leaves heap nodes nodes (listRemoveNode heap list node) (nodes.erase node)) ∧
    ∀ (matcher : α → Bool) (fuel : Nat), nodes.length < fuel →
      listSearch heap list matcher fuel =
        some (nodes.find? fun node => matcher (heap node).content) := by
  obtain ⟨head, tail⟩ := list_remove_head_leaves wellFormed
  obtain ⟨last, front⟩ := list_remove_tail_leaves wellFormed
  refine ⟨?_, ⟨head, tail, ?_⟩, ⟨last, front, ?_⟩, ?_, ?_⟩
  · intro node fresh content
    refine ⟨list_add_leaves wellFormed fresh content, ?_⟩
    rw [list_add_content, if_pos rfl]
  · rintro rfl
    exact list_remove_head_empty wellFormed
  · rintro rfl
    exact list_remove_tail_empty wellFormed
  · exact fun node member => list_remove_node_leaves wellFormed member
  · intro matcher fuel enough
    have whole : WellFormed heap list ([] ++ nodes) := wellFormed
    rw [listSearch, wellFormed.head]
    exact search_from_finds matcher whole enough

/-- A list of two nodes. -/
def pair : StoredList Nat := ((StoredList.init 0).add 7).add 9

theorem list_operations_sample :
    (listRemoveTail pair.heap pair.list).1 = some 1 ∧
      Leaves pair.heap [0, 1] [0, 1] (listRemoveTail pair.heap pair.list).2 [0] := by
  have stores : Stores pair [0, 1] [7, 9] := add_stores (add_stores (init_stores 0) 7) 9
  obtain ⟨-, -, ⟨returned, left, -⟩, -⟩ := list_operations stores.holds.1
  exact ⟨returned, left⟩

end Ribabari.ListFrames

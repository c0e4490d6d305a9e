import Mathlib.Data.Int.Notation
import Mathlib.Data.Nat.Notation
import Ribabari.Foundation.DoublyLinked

/-!
# The doubly linked list

`list.c` over an explicit heap of nodes. An operation returns the heap and the header it
has written; the address that `malloc` returned for a new node is an argument. A walk
follows `next` as far as its fuel goes, and a well-formed list needs one unit for each of
its nodes and one for the null pointer.
-/

namespace Ribabari.LinkedList

open Ribabari.DoublyLinked

set_option autoImplicit false

abbrev Address := Nat

/-- `list_node_t`. -/
structure ListNode (α : Type*) where
  content : α
  next : Option Address
  prev : Option Address

/-- `list_t`. -/
structure ListHeader where
  head : Option Address
  tail : Option Address
  size : Int
  deriving DecidableEq, Repr

abbrev Heap (α : Type*) := Address → ListNode α

variable {α : Type*}

def Heap.setNext (heap : Heap α) (node : Address) (next : Option Address) : Heap α :=
  Function.update heap node { heap node with next := next }

def Heap.setPrev (heap : Heap α) (node : Address) (prev : Option Address) : Heap α :=
  Function.update heap node { heap node with prev := prev }

def listNodeCreate (content : α) : ListNode α where
  content := content
  next := none
  prev := none

def listInit : ListHeader where
  head := none
  tail := none
  size := 0

/-- `list_add`, whose node `malloc` has put at `node`. -/
def listAdd (heap : Heap α) (list : ListHeader) (node : Address) (content : α) :
    Heap α × ListHeader :=
  let created : Heap α := Function.update heap node (listNodeCreate content)
  match list.tail with
  | none => (created, { head := some node, tail := some node, size := list.size + 1 })
  | some last =>
      ((created.setNext last (some node)).setPrev node (some last),
        { list with
          tail := some node
          size := list.size + 1 })

/-- `list_remove_node`. The node keeps its own links. -/
def listRemoveNode (heap : Heap α) (list : ListHeader) (node : Address) : Heap α × ListHeader :=
  let front : Heap α × ListHeader :=
    match (heap node).prev with
    | some before => (heap.setNext before (heap node).next, list)
    | none => (heap, if list.head = some node then { list with head := (heap node).next } else list)
  let back : Heap α × ListHeader :=
    match (front.1 node).next with
    | some after => (front.1.setPrev after (front.1 node).prev, front.2)
    | none =>
        (front.1,
          if front.2.tail = some node then { front.2 with tail := (front.1 node).prev }
          else front.2)
  (back.1, { back.2 with size := back.2.size - 1 })

/-- `list_remove_head`. -/
def listRemoveHead (heap : Heap α) (list : ListHeader) : Option Address × Heap α × ListHeader :=
  match list.head with
  | none => (none, heap, list)
  | some temp =>
      let front : Heap α × ListHeader :=
        match (heap temp).next with
        | some after => (heap.setPrev after none, list)
        | none => (heap, { list with tail := none })
      (some temp, (front.1.setNext temp none).setPrev temp none,
        { front.2 with
          head := (front.1 temp).next
          size := front.2.size - 1 })

/-- `list_remove_tail`. -/
def listRemoveTail (heap : Heap α) (list : ListHeader) : Option Address × Heap α × ListHeader :=
  match list.tail with
  | none => (none, heap, list)
  | some temp =>
      let back : Heap α × ListHeader :=
        match (heap temp).prev with
        | some before => (heap.setNext before none, list)
        | none => (heap, { list with head := none })
      (some temp, (back.1.setNext temp none).setPrev temp none,
        { back.2 with
          tail := (back.1 temp).prev
          size := back.2.size - 1 })

/-- The loop of `list_search` from `matched` on, undefined where the fuel runs out. -/
def searchFrom (heap : Heap α) (matcher : α → Bool) :
    Nat → Option Address → Option (Option Address)
  | 0, _ => none
  | _ + 1, none => some none
  | fuel + 1, some matched =>
      if matcher (heap matched).content then some (some matched)
      else searchFrom heap matcher fuel (heap matched).next

def listSearch (heap : Heap α) (list : ListHeader) (matcher : α → Bool) (fuel : Nat) :
    Option (Option Address) :=
  searchFrom heap matcher fuel list.head

/-! ## Well-formed lists -/

/-- Following `next` from `head` visits the nodes in this order, following `prev` from
`tail` the other way round, and `size` is their number. -/
structure WellFormed (heap : Heap α) (list : ListHeader) (nodes : List Address) : Prop where
  linked : Linked (fun node => (heap node).next) (fun node => (heap node).prev) nodes
  head : list.head = nodes.head?
  tail : list.tail = nodes.getLast?
  size : list.size = nodes.length

/-- The list holds these contents in this order. -/
def Holds (heap : Heap α) (list : ListHeader) (nodes : List Address) (contents : List α) : Prop :=
  WellFormed heap list nodes ∧ (nodes.map fun node => (heap node).content) = contents

theorem init_well_formed (heap : Heap α) : WellFormed heap listInit [] where
  linked := linked_nil _ _
  head := rfl
  tail := rfl
  size := rfl

section Writes

variable (heap : Heap α) (node other : Address) (link : Option Address)

@[simp] theorem set_next_content : (heap.setNext node link other).content = (heap other).content := by
  by_cases same : other = node
  · subst same
    simp [Heap.setNext]
  · simp [Heap.setNext, same]

@[simp] theorem set_prev_content : (heap.setPrev node link other).content = (heap other).content := by
  by_cases same : other = node
  · subst same
    simp [Heap.setPrev]
  · simp [Heap.setPrev, same]

@[simp] theorem set_next_prev : (heap.setNext node link other).prev = (heap other).prev := by
  by_cases same : other = node
  · subst same
    simp [Heap.setNext]
  · simp [Heap.setNext, same]

@[simp] theorem set_prev_next : (heap.setPrev node link other).next = (heap other).next := by
  by_cases same : other = node
  · subst same
    simp [Heap.setPrev]
  · simp [Heap.setPrev, same]

theorem set_next_next :
    (heap.setNext node link other).next = if other = node then link else (heap other).next := by
  by_cases same : other = node
  · subst same
    simp [Heap.setNext]
  · simp [Heap.setNext, same]

theorem set_prev_prev :
    (heap.setPrev node link other).prev = if other = node then link else (heap other).prev := by
  by_cases same : other = node
  · subst same
    simp [Heap.setPrev]
  · simp [Heap.setPrev, same]

end Writes

variable {heap : Heap α} {list : ListHeader} {nodes before after : List Address}
  {node : Address}

theorem list_add_well_formed (wellFormed : WellFormed heap list nodes) (fresh : node ∉ nodes)
    (content : α) :
    WellFormed (listAdd heap list node content).1 (listAdd heap list node content).2
      (nodes ++ [node]) := by
  have linked := wellFormed.linked
  have head := wellFormed.head
  have tail := wellFormed.tail
  have size := wellFormed.size
  cases last : nodes.getLast? with
  | none =>
      obtain rfl := List.getLast?_eq_none_iff.mp last
      simp only [listAdd, tail, List.getLast?_nil]
      refine ⟨linked.append fresh ?_ ?_ ?_ ?_ ?_, ?_, ?_, ?_⟩ <;>
        simp [listNodeCreate, size]
  | some final =>
      have member : final ∈ nodes := List.mem_of_getLast? last
      have differs : ∀ old ∈ nodes, old ≠ node := fun old listed same => fresh (same ▸ listed)
      have nonempty : nodes ≠ [] := List.ne_nil_of_mem member
      simp only [listAdd, tail, last]
      constructor
      · apply linked.append fresh
        · intro other isLast
          obtain rfl : final = other := by simpa [last] using isLast
          simp [set_next_next]
        · intro other listed notLast
          have otherFinal : other ≠ final := by
            rintro rfl
            exact notLast last
          simp [set_next_next, otherFinal, differs other listed]
        · simp [set_next_next, Ne.symm (differs final member), listNodeCreate]
        · intro other listed
          simp [set_prev_prev, differs other listed]
        · simp [set_prev_prev, last]
      · simp [head, List.head?_append_of_ne_nil _ nonempty]
      · simp
      · simp [size]

theorem list_add_content (content : α) (other : Address) :
    ((listAdd heap list node content).1 other).content =
      if other = node then content else (heap other).content := by
  unfold listAdd
  split
  · by_cases same : other = node <;> simp [same, listNodeCreate]
  · by_cases same : other = node <;> simp [same, listNodeCreate]

theorem list_add_holds {contents : List α} (holds : Holds heap list nodes contents)
    (fresh : node ∉ nodes) (content : α) :
    Holds (listAdd heap list node content).1 (listAdd heap list node content).2 (nodes ++ [node])
      (contents ++ [content]) := by
  refine ⟨list_add_well_formed holds.1 fresh content, ?_⟩
  rw [List.map_append, ← holds.2]
  congr 1
  · apply List.map_congr_left
    intro old listed
    have differs : old ≠ node := fun same => fresh (same ▸ listed)
    rw [list_add_content, if_neg differs]
  · simp [list_add_content]

theorem list_remove_node_content (other : Address) :
    ((listRemoveNode heap list node).1 other).content = (heap other).content := by
  unfold listRemoveNode
  dsimp only
  split <;> split <;> simp

variable (list) in
/-- What unlinking writes, given the links of the node. -/
theorem list_remove_node_links {front rear : Option Address} (prev : (heap node).prev = front)
    (next : (heap node).next = rear) (frontDiffers : front ≠ some node) (other : Address) :
    ((listRemoveNode heap list node).1 other).next =
        (if front = some other then rear else (heap other).next) ∧
      ((listRemoveNode heap list node).1 other).prev =
        (if rear = some other then front else (heap other).prev) := by
  cases front with
  | none => cases rear <;> simp [listRemoveNode, prev, next, set_prev_prev, eq_comm]
  | some before =>
      have differs : node ≠ before := fun same => frontDiffers (same ▸ rfl)
      cases rear <;>
        simp [listRemoveNode, prev, next, set_next_next, set_prev_prev, differs, eq_comm]

variable (list) in
theorem list_remove_node_header {front rear : Option Address} (prev : (heap node).prev = front)
    (next : (heap node).next = rear) (frontDiffers : front ≠ some node) :
    (listRemoveNode heap list node).2 =
      { head := if front = none ∧ list.head = some node then rear else list.head
        tail := if rear = none ∧ list.tail = some node then front else list.tail
        size := list.size - 1 } := by
  cases front with
  | none =>
      by_cases first : list.head = some node <;> cases rear <;>
        by_cases last : list.tail = some node <;>
        simp [listRemoveNode, prev, next, first, last]
  | some before =>
      have differs : node ≠ before := fun same => frontDiffers (same ▸ rfl)
      cases rear <;> by_cases last : list.tail = some node <;>
        simp [listRemoveNode, prev, next, set_next_next, differs, last]

/-- Any node of the list is unlinked from it, wherever it stands. -/
theorem list_remove_node_well_formed
    (wellFormed : WellFormed heap list (before ++ node :: after)) :
    WellFormed (listRemoveNode heap list node).1 (listRemoveNode heap list node).2
      (before ++ after) := by
  have linked := wellFormed.linked
  have head := wellFormed.head
  have tail := wellFormed.tail
  have size := wellFormed.size
  have prev : (heap node).prev = before.getLast? := linked.prev_at
  have next : (heap node).next = after.head? := linked.next_at
  obtain ⟨notBefore, notAfter⟩ := linked.apart
  have differs : before.getLast? ≠ some node := fun last =>
    notBefore (List.mem_of_getLast? last)
  have links := list_remove_node_links list prev next differs
  have header := list_remove_node_header list prev next differs
  constructor
  · apply linked.unlink
    · intro other last
      exact (links other).1.trans (if_pos last)
    · intro other _ notLast
      rw [(links other).1, if_neg notLast]
    · intro other first
      exact (links other).2.trans (if_pos first)
    · intro other _ notFirst
      rw [(links other).2, if_neg notFirst]
  · rw [header]
    cases before with
    | nil => simp [head]
    | cons first before => simp [head]
  · rw [header]
    cases rear : after.head? with
    | none =>
        obtain rfl := List.head?_eq_none_iff.mp rear
        simp [tail]
    | some following =>
        obtain ⟨rest, rfl⟩ := List.head?_eq_some_iff.mp rear
        simp [tail]
  · rw [header]
    simp [size]
    omega

theorem detach_links (heap : Heap α) {node other : Address} (differs : other ≠ node) :
    (((heap.setNext node none).setPrev node none) other).next = (heap other).next ∧
      (((heap.setNext node none).setPrev node none) other).prev = (heap other).prev := by
  simp [set_next_next, set_prev_prev, differs]

theorem list_remove_head_well_formed (wellFormed : WellFormed heap list (node :: after)) :
    (listRemoveHead heap list).1 = some node ∧
      WellFormed (listRemoveHead heap list).2.1 (listRemoveHead heap list).2.2 after := by
  have linked : Linked _ _ ([] ++ node :: after) := wellFormed.linked
  have head : list.head = some node := wellFormed.head
  have tail := wellFormed.tail
  have size := wellFormed.size
  have next : (heap node).next = after.head? := linked.next_at
  have notAfter : node ∉ after := linked.apart.2
  have differs : ∀ other ∈ after, other ≠ node := fun other member same => notAfter (same ▸ member)
  cases after with
  | nil =>
      rw [List.head?_nil] at next
      simp only [listRemoveHead, head, next]
      exact ⟨trivial, linked_nil _ _, rfl, rfl, by simp [size]⟩
  | cons first after =>
      rw [List.head?_cons] at next
      simp only [listRemoveHead, head, next, set_prev_next]
      refine ⟨trivial, linked.unlink ?_ ?_ ?_ ?_, rfl, ?_, ?_⟩
      · simp
      · intro other member _
        rw [(detach_links _ (differs other member)).1, set_prev_next]
      · intro other isFirst
        obtain rfl : first = other := by simpa using isFirst
        rw [(detach_links _ (differs first (by simp))).2, set_prev_prev, if_pos rfl]
        rfl
      · intro other member notFirst
        have otherFirst : other ≠ first := by
          rintro rfl
          exact notFirst rfl
        rw [(detach_links _ (differs other member)).2, set_prev_prev, if_neg otherFirst]
      · rw [tail, List.getLast?_cons_cons]
      · simp [size]

theorem list_remove_tail_well_formed (wellFormed : WellFormed heap list (before ++ [node])) :
    (listRemoveTail heap list).1 = some node ∧
      WellFormed (listRemoveTail heap list).2.1 (listRemoveTail heap list).2.2 before := by
  have linked := wellFormed.linked
  have head := wellFormed.head
  have tail : list.tail = some node := by simp [wellFormed.tail]
  have size := wellFormed.size
  have prev : (heap node).prev = before.getLast? := linked.prev_at
  have notBefore : node ∉ before := linked.apart.1
  have differs : ∀ other ∈ before, other ≠ node := fun other member same =>
    notBefore (same ▸ member)
  cases final : before.getLast? with
  | none =>
      obtain rfl := List.getLast?_eq_none_iff.mp final
      rw [final] at prev
      simp only [listRemoveTail, tail, prev]
      exact ⟨trivial, linked_nil _ _, rfl, rfl, by simp [size]⟩
  | some last =>
      have nonempty : before ≠ [] := List.ne_nil_of_mem (List.mem_of_getLast? final)
      rw [final] at prev
      simp only [listRemoveTail, tail, prev, set_next_prev]
      let detached : Heap α := ((heap.setNext last none).setNext node none).setPrev node none
      have short : Linked (fun other => (detached other).next) (fun other => (detached other).prev)
          (before ++ []) := by
        apply linked.unlink
        · intro other isLast
          obtain rfl : last = other := by simpa [final] using isLast
          have lastDiffers := differs last (List.mem_of_getLast? final)
          rw [(detach_links _ lastDiffers).1, set_next_next, if_pos rfl]
          rfl
        · intro other member notLast
          rw [List.append_nil] at member
          have otherLast : other ≠ last := by
            rintro rfl
            exact notLast final
          rw [(detach_links _ (differs other member)).1, set_next_next, if_neg otherLast]
        · simp
        · intro other member _
          rw [List.append_nil] at member
          rw [(detach_links _ (differs other member)).2, set_next_prev]
      rw [List.append_nil] at short
      refine ⟨trivial, short, ?_, final.symm, ?_⟩
      · rw [head, List.head?_append_of_ne_nil _ nonempty]
      · simp [size]

/-- From a node on, the loop returns the first node whose content matches. -/
theorem search_from_finds (matcher : α → Bool)
    (wellFormed : WellFormed heap list (before ++ after)) {fuel : Nat}
    (enough : after.length < fuel) :
    searchFrom heap matcher fuel after.head? =
      some (after.find? fun node => matcher (heap node).content) := by
  induction after generalizing before fuel with
  | nil =>
      obtain ⟨fuel, rfl⟩ := Nat.exists_eq_succ_of_ne_zero (Nat.ne_of_gt enough)
      rfl
  | cons node after ih =>
      obtain ⟨fuel, rfl⟩ := Nat.exists_eq_succ_of_ne_zero (Nat.ne_of_gt (Nat.zero_lt_of_lt enough))
      have next : (heap node).next = after.head? := wellFormed.linked.next_at
      rw [List.append_cons] at wellFormed
      have rest := ih wellFormed (Nat.lt_of_succ_lt_succ enough)
      rw [List.head?_cons, searchFrom, next, rest, List.find?_cons]
      split <;> simp_all

/-- The search returns the node of the first content that matches. -/
theorem list_search_holds {front rear : List α} {content : α} (matcher : α → Bool)
    (holds : Holds heap list nodes (front ++ content :: rear))
    (skipped : ∀ other ∈ front, matcher other = false) (matched : matcher content = true)
    {fuel : Nat} (enough : nodes.length < fuel) :
    ∃ before node after, nodes = before ++ node :: after ∧ front.length = before.length ∧
      listSearch heap list matcher fuel = some (some node) := by
  obtain ⟨before, others, rfl, left, right⟩ := List.map_eq_append_iff.mp holds.2
  obtain ⟨node, after, rfl, here, -⟩ := List.map_eq_cons_iff.mp right
  refine ⟨before, node, after, rfl, by rw [← left, List.length_map], ?_⟩
  have whole : WellFormed heap list ([] ++ (before ++ node :: after)) := holds.1
  have missed : ∀ other ∈ before, ¬matcher (heap other).content = true := by
    intro other member
    rw [skipped _ (left ▸ List.mem_map_of_mem member)]
    exact Bool.false_ne_true
  rw [listSearch, holds.1.head, search_from_finds matcher whole enough, List.find?_append,
    List.find?_eq_none.mpr missed, Option.none_or, List.find?_cons_of_pos (by rw [here, matched])]

theorem list_remove_node_holds {front rear : List α} {content : α}
    (holds : Holds heap list (before ++ node :: after) (front ++ content :: rear))
    (same : front.length = before.length) :
    Holds (listRemoveNode heap list node).1 (listRemoveNode heap list node).2 (before ++ after)
      (front ++ rear) := by
  refine ⟨list_remove_node_well_formed holds.1, ?_⟩
  have contents := holds.2
  rw [List.map_append, List.map_cons] at contents
  obtain ⟨left, right⟩ := List.append_inj contents (by rw [List.length_map, same])
  simp only [list_remove_node_content, List.map_append, left, (List.cons.inj right).2]

/-! ## Lists with their heap -/

/-- A list, the heap of its nodes and the address `malloc` returns next. The source frees
no node. -/
structure StoredList (α : Type*) where
  heap : Heap α
  list : ListHeader
  fresh : Address

namespace StoredList

def init (content : α) : StoredList α where
  heap := fun _ => listNodeCreate content
  list := listInit
  fresh := 0

def add (stored : StoredList α) (content : α) : StoredList α :=
  let added := listAdd stored.heap stored.list stored.fresh content
  { heap := added.1
    list := added.2
    fresh := stored.fresh + 1 }

def remove (stored : StoredList α) (node : Address) : StoredList α :=
  let removed := listRemoveNode stored.heap stored.list node
  { stored with
    heap := removed.1
    list := removed.2 }

end StoredList

/-- The nodes have been allocated and hold these contents. -/
structure Stores (stored : StoredList α) (nodes : List Address) (contents : List α) : Prop where
  holds : Holds stored.heap stored.list nodes contents
  allocated : ∀ node ∈ nodes, node < stored.fresh

section Stored

variable {stored : StoredList α} {contents front rear : List α} {content : α}

theorem init_stores (content : α) : Stores (StoredList.init content) [] [] where
  holds := ⟨init_well_formed _, rfl⟩
  allocated := by simp

theorem stores_length (stores : Stores stored nodes contents) : nodes.length = contents.length := by
  rw [← stores.holds.2, List.length_map]

theorem stores_size (stores : Stores stored nodes contents) :
    stored.list.size = contents.length := by
  rw [stores.holds.1.size, stores_length stores]

theorem add_stores (stores : Stores stored nodes contents) (content : α) :
    Stores (stored.add content) (nodes ++ [stored.fresh]) (contents ++ [content]) := by
  have unused : stored.fresh ∉ nodes := fun member =>
    Nat.lt_irrefl _ (stores.allocated stored.fresh member)
  constructor
  · exact list_add_holds stores.holds unused content
  · intro node member
    rcases List.mem_append.mp member with old | new
    · exact Nat.lt_succ_of_lt (stores.allocated node old)
    · rw [List.mem_singleton.mp new]
      exact Nat.lt_succ_self _

theorem remove_stores
    (stores : Stores stored (before ++ node :: after) (front ++ content :: rear))
    (same : front.length = before.length) :
    Stores (stored.remove node) (before ++ after) (front ++ rear) := by
  constructor
  · exact list_remove_node_holds stores.holds same
  · intro other member
    apply stores.allocated other
    rcases List.mem_append.mp member with early | late
    · exact List.mem_append_left _ early
    · exact List.mem_append_right _ (List.mem_cons_of_mem _ late)

end Stored

end Ribabari.LinkedList

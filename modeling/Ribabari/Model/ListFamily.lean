import Mathlib.Data.List.Perm.Subperm
import Ribabari.Foundation.FirstMatch
import Ribabari.Model.ListFrames

/-!
# A family of lists on one heap

The lists of the kernel, each found under a key, share one heap. Their nodes never
overlap, so an operation on one of them acts on the sequence under its key and on no
other. The source frees no node that a list has given up.
-/

namespace Ribabari.ListFamily

open Ribabari.LinkedList Ribabari.ListFrames Ribabari.DoublyLinked

set_option autoImplicit false

variable {Key α : Type*}

structure Family (Key α : Type*) where
  heap : Heap α
  lists : Key → ListHeader
  fresh : Address

/-- Every list is well formed and holds these contents, at allocated nodes of its own. -/
structure Keeps (family : Family Key α) (nodes : Key → List Address)
    (contents : Key → List α) : Prop where
  holds : ∀ key, Holds family.heap (family.lists key) (nodes key) (contents key)
  disjoint : ∀ key other, key ≠ other → (nodes key).Disjoint (nodes other)
  allocated : ∀ key, ∀ node ∈ nodes key, node < family.fresh

/-- The family as sequences, with the addresses of the nodes under one key. -/
def Represents (family : Family Key α) (contents : Key → List α) (spot : Key)
    (linked : List Address) : Prop :=
  ∃ nodes, Keeps family nodes contents ∧ nodes spot = linked

def Family.start (content : α) : Family Key α where
  heap := fun _ => listNodeCreate content
  lists := fun _ => listInit
  fresh := 0

/-- `list_empty`. -/
def Family.isEmpty (family : Family Key α) (key : Key) : Bool := (family.lists key).head.isNone

/-- `list_search`, with fuel for every node that was ever allocated. -/
def Family.search (family : Family Key α) (matcher : α → Bool) (key : Key) :
    Option (Option Address) :=
  listSearch family.heap (family.lists key) matcher (family.fresh + 1)

section Operations

variable [DecidableEq Key]

def Family.install (family : Family Key α) (key : Key) (result : Heap α × ListHeader) :
    Family Key α :=
  { family with
    heap := result.1
    lists := Function.update family.lists key result.2 }

/-- `list_init` into the list under the key. -/
def Family.init (family : Family Key α) (key : Key) : Family Key α :=
  { family with lists := Function.update family.lists key listInit }

/-- `list_add`. -/
def Family.add (family : Family Key α) (key : Key) (content : α) : Family Key α :=
  { family.install key (listAdd family.heap (family.lists key) family.fresh content) with
    fresh := family.fresh + 1 }

/-- `list_remove_head(list)->content`, undefined on the empty list. -/
def Family.take (family : Family Key α) (key : Key) : Option (α × Family Key α) :=
  let removed := listRemoveHead family.heap (family.lists key)
  removed.1.map fun node => ((removed.2.1 node).content, family.install key removed.2)

/-- `list_remove_node`. -/
def Family.remove (family : Family Key α) (key : Key) (node : Address) : Family Key α :=
  family.install key (listRemoveNode family.heap (family.lists key) node)

end Operations

/-! ## The operations on the sequences -/

section Sequences

variable {family : Family Key α} {nodes : Key → List Address} {contents : Key → List α}
  {key spot : Key} {linked : List Address}

theorem start_represents (content : α) (spot : Key) :
    Represents (Family.start content : Family Key α) (fun _ => []) spot [] := by
  refine ⟨fun _ => [], ⟨?_, ?_, ?_⟩, rfl⟩
  · intro key
    exact ⟨init_well_formed _, rfl⟩
  · intro key other _
    exact List.disjoint_nil_left []
  · intro key node member
    exact absurd member List.not_mem_nil

theorem empty_iff (represents : Represents family contents spot linked) (key : Key) :
    family.isEmpty key = true ↔ contents key = [] := by
  obtain ⟨nodes, keeps, -⟩ := represents
  have held := keeps.holds key
  rw [Family.isEmpty, held.1.head, ← held.2, List.map_eq_nil_iff, Option.isNone_iff_eq_none,
    List.head?_eq_none_iff]

theorem keeps_short (keeps : Keeps family nodes contents) (key : Key) :
    (nodes key).length < family.fresh + 1 := by
  have inside : nodes key ⊆ List.range family.fresh := by
    intro node member
    exact List.mem_range.mpr (keeps.allocated key node member)
  have bound := (List.subperm_of_subset (keeps.holds key).1.linked.distinct inside).length_le
  rw [List.length_range] at bound
  exact Nat.lt_succ_of_le bound

/-- The search always ends, at the node of the first content that matches. -/
theorem search_finds (keeps : Keeps family nodes contents) (matcher : α → Bool) (key : Key) :
    family.search matcher key =
      some ((nodes key).find? fun node => matcher (family.heap node).content) := by
  have wellFormed := (keeps.holds key).1
  rw [Family.search, listSearch, wellFormed.head]
  exact search_from_finds matcher (show WellFormed family.heap _ ([] ++ nodes key) from wellFormed)
    (keeps_short keeps key)

theorem search_none (represents : Represents family contents spot linked) {matcher : α → Bool}
    (missing : ∀ item ∈ contents key, matcher item = false) :
    family.search matcher key = some none := by
  obtain ⟨nodes, keeps, -⟩ := represents
  rw [search_finds keeps, Option.some.injEq, List.find?_eq_none]
  intro node member
  rw [missing _ ((keeps.holds key).2 ▸ List.mem_map_of_mem member)]
  exact Bool.false_ne_true

/-- A node that is linked behind these is followed by the next of them and holds the item
that stands behind as many. -/
theorem node_ahead {before after : List Address} {node : Address}
    (represents : Represents family contents spot (before ++ node :: after)) {front rear : List α}
    {item : α} (split : contents spot = front ++ item :: rear)
    (passed : front.length = before.length) :
    (family.heap node).content = item ∧ (family.heap node).next = after.head? := by
  obtain ⟨nodes, keeps, same⟩ := represents
  obtain ⟨wellFormed, held⟩ := keeps.holds spot
  rw [same] at wellFormed held
  rw [split, List.map_append, List.map_cons] at held
  have parts := List.append_inj held (by rw [List.length_map, passed])
  exact ⟨(List.cons.inj parts.2).1, wellFormed.linked.next_at⟩

theorem represents_length (represents : Represents family contents spot linked) :
    linked.length = (contents spot).length ∧ linked.length < family.fresh + 1 := by
  obtain ⟨nodes, keeps, rfl⟩ := represents
  constructor
  · rw [← (keeps.holds spot).2, List.length_map]
  · exact keeps_short keeps spot

theorem represents_head (represents : Represents family contents spot linked) :
    (family.lists spot).head = linked.head? := by
  obtain ⟨nodes, keeps, rfl⟩ := represents
  exact (keeps.holds spot).1.head

variable [DecidableEq Key]

/-- An operation on one list that writes at its own nodes and at fresh ones. -/
theorem install_keeps (keeps : Keeps family nodes contents) {written linked : List Address}
    {result : Heap α × ListHeader} {items : List α}
    (leaves : Leaves family.heap (nodes key) written result linked)
    (own : ∀ node ∈ written, node ∈ nodes key ∨ family.fresh ≤ node)
    (stays : ∀ node ∈ linked, node ∈ nodes key ∨ family.fresh ≤ node)
    (held : (linked.map fun node => (result.1 node).content) = items) {fresh : Address}
    (grown : family.fresh ≤ fresh) (allocated : ∀ node ∈ linked, node < fresh) :
    Keeps { family.install key result with fresh := fresh } (Function.update nodes key linked)
      (Function.update contents key items) := by
  have apart : ∀ other ≠ key, ∀ node ∈ nodes other,
      ¬(node ∈ nodes key ∨ family.fresh ≤ node) := by
    rintro other differs node member (mine | new)
    · exact keeps.disjoint other key differs member mine
    · exact Nat.not_le_of_lt (keeps.allocated other node member) new
  constructor
  · intro other
    by_cases same : other = key
    · subst same
      simp only [Family.install, Function.update_self]
      exact ⟨leaves.wellFormed, held⟩
    · simp only [Family.install, Function.update_of_ne same]
      have spared : written.Disjoint (nodes other) := fun node wrote member =>
        apart other same node member (own node wrote)
      obtain ⟨wellFormed, unchanged⟩ := leaves.spares _ _ (keeps.holds other).1 spared
      refine ⟨wellFormed, ?_⟩
      rw [← (keeps.holds other).2]
      apply List.map_congr_left
      intro node member
      rw [unchanged node member]
  · intro first second differs
    by_cases here : first = key
    · subst here
      rw [Function.update_self, Function.update_of_ne differs.symm]
      intro node mine theirs
      exact apart second differs.symm node theirs (stays node mine)
    · by_cases there : second = key
      · subst there
        rw [Function.update_self, Function.update_of_ne here]
        intro node theirs mine
        exact apart first here node theirs (stays node mine)
      · rw [Function.update_of_ne here, Function.update_of_ne there]
        exact keeps.disjoint first second differs
  · intro other node member
    by_cases same : other = key
    · subst same
      rw [Function.update_self] at member
      exact allocated node member
    · rw [Function.update_of_ne same] at member
      exact Nat.lt_of_lt_of_le (keeps.allocated other node member) grown

/-- What an operation on another list says of the nodes under the spot. -/
theorem represents_elsewhere {after : Family Key α} {addresses : List Address} {items : List α}
    (keeps : Keeps after (Function.update nodes key addresses)
      (Function.update contents key items))
    (same : nodes spot = linked) (elsewhere : key ≠ spot) :
    Represents after (Function.update contents key items) spot linked :=
  ⟨_, keeps, by rw [Function.update_of_ne elsewhere.symm, same]⟩

theorem init_keeps (keeps : Keeps family nodes contents) (key : Key) :
    Keeps (family.init key) (Function.update nodes key []) (Function.update contents key []) := by
  refine ⟨?_, ?_, ?_⟩
  · intro other
    by_cases same : other = key
    · subst same
      simp only [Family.init, Function.update_self]
      exact ⟨init_well_formed _, rfl⟩
    · simp only [Family.init, Function.update_of_ne same]
      exact keeps.holds other
  · intro first second differs node inFirst inSecond
    by_cases here : first = key
    · subst here
      rw [Function.update_self] at inFirst
      exact absurd inFirst List.not_mem_nil
    · by_cases there : second = key
      · subst there
        rw [Function.update_self] at inSecond
        exact absurd inSecond List.not_mem_nil
      · rw [Function.update_of_ne here] at inFirst
        rw [Function.update_of_ne there] at inSecond
        exact keeps.disjoint first second differs inFirst inSecond
  · intro other node member
    by_cases same : other = key
    · subst same
      rw [Function.update_self] at member
      exact absurd member List.not_mem_nil
    · rw [Function.update_of_ne same] at member
      exact keeps.allocated other node member

theorem init_represents (represents : Represents family contents spot linked)
    (elsewhere : key ≠ spot) :
    Represents (family.init key) (Function.update contents key []) spot linked := by
  obtain ⟨nodes, keeps, same⟩ := represents
  exact represents_elsewhere (init_keeps keeps key) same elsewhere

theorem add_keeps (keeps : Keeps family nodes contents) (key : Key) (content : α) :
    Keeps (family.add key content) (Function.update nodes key (nodes key ++ [family.fresh]))
      (Function.update contents key (contents key ++ [content])) := by
  have held := keeps.holds key
  have unused : family.fresh ∉ nodes key := fun member =>
    Nat.lt_irrefl _ (keeps.allocated key _ member)
  have added := list_add_holds held unused content
  refine install_keeps keeps (list_add_leaves held.1 unused content) ?_ ?_ added.2
    (Nat.le_succ _) ?_
  · intro node member
    rcases List.mem_cons.mp member with rfl | old
    · exact .inr (Nat.le_refl _)
    · exact .inl old
  · intro node member
    rcases List.mem_append.mp member with old | new
    · exact .inl old
    · exact .inr (Nat.le_of_eq (List.mem_singleton.mp new).symm)
  · intro node member
    rcases List.mem_append.mp member with old | new
    · exact Nat.lt_succ_of_lt (keeps.allocated key node old)
    · exact Nat.lt_succ_of_le (Nat.le_of_eq (List.mem_singleton.mp new))

theorem add_represents (represents : Represents family contents spot linked)
    (elsewhere : key ≠ spot) (content : α) :
    Represents (family.add key content)
      (Function.update contents key (contents key ++ [content])) spot linked := by
  obtain ⟨nodes, keeps, same⟩ := represents
  exact represents_elsewhere (add_keeps keeps key content) same elsewhere

/-- The new node comes last. -/
theorem add_at_spot (represents : Represents family contents spot linked) (content : α) :
    Represents (family.add spot content)
      (Function.update contents spot (contents spot ++ [content])) spot
      (linked ++ [family.fresh]) := by
  obtain ⟨nodes, keeps, rfl⟩ := represents
  exact ⟨_, add_keeps keeps spot content, Function.update_self ..⟩

theorem take_empty (represents : Represents family contents spot linked)
    (empty : contents key = []) : family.take key = none := by
  obtain ⟨nodes, keeps, -⟩ := represents
  have held := keeps.holds key
  have bare : nodes key = [] := by
    rw [← List.map_eq_nil_iff, held.2, empty]
  rw [Family.take, list_remove_head_empty (bare ▸ held.1)]
  rfl

theorem take_head (represents : Represents family contents spot linked) (elsewhere : key ≠ spot)
    {item : α} {rest : List α} (first : contents key = item :: rest) :
    ∃ taken, family.take key = some (item, taken) ∧
      Represents taken (Function.update contents key rest) spot linked := by
  obtain ⟨nodes, keeps, same⟩ := represents
  have held := keeps.holds key
  obtain ⟨node, others, split, here, tail⟩ := List.map_eq_cons_iff.mp (held.2.trans first)
  obtain ⟨removed, leaves⟩ := list_remove_head_leaves held.1
  rw [split, List.head?_cons] at removed
  refine ⟨family.install key (listRemoveHead family.heap (family.lists key)).2, ?_, ?_⟩
  · rw [Family.take, removed, Option.map_some, list_remove_head_content, here]
  · rw [split, List.tail_cons] at leaves
    rw [← split] at leaves
    have kept : ∀ other ∈ others, other ∈ nodes key := by
      intro other member
      rw [split]
      exact List.mem_cons_of_mem node member
    refine represents_elsewhere (install_keeps keeps leaves (fun other => .inl)
      (fun other member => .inl (kept other member)) ?_ (Nat.le_refl _)
      fun other member => keeps.allocated key other (kept other member)) same elsewhere
    rw [← tail]
    apply List.map_congr_left
    intro other _
    rw [list_remove_head_content]

/-- The removal of a node takes its content out of the sequence. -/
theorem remove_keeps (keeps : Keeps family nodes contents) {before after : List Address}
    {node : Address} (split : nodes key = before ++ node :: after) :
    Keeps (family.remove key node) (Function.update nodes key (before ++ after))
      (Function.update contents key
        ((before ++ after).map fun other => (family.heap other).content)) := by
  have wellFormed := (keeps.holds key).1
  have member : node ∈ nodes key := by
    rw [split]
    exact List.mem_append_right _ List.mem_cons_self
  have leaves := list_remove_node_leaves wellFormed member
  rw [split] at wellFormed
  have unlinked : (nodes key).erase node = before ++ after := by
    rw [split, List.erase_append_right _ wellFormed.linked.apart.1, List.erase_cons_head]
  have kept : ∀ other ∈ before ++ after, other ∈ nodes key := fun other listed =>
    List.mem_of_mem_erase (unlinked ▸ listed)
  rw [unlinked] at leaves
  refine install_keeps keeps leaves (fun other => .inl)
    (fun other listed => .inl (kept other listed)) ?_ (Nat.le_refl _)
    fun other listed => keeps.allocated key other (kept other listed)
  apply List.map_congr_left
  intro other _
  exact list_remove_node_content _

/-- A search that finds, and the removal of the node it found. -/
theorem search_remove (represents : Represents family contents spot linked)
    (elsewhere : key ≠ spot) {matcher : α → Bool}
    (present : ∃ item ∈ contents key, matcher item = true) :
    ∃ node, family.search matcher key = some (some node) ∧
      Represents (family.remove key node)
        (Function.update contents key ((contents key).eraseP matcher)) spot linked := by
  obtain ⟨nodes, keeps, same⟩ := represents
  have held := keeps.holds key
  have found : ((nodes key).find? fun node => matcher (family.heap node).content).isSome := by
    rw [List.find?_isSome]
    obtain ⟨item, member, matched⟩ := present
    rw [← held.2] at member
    obtain ⟨node, listed, rfl⟩ := List.mem_map.mp member
    exact ⟨node, listed, matched⟩
  obtain ⟨node, finds⟩ := Option.isSome_iff_exists.mp found
  refine ⟨node, by rw [search_finds keeps, finds], ?_⟩
  obtain ⟨before, after, split, matched, skipped⟩ := FirstMatch.find_split finds
  have content := held.2
  rw [split, List.map_append, List.map_cons] at content
  have erased : (contents key).eraseP matcher =
      (before ++ after).map fun node => (family.heap node).content := by
    rw [← content, List.map_append]
    apply FirstMatch.erase_first_append _ matched
    intro other member
    obtain ⟨address, listed, rfl⟩ := List.mem_map.mp member
    exact skipped address listed
  rw [erased]
  exact represents_elsewhere (remove_keeps keeps split) same elsewhere

/-- The walk over the list under the spot unlinks a node. -/
theorem remove_at_spot {before after : List Address} {node : Address}
    (represents : Represents family contents spot (before ++ node :: after))
    {front rear : List α} {item : α} (split : contents spot = front ++ item :: rear)
    (passed : front.length = before.length) :
    Represents (family.remove spot node) (Function.update contents spot (front ++ rear)) spot
      (before ++ after) := by
  obtain ⟨nodes, keeps, same⟩ := represents
  have held := (keeps.holds spot).2
  rw [same, split, List.map_append, List.map_cons] at held
  obtain ⟨earlier, later⟩ := List.append_inj held (by rw [List.length_map, passed])
  have left : (before ++ after).map (fun other => (family.heap other).content) =
      front ++ rear := by
    rw [List.map_append, earlier, (List.cons.inj later).2]
  exact ⟨_, left ▸ remove_keeps keeps same, Function.update_self ..⟩

end Sequences

end Ribabari.ListFamily

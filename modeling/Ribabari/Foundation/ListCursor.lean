import Mathlib.Data.List.TakeWhile

/-!
# A cursor in a growing list

The walk of a linked list that saves the next node before it looks at the current one.
Nodes may be appended at the end and the current node may be unlinked while the walk is
under way; what lies ahead of the saved pointer changes by the appended nodes only.
-/

namespace Ribabari.ListCursor

set_option autoImplicit false

variable {Node : Type*} [DecidableEq Node]

/-- The node behind the first occurrence of a node. -/
def nextOf (linked : List Node) (node : Node) : Option Node :=
  ((linked.dropWhile fun other => other ≠ node).drop 1).head?

/-- The nodes from a cursor on. -/
def onward (linked : List Node) : Option Node → List Node
  | none => []
  | some node => linked.dropWhile fun other => other ≠ node

section Cursors

variable {linked : List Node} {node : Node} {cursor : Option Node}

theorem onward_split {before after : List Node} (first : node ∉ before) :
    onward (before ++ node :: after) (some node) = node :: after := by
  have skipped : ∀ other ∈ before, decide (other ≠ node) = true := by
    intro other member
    exact decide_eq_true fun same => first (same ▸ member)
  rw [onward, List.dropWhile_append_of_pos skipped]
  exact List.dropWhile_cons_of_neg (by simp)

theorem next_of_split {before after : List Node} (first : node ∉ before) :
    nextOf (before ++ node :: after) node = after.head? := by
  have split : onward (before ++ node :: after) (some node) = node :: after := onward_split first
  have rest := congrArg (fun nodes => (nodes.drop 1).head?) split
  simpa [onward, nextOf] using rest

/-- The saved next pointer is the cursor behind the node. -/
theorem onward_next (distinct : linked.Nodup) (member : node ∈ linked) :
    onward linked (some node) = node :: onward linked (nextOf linked node) ∧
      node ∉ onward linked (nextOf linked node) ∧
      ∀ other ∈ nextOf linked node, other ∈ linked := by
  obtain ⟨before, after, rfl, first⟩ := List.eq_append_cons_of_mem member
  have here : onward (before ++ node :: after) (some node) = node :: after := onward_split first
  have next : nextOf (before ++ node :: after) node = after.head? := next_of_split first
  obtain ⟨-, distinctAfter, apart⟩ := List.nodup_append.mp distinct
  rw [here, next]
  cases after with
  | nil => simp [onward]
  | cons following after =>
      have later : following ∉ before ++ [node] := by
        intro old
        rcases List.mem_append.mp old with inBefore | same
        · exact apart following inBefore following (by simp) rfl
        · rw [List.mem_singleton.mp same] at distinctAfter
          exact (List.nodup_cons.mp distinctAfter).1 List.mem_cons_self
      have behind : onward (before ++ node :: following :: after) (some following) =
          following :: after := by
        have split : onward ((before ++ [node]) ++ following :: after) (some following) =
            following :: after := onward_split later
        rwa [List.append_assoc, List.singleton_append] at split
      rw [List.head?_cons, behind]
      exact ⟨rfl, (List.nodup_cons.mp distinctAfter).1, by simp⟩

theorem onward_append (known : ∀ node ∈ cursor, node ∈ linked) (new : List Node) :
    onward (linked ++ new) cursor =
      onward linked cursor ++ if cursor = none then [] else new := by
  cases cursor with
  | none => rfl
  | some node =>
      obtain ⟨before, after, rfl, first⟩ := List.eq_append_cons_of_mem (known node rfl)
      rw [List.append_assoc, List.cons_append, onward_split first, onward_split first, if_neg
        (by simp), List.cons_append]

/-- Unlinking a node that the cursor has passed does not move the cursor. -/
theorem onward_erase (known : ∀ node ∈ cursor, node ∈ linked) (passed : node ∉ onward linked cursor) :
    onward (linked.erase node) cursor = onward linked cursor := by
  cases cursor with
  | none => rfl
  | some target =>
      obtain ⟨before, after, rfl, first⟩ := List.eq_append_cons_of_mem (known target rfl)
      rw [onward_split first] at passed ⊢
      by_cases present : node ∈ before
      · rw [List.erase_append_left _ present]
        exact onward_split fun member => first (List.mem_of_mem_erase member)
      · rw [List.erase_append_right _ present, List.erase_of_not_mem passed]
        exact onward_split first

end Cursors

end Ribabari.ListCursor

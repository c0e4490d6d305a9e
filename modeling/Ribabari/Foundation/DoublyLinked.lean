import Mathlib.Data.List.Nodup
import Mathlib.Logic.Function.Basic

/-!
# Doubly linked chains

Two maps of links chain a sequence of distinct addresses when each address points to the
one behind it and to the one before it. Appending and unlinking write the links of the
neighbours only. The maps are total: what they hold at addresses outside the chain is of
no concern.
-/

namespace Ribabari.DoublyLinked

set_option autoImplicit false

variable {Addr : Type*}

structure Linked (next prev : Addr → Option Addr) (nodes : List Addr) : Prop where
  distinct : nodes.Nodup
  forward : ∀ before node after, nodes = before ++ node :: after → next node = after.head?
  backward : ∀ before node after, nodes = before ++ node :: after → prev node = before.getLast?

variable {next prev next' prev' : Addr → Option Addr} {nodes before after : List Addr}
  {node fresh : Addr}

theorem linked_nil (next prev : Addr → Option Addr) : Linked next prev [] where
  distinct := List.nodup_nil
  forward before node after split := by simp at split
  backward before node after split := by simp at split

namespace Linked

/-- A chain depends on the links of its own addresses only. -/
theorem congr (linked : Linked next prev nodes) (sameNext : ∀ node ∈ nodes, next' node = next node)
    (samePrev : ∀ node ∈ nodes, prev' node = prev node) : Linked next' prev' nodes where
  distinct := linked.distinct
  forward before node after split := by
    rw [sameNext node (by simp [split])]
    exact linked.forward before node after split
  backward before node after split := by
    rw [samePrev node (by simp [split])]
    exact linked.backward before node after split

theorem next_at (linked : Linked next prev (before ++ node :: after)) :
    next node = after.head? :=
  linked.forward before node after rfl

theorem prev_at (linked : Linked next prev (before ++ node :: after)) :
    prev node = before.getLast? :=
  linked.backward before node after rfl

theorem apart (linked : Linked next prev (before ++ node :: after)) :
    node ∉ before ∧ node ∉ after := by
  have distinct := linked.distinct
  rw [List.nodup_middle, List.nodup_cons, List.mem_append, not_or] at distinct
  exact distinct.1

/-- A new address behind the last one. -/
theorem append (linked : Linked next prev nodes) (new : fresh ∉ nodes)
    (last : ∀ node ∈ nodes.getLast?, next' node = some fresh)
    (others : ∀ node ∈ nodes, nodes.getLast? ≠ some node → next' node = next node)
    (ends : next' fresh = none) (samePrev : ∀ node ∈ nodes, prev' node = prev node)
    (back : prev' fresh = nodes.getLast?) : Linked next' prev' (nodes ++ [fresh]) := by
  constructor
  · exact List.nodup_append.mpr ⟨linked.distinct, List.nodup_singleton _,
      fun old member other here => List.mem_singleton.mp here ▸ fun same => new (same ▸ member)⟩
  · intro before node after split
    rcases List.eq_nil_or_concat after with rfl | ⟨after, final, rfl⟩
    · obtain ⟨-, same⟩ := List.append_inj' split rfl
      obtain rfl : fresh = node := by simpa using same
      exact ends
    · rw [List.concat_eq_append, ← List.cons_append, ← List.append_assoc] at split
      obtain ⟨rfl, same⟩ := List.append_inj' split rfl
      obtain rfl : fresh = final := by simpa using same
      rw [List.concat_eq_append]
      cases after with
      | nil => exact last node (by simp)
      | cons following after =>
          have notLast : (before ++ node :: following :: after).getLast? ≠ some node := by
            intro isLast
            rw [List.getLast?_append_cons, List.getLast?_cons_cons] at isLast
            exact linked.apart.2 (List.mem_of_getLast? isLast)
          rw [others node (by simp) notLast]
          exact linked.next_at
  · intro before node after split
    rcases List.eq_nil_or_concat after with rfl | ⟨after, final, rfl⟩
    · obtain ⟨rfl, same⟩ := List.append_inj' split rfl
      obtain rfl : fresh = node := by simpa using same
      exact back
    · rw [List.concat_eq_append, ← List.cons_append, ← List.append_assoc] at split
      obtain ⟨rfl, -⟩ := List.append_inj' split rfl
      rw [samePrev node (by simp)]
      exact linked.prev_at

/-- The neighbours of an address joined over it. -/
theorem unlink (linked : Linked next prev (before ++ node :: after))
    (joined : ∀ other ∈ before.getLast?, next' other = after.head?)
    (sameNext : ∀ other ∈ before ++ after, before.getLast? ≠ some other → next' other = next other)
    (joinedBack : ∀ other ∈ after.head?, prev' other = before.getLast?)
    (samePrev : ∀ other ∈ before ++ after, after.head? ≠ some other → prev' other = prev other) :
    Linked next' prev' (before ++ after) := by
  have distinct := linked.distinct
  rw [List.nodup_middle, List.nodup_cons] at distinct
  obtain ⟨-, -, separate⟩ := List.nodup_append.mp distinct.2
  refine ⟨distinct.2, ?_, ?_⟩
  · intro front other rear split
    rcases List.append_eq_append_iff.mp split with ⟨middle, rfl, rfl⟩ | ⟨middle, rfl, inner⟩
    · -- The address is behind the unlinked one.
      have kept : before.getLast? ≠ some other := fun isLast =>
        separate other (List.mem_of_getLast? isLast) other (by simp) rfl
      rw [sameNext other (by simp) kept]
      exact linked.forward (before ++ node :: middle) other rear (by simp)
    · cases middle with
      | nil =>
          obtain rfl : other :: rear = after := inner
          have kept : (front ++ []).getLast? ≠ some other := fun isLast =>
            separate other (List.mem_of_getLast? isLast) other (by simp) rfl
          rw [sameNext other (by simp) kept]
          exact linked.forward (front ++ [] ++ [node]) other rear (by simp)
      | cons first middle =>
          obtain ⟨rfl, rfl⟩ := List.cons.inj inner
          cases middle with
          | nil => simpa using joined other (by simp)
          | cons second middle =>
              have kept : (front ++ other :: second :: middle).getLast? ≠ some other := by
                intro isLast
                rw [List.getLast?_append_cons, List.getLast?_cons_cons] at isLast
                have twice := (List.nodup_append.mp (List.nodup_append.mp distinct.2).1).2.1
                exact (List.nodup_cons.mp twice).1 (List.mem_of_getLast? isLast)
              rw [sameNext other (by simp) kept]
              exact linked.forward front other (second :: middle ++ node :: after) (by simp)
  · intro front other rear split
    rcases List.append_eq_append_iff.mp split with ⟨middle, rfl, rfl⟩ | ⟨middle, rfl, inner⟩
    · cases middle with
      | nil => simpa using joinedBack other (by simp)
      | cons first middle =>
          have kept : (first :: middle ++ other :: rear).head? ≠ some other := by
            intro isFirst
            obtain rfl : first = other := by simpa using isFirst
            have twice := (List.nodup_append.mp distinct.2).2.1
            exact (List.nodup_cons.mp twice).1 (by simp)
          rw [samePrev other (by simp) kept]
          have back := linked.backward (before ++ node :: first :: middle) other rear (by simp)
          rw [back, List.getLast?_append_cons, List.getLast?_append_cons, List.getLast?_cons_cons]
    · cases middle with
      | nil =>
          obtain rfl : other :: rear = after := inner
          simpa using joinedBack other (by simp)
      | cons first middle =>
          obtain ⟨rfl, rfl⟩ := List.cons.inj inner
          have kept : after.head? ≠ some other := fun isFirst =>
            separate other (by simp) other (List.mem_of_mem_head? isFirst) rfl
          rw [samePrev other (by simp) kept]
          exact linked.backward front other (middle ++ node :: after) (by simp)

end Linked

end Ribabari.DoublyLinked

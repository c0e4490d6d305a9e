import Ribabari.Foundation.TransitionSystem

/-!
# First in, first out

A queue in the state of a system is served in order when every step takes its head or
leaves it, and adds behind its tail only. Whoever is in the queue then knows the next
heads that are taken, whatever else the system does.
-/

namespace Ribabari.FifoQueue

open Ribabari.TransitionSystem

set_option autoImplicit false

variable {State Event Item : Type*}

/-- From the states of the invariant on, a step takes the head when `takes` says so. -/
structure Fifo (system : System State Event) (invariant : State → Prop)
    (queue : State → List Item) (takes : State → Event → Bool) : Prop where
  kept : ∀ {before event after}, invariant before → system.step before event = some after →
    invariant after
  moves : ∀ {before event after}, invariant before → system.step before event = some after →
    ∃ new, queue after =
      (if takes before event then (queue before).tail else queue before) ++ new

/-- The heads of the queue at the steps that take one, `none` where the queue was empty. -/
def takenHeads (queue : State → List Item) (takes : State → Event → Bool)
    (steps : List (State × Event)) : List (Option Item) :=
  (steps.filter fun step => takes step.1 step.2).map fun step => (queue step.1).head?

theorem taken_heads_cons (queue : State → List Item) (takes : State → Event → Bool)
    (step : State × Event) (steps : List (State × Event)) :
    takenHeads queue takes (step :: steps) =
      if takes step.1 step.2 then (queue step.1).head? :: takenHeads queue takes steps
      else takenHeads queue takes steps := by
  unfold takenHeads
  rw [List.filter_cons]
  split <;> rfl

variable {system : System State Event} {invariant : State → Prop} {queue : State → List Item}
  {takes : State → Event → Bool} {state final : State}

/-- The first heads taken in a run are the first items of the queue it starts with. -/
theorem Fifo.taken_in_order (fifo : Fifo system invariant queue takes) (events : List Event)
    (start : invariant state) (result : run system events state = some final) {n : Nat}
    (waiting : n ≤ (queue state).length)
    (enough : n ≤ (takenHeads queue takes (history system events state)).length) :
    (takenHeads queue takes (history system events state)).take n =
      ((queue state).take n).map some := by
  induction events generalizing state n with
  | nil =>
      obtain rfl : n = 0 := Nat.le_zero.mp enough
      rfl
  | cons event events ih =>
      obtain ⟨after, fired, rest⟩ := Option.bind_eq_some_iff.mp result
      obtain ⟨new, moved⟩ := fifo.moves start fired
      have steps : history system (event :: events) state =
          (state, event) :: history system events after := by
        rw [history, fired, Option.elim_some]
      rw [steps, taken_heads_cons] at enough ⊢
      dsimp only at enough ⊢
      cases taken : takes state event with
      | false =>
          rw [taken, if_neg Bool.false_ne_true] at moved enough
          rw [if_neg Bool.false_ne_true]
          have later := ih (fifo.kept start fired) rest
            (by rw [moved, List.length_append]; omega) enough
          rw [moved, List.take_append_of_le_length waiting] at later
          exact later
      | true =>
          rw [taken, if_pos rfl] at moved enough
          rw [if_pos rfl]
          cases n with
          | zero => rfl
          | succ n =>
              cases items : queue state with
              | nil => simp [items] at waiting
              | cons item others =>
                  rw [items, List.tail_cons] at moved
                  rw [items, List.length_cons, Nat.succ_le_succ_iff] at waiting
                  have later := ih (fifo.kept start fired) rest (n := n)
                    (by rw [moved, List.length_append]; omega) (Nat.succ_le_succ_iff.mp enough)
                  rw [moved, List.take_append_of_le_length waiting] at later
                  rw [List.head?_cons, List.take_succ_cons, List.take_succ_cons, List.map_cons]
                  exact congrArg (some item :: ·) later

end Ribabari.FifoQueue

import Mathlib.Algebra.Order.BigOperators.Group.List
import Mathlib.Algebra.Order.Ring.Int
import Ribabari.Foundation.FifoQueue

/-!
# Amortised costs

A step of a system costs something, may be given credit, and has to pay out of a potential
of the state. Over a run the costs stay within the first potential and the credits. If
credit is given only where a queue is served, an item of the queue is served before the
costs exceed what those ahead of it are given.
-/

namespace Ribabari.AmortisedCost

open Ribabari.FifoQueue Ribabari.TransitionSystem

set_option autoImplicit false

variable {State Event Item : Type*}

structure Amortised (system : System State Event) (invariant : State → Prop)
    (allowed : State → Event → Prop) (potential : State → Nat)
    (cost credit : State → Event → Nat) : Prop where
  kept : ∀ {before event after}, invariant before → system.step before event = some after →
    invariant after
  pays : ∀ {before event after}, invariant before → allowed before event →
    system.step before event = some after →
      cost before event + potential after ≤ potential before + credit before event

def total (amount : State → Event → Nat) (steps : List (State × Event)) : Nat :=
  (steps.map fun step => amount step.1 step.2).sum

theorem total_cons (amount : State → Event → Nat) (step : State × Event)
    (steps : List (State × Event)) :
    total amount (step :: steps) = amount step.1 step.2 + total amount steps := rfl

/-- What is given at some of the steps only. -/
theorem total_le {amount : State → Event → Nat} {takes : State → Event → Bool} {rate : Nat}
    (steps : List (State × Event))
    (each : ∀ step ∈ steps, amount step.1 step.2 ≤ if takes step.1 step.2 then rate else 0) :
    total amount steps ≤ rate * (steps.filter fun step => takes step.1 step.2).length := by
  induction steps with
  | nil => exact Nat.zero_le _
  | cons step steps ih =>
      have first := each step List.mem_cons_self
      have rest := ih fun other member => each other (List.mem_cons_of_mem _ member)
      rw [total_cons, List.filter_cons]
      by_cases taken : takes step.1 step.2 = true
      · rw [if_pos taken] at first
        rw [if_pos taken, List.length_cons, Nat.mul_succ]
        omega
      · rw [if_neg taken] at first
        rw [if_neg taken]
        omega

variable {system : System State Event} {invariant : State → Prop}
  {allowed : State → Event → Prop} {potential : State → Nat}
  {cost credit : State → Event → Nat} {state final : State}

/-- The costs of a run. -/
theorem Amortised.run_pays
    (amortised : Amortised system invariant allowed potential cost credit)
    (events : List Event) (start : invariant state)
    (result : run system events state = some final)
    (permitted : ∀ step ∈ history system events state, allowed step.1 step.2) :
    total cost (history system events state) + potential final ≤
      potential state + total credit (history system events state) := by
  induction events generalizing state with
  | nil =>
      obtain rfl := Option.some.inj result
      exact Nat.le_of_eq (Nat.add_comm _ _)
  | cons event events ih =>
      obtain ⟨after, fired, rest⟩ := Option.bind_eq_some_iff.mp result
      have steps : history system (event :: events) state =
          (state, event) :: history system events after := by
        rw [history, fired, Option.elim_some]
      rw [steps] at permitted ⊢
      have paid : cost state event + potential after ≤ potential state + credit state event :=
        amortised.pays start (permitted _ List.mem_cons_self) fired
      have later := ih (amortised.kept start fired) rest
        fun step member => permitted step (List.mem_cons_of_mem _ member)
      rw [total_cons, total_cons]
      dsimp only
      omega

/-- Every item ahead in the queue takes the rate at most, and then the item is taken. -/
theorem Amortised.taken_within
    (amortised : Amortised system invariant allowed potential cost credit)
    {queue : State → List Item} {takes : State → Event → Bool}
    (fifo : Fifo system invariant queue takes) {rate : Nat}
    (given : ∀ state event, queue state ≠ [] → takes state event = true →
      credit state event ≤ rate)
    (free : ∀ state event, takes state event = false → credit state event = 0)
    {events : List Event} (start : invariant state)
    (result : run system events state = some final)
    (permitted : ∀ step ∈ history system events state, allowed step.1 step.2)
    {ahead behind : List Item} {item : Item} (place : queue state = ahead ++ item :: behind)
    (spent : potential state + rate * ahead.length < total cost (history system events state)) :
    ∃ step ∈ history system events state, takes step.1 step.2 = true ∧
      (queue step.1).head? = some item := by
  have heads : ∀ {head}, head ∈ takenHeads queue takes (history system events state) →
      ∃ step ∈ history system events state, takes step.1 step.2 = true ∧
        (queue step.1).head? = head := by
    intro head member
    obtain ⟨step, listed, rfl⟩ := List.mem_map.mp member
    exact ⟨step, List.mem_of_mem_filter listed, (List.mem_filter.mp listed).2, rfl⟩
  have long : ahead.length + 1 ≤ (queue state).length := by
    rw [place, List.length_append, List.length_cons]
    omega
  rcases Nat.lt_or_ge ahead.length
      (takenHeads queue takes (history system events state)).length with enough | few
  · have served := fifo.taken_in_order events start result long enough
    have last : some item ∈ ((queue state).take (ahead.length + 1)).map some := by
      rw [place, List.take_length_add_append]
      simp
    rw [← served] at last
    exact heads (List.mem_of_mem_take last)
  · -- Then every head that is taken is there, and the credits are too few.
    have served := fifo.taken_in_order events start result (Nat.le_of_succ_le (by omega))
      (Nat.le_refl _)
    rw [List.take_length] at served
    have each : ∀ step ∈ history system events state,
        credit step.1 step.2 ≤ if takes step.1 step.2 then rate else 0 := by
      intro step member
      by_cases taken : takes step.1 step.2 = true
      · rw [if_pos taken]
        apply given _ _ _ taken
        intro empty
        have head : (queue step.1).head? ∈
            takenHeads queue takes (history system events state) :=
          List.mem_map_of_mem (f := fun step : State × Event => (queue step.1).head?)
            (List.mem_filter.mpr ⟨member, taken⟩)
        rw [served, empty] at head
        obtain ⟨item, -, same⟩ := List.mem_map.mp head
        exact absurd same (Option.some_ne_none item)
      · rw [if_neg taken]
        exact Nat.le_of_eq (free _ _ (Bool.eq_false_iff.mpr taken))
    have credits := total_le _ each
    have paid := amortised.run_pays events start result permitted
    have count : (takenHeads queue takes (history system events state)).length =
        ((history system events state).filter fun step => takes step.1 step.2).length :=
      List.length_map _
    rw [← count] at credits
    have bounded := Nat.mul_le_mul_left rate few
    omega

end Ribabari.AmortisedCost

import Ribabari.Foundation.FairRuns
import Ribabari.Foundation.FifoQueue

/-!
# Being served in an infinite run

Steps that keep lowering a measure cannot recur for ever without the steps that may raise
it. Where a queue is served in order and its head is taken again and again, everybody in it
is taken, however many join behind.
-/

namespace Ribabari.ServedQueue

open Filter Ribabari.FairRuns Ribabari.FifoQueue Ribabari.TransitionSystem

set_option autoImplicit false

variable {State Event Item : Type*} {system : System State Event}

/-- Helpful steps recur and lower the measure, which only marked steps may raise. -/
theorem recurs_of_drops (run : InfiniteRun system) {helpful marked : State → Event → Prop}
    (recurs : run.Recurs helpful) (measure : State → Nat)
    (keeps : ∀ time, ¬marked (run.states time) (run.events time) →
      measure (run.states (time + 1)) ≤ measure (run.states time))
    (drops : ∀ time, ¬marked (run.states time) (run.events time) →
      helpful (run.states time) (run.events time) →
        measure (run.states (time + 1)) < measure (run.states time)) : run.Recurs marked := by
  by_contra ends
  obtain ⟨last, unmarked⟩ := eventually_atTop.mp (not_frequently.mp ends)
  have falls : ∀ now ≥ last, ¬False →
      ∃ later ≥ now, measure (run.states later) < measure (run.states now) := by
    intro now beyond _
    obtain ⟨later, after, below, helps⟩ := run.until_marked recurs
      (fun state => measure state ≤ measure (run.states now)) (Nat.le_refl _)
      fun later after below _ => (keeps later (unmarked later (beyond.trans after))).trans below
    have lower := drops later (unmarked later (beyond.trans after)) helps
    exact ⟨later + 1, by omega, by omega⟩
  obtain ⟨_, -, never⟩ := run.reaches measure (fun _ => False) falls
  exact never

variable {invariant : State → Prop} {queue : State → List Item} {takes : State → Event → Bool}

/-- The heads taken in a part of the run. -/
def takings (takes : State → Event → Bool) (run : InfiniteRun system) (time steps : Nat) : Nat :=
  ((List.range' time steps).filter fun now => takes (run.states now) (run.events now)).length

theorem takings_succ (run : InfiniteRun system) (time steps : Nat) :
    takings takes run time (steps + 1) =
      (if takes (run.states time) (run.events time) then 1 else 0) +
        takings takes run (time + 1) steps := by
  rw [takings, List.range'_succ, List.filter_cons]
  split
  · rw [List.length_cons, Nat.add_comm]
    rfl
  · rw [Nat.zero_add]
    rfl

/-- An item is taken by the time that more heads are taken than stand ahead of it. -/
theorem served_within (fifo : Fifo system invariant queue takes) (run : InfiniteRun system)
    (holds : ∀ time, invariant (run.states time)) (steps : Nat) {ahead : List Item} {item : Item}
    {time : Nat} (place : ahead ++ [item] <+: queue (run.states time))
    (enough : ahead.length < takings takes run time steps) :
    ∃ later ≥ time, takes (run.states later) (run.events later) = true ∧
      (queue (run.states later)).head? = some item := by
  induction steps generalizing ahead time with
  | zero => exact absurd enough (Nat.not_lt_zero _)
  | succ steps ih =>
      obtain ⟨behind, here⟩ := place
      obtain ⟨new, moved⟩ := fifo.moves (holds time) (run.fires time)
      rw [← here] at moved
      rw [takings_succ] at enough
      by_cases taken : takes (run.states time) (run.events time) = true
      · rw [if_pos taken] at moved enough
        cases ahead with
        | nil => exact ⟨time, Nat.le_refl _, taken, by rw [← here]; rfl⟩
        | cons first ahead =>
            have next : ahead ++ [item] <+: queue (run.states (time + 1)) := by
              rw [moved]
              exact ⟨behind ++ new, (List.append_assoc _ _ _).symm⟩
            rw [List.length_cons] at enough
            obtain ⟨later, after, served⟩ := ih next (by omega)
            exact ⟨later, by omega, served⟩
      · rw [if_neg taken] at moved enough
        have next : ahead ++ [item] <+: queue (run.states (time + 1)) := by
          rw [moved]
          exact ⟨behind ++ new, (List.append_assoc _ _ _).symm⟩
        obtain ⟨later, after, served⟩ := ih next (by omega)
        exact ⟨later, by omega, served⟩

/-- Where heads are taken again and again, as many are taken as one likes. -/
theorem enough_takings (run : InfiniteRun system)
    (recurs : run.Recurs fun state event => takes state event = true) (count time : Nat) :
    ∃ steps, count ≤ takings takes run time steps := by
  induction count generalizing time with
  | zero => exact ⟨0, Nat.zero_le _⟩
  | succ count ih =>
      obtain ⟨later, after, taken⟩ := run.recurs_after recurs time
      induction gap : later - time generalizing time with
      | zero =>
          obtain rfl : later = time := by omega
          obtain ⟨steps, many⟩ := ih (later + 1)
          refine ⟨steps + 1, ?_⟩
          rw [takings_succ, if_pos taken]
          omega
      | succ gap wait =>
          obtain ⟨steps, many⟩ := wait (time + 1) (by omega) (by omega)
          refine ⟨steps + 1, ?_⟩
          rw [takings_succ]
          omega

/-- Everybody in the queue becomes its head and is taken. -/
theorem everybody_served (fifo : Fifo system invariant queue takes) (run : InfiniteRun system)
    (holds : ∀ time, invariant (run.states time))
    (recurs : run.Recurs fun state event => takes state event = true) {item : Item} {time : Nat}
    (waits : item ∈ queue (run.states time)) :
    ∃ later ≥ time, takes (run.states later) (run.events later) = true ∧
      (queue (run.states later)).head? = some item := by
  obtain ⟨ahead, behind, place⟩ := List.append_of_mem waits
  obtain ⟨steps, enough⟩ := enough_takings run recurs (ahead.length + 1) time
  apply served_within fifo run holds steps _ enough
  rw [place]
  exact ⟨behind, by rw [List.append_assoc, List.singleton_append]⟩

end Ribabari.ServedQueue

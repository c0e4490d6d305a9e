import Mathlib.Order.Filter.AtTopBot.Basic
import Ribabari.Foundation.TransitionSystem

/-!
# Infinite runs and progress

A run that never ends, the steps it takes infinitely often, and rules for what it
reaches. What every unmarked step keeps is still there at the next marked step, a goal is
reached when a measure goes down as long as the goal is not there, and what is due within
so many marked steps is there after that many.
-/

namespace Ribabari.FairRuns

open Filter Ribabari.TransitionSystem

set_option autoImplicit false

variable {State Event : Type*}

structure InfiniteRun (system : System State Event) where
  states : Nat → State
  events : Nat → Event
  starts : states 0 = system.start
  fires : ∀ time, system.step (states time) (events time) = some (states (time + 1))

namespace InfiniteRun

variable {system : System State Event} (run : InfiniteRun system)

/-- What has happened by a given time. -/
def past (time : Nat) : List (State × Event) :=
  (List.range time).map fun earlier => (run.states earlier, run.events earlier)

theorem trace (time : Nat) : Trace system (run.past time) (run.states time) := by
  induction time with
  | zero =>
      rw [run.starts]
      exact .start
  | succ time ih =>
      have next := ih.next (run.fires time)
      simpa [past, List.range_succ] using next

theorem reachable (time : Nat) : Reachable system (run.states time) :=
  ⟨_, run.trace time⟩

/-- A condition on the steps of an infinite run holds of the steps of each part of it. -/
theorem past_allowed (allowed : State → Event → Prop)
    (always : ∀ time, allowed (run.states time) (run.events time)) (time : Nat) :
    ∀ entry ∈ run.past time, allowed entry.1 entry.2 := by
  intro entry member
  obtain ⟨earlier, -, rfl⟩ := List.mem_map.mp member
  exact always earlier

/-- A marked step is taken infinitely often. -/
def Recurs (marked : State → Event → Prop) : Prop :=
  ∃ᶠ time in atTop, marked (run.states time) (run.events time)

variable {marked : State → Event → Prop}

theorem recurs_after (recurs : run.Recurs marked) (time : Nat) :
    ∃ later ≥ time, marked (run.states later) (run.events later) :=
  frequently_atTop.mp recurs time

/-- What unmarked steps keep is still there when the next marked step is taken. -/
theorem until_marked (recurs : run.Recurs marked) (holds : State → Prop) {time : Nat}
    (now : holds (run.states time))
    (kept : ∀ later ≥ time, holds (run.states later) →
      ¬marked (run.states later) (run.events later) → holds (run.states (later + 1))) :
    ∃ later ≥ time, holds (run.states later) ∧ marked (run.states later) (run.events later) := by
  obtain ⟨later, after, mark⟩ := run.recurs_after recurs time
  induction gap : later - time generalizing time with
  | zero =>
      obtain rfl : later = time := by omega
      exact ⟨later, Nat.le_refl _, now, mark⟩
  | succ gap ih =>
      by_cases here : marked (run.states time) (run.events time)
      · exact ⟨time, Nat.le_refl _, now, here⟩
      · obtain ⟨found, beyond, there⟩ := ih (kept time (Nat.le_refl _) now here)
          (fun later beyond => kept later (by omega)) (by omega) (by omega)
        exact ⟨found, by omega, there⟩

/-- What every step from some time on keeps holds for good. -/
theorem forever (holds : State → Prop) {time : Nat} (now : holds (run.states time))
    (kept : ∀ later ≥ time, holds (run.states later) → holds (run.states (later + 1))) :
    ∀ later ≥ time, holds (run.states later) := by
  intro later beyond
  induction later, beyond using Nat.le_induction with
  | base => exact now
  | succ later beyond ih => exact kept later beyond ih

/-- A measure that goes down again and again until the goal is there reaches the goal. -/
theorem reaches (measure : State → Nat) (goal : State → Prop) {time : Nat}
    (drops : ∀ now ≥ time, ¬goal (run.states now) →
      ∃ later ≥ now, measure (run.states later) < measure (run.states now)) :
    ∃ later ≥ time, goal (run.states later) := by
  induction size : measure (run.states time) using Nat.strongRecOn generalizing time with
  | ind size ih =>
      by_cases there : goal (run.states time)
      · exact ⟨time, Nat.le_refl _, there⟩
      · obtain ⟨later, beyond, smaller⟩ := drops time (Nat.le_refl _) there
        obtain ⟨found, last, reached⟩ := ih _ (size ▸ smaller)
          (fun now after => drops now (beyond.trans after)) rfl
        exact ⟨found, beyond.trans last, reached⟩

end InfiniteRun

/-! ## Counting down -/

/-- What is due within so many marked steps is due within one less after each of them. -/
structure Countdown (system : System State Event) (invariant : State → Prop)
    (marked : State → Event → Bool) (due : Nat → State → Prop) : Prop where
  kept : ∀ {before event after}, invariant before → system.step before event = some after →
    invariant after
  counts : ∀ {before event after count}, invariant before → due count before →
    system.step before event = some after →
      due (if marked before event then count - 1 else count) after

namespace Countdown

variable {system : System State Event} {invariant : State → Prop}
  {marked : State → Event → Bool} {due : Nat → State → Prop} {state final : State} {count : Nat}

theorem run_counts (countdown : Countdown system invariant marked due) (events : List Event)
    (start : invariant state) (now : due count state)
    (result : run system events state = some final) :
    invariant final ∧
      due (count - (history system events state).countP fun step => marked step.1 step.2)
        final := by
  induction events generalizing state count with
  | nil =>
      obtain rfl := Option.some.inj result
      exact ⟨start, now⟩
  | cons event events ih =>
      obtain ⟨after, fired, rest⟩ := Option.bind_eq_some_iff.mp result
      have steps : history system (event :: events) state =
          (state, event) :: history system events after := by
        rw [history, fired, Option.elim_some]
      have later := ih (countdown.kept start fired) (countdown.counts start now fired) rest
      rw [steps, List.countP_cons]
      by_cases mark : marked state event = true
      · rw [if_pos mark] at later
        rw [if_pos mark, Nat.add_comm, Nat.sub_add_eq]
        exact later
      · rw [if_neg mark] at later
        rw [if_neg mark]
        exact later

/-- Where marked steps recur, the count comes to nothing. -/
theorem runs_out (countdown : Countdown system invariant marked due) (run : InfiniteRun system)
    (recurs : run.Recurs fun state event => marked state event = true) {time : Nat}
    (start : invariant (run.states time)) (now : due count (run.states time)) :
    ∃ later ≥ time, invariant (run.states later) ∧ due 0 (run.states later) := by
  induction count generalizing time with
  | zero => exact ⟨time, Nat.le_refl _, start, now⟩
  | succ count ih =>
      obtain ⟨later, after, ⟨holds, still⟩, mark⟩ := run.until_marked recurs
        (fun state => invariant state ∧ due (count + 1) state) ⟨start, now⟩ (by
          intro later _ here unmarked
          have next := countdown.counts here.1 here.2 (run.fires later)
          rw [if_neg unmarked] at next
          exact ⟨countdown.kept here.1 (run.fires later), next⟩)
      have next := countdown.counts holds still (run.fires later)
      rw [if_pos mark] at next
      obtain ⟨last, beyond, out⟩ := ih (countdown.kept holds (run.fires later)) next
      exact ⟨last, by omega, out⟩

end Countdown

section Building

variable (system : System State Event) (events : Nat → Event)

/-- The state after so many of the events, if they all can be fired. -/
def stateAfter : Nat → Option State
  | 0 => some system.start
  | time + 1 => (stateAfter time).bind fun state => system.step state (events time)

variable {system events}

theorem state_after_earlier {time later : Nat} (beyond : time ≤ later)
    (defined : (stateAfter system events later).isSome) :
    (stateAfter system events time).isSome := by
  induction later, beyond using Nat.le_induction with
  | base => exact defined
  | succ later _ ih =>
      apply ih
      rw [stateAfter, Option.isSome_bind] at defined
      exact Option.isSome_of_any defined

/-- The state after events that are those of a list. -/
theorem state_after_list (start : List Event)
    (same : ∀ time (earlier : time < start.length), events time = start[time]) {time : Nat}
    (within : time ≤ start.length) :
    stateAfter system events time = run system (start.take time) system.start := by
  induction time with
  | zero => rfl
  | succ time ih =>
      have earlier : time < start.length := within
      rw [stateAfter, ih (Nat.le_of_lt earlier), List.take_succ_eq_append_getElem earlier,
        run_append, same time earlier]
      congr 1
      funext state
      exact (run_single system _ state).symm

/-- Events of which none is ever refused make an infinite run. -/
def InfiniteRun.ofEvents (defined : ∀ time, (stateAfter system events time).isSome) :
    InfiniteRun system where
  states time := (stateAfter system events time).get (defined time)
  events := events
  starts := rfl
  fires := by
    intro time
    obtain ⟨state, here⟩ := Option.isSome_iff_exists.mp (defined time)
    have step : stateAfter system events (time + 1) = system.step state (events time) := by
      rw [stateAfter, here, Option.bind_some]
    simp only [here, Option.get_some, Option.some_get, step]

/-- An invariant under which the later events can be fired, and that they keep. -/
theorem state_after_defined (invariant : State → Prop) (begin : Nat)
    (first : ∃ state, stateAfter system events begin = some state ∧ invariant state)
    (kept : ∀ state, invariant state → ∀ time ≥ begin,
      ∃ after, system.step state (events time) = some after ∧ invariant after) :
    (∀ time, (stateAfter system events time).isSome) ∧
      ∀ time ≥ begin, ∃ state, stateAfter system events time = some state ∧ invariant state := by
  have later : ∀ time ≥ begin,
      ∃ state, stateAfter system events time = some state ∧ invariant state := by
    intro time beyond
    induction time, beyond using Nat.le_induction with
    | base => exact first
    | succ time beyond ih =>
        obtain ⟨state, here, holds⟩ := ih
        obtain ⟨after, step, next⟩ := kept state holds time beyond
        exact ⟨after, by rw [stateAfter, here, Option.bind_some, step], next⟩
  refine ⟨fun time => ?_, later⟩
  obtain ⟨state, defined, -⟩ := later (max time begin) (Nat.le_max_right _ _)
  exact state_after_earlier (Nat.le_max_left _ _) (Option.isSome_of_mem defined)

end Building

end Ribabari.FairRuns

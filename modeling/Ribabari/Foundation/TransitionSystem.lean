import Mathlib.Data.List.Basic

/-!
# Partial step functions and their traces

A system is a start state with a step function that is undefined where the
program cannot go on. A trace keeps every state a run leaves together with the
event that left it, so that a condition on steps and a condition on visited
states can be compared on the same run. Nothing here names a program.
-/

namespace Ribabari.TransitionSystem

set_option autoImplicit false

structure System (State Event : Type*) where
  start : State
  step : State → Event → Option State

variable {State Event : Type*}

/-- `Trace system past state`: the run that fires the events of `past` in order
from `system.start`, each at the state it is paired with, ends at `state`. -/
inductive Trace (system : System State Event) :
    List (State × Event) → State → Prop where
  | start : Trace system [] system.start
  | next {past : List (State × Event)} {state after : State} {event : Event}
      (prior : Trace system past state)
      (fired : system.step state event = some after) :
      Trace system (past ++ [(state, event)]) after

def Reachable (system : System State Event) (state : State) : Prop :=
  ∃ past, Trace system past state

theorem reachable_next {system : System State Event} {state after : State} {event : Event}
    (reached : Reachable system state) (fired : system.step state event = some after) :
    Reachable system after := by
  obtain ⟨past, trace⟩ := reached
  exact ⟨_, trace.next fired⟩

/-- Every state the run passes through, the last one included. -/
def visited (past : List (State × Event)) (state : State) : List State :=
  past.map Prod.fst ++ [state]

theorem mem_visited {past : List (State × Event)} {entry : State × Event} (member : entry ∈ past)
    (state : State) : entry.1 ∈ visited past state :=
  List.mem_append_left _ (List.mem_map_of_mem member)

theorem last_visited (past : List (State × Event)) (state : State) : state ∈ visited past state :=
  List.mem_append_right _ List.mem_cons_self

section Invariants

variable {system : System State Event} {past : List (State × Event)} {state : State}

/-- Each recorded step really was fired from a reachable state, and the state it
led to is visited. -/
theorem trace_entry (trace : Trace system past state)
    {entry : State × Event} (member : entry ∈ past) :
    Reachable system entry.1 ∧
      ∃ after ∈ visited past state, system.step entry.1 entry.2 = some after := by
  induction trace with
  | start => simp at member
  | @next past before after event prior fired ih =>
      rcases List.mem_append.mp member with earlier | last
      · obtain ⟨reached, target, seen, step⟩ := ih earlier
        refine ⟨reached, target, ?_, step⟩
        simp only [visited, List.mem_append, List.mem_map, List.mem_singleton] at seen ⊢
        rcases seen with ⟨old, oldMember, rfl⟩ | rfl
        · exact .inl ⟨old, .inl oldMember, rfl⟩
        · exact .inl ⟨(target, event), .inr rfl, rfl⟩
      · obtain rfl : entry = (before, event) := by simpa using last
        exact ⟨⟨past, prior⟩, after, last_visited _ _, fired⟩

/-- The invariant rule: a predicate that holds at the start and is kept by every
allowed step holds in every state of a run all of whose steps are allowed. -/
theorem trace_visited_invariant (allowed : State → Event → Prop) (invariant : State → Prop)
    (trace : Trace system past state)
    (permitted : ∀ entry ∈ past, allowed entry.1 entry.2)
    (base : invariant system.start)
    (kept : ∀ before event after, Reachable system before → invariant before →
      allowed before event → system.step before event = some after → invariant after) :
    ∀ seen ∈ visited past state, invariant seen := by
  induction trace with
  | start => simpa [visited] using base
  | @next past before after event prior fired ih =>
      have earlier := ih fun entry member => permitted entry (List.mem_append_left _ member)
      have holds : invariant before := earlier before (last_visited _ _)
      have holdsAfter : invariant after :=
        kept before event after ⟨past, prior⟩ holds
          (permitted (before, event) (by simp)) fired
      intro seen member
      simp only [visited, List.map_append, List.map_cons, List.map_nil, List.mem_append,
        List.mem_map, List.mem_singleton] at member
      rcases member with (⟨old, oldMember, rfl⟩ | rfl) | rfl
      · apply earlier old.1
        simp only [visited, List.mem_append, List.mem_map]
        exact .inl ⟨old, oldMember, rfl⟩
      · exact holds
      · exact holdsAfter

/-- The rule for the state the run ends in. -/
theorem trace_invariant (allowed : State → Event → Prop) (invariant : State → Prop)
    (trace : Trace system past state)
    (permitted : ∀ entry ∈ past, allowed entry.1 entry.2)
    (base : invariant system.start)
    (kept : ∀ before event after, Reachable system before → invariant before →
      allowed before event → system.step before event = some after → invariant after) :
    invariant state :=
  trace_visited_invariant allowed invariant trace permitted base kept state (last_visited _ _)

theorem reachable_invariant (invariant : State → Prop)
    (reached : Reachable system state) (base : invariant system.start)
    (kept : ∀ before event after, Reachable system before → invariant before →
      system.step before event = some after → invariant after) :
    invariant state := by
  obtain ⟨past, trace⟩ := reached
  exact trace_invariant (fun _ _ => True) invariant trace (fun _ _ => trivial) base
    fun before event after reachedBefore holds _ fired =>
      kept before event after reachedBefore holds fired

/-- What a marked step brings about, and every step keeps, holds after any run
with a marked step. -/
theorem trace_eventually (marked : State → Event → Prop) (invariant : State → Prop)
    (trace : Trace system past state)
    (begins : ∀ before event after, Reachable system before → marked before event →
      system.step before event = some after → invariant after)
    (kept : ∀ before event after, Reachable system before → invariant before →
      system.step before event = some after → invariant after)
    (happened : ∃ entry ∈ past, marked entry.1 entry.2) : invariant state := by
  induction trace with
  | start => simp at happened
  | @next past before after event prior fired ih =>
      obtain ⟨entry, member, mark⟩ := happened
      rcases List.mem_append.mp member with earlier | last
      · exact kept before event after ⟨past, prior⟩ (ih ⟨entry, earlier, mark⟩) fired
      · obtain rfl : entry = (before, event) := by simpa using last
        exact begins before event after ⟨past, prior⟩ mark fired

end Invariants

section Running

/-- The events of a list fired one after the other. -/
def run (system : System State Event) : List Event → State → Option State
  | [], state => some state
  | event :: events, state => (system.step state event).bind (run system events)

theorem run_single (system : System State Event) (event : Event) (state : State) :
    run system [event] state = system.step state event := by
  rw [run]
  cases system.step state event <;> rfl

theorem run_append (system : System State Event) (events more : List Event) (state : State) :
    run system (events ++ more) state = (run system events state).bind (run system more) := by
  induction events generalizing state with
  | nil => rfl
  | cons event events ih =>
      rw [List.cons_append, run, run, Option.bind_assoc]
      congr 1
      funext after
      exact ih after

/-- The states a list of events leaves, each with the event fired there. -/
def history (system : System State Event) : List Event → State → List (State × Event)
  | [], _ => []
  | event :: events, state =>
      (state, event) :: ((system.step state event).elim [] (history system events))

theorem history_event {system : System State Event} {events : List Event} {state : State}
    {entry : State × Event} (member : entry ∈ history system events state) :
    entry.2 ∈ events := by
  induction events generalizing state with
  | nil => simp [history] at member
  | cons event events ih =>
      rcases List.mem_cons.mp member with rfl | later
      · exact List.mem_cons_self
      · cases fired : system.step state event with
        | none => simp [fired] at later
        | some after =>
            rw [fired] at later
            exact List.mem_cons_of_mem _ (ih later)

theorem trace_history {system : System State Event} {past : List (State × Event)}
    {state final : State} (events : List Event)
    (trace : Trace system past state) (result : run system events state = some final) :
    Trace system (past ++ history system events state) final := by
  induction events generalizing past state with
  | nil =>
      obtain rfl : state = final := by simpa [run] using result
      simpa [history] using trace
  | cons event events ih =>
      obtain ⟨after, fired, rest⟩ := Option.bind_eq_some_iff.mp result
      have tail := ih (trace.next fired) rest
      simpa [history, fired] using tail

theorem reachable_run {system : System State Event} {final : State} (events : List Event)
    (result : run system events system.start = some final) : Reachable system final :=
  ⟨_, trace_history events .start result⟩

/-- An event that makes a measure go down cannot be fired for ever. -/
theorem run_until_stuck {system : System State Event} (event : Event) (measure : State → Nat)
    (invariant : State → Prop)
    (kept : ∀ before after, invariant before → system.step before event = some after →
      invariant after)
    (drops : ∀ before after, invariant before → system.step before event = some after →
      measure after < measure before)
    {state : State} (holds : invariant state) :
    ∃ count final, run system (List.replicate count event) state = some final ∧
      invariant final ∧ system.step final event = none := by
  induction bound : measure state using Nat.strongRecOn generalizing state with
  | ind size ih =>
      cases fired : system.step state event with
      | none => exact ⟨0, state, rfl, holds, fired⟩
      | some after =>
          have smaller : measure after < size := bound ▸ drops state after holds fired
          obtain ⟨count, final, ran, last, stuck⟩ :=
            ih (measure after) smaller (kept state after holds fired) rfl
          refine ⟨count + 1, final, ?_, last, stuck⟩
          rw [List.replicate_succ, run, fired]
          exact ran

end Running

section HistoryVariables

variable {Record : Type*}

/-- The same system with a history variable: `record` sees each step before it
is taken and cannot influence it. -/
def withHistory (system : System State Event) (empty : Record)
    (record : Record → State → Event → Record) : System (State × Record) Event where
  start := (system.start, empty)
  step state event :=
    (system.step state.1 event).map fun after => (after, record state.2 state.1 event)

theorem history_step {system : System State Event} {empty : Record}
    {record : Record → State → Event → Record} {state after : State × Record} {event : Event}
    (fired : (withHistory system empty record).step state event = some after) :
    system.step state.1 event = some after.1 ∧ after.2 = record state.2 state.1 event := by
  obtain ⟨target, step, rfl⟩ := Option.map_eq_some_iff.mp fired
  exact ⟨step, rfl⟩

theorem history_trace {system : System State Event} {empty : Record}
    {record : Record → State → Event → Record} {past : List ((State × Record) × Event)}
    {state : State × Record} (trace : Trace (withHistory system empty record) past state) :
    Trace system (past.map fun entry => (entry.1.1, entry.2)) state.1 := by
  induction trace with
  | start => exact .start
  | next prior fired ih =>
      simpa using ih.next (history_step fired).1

theorem history_reachable {system : System State Event} {empty : Record}
    {record : Record → State → Event → Record} {state : State × Record}
    (reached : Reachable (withHistory system empty record) state) :
    Reachable system state.1 := by
  obtain ⟨past, trace⟩ := reached
  exact ⟨_, history_trace trace⟩

/-- Every reachable state has a history. -/
theorem reachable_with_history {system : System State Event} (empty : Record)
    (record : Record → State → Event → Record) {state : State} (reached : Reachable system state) :
    ∃ past, Reachable (withHistory system empty record) (state, past) := by
  obtain ⟨events, trace⟩ := reached
  induction trace with
  | start => exact ⟨empty, [], .start⟩
  | @next events before after event prior fired ih =>
      obtain ⟨past, steps, run⟩ := ih
      have step : (withHistory system empty record).step (before, past) event =
          some (after, record past before event) := by
        simp [withHistory, fired]
      exact ⟨record past before event, _, run.next step⟩

end HistoryVariables

section Refinement

variable {ConcreteState ConcreteEvent : Type*}

/-- A view under which every step from a reachable state is one abstract step takes runs to
runs. -/
theorem trace_map {concrete : System ConcreteState ConcreteEvent} {abstract : System State Event}
    (view : ConcreteState → State) (image : ConcreteState → ConcreteEvent → Event)
    (start : view concrete.start = abstract.start)
    (fires : ∀ before event after, Reachable concrete before →
      concrete.step before event = some after →
        abstract.step (view before) (image before event) = some (view after))
    {past : List (ConcreteState × ConcreteEvent)} {state : ConcreteState}
    (trace : Trace concrete past state) :
    Trace abstract (past.map fun entry => (view entry.1, image entry.1 entry.2)) (view state) := by
  induction trace with
  | start =>
      rw [start]
      exact .start
  | @next past before after event prior fired ih =>
      rw [List.map_append]
      exact ih.next (fires before event after ⟨past, prior⟩ fired)

theorem visited_map {OtherEvent : Type*} (view : ConcreteState → State)
    (image : ConcreteState × ConcreteEvent → OtherEvent)
    (past : List (ConcreteState × ConcreteEvent)) (state : ConcreteState) :
    visited (past.map fun entry => (view entry.1, image entry)) (view state) =
      (visited past state).map view := by
  simp [visited]

/-- A concrete system refines `abstract` when each of its steps is one abstract
step on the viewed state, or leaves the viewed state alone. -/
structure Refinement (concrete : System ConcreteState ConcreteEvent)
    (abstract : System State Event) where
  view : ConcreteState → State
  image : ConcreteState → ConcreteEvent → Option Event
  start : view concrete.start = abstract.start
  stutter : ∀ {before event after}, concrete.step before event = some after →
    image before event = none → view after = view before
  fires : ∀ {before event after abstractEvent}, concrete.step before event = some after →
    image before event = some abstractEvent →
      abstract.step (view before) abstractEvent = some (view after)

variable {concrete : System ConcreteState ConcreteEvent} {abstract : System State Event}

/-- The abstract steps that a concrete run performs. -/
def Refinement.project (refines : Refinement concrete abstract)
    (past : List (ConcreteState × ConcreteEvent)) : List (State × Event) :=
  past.filterMap fun entry =>
    (refines.image entry.1 entry.2).map fun event => (refines.view entry.1, event)

/-- A condition on the abstract steps is a condition on the concrete steps behind them. -/
theorem Refinement.project_allowed (refines : Refinement concrete abstract)
    {past : List (ConcreteState × ConcreteEvent)} (allowed : State → Event → Prop)
    (each : ∀ entry ∈ past, ∀ event, refines.image entry.1 entry.2 = some event →
      allowed (refines.view entry.1) event) :
    ∀ entry ∈ refines.project past, allowed entry.1 entry.2 := by
  intro entry member
  obtain ⟨source, sourceMember, projected⟩ := List.mem_filterMap.mp member
  obtain ⟨event, image, rfl⟩ := Option.map_eq_some_iff.mp projected
  exact each source sourceMember event image

theorem Refinement.trace (refines : Refinement concrete abstract)
    {past : List (ConcreteState × ConcreteEvent)} {state : ConcreteState}
    (run : Trace concrete past state) :
    Trace abstract (refines.project past) (refines.view state) := by
  induction run with
  | start =>
      rw [refines.start]
      exact .start
  | @next past before after event prior fired ih =>
      have split : refines.project (past ++ [(before, event)]) =
          refines.project past ++ refines.project [(before, event)] := by
        simp [Refinement.project]
      rw [split]
      cases image : refines.image before event with
      | none =>
          rw [refines.stutter fired image]
          simpa [Refinement.project, image] using ih
      | some abstractEvent =>
          simpa [Refinement.project, image] using ih.next (refines.fires fired image)

theorem Refinement.reachable (refines : Refinement concrete abstract)
    {state : ConcreteState} (reached : Reachable concrete state) :
    Reachable abstract (refines.view state) := by
  obtain ⟨past, run⟩ := reached
  exact ⟨_, refines.trace run⟩

/-- The same where a step is matched only in the states that can be reached, so that it may
be matched by what is invariant. -/
structure Simulation (concrete : System ConcreteState ConcreteEvent)
    (abstract : System State Event) where
  view : ConcreteState → State
  image : ConcreteState → ConcreteEvent → Option Event
  start : view concrete.start = abstract.start
  stutter : ∀ {before event after}, Reachable concrete before →
    concrete.step before event = some after → image before event = none →
      view after = view before
  fires : ∀ {before event after abstractEvent}, Reachable concrete before →
    concrete.step before event = some after → image before event = some abstractEvent →
      abstract.step (view before) abstractEvent = some (view after)

def Simulation.project (simulates : Simulation concrete abstract)
    (past : List (ConcreteState × ConcreteEvent)) : List (State × Event) :=
  past.filterMap fun entry =>
    (simulates.image entry.1 entry.2).map fun event => (simulates.view entry.1, event)

theorem Simulation.trace (simulates : Simulation concrete abstract)
    {past : List (ConcreteState × ConcreteEvent)} {state : ConcreteState}
    (run : Trace concrete past state) :
    Trace abstract (simulates.project past) (simulates.view state) := by
  induction run with
  | start =>
      rw [simulates.start]
      exact .start
  | @next past before after event prior fired ih =>
      have reached : Reachable concrete before := ⟨past, prior⟩
      have split : simulates.project (past ++ [(before, event)]) =
          simulates.project past ++ simulates.project [(before, event)] := by
        simp [Simulation.project]
      rw [split]
      cases image : simulates.image before event with
      | none =>
          rw [simulates.stutter reached fired image]
          simpa [Simulation.project, image] using ih
      | some abstractEvent =>
          simpa [Simulation.project, image] using ih.next (simulates.fires reached fired image)

end Refinement

end Ribabari.TransitionSystem

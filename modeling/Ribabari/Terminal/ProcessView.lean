import Ribabari.Abstract.ViewGate

/-!
# What the process view prints

The thread of the process view passes over the first entry of the log, and leaves its loop
at an entry that no process was running. Then it puts its cursor on the tail. So it prints
of a batch only the process entries in front of the first entry without a process.
-/

namespace Ribabari.ProcessView

open Ribabari.KernelState Ribabari.LogViews Ribabari.LinkedList Ribabari.ViewGate
open Ribabari.TransitionSystem Ribabari.GatedQueue

set_option autoImplicit false

abbrev ProcessLog := LogView (Option ProcLogInfo)

/-- The entries of processes. -/
def processLines (lines : List (LogLine (Option ProcLogInfo))) :
    List (LogLine (Option ProcLogInfo)) :=
  lines.filter fun line => line.entry.isSome

/-- An entry appended now is not the first one, the thread is not between its loop and the
tail, and no unread entry is without a process. -/
def InReach (view : ProcessLog) : Prop :=
  view.appended ≠ [] ∧ ¬LeavingLoop view ∧
    ∀ line ∈ view.unread processViewer, line.entry.isSome = true

instance (view : ProcessLog) : Decidable (InReach view) :=
  inferInstanceAs (Decidable (_ ∧ _ ∧ _))

/-- Every process entry of a run is appended in reach. -/
def AppendsInReach (past : List (ProcessLog × ViewEvent (Option ProcLogInfo))) : Prop :=
  ∀ entry ∈ past, ∀ info, entry.2 = .append (some info) → InReach entry.1

variable {past : List (ProcessLog × ViewEvent (Option ProcLogInfo))} {view : ProcessLog}

theorem placed_nonempty (sound : Sound view) (starting : view.stage ≠ .starting)
    (seating : view.stage ≠ .seating) : view.appended ≠ [] := by
  have placed := sound.placed
  cases stage : view.stage with
  | starting => exact absurd stage starting
  | seating => exact absurd stage seating
  | testing i =>
      rw [stage] at placed
      exact placed.1
  | advancing i =>
      obtain ⟨line, member, -⟩ := cursor_line sound (.inl stage)
      exact List.ne_nil_of_mem member
  | jumping =>
      rw [stage] at placed
      exact placed
  | waiting i =>
      obtain ⟨line, member, -⟩ := cursor_line sound (.inr (.inl stage))
      exact List.ne_nil_of_mem member
  | stepping i =>
      obtain ⟨line, member, -⟩ := cursor_line sound (.inr (.inr stage))
      exact List.ne_nil_of_mem member

theorem process_view_attached (sound : Sound view) :
    attached processViewer view = true ↔ view.appended ≠ [] ∧ ¬LeavingLoop view := by
  have nonempty := placed_nonempty sound
  unfold attached LeavingLoop processViewer
  cases stage : view.stage with
  | testing i =>
      have listed := nonempty (by simp [stage]) (by simp [stage])
      cases i <;> simp [listed]
  | starting => simp
  | seating => simp
  | jumping => simp
  | advancing i => simp [nonempty (by simp [stage]) (by simp [stage])]
  | waiting i => simp [nonempty (by simp [stage]) (by simp [stage])]
  | stepping i => simp [nonempty (by simp [stage]) (by simp [stage])]

theorem process_view_reaches (sound : Sound view) :
    reaches processViewer view = true ↔ InReach view := by
  rw [reaches, Bool.and_eq_true, process_view_attached sound, List.all_eq_true, InReach, and_assoc]
  simp [processViewer]

/-- The queue of the view has been given every process entry at an open gate exactly when
each was appended in reach. -/
theorem puts_in_reach_iff (trace : Trace refreshProcessLog past view)
    {later : List (ProcessLog × ViewEvent (Option ProcLogInfo))}
    (idle : ∀ entry ∈ later, entry.2 = .refresh) :
    (∀ entry ∈ (past ++ later).map fun entry =>
        (gateOf processViewer entry.1, gateEvent processViewer entry.1 entry.2),
      ∀ line, putItem entry.2 = some line → line.entry.isSome = true → entry.1.isOpen = true) ↔
      AppendsInReach past := by
  have sound := visited_sound trace
  constructor
  · intro opened entry member info appends
    have mapped := List.mem_map_of_mem (f := fun entry : ProcessLog × ViewEvent _ =>
      (gateOf processViewer entry.1, gateEvent processViewer entry.1 entry.2))
      (List.mem_append_left later member)
    have put : putItem (gateEvent processViewer entry.1 entry.2) =
        some { node := entry.1.log.fresh, entry := some info } := by
      rw [appends]
      rfl
    have gate := opened _ mapped _ put rfl
    exact (process_view_reaches (sound entry.1 (mem_visited member view))).mp gate
  · intro inReach mapped mappedMember line put isProcess
    obtain ⟨entry, member, rfl⟩ := List.mem_map.mp mappedMember
    have appends : entry.2 ≠ .refresh := by
      apply (gate_put processViewer entry.1 entry.2).mp
      rw [put]
      rfl
    rcases List.mem_append.mp member with earlier | idled
    · cases event : entry.2 with
      | append info =>
          rw [event] at put
          obtain rfl := Option.some.inj put
          obtain ⟨process, rfl⟩ := Option.isSome_iff_exists.mp isProcess
          have reach := inReach entry earlier process event
          exact (process_view_reaches (sound entry.1 (mem_visited earlier view))).mpr reach
      | refresh => exact absurd event appends
    · exact absurd (idle entry idled) appends

/-- In any run, when the thread has worked off its posts, it has printed every process entry
once and in order, exactly when each of them was appended in reach of the loop. -/
theorem process_entries_printed_iff (trace : Trace refreshProcessLog past view) :
    ∃ steps final,
      run refreshProcessLog (List.replicate steps .refresh) view = some final ∧
        refreshStep processViewer final = none ∧ final.appended = view.appended ∧
        (processLines final.printed = processLines final.appended ↔ AppendsInReach past) := by
  have soundView := visited_sound trace view (last_visited _ _)
  obtain ⟨steps, final, ran, sound, same, stuck⟩ := view_settles processViewer none soundView
  refine ⟨steps, final, ran, stuck, same, ?_⟩
  have idle : ∀ entry ∈ history refreshProcessLog (List.replicate steps .refresh) view,
      entry.2 = .refresh := fun entry member => List.eq_of_mem_replicate (history_event member)
  have gated := gate_trace (trace_history (List.replicate steps .refresh) trace ran)
  have printed := trace_accepted gated
  have appended := trace_offered gated
  have drained : (gateOf processViewer final).held = [] := by
    rw [gateOf, stuck_unread sound stuck]
    rfl
  rw [drained, List.append_nil] at printed
  change (gateOf processViewer final).taken.filter (fun line => line.entry.isSome) =
      (gateOf processViewer final).offered.filter (fun line => line.entry.isSome) ↔ _
  rw [printed, appended, accepted_filter_iff]
  exact puts_in_reach_iff trace idle

/-- A pass of the loop, up to the jump to the tail. -/
def inPass (view : ProcessLog) : Bool :=
  match view.stage with
  | .testing _ => true
  | .advancing _ => true
  | .jumping => true
  | _ => false

def processEntry (pc : Nat) : Option ProcLogInfo := some
  { name := ['p']
    remaining := 30
    pc := pc
    id := 1
    fOpCount := 0 }

/-- The entry of the idle cpu, and a batch of two instructions before the view is woken. -/
def batchEvents : List (ViewEvent (Option ProcLogInfo)) :=
  [.append none, .append (processEntry 0), .append (processEntry 1)]

/-- The cpu is idle once more between the two instructions. -/
def idleBatchEvents : List (ViewEvent (Option ProcLogInfo)) :=
  [.append none, .append (processEntry 0), .append none, .append (processEntry 1)] ++
    List.replicate 16 .refresh

def processPast (events : List (ViewEvent (Option ProcLogInfo))) :
    List (ProcessLog × ViewEvent (Option ProcLogInfo)) :=
  history refreshProcessLog events refreshProcessLog.start

def processView (events : List (ViewEvent (Option ProcLogInfo))) : ProcessLog :=
  (run refreshProcessLog events refreshProcessLog.start).getD refreshProcessLog.start

theorem process_entries_printed_sample :
    ∃ steps final,
      run refreshProcessLog (List.replicate steps .refresh) (processView batchEvents) = some final ∧
        refreshStep processViewer final = none ∧
        (processLines final.printed).map LogLine.entry = [processEntry 0, processEntry 1] := by
  have trace : Trace refreshProcessLog (processPast batchEvents) (processView batchEvents) :=
    trace_history batchEvents .start rfl
  obtain ⟨steps, final, ran, stuck, same, printed⟩ := process_entries_printed_iff trace
  have inReach : AppendsInReach (processPast batchEvents) := by
    have each : ∀ entry ∈ processPast batchEvents, entry.2 ≠ .append none → InReach entry.1 := by
      decide
    intro entry member info appends
    exact each entry member (by simp [appends])
  refine ⟨steps, final, ran, stuck, ?_⟩
  rw [printed.mpr inReach, same]
  decide

/-- An instruction is not shown, since the cpu was idle before it in the same batch. -/
theorem process_entry_dropped :
    ¬∀ (past : List (ProcessLog × ViewEvent (Option ProcLogInfo))) (view : ProcessLog),
      Trace refreshProcessLog past view →
        (∀ entry ∈ past, entry.2 ≠ .refresh → inPass entry.1 = false) →
          refreshStep processViewer view = none →
            processLines view.printed = processLines view.appended := by
  intro claimed
  have trace : Trace refreshProcessLog (processPast idleBatchEvents)
      (processView idleBatchEvents) := trace_history idleBatchEvents .start rfl
  have all := claimed _ _ trace (by decide) rfl
  exact absurd all (by decide)

end Ribabari.ProcessView

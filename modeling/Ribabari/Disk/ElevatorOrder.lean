import Ribabari.Disk.RequestTracks
import Ribabari.Foundation.DueCalendar
import Ribabari.Kernel.LogEntries
import Ribabari.Kernel.RecordGrowth
import Ribabari.Kernel.WorkLeft

/-!
# The order of the disk log

When a request is made, the position and the direction of the arm fix the tick at which
it is served: nothing that happens later delays it or brings it forward. So the disk
thread is a calendar. In every run the disk log is the list of all requests made for a
track of the disk, sorted by those ticks, as far as the arm has come, and requests for one
visit of a track are served in the order in which they were made.
-/

namespace Ribabari.ElevatorOrder

open Ribabari.ProcessRecords Ribabari.KernelState Ribabari.DiskAndFiles Ribabari.KernelEvents
open Ribabari.QueueBoard Ribabari.QueueRefinement Ribabari.SweepArm Ribabari.ArmSweep
open Ribabari.Placement Ribabari.RequestTracks Ribabari.LogEntries Ribabari.RecordGrowth
open Ribabari.WorkLeft Ribabari.DueCalendar Ribabari.TransitionSystem

set_option autoImplicit false

/-! ## The calendar of a run -/

/-- A request is entered for the tick at which the arm will be on its track. -/
def calendarEvent (kernel : Kernel) (event : KernelEvent) : Option (CalendarEvent DiskRequest) :=
  match boardEvent kernel event with
  | .requestDisk request =>
      if OnDisk request.track then
        some (.enter ((armOf kernel.diskScheduler).arrival diskTrackLimit request.track) request)
      else none
  | .tick _ => some .tick
  | _ => none

def keepDates (calendar : Calendar DiskRequest) (kernel : Kernel) (event : KernelEvent) :
    Calendar DiskRequest :=
  (calendarEvent kernel event).elim calendar calendar.next

def datedKernel : System (Kernel × Calendar DiskRequest) KernelEvent :=
  withHistory kernelSystem .empty keepDates

def calendarOfRun : Refinement datedKernel (calendarSystem DiskRequest) where
  view := Prod.snd
  image state event := calendarEvent state.1 event
  start := rfl
  stutter fired quiet := by
    rw [(history_step fired).2, keepDates, quiet]
    rfl
  fires fired entered := by
    rw [(history_step fired).2, keepDates, entered]
    rfl

variable {kernel after : Kernel} {calendar : Calendar DiskRequest}

/-! ## One event -/

/-- The pending requests that the arm will come to. -/
def awaited (pending : List DiskRequest) : List DiskRequest :=
  pending.filter fun request => OnDisk request.track

theorem tick_is_disk_tick {event : KernelEvent} {track : Int}
    (same : boardEvent kernel event = .tick track) : event = .diskTick := by
  cases event with
  | diskTick => rfl
  | execute instr =>
      rcases instr with ⟨op, value, name⟩
      cases op with
      | exec | read | write | print | semP | semV => cases same
  | processCreate | idleDispatch | quantumCompleted | processFinish => cases same

/-- An event is a tick, a request for a track of the disk, or leaves the requests that
the arm will come to as they are. -/
theorem calendar_event_cases (kernel : Kernel) (event : KernelEvent) :
    (event = .diskTick ∧ calendarEvent kernel event = some .tick) ∨
      event ≠ .diskTick ∧
        ((∃ request, boardEvent kernel event = .requestDisk request ∧ OnDisk request.track ∧
            calendarEvent kernel event = some (.enter
              ((armOf kernel.diskScheduler).arrival diskTrackLimit request.track) request)) ∨
          calendarEvent kernel event = none ∧ ∀ pending,
            awaited (pendingAfter pending (boardEvent kernel event)) = awaited pending) := by
  cases image : boardEvent kernel event with
  | tick track =>
      have tick := tick_is_disk_tick image
      exact .inl ⟨tick, by rw [calendarEvent, image]⟩
  | requestDisk request =>
      have other : event ≠ .diskTick := by
        rintro rfl
        cases image
      by_cases onDisk : OnDisk request.track
      · exact .inr ⟨other, .inl ⟨request, rfl, onDisk, by simp [calendarEvent, image, onDisk]⟩⟩
      · refine .inr ⟨other, .inr ⟨by simp [calendarEvent, image, onDisk], fun pending => ?_⟩⟩
        simp [awaited, pendingAfter, List.filter_append, onDisk]
  | create | idle | run | acquire | release | print | quantum | finish =>
      have other : event ≠ .diskTick := by
        rintro rfl
        cases image
      exact .inr ⟨other, .inr ⟨by rw [calendarEvent, image], fun pending => rfl⟩⟩

/-- Only a tick writes into the disk log. -/
theorem disk_entries_quiet (kernel : Kernel) {event : KernelEvent} (other : event ≠ .diskTick) :
    (eventEntries kernel event).disk = [] := by
  cases event with
  | diskTick => exact absurd rfl other
  | idleDispatch logged =>
      cases logged <;> cases running : kernel.scheduler.scheduledProc <;>
        simp [eventEntries, running, runEntries, Entries.empty]
  | processCreate | execute | quantumCompleted | processFinish =>
      cases running : kernel.scheduler.scheduledProc <;>
        simp [eventEntries, running, runEntries, ioEntries, Entries.empty]

theorem arm_kept {event : KernelEvent} (fired : kernelStep kernel event = some after)
    (other : event ≠ .diskTick) : armOf after.diskScheduler = armOf kernel.diskScheduler := by
  rw [step_arm fired]
  cases event with
  | diskTick => exact absurd rfl other
  | processCreate | idleDispatch | execute | quantumCompleted | processFinish => rfl

/-! ## Every run -/

/-- The kernel and the calendar agree on what waits and on what was served. -/
structure Dated (kernel : Kernel) (calendar : Calendar DiskRequest) : Prop where
  pending : awaited kernel.diskScheduler.pendingRequests = calendar.waiting.map Prod.snd
  dates : ∀ entry ∈ calendar.waiting, entry.1 =
    calendar.now + (armOf kernel.diskScheduler).arrival diskTrackLimit entry.2.track
  owners : ∀ entry ∈ calendar.served, entry.2.process < kernel.nextProcId
  log : kernel.logs.diskLogList = calendar.served.map fun entry => diskLogEntry kernel entry.2
  horizon : ∀ entry ∈ calendar.entries, (entry.1 : Int) ≤ calendar.now + 2 * diskTrackLimit

theorem Dated.waiting (dated : Dated kernel calendar) {entry : Nat × DiskRequest}
    (member : entry ∈ calendar.waiting) :
    entry.2 ∈ kernel.diskScheduler.pendingRequests ∧ OnDisk entry.2.track := by
  have listed : entry.2 ∈ awaited kernel.diskScheduler.pendingRequests := by
    rw [dated.pending]
    exact List.mem_map_of_mem member
  exact ⟨List.mem_of_mem_filter listed, of_decide_eq_true (List.mem_filter.mp listed).2⟩

/-- The served requests keep their entries. -/
theorem entries_kept {event : KernelEvent} (fired : kernelStep kernel event = some after)
    {served : List (Nat × DiskRequest)}
    (owners : ∀ entry ∈ served, entry.2.process < kernel.nextProcId) :
    (served.map fun entry => diskLogEntry after entry.2) =
      served.map fun entry => diskLogEntry kernel entry.2 := by
  apply List.map_congr_left
  intro entry member
  rw [diskLogEntry, diskLogEntry, (step_keeps fired (owners entry member)).name]

theorem quiet_dated (dated : Dated kernel calendar) {event : KernelEvent}
    (fired : kernelStep kernel event = some after) (other : event ≠ .diskTick)
    (same : awaited after.diskScheduler.pendingRequests =
      awaited kernel.diskScheduler.pendingRequests) : Dated after calendar := by
  have arm := arm_kept fired other
  constructor
  · rw [same]
    exact dated.pending
  · rw [arm]
    exact dated.dates
  · intro entry member
    exact Nat.lt_of_lt_of_le (dated.owners entry member) (next_le fired)
  · rw [entries_kept fired dated.owners, ← dated.log, step_logs fired, appended,
      disk_entries_quiet kernel other, List.append_nil]
  · exact dated.horizon

theorem enter_dated (reached : Reachable kernelSystem kernel) (dated : Dated kernel calendar)
    {event : KernelEvent} (fired : kernelStep kernel event = some after)
    (other : event ≠ .diskTick) {request : DiskRequest}
    (requested : boardEvent kernel event = .requestDisk request) (onDisk : OnDisk request.track) :
    Dated after (calendar.next (.enter
      ((armOf kernel.diskScheduler).arrival diskTrackLimit request.track) request)) := by
  have arm := arm_kept fired other
  have pending : after.diskScheduler.pendingRequests =
      kernel.diskScheduler.pendingRequests ++ [request] := by
    have next := board_pending_after (kernel_step_board fired)
    rw [requested] at next
    exact next
  have soon := arrival_le (reachable_arm reached) onDisk
  constructor
  · rw [pending, awaited, List.filter_append]
    change awaited kernel.diskScheduler.pendingRequests ++ _ =
      (calendar.waiting ++ [_]).map Prod.snd
    rw [dated.pending, List.map_append]
    simp [onDisk]
  · rw [arm]
    intro entry member
    rcases List.mem_append.mp member with old | new
    · exact dated.dates entry old
    · obtain rfl := List.mem_singleton.mp new
      rfl
  · intro entry member
    exact Nat.lt_of_lt_of_le (dated.owners entry member) (next_le fired)
  · change _ = calendar.served.map _
    rw [entries_kept fired dated.owners, ← dated.log, step_logs fired, appended,
      disk_entries_quiet kernel other, List.append_nil]
  · intro entry member
    rcases List.mem_append.mp member with old | new
    · exact dated.horizon entry old
    · obtain rfl := List.mem_singleton.mp new
      change ((calendar.now + _ : Nat) : Int) ≤ calendar.now + 2 * diskTrackLimit
      omega

/-- The requests on the track of the arm are those whose date it is. -/
theorem due_iff (reached : Reachable kernelSystem kernel) (dated : Dated kernel calendar)
    {entry : Nat × DiskRequest} (member : entry ∈ calendar.waiting) :
    entry.1 = calendar.now ↔ entry.2.track = kernel.diskScheduler.currTrack := by
  have zero := arrival_zero_iff (reachable_arm reached) (dated.waiting member).2
  have date := dated.dates entry member
  change _ ↔ entry.2.track = kernel.diskScheduler.currTrack at zero
  rw [← zero]
  omega

theorem completed_due (reached : Reachable kernelSystem kernel) (dated : Dated kernel calendar) :
    completed kernel =
      (calendar.waiting.filter fun entry => entry.1 = calendar.now).map Prod.snd := by
  have onTrack : OnDisk kernel.diskScheduler.currTrack := reachable_arm reached
  calc completed kernel
      = (awaited kernel.diskScheduler.pendingRequests).filter fun request =>
          request.track = kernel.diskScheduler.currTrack := by
        rw [completed, awaited, List.filter_filter]
        apply List.filter_congr
        intro request _
        by_cases same : request.track = kernel.diskScheduler.currTrack
        · simp [same, onTrack]
        · simp [same]
    _ = (calendar.waiting.filter fun entry =>
          entry.2.track = kernel.diskScheduler.currTrack).map Prod.snd := by
        rw [dated.pending, List.filter_map]
        rfl
    _ = (calendar.waiting.filter fun entry => entry.1 = calendar.now).map Prod.snd := by
        congr 1
        apply List.filter_congr
        intro entry member
        exact decide_eq_decide.mpr (due_iff reached dated member).symm

theorem left_waiting (reached : Reachable kernelSystem kernel) (dated : Dated kernel calendar)
    (fired : kernelStep kernel .diskTick = some after) :
    awaited after.diskScheduler.pendingRequests =
      (calendar.waiting.filter fun entry => ¬entry.1 = calendar.now).map Prod.snd := by
  have pending : after.diskScheduler.pendingRequests =
      kernel.diskScheduler.pendingRequests.filter fun request =>
        ¬request.track = kernel.diskScheduler.currTrack :=
    board_pending_after (kernel_step_board fired)
  calc awaited after.diskScheduler.pendingRequests
      = (awaited kernel.diskScheduler.pendingRequests).filter fun request =>
          ¬request.track = kernel.diskScheduler.currTrack := by
        rw [pending, awaited, awaited, List.filter_filter, List.filter_filter]
        apply List.filter_congr
        intro request _
        exact Bool.and_comm _ _
    _ = (calendar.waiting.filter fun entry =>
          ¬entry.2.track = kernel.diskScheduler.currTrack).map Prod.snd := by
        rw [dated.pending, List.filter_map]
        rfl
    _ = (calendar.waiting.filter fun entry => ¬entry.1 = calendar.now).map Prod.snd := by
        congr 1
        apply List.filter_congr
        intro entry member
        exact decide_eq_decide.mpr (not_congr (due_iff reached dated member)).symm

theorem tick_dated (reached : Reachable kernelSystem kernel) (dated : Dated kernel calendar)
    (fired : kernelStep kernel .diskTick = some after) : Dated after (calendar.next .tick) := by
  have moved : armOf after.diskScheduler = (armOf kernel.diskScheduler).step diskTrackLimit :=
    step_arm fired
  have owners : ∀ entry ∈ calendar.served ++
      calendar.waiting.filter (fun entry => entry.1 = calendar.now),
      entry.2.process < kernel.nextProcId := by
    intro entry member
    rcases List.mem_append.mp member with old | due
    · exact dated.owners entry old
    · exact (pending_listed reached (dated.waiting (List.mem_of_mem_filter due)).1).2
  constructor
  · exact left_waiting reached dated fired
  · intro entry member
    have waits := List.mem_of_mem_filter member
    have later : ¬entry.1 = calendar.now := of_decide_eq_true (List.mem_filter.mp member).2
    have away : entry.2.track ≠ kernel.diskScheduler.currTrack :=
      mt (due_iff reached dated waits).mpr later
    have closer := arrival_step (reachable_arm reached) (dated.waiting waits).2 away
    have date := dated.dates entry waits
    rw [moved]
    change entry.1 = calendar.now + 1 + _
    omega
  · intro entry member
    exact Nat.lt_of_lt_of_le (owners entry member) (next_le fired)
  · change _ = (calendar.served ++ calendar.waiting.filter _).map _
    rw [entries_kept fired owners, List.map_append, ← dated.log, step_logs fired]
    change kernel.logs.diskLogList ++ (completed kernel).map (diskLogEntry kernel) = _
    rw [completed_due reached dated, List.map_map]
    rfl
  · intro entry member
    have soon := dated.horizon entry member
    change (entry.1 : Int) ≤ ((calendar.now + 1 : Nat) : Int) + 2 * diskTrackLimit
    omega

theorem reachable_dated {state : Kernel × Calendar DiskRequest}
    (reached : Reachable datedKernel state) : Dated state.1 state.2 := by
  apply reachable_invariant (fun state => Dated state.1 state.2) reached
  · constructor
    · rfl
    · exact fun entry member => absurd member List.not_mem_nil
    · exact fun entry member => absurd member List.not_mem_nil
    · rfl
    · exact fun entry member => absurd member List.not_mem_nil
  · intro before event after prior dated fired
    obtain ⟨step, record⟩ := history_step fired
    change kernelStep before.1 event = some after.1 at step
    have kernelReached := history_reachable prior
    rw [record, keepDates]
    rcases calendar_event_cases before.1 event with ⟨rfl, image⟩ | ⟨other, entered | quiet⟩
    · rw [image]
      exact tick_dated kernelReached dated step
    · obtain ⟨request, requested, onDisk, image⟩ := entered
      rw [image]
      exact enter_dated kernelReached dated step other requested onDisk
    · rw [quiet.1]
      apply quiet_dated dated step other
      have next := board_pending_after (kernel_step_board step)
      change after.1.diskScheduler.pendingRequests = _ at next
      rw [next]
      exact quiet.2 _

/-- In every run the disk log lists the requests for the tracks of the disk in the order of
the ticks for which they were entered, up to the present tick. The later ones wait in the
order in which they were made, and none of them is further away than two sweeps. -/
theorem disk_log_is_elevator_order {state : Kernel × Calendar DiskRequest}
    (reached : Reachable datedKernel state) :
    state.1.logs.diskLogList =
        (dueBy state.2.now state.2.entries).map (fun entry => diskLogEntry state.1 entry.2) ∧
      awaited state.1.diskScheduler.pendingRequests =
        (state.2.entries.filter fun entry => state.2.now ≤ entry.1).map Prod.snd ∧
      ∀ entry ∈ state.2.entries, (entry.1 : Int) ≤ state.2.now + 2 * diskTrackLimit := by
  have dated := reachable_dated reached
  have inOrder := reachable_in_order (calendarOfRun.reachable reached)
  change state.2.InOrder at inOrder
  refine ⟨?_, ?_, dated.horizon⟩
  · rw [← inOrder.served]
    exact dated.log
  · rw [← inOrder.waiting]
    exact dated.pending

/-- The second request is for a track that the arm comes to first. -/
def overtakenEvents : List KernelEvent :=
  [.processCreate { sampleProgram with code := [⟨.read, 3, none⟩] } blankPage,
    .processCreate { sampleProgram with code := [⟨.write, 1, none⟩], segId := 2 } blankPage,
    .idleDispatch true, .execute ⟨.read, 3, none⟩, .execute ⟨.write, 1, none⟩,
    .diskTick, .diskTick, .diskTick, .diskTick]

def overtaken : Kernel × Calendar DiskRequest :=
  (run datedKernel overtakenEvents datedKernel.start).getD datedKernel.start

theorem disk_log_is_elevator_order_sample :
    overtaken.2.entries.map Prod.fst = [3, 1] ∧
      overtaken.1.logs.diskLogList.map DiskLogInfo.track = [1, 3] ∧
      overtaken.1.logs.diskLogList = (dueBy overtaken.2.now overtaken.2.entries).map
        fun entry => diskLogEntry overtaken.1 entry.2 := by
  have reached : Reachable datedKernel overtaken := reachable_run overtakenEvents rfl
  exact ⟨by decide, by decide, (disk_log_is_elevator_order reached).1⟩

end Ribabari.ElevatorOrder

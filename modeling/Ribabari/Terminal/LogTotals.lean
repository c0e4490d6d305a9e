import Ribabari.Disk.RequestTracks
import Ribabari.Kernel.FinishFrame
import Ribabari.Kernel.LogEntries

/-!
# The logs and the view titles agree

The disk log and the I/O log record the served requests once each, in one order. The
counters that the titles show are totals over the lists, and a request that was logged
is either in the disk log or still pending.
-/

namespace Ribabari.LogTotals

open Ribabari.KernelState Ribabari.DiskAndFiles Ribabari.KernelEvents Ribabari.ArmSweep
open Ribabari.QueueRefinement Ribabari.RequestTracks Ribabari.FinishFrame Ribabari.LogEntries
open Ribabari.ProcessRecords Ribabari.TransitionSystem Ribabari.CLibrary

set_option autoImplicit false

/-- The entry records a request that was served. -/
def isServed : IoLogInfo → Bool
  | .fileSystem _ _ .read | .fileSystem _ _ .write => true
  | .fileSystem _ _ .fOpen | .fileSystem _ _ .fClose | .print _ _ | .diskRequest _ _ => false

/-- The entry records a request that is made. -/
def isRequest : IoLogInfo → Bool
  | .diskRequest _ _ => true
  | .fileSystem _ _ _ | .print _ _ => false

/-- The I/O entry that goes with an entry of the disk log. -/
def servedOf (entry : DiskLogInfo) : IoLogInfo :=
  .fileSystem entry.procName (inodeNumber (diskBlock entry.track))
    (if entry.isRead then .read else .write)

/-- What an entry adds to the print total. -/
def printTime : IoLogInfo → Int
  | .print _ duration => duration
  | .fileSystem _ _ _ | .diskRequest _ _ => 0

structure LogsAgree (kernel : Kernel) : Prop where
  reads : kernel.logs.rReqCount = kernel.logs.diskLogList.countP DiskLogInfo.isRead
  writes : kernel.logs.wReqCount = kernel.logs.diskLogList.countP fun entry => !entry.isRead
  printed : kernel.logs.pTime = int32 (kernel.logs.ioLogList.map printTime).sum
  served : kernel.logs.ioLogList.filter isServed = kernel.logs.diskLogList.map servedOf
  requested : kernel.logs.ioLogList.countP isRequest =
    kernel.logs.diskLogList.length + kernel.diskScheduler.pendingRequests.length

variable {kernel after : Kernel}

/-! ## The print total -/

/-- The total of 32 bits is the sum, cut to 32 bits once. -/
theorem print_total (entries : List IoLogInfo) (sum : Int) :
    entries.foldl addPrint (int32 sum) = int32 (sum + (entries.map printTime).sum) := by
  induction entries generalizing sum with
  | nil => simp
  | cons entry entries ih =>
      rw [List.foldl_cons, List.map_cons, List.sum_cons, ← Int.add_assoc]
      cases entry with
      | print name duration =>
          have cut : addPrint (int32 sum) (.print name duration) = int32 (sum + duration) :=
            Int.bmod_add_bmod
          rw [cut]
          exact ih (sum + duration)
      | fileSystem name inumber opt =>
          rw [printTime, Int.add_zero]
          exact ih sum
      | diskRequest name read =>
          rw [printTime, Int.add_zero]
          exact ih sum

/-! ## The entries of one event -/

/-- Opening and closing files is neither a request nor the service of one. -/
theorem file_change_quiet {entry : IoLogInfo} (change : isFileChange entry = true) :
    isServed entry = false ∧ isRequest entry = false := by
  unfold isFileChange at change
  split at change <;> simp_all [isServed, isRequest]

theorem changes_quiet {entries : List IoLogInfo}
    (changes : ∀ entry ∈ entries, isFileChange entry = true) :
    entries.filter isServed = [] ∧ entries.countP isRequest = 0 := by
  constructor
  · apply List.filter_eq_nil_iff.mpr
    intro entry member
    simp [(file_change_quiet (changes entry member)).1]
  · apply List.countP_eq_zero.mpr
    intro entry member
    simp [(file_change_quiet (changes entry member)).2]

/-- What the entries of an event say about requests. -/
structure EntriesAgree (kernel : Kernel) (event : KernelEvent) (entries : Entries) : Prop where
  served : entries.io.filter isServed = entries.disk.map servedOf
  requested : entries.io.countP isRequest + kernel.diskScheduler.pendingRequests.length =
    entries.disk.length +
      (pendingAfter kernel.diskScheduler.pendingRequests (boardEvent kernel event)).length

theorem instr_entries_agree (kernel : Kernel) (proc : ProcId) (instr : Instr) :
    (instrIo kernel proc instr).filter isServed = [] ∧
      (instrIo kernel proc instr).countP isRequest +
          kernel.diskScheduler.pendingRequests.length =
        (pendingAfter kernel.diskScheduler.pendingRequests
          (instrEvent kernel proc instr)).length := by
  rcases instr with ⟨op, value, name⟩
  have opening := changes_quiet
    (open_entries_change kernel proc (inodeNumber (diskBlock value)))
  cases op with
  | read | write =>
      simp only [instrIo, instrEvent, pendingAfter, List.filter_cons, List.countP_cons, isServed,
        isRequest, opening, List.length_append, List.length_singleton]
      simp [Nat.add_comm]
  | exec | print | semP | semV => simp [instrIo, instrEvent, pendingAfter, isServed, isRequest]

theorem served_entries_agree (kernel : Kernel) (requests : List DiskRequest) :
    (requests.map (servedEntry kernel)).filter isServed =
        (requests.map (diskLogEntry kernel)).map servedOf ∧
      (requests.map (servedEntry kernel)).countP isRequest = 0 := by
  have all : ∀ entry ∈ requests.map (servedEntry kernel),
      isServed entry = true ∧ isRequest entry = false := by
    intro entry member
    obtain ⟨request, -, rfl⟩ := List.mem_map.mp member
    cases direction : request.read <;> simp [servedEntry, direction, isServed, isRequest]
  constructor
  · rw [List.filter_eq_self.mpr fun entry member => (all entry member).1, List.map_map]
    rfl
  · apply List.countP_eq_zero.mpr
    intro entry member
    simp [(all entry member).2]

theorem event_entries_agree {event : KernelEvent} (fired : kernelStep kernel event = some after) :
    EntriesAgree kernel event (eventEntries kernel event) := by
  have silent : ∀ entries : Entries, entries.io = [] → entries.disk = [] →
      pendingAfter kernel.diskScheduler.pendingRequests (boardEvent kernel event) =
        kernel.diskScheduler.pendingRequests → EntriesAgree kernel event entries := by
    intro entries io disk pending
    constructor
    · rw [io, disk]
      rfl
    · rw [io, disk, pending]
      rfl
  cases event with
  | processCreate program fresh =>
      cases running : kernel.scheduler.scheduledProc with
      | none =>
          simp only [eventEntries, running, Option.elim_none]
          exact silent .empty rfl rfl rfl
      | some proc =>
          simp only [eventEntries, running, Option.elim_some]
          exact silent .empty rfl rfl rfl
  | idleDispatch logged =>
      obtain ⟨idle, -⟩ := idle_fires fired
      cases logged with
      | true => exact silent _ rfl rfl rfl
      | false =>
          simp only [eventEntries, idle, Option.elim_none]
          exact silent .empty rfl rfl rfl
  | execute instr =>
      obtain ⟨proc, running, -⟩ := execute_fires fired
      obtain ⟨served, requested⟩ := instr_entries_agree kernel proc instr
      simp only [eventEntries, running, Option.elim_some]
      constructor
      · exact served
      · simp only [boardEvent, running, Option.getD_some, runEntries, List.length_nil,
          Nat.zero_add]
        exact requested
  | quantumCompleted =>
      obtain ⟨proc, running, -⟩ := quantum_fires fired
      simp only [eventEntries, running, Option.elim_some]
      exact silent .empty rfl rfl rfl
  | processFinish =>
      obtain ⟨proc, running, -⟩ := finish_fires fired
      obtain ⟨served, requested⟩ := changes_quiet
        (close_all_entries_change kernel proc (kernel.procs proc).oFiles)
      simp only [eventEntries, running, Option.elim_some]
      constructor
      · exact served
      · simp only [runEntries, ioEntries, requested]
        rfl
  | diskTick =>
      obtain ⟨served, requested⟩ := served_entries_agree kernel (completed kernel)
      constructor
      · exact served
      · have parted := (List.filter_append_perm
          (fun request : DiskRequest => decide (request.track = kernel.diskScheduler.currTrack))
          kernel.diskScheduler.pendingRequests).length_eq
        have none : (eventEntries kernel .diskTick).io.countP isRequest = 0 := requested
        rw [List.length_append] at parted
        rw [none]
        simp only [eventEntries, List.length_map, completed, boardEvent, pendingAfter, decide_not]
        omega

/-! ## Every run -/

/-- In every reachable state the disk log and the I/O log tell of the same services in the
same order, the counters are their totals, and no request is lost or served twice. -/
theorem logs_agree (reached : Reachable kernelSystem kernel) : LogsAgree kernel := by
  apply reachable_invariant LogsAgree reached
  · exact ⟨rfl, rfl, rfl, rfl, rfl⟩
  · intro before event after _ agree fired
    have logs := step_logs fired
    have entries := event_entries_agree fired
    have pending : after.diskScheduler.pendingRequests =
        pendingAfter before.diskScheduler.pendingRequests (boardEvent before event) :=
      board_pending_after (kernel_step_board fired)
    constructor
    · rw [logs, appended, agree.reads, List.countP_append]
    · rw [logs, appended, agree.writes, List.countP_append]
    · rw [logs, appended, agree.printed, print_total, List.map_append, List.sum_append]
    · rw [logs, appended, List.filter_append, agree.served, entries.served, List.map_append]
    · rw [logs, pending, appended, List.countP_append, List.length_append, agree.requested]
      have added := entries.requested
      omega

/-- After the reader's request has been served. -/
theorem logs_agree_sample :
    finishSample.logs.ioLogList.countP isRequest = 1 ∧ LogsAgree finishSample :=
  ⟨by decide, logs_agree (reachable_run finishSampleEvents rfl)⟩

end Ribabari.LogTotals

import Ribabari.Disk.ArmSweep
import Ribabari.Kernel.RecordFrame

/-!
# What an event writes into the logs

The four lists of `log.c` only grow. The entries an event appends are computed from the
state before it, and the counters of the disk and I/O views are totals over the lists.
-/

namespace Ribabari.LogEntries

open Ribabari.ProcessRecords Ribabari.SemaphoreTable Ribabari.KernelState Ribabari.Dispatch
open Ribabari.DiskAndFiles Ribabari.KernelEvents Ribabari.ArmSweep Ribabari.RecordFrame

set_option autoImplicit false

structure Entries where
  process : List (Option ProcLogInfo)
  disk : List DiskLogInfo
  io : List IoLogInfo
  res : List ResAcqLog

def Entries.empty : Entries where
  process := []
  disk := []
  io := []
  res := []

/-- The print total after an entry of the I/O log. -/
def addPrint (total : Int) : IoLogInfo → Int
  | .print _ duration => CLibrary.int32 (total + duration)
  | _ => total

/-- The logs with these entries appended. -/
def appended (logs : Logs) (entries : Entries) : Logs where
  processLogList := logs.processLogList ++ entries.process
  diskLogList := logs.diskLogList ++ entries.disk
  rReqCount := logs.rReqCount + entries.disk.countP DiskLogInfo.isRead
  wReqCount := logs.wReqCount + entries.disk.countP fun entry => !entry.isRead
  ioLogList := logs.ioLogList ++ entries.io
  pTime := entries.io.foldl addPrint logs.pTime
  resAcqLogList := logs.resAcqLogList ++ entries.res

@[simp] theorem appended_empty (logs : Logs) : appended logs .empty = logs := by
  simp [appended, Entries.empty]

theorem appended_append (logs : Logs) (first second : Entries) :
    appended (appended logs first) second =
      appended logs
        { process := first.process ++ second.process
          disk := first.disk ++ second.disk
          io := first.io ++ second.io
          res := first.res ++ second.res } := by
  simp [appended, Nat.add_assoc]

section Calls

variable (kernel : Kernel)

/-! ## One call of a log function -/

def ioEntries (io : List IoLogInfo) : Entries := { Entries.empty with io := io }

theorem io_appended (logs : Logs) (first second : List IoLogInfo) :
    appended (appended logs (ioEntries first)) (ioEntries second) =
      appended logs (ioEntries (first ++ second)) := by
  rw [appended_append]
  rfl

theorem io_fs_log_logs (name : CString) (inumber : Int) (opt : IoLogFsFlag) :
    (ioFsLog kernel name inumber opt).logs =
      appended kernel.logs (ioEntries [.fileSystem name inumber opt]) := by
  simp [ioFsLog, Kernel.log, appended, ioEntries, Entries.empty, addPrint]

theorem io_disk_log_logs (name : CString) (read : Bool) :
    (ioDiskLog kernel name read).logs =
      appended kernel.logs (ioEntries [.diskRequest name read]) := by
  simp [ioDiskLog, Kernel.log, appended, ioEntries, Entries.empty, addPrint]

theorem io_print_log_logs (name : CString) (duration : Int) :
    (ioPrintLog kernel name duration).logs =
      appended kernel.logs (ioEntries [.print name duration]) := by
  simp [ioPrintLog, Kernel.log, appended, ioEntries, Entries.empty, addPrint]

theorem res_acq_log_logs (entry : ResAcqLog) :
    (resAcqLog kernel entry).logs =
      appended kernel.logs { Entries.empty with res := [entry] } := by
  simp [resAcqLog, Kernel.log, appended, Entries.empty]

theorem process_log_logs (entry : ProcLogInfo) :
    (processLog kernel entry).logs =
      appended kernel.logs { Entries.empty with process := [some entry] } := by
  simp [processLog, Kernel.log, appended, Entries.empty]

theorem process_np_log_logs :
    (processNpLog kernel).logs =
      appended kernel.logs { Entries.empty with process := [none] } := by
  simp [processNpLog, Kernel.log, appended, Entries.empty]

theorem disk_log_logs (entry : DiskLogInfo) :
    (diskLog kernel entry).logs =
      appended kernel.logs { Entries.empty with disk := [entry] } := by
  cases read : entry.isRead <;>
    simp [diskLog, Kernel.log, appended, Entries.empty, read]

theorem schedule_logs (flag : SchedulerFlag) :
    (scheduleProcess kernel flag).logs = kernel.logs := by
  have same := schedule_elsewhere kernel flag
  simp only [elsewhere, Prod.mk.injEq] at same
  exact same.2.2.2.2.2.2

theorem unblock_logs (proc : ProcId) (queue : SchedulerQueueFlag) :
    (scheduleUnblockProcess kernel proc queue).logs = kernel.logs := by
  have same := unblock_elsewhere kernel proc queue
  simp only [elsewhere, Prod.mk.injEq] at same
  exact same.2.2.2.2.2.2

theorem schedule_name (flag : SchedulerFlag) (proc : ProcId) :
    ((scheduleProcess kernel flag).procs proc).name = (kernel.procs proc).name :=
  (image_fields (schedule_image kernel flag proc)).1

end Calls

/-! ## The entries of an event -/

/-- The entry of `fs_open_request`, when the inode is not active. -/
def openEntries (kernel : Kernel) (proc : ProcId) (inumber : Int) : List IoLogInfo :=
  match findInode kernel.fileTable inumber with
  | none => [.fileSystem (kernel.procs proc).name inumber .fOpen]
  | some _ => []

/-- The entry of `fs_close_request`, when the last process closes the file. -/
def closeEntries (kernel : Kernel) (proc : ProcId) (inumber : Int) : List IoLogInfo :=
  match findInode kernel.fileTable inumber with
  | none => []
  | some inode =>
      if inode.oCount - 1 = 0 then [.fileSystem (kernel.procs proc).name inumber .fClose] else []

def closeAllEntries (kernel : Kernel) (proc : ProcId) : List Int → List IoLogInfo
  | [] => []
  | inumber :: files =>
      closeEntries kernel proc inumber ++
        closeAllEntries (fsCloseRequest kernel proc inumber) proc files

def instrIo (kernel : Kernel) (proc : ProcId) (instr : Instr) : List IoLogInfo :=
  match instr.op with
  | .read =>
      .diskRequest (kernel.procs proc).name true ::
        openEntries kernel proc (inodeNumber (diskBlock instr.value))
  | .write =>
      .diskRequest (kernel.procs proc).name false ::
        openEntries kernel proc (inodeNumber (diskBlock instr.value))
  | .print => [.print (kernel.procs proc).name instr.value]
  | .exec | .semP | .semV => []

def instrRes (kernel : Kernel) (proc : ProcId) (instr : Instr) : List ResAcqLog :=
  match instr.op, instrSemaphore kernel instr with
  | .semP, some sem =>
      [{ procName := (kernel.procs proc).name
         semName := sem.name
         acq := true
         blocked := decide (sem.S - 1 < 0) }]
  | .semV, some sem =>
      [{ procName := (kernel.procs proc).name
         semName := sem.name
         acq := false
         blocked := false }]
  | _, _ => []

def fetchEntry (kernel : Kernel) (proc : ProcId) : ProcLogInfo where
  name := (kernel.procs proc).name
  remaining := (kernel.procs proc).remaining
  pc := (kernel.procs proc).pc
  id := (kernel.procs proc).segId
  fOpCount := (kernel.procs proc).oFiles.length

/-- The I/O entry of a request that is served. -/
def servedEntry (kernel : Kernel) (request : DiskRequest) : IoLogInfo :=
  .fileSystem (kernel.procs request.process).name (inodeNumber (diskBlock request.track))
    (if request.read then .read else .write)

/-- The entries of an event, when `proc` is in the cpu. -/
def runEntries (kernel : Kernel) (proc : ProcId) : KernelEvent → Entries
  | .execute instr =>
      { process := [some (fetchEntry kernel proc)]
        disk := []
        io := instrIo kernel proc instr
        res := instrRes kernel proc instr }
  | .processFinish => ioEntries (closeAllEntries kernel proc (kernel.procs proc).oFiles)
  | _ => .empty

def eventEntries (kernel : Kernel) : KernelEvent → Entries
  | .idleDispatch true => { Entries.empty with process := [none] }
  | .diskTick =>
      { process := []
        disk := (completed kernel).map (diskLogEntry kernel)
        io := (completed kernel).map (servedEntry kernel)
        res := [] }
  | event => kernel.scheduler.scheduledProc.elim .empty fun proc => runEntries kernel proc event

/-- The entry records that a file is opened or closed. -/
def isFileChange : IoLogInfo → Bool
  | .fileSystem _ _ .fOpen | .fileSystem _ _ .fClose => true
  | .fileSystem _ _ .read | .fileSystem _ _ .write | .print _ _ | .diskRequest _ _ => false

theorem open_entries_change (kernel : Kernel) (proc : ProcId) (inumber : Int) :
    ∀ entry ∈ openEntries kernel proc inumber, isFileChange entry = true := by
  intro entry member
  unfold openEntries at member
  split at member
  · obtain rfl := List.mem_singleton.mp member
    rfl
  · exact absurd member List.not_mem_nil

theorem close_all_entries_change (kernel : Kernel) (proc : ProcId) (files : List Int) :
    ∀ entry ∈ closeAllEntries kernel proc files, isFileChange entry = true := by
  induction files generalizing kernel with
  | nil =>
      intro entry member
      exact absurd member List.not_mem_nil
  | cons inumber files ih =>
      intro entry member
      rcases List.mem_append.mp member with first | rest
      · unfold closeEntries at first
        split at first
        · exact absurd first List.not_mem_nil
        · split at first
          · obtain rfl := List.mem_singleton.mp first
            rfl
          · exact absurd first List.not_mem_nil
      · exact ih _ entry rest

/-! ## What an event appends -/

section Steps

variable {kernel after : Kernel}

theorem open_request_logs (kernel : Kernel) (owner : CString) (inumber : Int) :
    (fsOpenRequest kernel owner inumber).logs =
      appended kernel.logs (ioEntries [.fileSystem owner inumber .fOpen]) :=
  io_fs_log_logs _ owner inumber .fOpen

theorem open_for_logs (kernel : Kernel) (proc : ProcId) (inumber : Int) :
    (fsOpenFor kernel proc inumber).logs =
      appended kernel.logs (ioEntries (openEntries kernel proc inumber)) := by
  unfold fsOpenFor openEntries
  cases findInode kernel.fileTable inumber with
  | none => dsimp only; split <;> exact open_request_logs kernel _ inumber
  | some inode => dsimp only; split <;> exact (appended_empty kernel.logs).symm

theorem close_logs (kernel : Kernel) (proc : ProcId) (inumber : Int) :
    (fsCloseRequest kernel proc inumber).logs =
      appended kernel.logs (ioEntries (closeEntries kernel proc inumber)) := by
  unfold fsCloseRequest closeEntries
  cases findInode kernel.fileTable inumber with
  | none => exact (appended_empty kernel.logs).symm
  | some inode =>
      dsimp only
      split
      · exact io_fs_log_logs _ _ inumber .fClose
      · exact (appended_empty kernel.logs).symm

theorem close_all_logs (kernel : Kernel) (proc : ProcId) (files : List Int) :
    (closeFiles kernel proc files).logs =
      appended kernel.logs (ioEntries (closeAllEntries kernel proc files)) := by
  induction files generalizing kernel with
  | nil => exact (appended_empty kernel.logs).symm
  | cons inumber files ih =>
      have rest := ih (fsCloseRequest kernel proc inumber)
      rw [close_logs, io_appended] at rest
      exact rest

/-- Closing reads the file table and the name of the process. -/
theorem close_entries_same {other : Kernel} (proc : ProcId) (files : List Int)
    (table : other.fileTable = kernel.fileTable)
    (name : (other.procs proc).name = (kernel.procs proc).name) :
    closeAllEntries other proc files = closeAllEntries kernel proc files := by
  induction files generalizing kernel other with
  | nil => rfl
  | cons inumber files ih =>
      rw [closeAllEntries, closeAllEntries]
      congr 1
      · rw [closeEntries, closeEntries, table, name]
      · apply ih
        · unfold fsCloseRequest
          rw [table]
          cases findInode kernel.fileTable inumber with
          | none => exact table
          | some inode =>
              dsimp only
              split <;> rfl
        · obtain ⟨_, _, first⟩ := close_writes other proc inumber
          obtain ⟨_, _, second⟩ := close_writes kernel proc inumber
          rw [first, second]
          exact name

/-- A disk call logs its request and then opens the file. -/
theorem disk_call_opens (kernel : Kernel) (proc : ProcId) (track : Int) (read : Bool) :
    ∃ requested, recordView requested = recordView kernel ∧
      requested.logs =
        appended kernel.logs (ioEntries [.diskRequest (kernel.procs proc).name read]) ∧
      diskCall kernel proc track read =
        fsOpenFor requested proc (inodeNumber (diskBlock track)) := by
  refine ⟨diskRequest (scheduleProcess kernel .ioRequested) proc track read, ?_, ?_, ?_⟩
  · exact (disk_request_records _ proc track read).trans (schedule_records kernel .ioRequested)
  · have logged := io_disk_log_logs (scheduleProcess kernel .ioRequested)
      ((scheduleProcess kernel .ioRequested).procs proc).name read
    rw [← schedule_logs kernel .ioRequested, ← schedule_name kernel .ioRequested proc]
    exact logged
  · cases read <;> rfl

theorem open_entries_same {other : Kernel} (same : recordView other = recordView kernel)
    (proc : ProcId) (inumber : Int) :
    openEntries other proc inumber = openEntries kernel proc inumber := by
  have name := (image_fields (view_image same proc)).1
  simp only [recordView, Prod.mk.injEq] at same
  rw [openEntries, openEntries, same.2.2.2.1, name]

theorem disk_call_logs (kernel : Kernel) (proc : ProcId) (track : Int) (read : Bool) :
    (diskCall kernel proc track read).logs =
      appended kernel.logs (ioEntries (.diskRequest (kernel.procs proc).name read ::
        openEntries kernel proc (inodeNumber (diskBlock track)))) := by
  obtain ⟨requested, same, logs, opens⟩ := disk_call_opens kernel proc track read
  rw [opens, open_for_logs, logs, io_appended, open_entries_same same]
  rfl

theorem print_logs (kernel : Kernel) (proc : ProcId) (duration : Int) :
    (printRequest (scheduleProcess kernel .ioRequested) proc duration).logs =
      appended kernel.logs (ioEntries [.print (kernel.procs proc).name duration]) := by
  rw [printRequest, interruptControl, unblock_logs]
  have logged := io_print_log_logs (scheduleProcess kernel .ioRequested)
    ((scheduleProcess kernel .ioRequested).procs proc).name duration
  rw [← schedule_logs kernel .ioRequested, ← schedule_name kernel .ioRequested proc]
  exact logged

theorem semaphore_p_logs {proc : ProcId} {sem : Semaphore}
    (call : sysCall kernel proc (.semaphoreP (some sem)) = some after) :
    after.logs = appended kernel.logs
      { Entries.empty with
        res := [{ procName := (kernel.procs proc).name
                  semName := sem.name
                  acq := true
                  blocked := decide (sem.S - 1 < 0) }] } := by
  obtain rfl := Option.some.inj call
  rw [res_acq_log_logs]
  by_cases short : sem.S - 1 < 0
  · simp only [semaphoreP, short, if_true, decide_true, Kernel.storeSem, sleep, schedule_logs]
  · simp only [semaphoreP, short, if_false, decide_false, Kernel.storeSem]

theorem semaphore_v_logs {proc : ProcId} {sem : Semaphore}
    (call : sysCall kernel proc (.semaphoreV (some sem)) = some after) :
    after.logs = appended kernel.logs
      { Entries.empty with
        res := [{ procName := (kernel.procs proc).name
                  semName := sem.name
                  acq := false
                  blocked := false }] } := by
  simp only [sysCall, Option.bind_eq_bind, Option.bind_eq_some_iff, Option.some.injEq] at call
  obtain ⟨⟨stored, world⟩, released, rfl⟩ := call
  have same : world.logs = kernel.logs := by
    unfold semaphoreV at released
    split at released
    case isTrue =>
        split at released
        case h_1 => exact absurd released.symm (Option.some_ne_none _)
        case h_2 woken rest _ =>
            obtain ⟨-, rfl⟩ := Prod.mk.inj (Option.some.inj released)
            exact unblock_logs kernel woken .highQueue
    case isFalse =>
        obtain ⟨-, rfl⟩ := Prod.mk.inj (Option.some.inj released)
        rfl
  rw [res_acq_log_logs, Kernel.storeSem, same]

theorem eval_logs {proc : ProcId} {instr : Instr}
    (evaluated : eval kernel proc instr = some after) :
    after.logs = appended kernel.logs
      { Entries.empty with
        io := instrIo kernel proc instr
        res := instrRes kernel proc instr } := by
  rcases instr with ⟨op, value, name⟩
  cases op with
  | exec =>
      obtain rfl := Option.some.inj evaluated
      exact (appended_empty kernel.logs).symm
  | read =>
      obtain rfl := Option.some.inj evaluated
      exact disk_call_logs kernel proc value true
  | write =>
      obtain rfl := Option.some.inj evaluated
      exact disk_call_logs kernel proc value false
  | print =>
      obtain rfl := Option.some.inj evaluated
      exact print_logs kernel proc value
  | semP =>
      obtain ⟨sem, called, found, call, charged⟩ := acquire_inv evaluated
      have logs := semaphore_p_logs call
      simp only [instrIo, instrRes, found]
      rcases charged with rfl | rfl <;> exact logs
  | semV =>
      obtain ⟨sem, called, found, call, rfl⟩ := release_inv evaluated
      have logs := semaphore_v_logs call
      simp only [instrIo, instrRes, found]
      exact logs

theorem serve_logs (kernel : Kernel) (request : DiskRequest) :
    (serveRequest kernel request).logs = appended kernel.logs
      { Entries.empty with
        disk := [diskLogEntry kernel request]
        io := [servedEntry kernel request] } := by
  have logged := io_fs_log_logs (diskLog kernel (diskLogEntry kernel request))
    (kernel.procs request.process).name (inodeNumber (diskBlock request.track))
    (if request.read then .read else .write)
  rw [disk_log_logs, appended_append] at logged
  exact (unblock_logs _ request.process .lowQueue).trans logged

theorem serve_all_logs (kernel : Kernel) (requests : List DiskRequest) :
    (requests.foldl serveRequest kernel).logs = appended kernel.logs
      { Entries.empty with
        disk := requests.map (diskLogEntry kernel)
        io := requests.map (servedEntry kernel) } := by
  induction requests generalizing kernel with
  | nil => exact (appended_empty kernel.logs).symm
  | cons request requests ih =>
      have disk : diskLogEntry (serveRequest kernel request) = diskLogEntry kernel := by
        funext other
        simp only [diskLogEntry, serve_procs]
      have io : servedEntry (serveRequest kernel request) = servedEntry kernel := by
        funext other
        simp only [servedEntry, serve_procs]
      rw [List.foldl_cons, ih, serve_logs, appended_append, disk, io]
      rfl

theorem tick_logs (kernel : Kernel) :
    (diskTick kernel).logs = appended kernel.logs
      { Entries.empty with
        disk := (completed kernel).map (diskLogEntry kernel)
        io := (completed kernel).map (servedEntry kernel) } := by
  have walk := resolve_from_serves kernel.diskScheduler.currTrack kernel [] _ rfl
  have same : (diskTick kernel).logs =
      (rwDiskOpResolve kernel kernel.diskScheduler.currTrack).logs := rfl
  rw [same, rwDiskOpResolve, walk]
  exact serve_all_logs kernel (completed kernel)

theorem create_logs (kernel : Kernel) (program : Program)
    (fresh : Nat → SegmentMemory.Page) :
    (processCreate kernel program fresh).logs = kernel.logs := by
  by_cases high : program.priority = 1 <;>
    simp [processCreate, interruptControl, registerProgram, newProcess, high, Kernel.modifyProc]

theorem leave_queues_logs (kernel : Kernel) (proc : ProcId) :
    (leaveQueues kernel proc).logs = kernel.logs := by
  unfold leaveQueues
  split_ifs <;> rfl

theorem finish_logs {proc : ProcId} (running : kernel.scheduler.scheduledProc = some proc)
    (finished : processFinish kernel proc = some after) :
    after.logs = appended kernel.logs
      (ioEntries (closeAllEntries kernel proc (kernel.procs proc).oFiles)) := by
  obtain ⟨-, dispatched, closed, segTable, rfl, rfl, -, rfl⟩ := finish_writes running finished
  rw [leave_queues_logs]
  have unlisted := schedule_elsewhere
    { kernel with procTable := kernel.procTable.erase proc } .none
  simp only [elsewhere, Prod.mk.injEq] at unlisted
  have image := image_fields
    (schedule_image { kernel with procTable := kernel.procTable.erase proc } .none proc)
  have closes := close_all_logs
    (scheduleProcess { kernel with procTable := kernel.procTable.erase proc } .none) proc
    (kernel.procs proc).oFiles
  rw [close_entries_same proc _ unlisted.2.2.2.2.2.1 image.1, unlisted.2.2.2.2.2.2] at closes
  rw [image.2.2.2.2]
  exact closes

theorem fetched_name (kernel : Kernel) (proc : ProcId) :
    ((fetched kernel proc).procs proc).name = (kernel.procs proc).name := by
  simp [fetched, processLog, Kernel.log, Kernel.modifyProc]

theorem fetched_io (kernel : Kernel) (proc : ProcId) (instr : Instr) :
    instrIo (fetched kernel proc) proc instr = instrIo kernel proc instr := by
  unfold instrIo openEntries
  rw [fetched_name]
  rfl

theorem fetched_res (kernel : Kernel) (proc : ProcId) (instr : Instr) :
    instrRes (fetched kernel proc) proc instr = instrRes kernel proc instr := by
  unfold instrRes
  rw [fetched_name]
  rfl

/-- A step appends its entries and writes nothing else into the logs. -/
theorem step_logs {event : KernelEvent} (fired : kernelStep kernel event = some after) :
    after.logs = appended kernel.logs (eventEntries kernel event) := by
  cases event with
  | processCreate program fresh =>
      obtain rfl := Option.some.inj fired
      rw [create_logs]
      cases running : kernel.scheduler.scheduledProc <;>
        simp [eventEntries, runEntries, running]
  | idleDispatch logged =>
      obtain ⟨idle, rfl⟩ := idle_fires fired
      rw [schedule_logs]
      cases logged with
      | true => exact process_np_log_logs kernel
      | false => simp [eventEntries, idle]
  | execute instr =>
      obtain ⟨proc, running, evaluated⟩ := execute_fires fired
      have logs := eval_logs evaluated
      have logged : (fetched kernel proc).logs = appended kernel.logs
          { Entries.empty with process := [some (fetchEntry kernel proc)] } :=
        process_log_logs _ (fetchEntry kernel proc)
      rw [logged, appended_append, fetched_io, fetched_res] at logs
      simp only [eventEntries, running, Option.elim_some]
      exact logs
  | quantumCompleted =>
      obtain ⟨proc, running, rfl⟩ := quantum_fires fired
      simp [schedule_logs, eventEntries, runEntries, running]
  | processFinish =>
      obtain ⟨proc, running, finished⟩ := finish_fires fired
      simp only [eventEntries, running, Option.elim_some]
      exact finish_logs running finished
  | diskTick =>
      obtain rfl := Option.some.inj fired
      exact tick_logs kernel

end Steps

end Ribabari.LogEntries

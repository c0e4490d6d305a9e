import Ribabari.Foundation.CLibrary
import Ribabari.Model.SegmentMemory
import Ribabari.Model.SemaphoreTable

/-!
# The kernel's state

`kernel_t` with the process records its pointers reach and the log lists of
`log.c`. Process records are never read through an id that has left the process
table, so a finished process's record is simply left where it was.
-/

namespace Ribabari.KernelState

open Ribabari.ProcessRecords Ribabari.SegmentMemory Ribabari.SemaphoreTable

set_option autoImplicit false

/-- `scheduler_t`: three FIFO queues and the quantum of the two ready ones. -/
structure Scheduler where
  scheduledProc : Option ProcId
  highQueue : List ProcId
  lowQueue : List ProcId
  blockedQueue : List ProcId
  highQuantum : Int
  lowQuantum : Int
  deriving DecidableEq, Repr

structure DiskRequest where
  process : ProcId
  track : Int
  read : Bool
  turnaround : Int
  deriving DecidableEq, Repr

structure DiskScheduler where
  pendingRequests : List DiskRequest
  forwardDir : Bool
  currTrack : Int
  deriving DecidableEq, Repr

structure Inode where
  id : Int
  oCount : Int
  deriving DecidableEq, Repr

structure ProcLogInfo where
  name : CString
  remaining : Int
  pc : Nat
  id : Int
  fOpCount : Nat
  deriving DecidableEq, Repr

structure DiskLogInfo where
  procName : CString
  procId : ProcId
  track : Int
  isRead : Bool
  turnaround : Int
  deriving DecidableEq, Repr

inductive IoLogFsFlag where
  | read
  | write
  | fOpen
  | fClose
  deriving DecidableEq, Repr

inductive IoLogInfo where
  | print (procName : CString) (duration : Int)
  | fileSystem (procName : CString) (inumber : Int) (opt : IoLogFsFlag)
  | diskRequest (procName : CString) (read : Bool)
  deriving DecidableEq, Repr

structure ResAcqLog where
  procName : CString
  semName : CString
  acq : Bool
  blocked : Bool
  deriving DecidableEq, Repr

/-- The log lists. A process log entry is `none` when no process was running. The print
total `p_time` is a C `int` and wraps. -/
structure Logs where
  processLogList : List (Option ProcLogInfo)
  diskLogList : List DiskLogInfo
  rReqCount : Nat
  wReqCount : Nat
  ioLogList : List IoLogInfo
  pTime : Int
  resAcqLogList : List ResAcqLog
  deriving DecidableEq, Repr

structure Kernel where
  procs : ProcId → Process
  procTable : List ProcId
  nextProcId : ProcId
  segTable : SegmentTable
  scheduler : Scheduler
  diskScheduler : DiskScheduler
  semTable : List Semaphore
  fileTable : List Inode
  logs : Logs

def schedHighQueueQuantum : Int := 1000

def schedLowQueueQuantum : Int := 2000

def schedulerInit : Scheduler where
  scheduledProc := none
  highQueue := []
  lowQueue := []
  blockedQueue := []
  highQuantum := schedHighQueueQuantum
  lowQuantum := schedLowQueueQuantum

def diskSchedulerInit : DiskScheduler where
  pendingRequests := []
  forwardDir := true
  currTrack := 0

def logsInit : Logs where
  processLogList := []
  diskLogList := []
  rReqCount := 0
  wReqCount := 0
  ioLogList := []
  pTime := 0
  resAcqLogList := []

def kernelInit : Kernel where
  procs := fun _ => Process.blank
  procTable := []
  nextProcId := 1
  segTable := segmentTableInit
  scheduler := schedulerInit
  diskScheduler := diskSchedulerInit
  semTable := []
  fileTable := []
  logs := logsInit

/-- Write through a process pointer. -/
def Kernel.modifyProc (kernel : Kernel) (proc : ProcId) (f : Process → Process) : Kernel :=
  { kernel with procs := Function.update kernel.procs proc (f (kernel.procs proc)) }

@[simp] theorem modify_proc_same (kernel : Kernel) (proc : ProcId) (f : Process → Process) :
    (kernel.modifyProc proc f).procs proc = f (kernel.procs proc) := by
  simp [Kernel.modifyProc]

theorem modify_proc_other (kernel : Kernel) {proc other : ProcId} (f : Process → Process)
    (different : other ≠ proc) :
    (kernel.modifyProc proc f).procs other = kernel.procs other := by
  simp [Kernel.modifyProc, different]

section ModifyProcFrame

variable (kernel : Kernel) (proc : ProcId) (f : Process → Process)

@[simp] theorem modify_proc_table : (kernel.modifyProc proc f).procTable = kernel.procTable := rfl

@[simp] theorem modify_proc_next_id : (kernel.modifyProc proc f).nextProcId = kernel.nextProcId := rfl

@[simp] theorem modify_proc_segments : (kernel.modifyProc proc f).segTable = kernel.segTable := rfl

@[simp] theorem modify_proc_scheduler : (kernel.modifyProc proc f).scheduler = kernel.scheduler := rfl

@[simp] theorem modify_proc_disk :
    (kernel.modifyProc proc f).diskScheduler = kernel.diskScheduler := rfl

@[simp] theorem modify_proc_semaphores : (kernel.modifyProc proc f).semTable = kernel.semTable := rfl

@[simp] theorem modify_proc_files : (kernel.modifyProc proc f).fileTable = kernel.fileTable := rfl

/-- An update that keeps the image of its process keeps every image. -/
theorem modify_proc_image (keeps : ∀ process, (f process).image = process.image)
    (other : ProcId) :
    ((kernel.modifyProc proc f).procs other).image = (kernel.procs other).image := by
  by_cases same : other = proc
  · subst same
    rw [modify_proc_same, keeps]
  · rw [modify_proc_other kernel f same]

/-- An update that keeps the state of its process keeps every state. -/
theorem modify_proc_state (keeps : ∀ process, (f process).state = process.state)
    (other : ProcId) :
    ((kernel.modifyProc proc f).procs other).state = (kernel.procs other).state := by
  by_cases same : other = proc
  · subst same
    rw [modify_proc_same, keeps]
  · rw [modify_proc_other kernel f same]

end ModifyProcFrame

/-! The log functions. None of them is read by the kernel. -/

def Kernel.log (kernel : Kernel) (f : Logs → Logs) : Kernel :=
  { kernel with logs := f kernel.logs }

def processLog (kernel : Kernel) (entry : ProcLogInfo) : Kernel :=
  kernel.log fun logs => { logs with processLogList := logs.processLogList ++ [some entry] }

def processNpLog (kernel : Kernel) : Kernel :=
  kernel.log fun logs => { logs with processLogList := logs.processLogList ++ [none] }

def diskLog (kernel : Kernel) (entry : DiskLogInfo) : Kernel :=
  kernel.log fun logs =>
    { logs with
      diskLogList := logs.diskLogList ++ [entry]
      rReqCount := if entry.isRead then logs.rReqCount + 1 else logs.rReqCount
      wReqCount := if entry.isRead then logs.wReqCount else logs.wReqCount + 1 }

def ioFsLog (kernel : Kernel) (name : CString) (inumber : Int) (opt : IoLogFsFlag) : Kernel :=
  kernel.log fun logs => { logs with ioLogList := logs.ioLogList ++ [.fileSystem name inumber opt] }

def ioDiskLog (kernel : Kernel) (name : CString) (read : Bool) : Kernel :=
  kernel.log fun logs => { logs with ioLogList := logs.ioLogList ++ [.diskRequest name read] }

def ioPrintLog (kernel : Kernel) (name : CString) (duration : Int) : Kernel :=
  kernel.log fun logs =>
    { logs with
      ioLogList := logs.ioLogList ++ [.print name duration]
      pTime := CLibrary.int32 (logs.pTime + duration) }

def resAcqLog (kernel : Kernel) (entry : ResAcqLog) : Kernel :=
  kernel.log fun logs => { logs with resAcqLogList := logs.resAcqLogList ++ [entry] }

end Ribabari.KernelState

import Mathlib.Data.List.Perm.Subperm
import Ribabari.Model.KernelState

/-!
# The scheduler

`sched.c` and the interrupts that move a process between queues. The successor
is taken from the ready queues before the current process is queued again, so a
process can never succeed itself. What a dispatch changes in a process record is
confined to `remaining` and `state`.
-/

namespace Ribabari.Dispatch

open Ribabari.ProcessRecords Ribabari.KernelState

set_option autoImplicit false

inductive SchedulerFlag where
  | none
  | ioRequested
  | quantumCompleted
  | semaphoreBlocked
  deriving DecidableEq, Repr

inductive SchedulerQueueFlag where
  | lowQueue
  | highQueue
  deriving DecidableEq, Repr

/-- The first half of `schedule_process`: take the head of the high queue, else
of the low one, and credit its quantum. -/
def takeNext (kernel : Kernel) : Option ProcId × Kernel :=
  match kernel.scheduler.highQueue with
  | proc :: rest =>
      (some proc,
        { kernel with scheduler := { kernel.scheduler with highQueue := rest } }.modifyProc proc
          fun process => process.setRemaining
            (max 1000 (min schedHighQueueQuantum
              (process.remaining + kernel.scheduler.highQuantum))))
  | [] =>
      match kernel.scheduler.lowQueue with
      | proc :: rest =>
          (some proc,
            { kernel with scheduler := { kernel.scheduler with lowQueue := rest } }.modifyProc proc
              fun process => process.setRemaining
                (max 0 (min schedLowQueueQuantum
                  (process.remaining + kernel.scheduler.lowQuantum))))
      | [] => (none, kernel)

/-- The middle of `schedule_process`: queue the process that was in the CPU. -/
def parkCurrent (curr : Option ProcId) (flag : SchedulerFlag) (kernel : Kernel) : Kernel :=
  match curr, flag with
  | none, _ => kernel
  | some _, .none => kernel
  | some proc, .quantumCompleted =>
      { kernel with scheduler :=
          { kernel.scheduler with highQueue := kernel.scheduler.highQueue ++ [proc] } }.modifyProc
        proc (·.setState .ready)
  | some proc, _ =>
      { kernel with scheduler :=
          { kernel.scheduler with blockedQueue := kernel.scheduler.blockedQueue ++ [proc] } }.modifyProc
        proc (·.setState .blocked)

/-- The end of `schedule_process`. -/
def setScheduled (new : Option ProcId) (kernel : Kernel) : Kernel :=
  match new with
  | none => { kernel with scheduler := { kernel.scheduler with scheduledProc := none } }
  | some proc =>
      { kernel with scheduler := { kernel.scheduler with scheduledProc := some proc } }.modifyProc
        proc (·.setState .running)

def scheduleProcess (kernel : Kernel) (flag : SchedulerFlag) : Kernel :=
  let curr := kernel.scheduler.scheduledProc
  let taken := takeNext kernel
  setScheduled taken.1 (parkCurrent curr flag taken.2)

/-- `schedule_unblock_process`: nothing happens when the process is not blocked. -/
def scheduleUnblockProcess (kernel : Kernel) (proc : ProcId) (queue : SchedulerQueueFlag) :
    Kernel :=
  if proc ∈ kernel.scheduler.blockedQueue then
    let blocked := kernel.scheduler.blockedQueue.erase proc
    match queue with
    | .highQueue =>
        { kernel with scheduler :=
            { kernel.scheduler with
              blockedQueue := blocked
              highQueue := kernel.scheduler.highQueue ++ [proc] } }
    | .lowQueue =>
        { kernel with scheduler :=
            { kernel.scheduler with
              blockedQueue := blocked
              lowQueue := kernel.scheduler.lowQueue ++ [proc] } }
  else kernel

inductive Interrupt where
  | memLoadFinish (proc : ProcId)
  | diskFinish (proc : ProcId)
  | printFinish (proc : ProcId)
  deriving DecidableEq, Repr

def interruptControl (kernel : Kernel) : Interrupt → Kernel
  | .memLoadFinish proc =>
      let listed := { kernel with procTable := kernel.procTable ++ [proc] }.modifyProc proc
        (·.setState .ready)
      if (kernel.procs proc).priority = 1 then
        { listed with scheduler :=
            { listed.scheduler with highQueue := listed.scheduler.highQueue ++ [proc] } }
      else
        { listed with scheduler :=
            { listed.scheduler with lowQueue := listed.scheduler.lowQueue ++ [proc] } }
  | .diskFinish proc => scheduleUnblockProcess kernel proc .lowQueue
  | .printFinish proc => scheduleUnblockProcess kernel proc .lowQueue

section Frame

variable (kernel : Kernel) (flag : SchedulerFlag)

/-- Everything outside the scheduler and the process records. -/
def elsewhere (kernel : Kernel) :=
  (kernel.procTable, kernel.nextProcId, kernel.segTable, kernel.diskScheduler,
    kernel.semTable, kernel.fileTable, kernel.logs)

theorem take_next_elsewhere : elsewhere (takeNext kernel).2 = elsewhere kernel := by
  unfold takeNext
  split
  · rfl
  · split <;> rfl

theorem park_elsewhere (curr : Option ProcId) :
    elsewhere (parkCurrent curr flag kernel) = elsewhere kernel := by
  unfold parkCurrent
  split <;> rfl

theorem set_scheduled_elsewhere (new : Option ProcId) :
    elsewhere (setScheduled new kernel) = elsewhere kernel := by
  cases new <;> rfl

theorem schedule_elsewhere : elsewhere (scheduleProcess kernel flag) = elsewhere kernel := by
  simp only [scheduleProcess, set_scheduled_elsewhere, park_elsewhere, take_next_elsewhere]

theorem unblock_elsewhere (proc : ProcId) (queue : SchedulerQueueFlag) :
    elsewhere (scheduleUnblockProcess kernel proc queue) = elsewhere kernel := by
  unfold scheduleUnblockProcess
  split
  · cases queue <;> rfl
  · rfl

@[simp] theorem unblock_procs (proc : ProcId) (queue : SchedulerQueueFlag) :
    (scheduleUnblockProcess kernel proc queue).procs = kernel.procs := by
  unfold scheduleUnblockProcess
  split
  · cases queue <;> rfl
  · rfl

theorem take_next_image (proc : ProcId) :
    ((takeNext kernel).2.procs proc).image = (kernel.procs proc).image := by
  unfold takeNext
  split
  · exact modify_proc_image _ _ _ (fun process => image_set_remaining process _) proc
  · split
    · exact modify_proc_image _ _ _ (fun process => image_set_remaining process _) proc
    · rfl

theorem park_image (curr : Option ProcId) (proc : ProcId) :
    ((parkCurrent curr flag kernel).procs proc).image = (kernel.procs proc).image := by
  unfold parkCurrent
  split
  · rfl
  · rfl
  · exact modify_proc_image _ _ _ (fun process => image_set_state process _) proc
  · exact modify_proc_image _ _ _ (fun process => image_set_state process _) proc

theorem set_scheduled_image (new : Option ProcId) (proc : ProcId) :
    ((setScheduled new kernel).procs proc).image = (kernel.procs proc).image := by
  cases new with
  | none => rfl
  | some chosen => exact modify_proc_image _ _ _ (fun process => image_set_state process _) proc

theorem schedule_image (proc : ProcId) :
    ((scheduleProcess kernel flag).procs proc).image = (kernel.procs proc).image := by
  simp only [scheduleProcess, set_scheduled_image, park_image, take_next_image]

end Frame

end Ribabari.Dispatch

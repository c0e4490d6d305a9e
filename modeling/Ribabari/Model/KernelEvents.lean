import Ribabari.Foundation.TransitionSystem
import Ribabari.Model.DiskAndFiles

/-!
# System calls, instructions and kernel events

`kernel.c`, the loading and finishing of `process.c` and `print.c`. An event is
what one of the threads does to the kernel in one go; it has no successor where
the source would stop or dereference a null pointer.
-/

namespace Ribabari.KernelEvents

open Ribabari.ProcessRecords Ribabari.SegmentMemory Ribabari.SemaphoreTable
open Ribabari.KernelState Ribabari.Dispatch Ribabari.DiskAndFiles
open Ribabari.TransitionSystem

set_option autoImplicit false

/-- `sleep`, the callback of `semaphore_P`. -/
def sleep (kernel : Kernel) : Kernel := scheduleProcess kernel .semaphoreBlocked

/-- `wakeup`, the callback of `semaphore_V`. -/
def wakeup (proc : ProcId) (kernel : Kernel) : Kernel :=
  scheduleUnblockProcess kernel proc .highQueue

def Kernel.storeSem (kernel : Kernel) (sem : Semaphore) : Kernel :=
  { kernel with semTable := storeSemaphore kernel.semTable sem }

def printRequest (kernel : Kernel) (proc : ProcId) (duration : Int) : Kernel :=
  let logged := ioPrintLog kernel (kernel.procs proc).name duration
  interruptControl
    (logged.modifyProc proc fun process => process.setRemaining (process.remaining - duration))
    (.printFinish proc)

structure FsOpRequest where
  proc : ProcId
  track : Int
  read : Bool
  deriving DecidableEq, Repr

def fsRequest (kernel : Kernel) (request : FsOpRequest) : Kernel :=
  if request.read then fsReadRequest kernel request.proc (diskBlock request.track)
  else fsWriteRequest kernel request.proc (diskBlock request.track)

/-- The system calls an instruction makes, for the scheduled process `curr`. -/
inductive SysCall where
  | semaphoreP (sem : Option Semaphore)
  | semaphoreV (sem : Option Semaphore)
  | diskReadRequest (track : Int)
  | diskWriteRequest (track : Int)
  | printRequest (duration : Int)

def diskCall (kernel : Kernel) (curr : ProcId) (track : Int) (read : Bool) : Kernel :=
  let blocked := scheduleProcess kernel .ioRequested
  let requested := diskRequest blocked curr track read
  fsRequest requested { proc := curr, track := track, read := read }

def sysCall (kernel : Kernel) (curr : ProcId) : SysCall → Option Kernel
  | .semaphoreP none => none
  | .semaphoreP (some sem) =>
      let result := semaphoreP sem curr sleep kernel
      some (resAcqLog (Kernel.storeSem result.2.1 result.1)
        { procName := (kernel.procs curr).name
          semName := sem.name
          acq := true
          blocked := result.2.2 })
  | .semaphoreV none => none
  | .semaphoreV (some sem) => do
      let result ← semaphoreV sem wakeup kernel
      some (resAcqLog (Kernel.storeSem result.2 result.1)
        { procName := (kernel.procs curr).name
          semName := sem.name
          acq := false
          blocked := false })
  | .diskReadRequest track => some (diskCall kernel curr track true)
  | .diskWriteRequest track => some (diskCall kernel curr track false)
  | .printRequest duration =>
      some (printRequest (scheduleProcess kernel .ioRequested) curr duration)

/-- `semaphore_find` on the instruction's name, which may be the null pointer. -/
def instrSemaphore (kernel : Kernel) (instr : Instr) : Option Semaphore :=
  instr.sem.bind (semaphoreFind kernel.semTable)

/-- The cost of a `P` that returned or of a `V`. -/
def chargeSemaphore (kernel : Kernel) (proc : ProcId) : Kernel :=
  kernel.modifyProc proc fun process => process.setRemaining (max 0 (process.remaining - 200))

def eval (kernel : Kernel) (proc : ProcId) (instr : Instr) : Option Kernel :=
  match instr.op with
  | .exec => some (kernel.modifyProc proc fun process =>
      process.setRemaining (process.remaining - instr.value))
  | .semP => do
      let after ← sysCall kernel proc (.semaphoreP (instrSemaphore kernel instr))
      if (after.procs proc).state ≠ .blocked then some (chargeSemaphore after proc)
      else some after
  | .semV => do
      let after ← sysCall kernel proc (.semaphoreV (instrSemaphore kernel instr))
      some (chargeSemaphore after proc)
  | .read => sysCall kernel proc (.diskReadRequest instr.value)
  | .write => sysCall kernel proc (.diskWriteRequest instr.value)
  | .print => sysCall kernel proc (.printRequest instr.value)

/-- The record `parse_synthetic_program` fills and `read_code` completes. Without a
semaphore line `semaphores` is not assigned; a line that is read names one at least. -/
def newProcess (program : Program) : Process where
  name := program.name
  pc := 0
  codeLen := program.code.length
  segId := program.segId
  segSize := program.segSize
  priority := program.priority
  remaining := 0
  state := .new
  oFiles := []
  semaphores := if program.semaphores = [] then none else some program.semaphores

/-- The effects of the parse on the kernel: the id and the semaphores. -/
def registerProgram (kernel : Kernel) (program : Program) : Kernel :=
  { kernel with
    nextProcId := kernel.nextProcId + 1
    procs := Function.update kernel.procs kernel.nextProcId (newProcess program)
    semTable := program.semaphores.foldl semaphoreRegister kernel.semTable }

/-- `process_create` after the file has been read: the memory request and its
completion interrupt. -/
def processCreate (kernel : Kernel) (program : Program) (fresh : Nat → Page) : Kernel :=
  let proc := kernel.nextProcId
  let registered := registerProgram kernel program
  let request : MemoryRequest :=
    { proc := newProcess program, code := program.code, counted := rfl }
  interruptControl
    { registered with segTable := memReqLoad request fresh registered.segTable }
    (.memLoadFinish proc)

/-- The queue search that ends `process_finish`. -/
def leaveQueues (kernel : Kernel) (proc : ProcId) : Kernel :=
  if proc ∈ kernel.scheduler.highQueue then
    { kernel with scheduler :=
        { kernel.scheduler with highQueue := kernel.scheduler.highQueue.erase proc } }
  else if proc ∈ kernel.scheduler.lowQueue then
    { kernel with scheduler :=
        { kernel.scheduler with lowQueue := kernel.scheduler.lowQueue.erase proc } }
  else if proc ∈ kernel.scheduler.blockedQueue then
    { kernel with scheduler :=
        { kernel.scheduler with blockedQueue := kernel.scheduler.blockedQueue.erase proc } }
  else kernel

def closeFiles (kernel : Kernel) (proc : ProcId) (files : List Int) : Kernel :=
  files.foldl (fun kernel inumber => fsCloseRequest kernel proc inumber) kernel

/-- `process_finish` up to its calls of `free`, see `FreesUnset`. -/
def processFinish (kernel : Kernel) (proc : ProcId) : Option Kernel :=
  if proc ∈ kernel.procTable then do
    let unlisted := { kernel with procTable := kernel.procTable.erase proc }
    let current ← unlisted.scheduler.scheduledProc
    let interrupted := if current = proc then scheduleProcess unlisted .none else unlisted
    let closed := closeFiles interrupted proc (interrupted.procs proc).oFiles
    let segTable ← segmentFree closed.segTable (closed.procs proc).segId
    some (leaveQueues { closed with segTable := segTable } proc)
  else none

/-- What the fetch of `cpu()` does before `eval`: `FETCH_INSTR_ADDR`, the used
bit of the page and the log entry. -/
def fetched (kernel : Kernel) (proc : ProcId) : Kernel :=
  let process := kernel.procs proc
  processLog
    { kernel.modifyProc proc fun process => { process with pc := process.pc + 1 } with
      segTable := markUsed kernel.segTable process.segId process.pc }
    { name := process.name
      remaining := process.remaining
      pc := process.pc
      id := process.segId
      fOpCount := process.oFiles.length }

/-- What one of the threads does to the kernel in one go. `idleDispatch` says
whether the idle cpu also logs that no process is running. -/
inductive KernelEvent where
  | processCreate (program : Program) (fresh : Nat → Page)
  | idleDispatch (logged : Bool)
  | execute (instr : Instr)
  | quantumCompleted
  | processFinish
  | diskTick

def kernelStep (kernel : Kernel) : KernelEvent → Option Kernel
  | .processCreate program fresh => some (processCreate kernel program fresh)
  | .idleDispatch logged =>
      match kernel.scheduler.scheduledProc with
      | none => some (scheduleProcess (if logged then processNpLog kernel else kernel) .none)
      | some _ => none
  | .execute instr =>
      match kernel.scheduler.scheduledProc with
      | none => none
      | some proc => eval (fetched kernel proc) proc instr
  | .quantumCompleted =>
      match kernel.scheduler.scheduledProc with
      | none => none
      | some _ => some (scheduleProcess kernel .quantumCompleted)
  | .processFinish =>
      match kernel.scheduler.scheduledProc with
      | none => none
      | some proc => processFinish kernel proc
  | .diskTick => some (diskTick kernel)

/-- The last calls of `process_finish` give the record's storage back. For a process without
a semaphore line the pointer handed to `free` was never assigned; a run goes on as if the
call had returned. -/
def FreesUnset (kernel : Kernel) : KernelEvent → Prop
  | .processFinish => ∃ proc, kernel.scheduler.scheduledProc = some proc ∧
      (kernel.procs proc).semaphores = none
  | .processCreate _ _ | .idleDispatch _ | .execute _ | .quantumCompleted | .diskTick => False

section Inversion

variable {kernel after : Kernel}

theorem idle_fires {logged : Bool} (fired : kernelStep kernel (.idleDispatch logged) = some after) :
    kernel.scheduler.scheduledProc = none ∧
      after = scheduleProcess (if logged then processNpLog kernel else kernel) .none := by
  simp only [kernelStep] at fired
  split at fired
  case h_1 idle => exact ⟨idle, (Option.some.inj fired).symm⟩
  case h_2 => exact nomatch fired

theorem execute_fires {instr : Instr} (fired : kernelStep kernel (.execute instr) = some after) :
    ∃ proc, kernel.scheduler.scheduledProc = some proc ∧
      eval (fetched kernel proc) proc instr = some after := by
  simp only [kernelStep] at fired
  split at fired
  case h_1 => exact nomatch fired
  case h_2 proc running => exact ⟨proc, running, fired⟩

theorem quantum_fires (fired : kernelStep kernel .quantumCompleted = some after) :
    ∃ proc, kernel.scheduler.scheduledProc = some proc ∧
      after = scheduleProcess kernel .quantumCompleted := by
  simp only [kernelStep] at fired
  split at fired
  case h_1 => exact nomatch fired
  case h_2 proc running => exact ⟨proc, running, (Option.some.inj fired).symm⟩

theorem finish_fires (fired : kernelStep kernel .processFinish = some after) :
    ∃ proc, kernel.scheduler.scheduledProc = some proc ∧
      processFinish kernel proc = some after := by
  simp only [kernelStep] at fired
  split at fired
  case h_1 => exact nomatch fired
  case h_2 proc running => exact ⟨proc, running, fired⟩

/-- A `P` has found its semaphore and is charged when it returns. -/
theorem acquire_ends {proc : ProcId} {value : Int} {name : Option CString}
    (evaluated : eval kernel proc ⟨.semP, value, name⟩ = some after) :
    ∃ sem called, instrSemaphore kernel ⟨.semP, value, name⟩ = some sem ∧
      sysCall kernel proc (.semaphoreP (some sem)) = some called ∧
        after = if (called.procs proc).state ≠ .blocked then chargeSemaphore called proc
          else called := by
  simp only [eval, Option.bind_eq_bind, Option.bind_eq_some_iff] at evaluated
  obtain ⟨called, call, ended⟩ := evaluated
  cases found : instrSemaphore kernel ⟨.semP, value, name⟩ with
  | none =>
      rw [found] at call
      exact nomatch call
  | some sem =>
      rw [found] at call
      refine ⟨sem, called, rfl, call, ?_⟩
      rw [← apply_ite some] at ended
      exact (Option.some.inj ended).symm

theorem acquire_inv {proc : ProcId} {value : Int} {name : Option CString}
    (evaluated : eval kernel proc ⟨.semP, value, name⟩ = some after) :
    ∃ sem called, instrSemaphore kernel ⟨.semP, value, name⟩ = some sem ∧
      sysCall kernel proc (.semaphoreP (some sem)) = some called ∧
        (after = chargeSemaphore called proc ∨ after = called) := by
  obtain ⟨sem, called, found, call, ended⟩ := acquire_ends evaluated
  refine ⟨sem, called, found, call, ?_⟩
  split at ended
  · exact .inl ended
  · exact .inr ended

theorem release_inv {proc : ProcId} {value : Int} {name : Option CString}
    (evaluated : eval kernel proc ⟨.semV, value, name⟩ = some after) :
    ∃ sem called, instrSemaphore kernel ⟨.semV, value, name⟩ = some sem ∧
      sysCall kernel proc (.semaphoreV (some sem)) = some called ∧
        after = chargeSemaphore called proc := by
  simp only [eval, Option.bind_eq_bind, Option.bind_eq_some_iff] at evaluated
  obtain ⟨called, call, ended⟩ := evaluated
  cases found : instrSemaphore kernel ⟨.semV, value, name⟩ with
  | none =>
      rw [found] at call
      exact nomatch call
  | some sem =>
      rw [found] at call
      exact ⟨sem, called, rfl, call, (Option.some.inj ended).symm⟩

end Inversion

/-! ## What the parts of an event write -/

theorem close_files_writes (kernel : Kernel) (proc : ProcId) (files : List Int) :
    ∃ fileTable logs,
      closeFiles kernel proc files = { kernel with fileTable := fileTable, logs := logs } := by
  induction files generalizing kernel with
  | nil => exact ⟨_, _, rfl⟩
  | cons inumber files ih =>
      obtain ⟨fileTable, logs, closed⟩ := ih (fsCloseRequest kernel proc inumber)
      obtain ⟨_, _, first⟩ := close_writes kernel proc inumber
      refine ⟨fileTable, logs, closed.trans ?_⟩
      rw [first]

/-- A `P` writes the semaphores and the logs, after a dispatch when its caller sleeps. -/
theorem semaphore_p_writes {kernel after : Kernel} {proc : ProcId} {sem : Option Semaphore}
    (call : sysCall kernel proc (.semaphoreP sem) = some after) :
    ∃ semTable logs, after = { kernel with semTable := semTable, logs := logs } ∨
      after = { scheduleProcess kernel .semaphoreBlocked with
        semTable := semTable
        logs := logs } := by
  cases sem with
  | none => exact nomatch call
  | some sem =>
      obtain rfl := Option.some.inj call
      by_cases short : sem.S - 1 < 0
      · simp only [semaphoreP, short, if_true]
        exact ⟨_, _, .inr rfl⟩
      · simp only [semaphoreP, short, if_false]
        exact ⟨_, _, .inl rfl⟩

/-- A `V` writes the semaphores and the logs, after the wake-up of somebody who sleeps. -/
theorem semaphore_v_writes {kernel after : Kernel} {proc : ProcId} {sem : Option Semaphore}
    (call : sysCall kernel proc (.semaphoreV sem) = some after) :
    ∃ semTable logs, after = { kernel with semTable := semTable, logs := logs } ∨
      ∃ woken, after = { scheduleUnblockProcess kernel woken .highQueue with
        semTable := semTable
        logs := logs } := by
  cases sem with
  | none => exact nomatch call
  | some sem =>
      simp only [sysCall, Option.bind_eq_bind, Option.bind_eq_some_iff, Option.some.injEq] at call
      obtain ⟨⟨stored, world⟩, released, rfl⟩ := call
      unfold semaphoreV at released
      split at released
      case isTrue =>
          split at released
          case h_1 => exact nomatch released
          case h_2 woken rest _ =>
              obtain ⟨-, rfl⟩ := Prod.mk.inj (Option.some.inj released)
              exact ⟨_, _, .inr ⟨woken, rfl⟩⟩
      case isFalse =>
          obtain ⟨-, rfl⟩ := Prod.mk.inj (Option.some.inj released)
          exact ⟨_, _, .inl rfl⟩

/-- The parts of a finish, in the order of the source: unlist, dispatch, close the
files, free the segment, leave the queues. -/
theorem finish_writes {kernel after : Kernel} {proc : ProcId}
    (running : kernel.scheduler.scheduledProc = some proc)
    (finished : processFinish kernel proc = some after) :
    proc ∈ kernel.procTable ∧ ∃ dispatched closed segTable,
      dispatched = scheduleProcess { kernel with procTable := kernel.procTable.erase proc } .none ∧
      closed = closeFiles dispatched proc (dispatched.procs proc).oFiles ∧
      segmentFree closed.segTable (closed.procs proc).segId = some segTable ∧
      after = leaveQueues { closed with segTable := segTable } proc := by
  unfold processFinish at finished
  split at finished
  case isFalse => exact nomatch finished
  case isTrue listed =>
      simp only [running, Option.bind_eq_bind, Option.bind_some, if_true,
        Option.bind_eq_some_iff, Option.some.injEq] at finished
      obtain ⟨segTable, freed, rfl⟩ := finished
      exact ⟨listed, _, _, segTable, rfl, rfl, freed, rfl⟩

/-- A load writes one record. -/
theorem create_procs (kernel : Kernel) (program : Program) (fresh : Nat → Page) :
    (processCreate kernel program fresh).procs =
      Function.update kernel.procs kernel.nextProcId ((newProcess program).setState .ready) := by
  by_cases high : program.priority = 1 <;>
    simp [processCreate, interruptControl, registerProgram, newProcess, high, Kernel.modifyProc]

def kernelSystem : System Kernel KernelEvent where
  start := kernelInit
  step := kernelStep

end Ribabari.KernelEvents

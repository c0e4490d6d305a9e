import Ribabari.Model.KernelEvents

/-!
# Creations and finishes against the memory view

`process_create` and `process_finish` cut into the calls they make on the tables, with
everything else that runs between two of them: instructions, ticks of the disk, other
creations, and refreshes of the memory view. A refresh is one step over the segment list.
-/

namespace Ribabari.LifecycleThreads

open Ribabari.ProcessRecords Ribabari.SegmentMemory Ribabari.KernelState Ribabari.Dispatch
open Ribabari.DiskAndFiles Ribabari.KernelEvents Ribabari.TransitionSystem

set_option autoImplicit false

/-! ## The memory view -/

/-- `get_process_sid`. -/
def getProcessSid (kernel : Kernel) (sid : Int) : Option ProcId :=
  kernel.procTable.find? fun proc => (kernel.procs proc).segId == sid

/-- The loop of `page_inuse_index`, from the last page down to the first. -/
def pageInUse (seg : Segment) : Bool := seg.pageTable.reverse.any Page.used

/-- Every process that `page_inuse_index` dereferences in one refresh is there. -/
def OwnersFound (kernel : Kernel) : Prop :=
  ∀ seg ∈ kernel.segTable.segList, pageInUse seg = true →
    (getProcessSid kernel seg.id).isSome = true

instance (kernel : Kernel) : Decidable (OwnersFound kernel) :=
  inferInstanceAs (Decidable (∀ seg ∈ kernel.segTable.segList, _ → _))

/-! ## The threads -/

/-- Where the cpu thread stands in `process_finish`: `interrupting` behind the removal
from the process table, `closing` before the files still to be closed, `leaving` behind
`segment_free`. -/
inductive CpuWork where
  | running
  | interrupting (proc : ProcId)
  | closing (proc : ProcId) (files : List Int)
  | leaving (proc : ProcId)
  deriving DecidableEq, Repr

/-- A creation whose program has been read. -/
structure Creation where
  proc : ProcId
  program : Program
  deriving DecidableEq, Repr

/-- `parsed` are the creations before `mem_req_load`, `loaded` those before `list_add` on
the process table, `listed` those before `list_add` on a queue. -/
structure Lifecycle where
  kernel : Kernel
  parsed : List Creation
  loaded : List ProcId
  listed : List ProcId
  cpu : CpuWork

inductive LifecycleEvent where
  | parse (program : Program)
  | load (creation : Creation) (fresh : Nat → Page)
  | list (proc : ProcId)
  | queue (proc : ProcId)
  | kernel (event : KernelEvent)
  | finish
  | resume
  | refresh

/-- The end of `MEM_LOAD_FINISH`. -/
def queueProcess (kernel : Kernel) (proc : ProcId) : Kernel :=
  let ready := kernel.modifyProc proc (·.setState .ready)
  if (kernel.procs proc).priority = 1 then
    { ready with scheduler :=
        { ready.scheduler with highQueue := ready.scheduler.highQueue ++ [proc] } }
  else
    { ready with scheduler :=
        { ready.scheduler with lowQueue := ready.scheduler.lowQueue ++ [proc] } }

def Lifecycle.parse (state : Lifecycle) (program : Program) : Lifecycle :=
  { state with
    kernel := registerProgram state.kernel program
    parsed := state.parsed ++ [{ proc := state.kernel.nextProcId, program := program }] }

/-- What `process_create` asks the memory for. -/
def Creation.request (creation : Creation) : MemoryRequest where
  proc := newProcess creation.program
  code := creation.program.code
  counted := rfl

def Lifecycle.load (state : Lifecycle) (creation : Creation) (fresh : Nat → Page) : Lifecycle :=
  { state with
    kernel :=
      { state.kernel with segTable := memReqLoad creation.request fresh state.kernel.segTable }
    parsed := state.parsed.erase creation
    loaded := state.loaded ++ [creation.proc] }

def Lifecycle.list (state : Lifecycle) (proc : ProcId) : Lifecycle :=
  { state with
    kernel := { state.kernel with procTable := state.kernel.procTable ++ [proc] }
    loaded := state.loaded.erase proc
    listed := state.listed ++ [proc] }

def Lifecycle.queue (state : Lifecycle) (proc : ProcId) : Lifecycle :=
  { state with
    kernel := queueProcess state.kernel proc
    listed := state.listed.erase proc }

def Lifecycle.kernelOnly (state : Lifecycle) (event : KernelEvent) : Option Lifecycle :=
  (kernelStep state.kernel event).map fun kernel => { state with kernel := kernel }

/-- The disk thread ticks at any time, the cpu thread executes and dispatches when it is
not inside `process_finish`. -/
def Lifecycle.fireKernel (state : Lifecycle) : KernelEvent → Option Lifecycle
  | .processCreate _ _ => none
  | .processFinish => none
  | .diskTick => state.kernelOnly .diskTick
  | .idleDispatch logged =>
      if state.cpu = .running then state.kernelOnly (.idleDispatch logged) else none
  | .execute instr => if state.cpu = .running then state.kernelOnly (.execute instr) else none
  | .quantumCompleted =>
      if state.cpu = .running then state.kernelOnly .quantumCompleted else none

/-- The removal from the process table. -/
def Lifecycle.finish (state : Lifecycle) : Option Lifecycle :=
  match state.cpu with
  | .running =>
      state.kernel.scheduler.scheduledProc.bind fun proc =>
        if proc ∈ state.kernel.procTable then some
          { state with
            kernel := { state.kernel with procTable := state.kernel.procTable.erase proc }
            cpu := .interrupting proc }
        else none
  | .interrupting _ | .closing _ _ | .leaving _ => none

/-- The test for the running process with the dispatch behind it. -/
def interruptCurrent (kernel : Kernel) (proc : ProcId) : Option Kernel :=
  kernel.scheduler.scheduledProc.map fun current =>
    if current = proc then scheduleProcess kernel .none else kernel

def Lifecycle.resume (state : Lifecycle) : Option Lifecycle :=
  match state.cpu with
  | .running => none
  | .interrupting proc =>
      (interruptCurrent state.kernel proc).map fun kernel =>
        { state with
          kernel := kernel
          cpu := .closing proc (kernel.procs proc).oFiles }
  | .closing proc (inumber :: files) => some
      { state with
        kernel := fsCloseRequest state.kernel proc inumber
        cpu := .closing proc files }
  | .closing proc [] =>
      (segmentFree state.kernel.segTable (state.kernel.procs proc).segId).map fun segTable =>
        { state with
          kernel := { state.kernel with segTable := segTable }
          cpu := .leaving proc }
  | .leaving proc => some
      { state with
        kernel := leaveQueues state.kernel proc
        cpu := .running }

/-- A step of one of the threads. The refresh reads the tables and writes nothing. -/
def lifecycleStep (state : Lifecycle) : LifecycleEvent → Option Lifecycle
  | .parse program => some (state.parse program)
  | .load creation fresh =>
      if creation ∈ state.parsed then some (state.load creation fresh) else none
  | .list proc => if proc ∈ state.loaded then some (state.list proc) else none
  | .queue proc => if proc ∈ state.listed then some (state.queue proc) else none
  | .kernel event => state.fireKernel event
  | .finish => state.finish
  | .resume => state.resume
  | .refresh => some state

/-- Nobody is being created or finished. -/
def quiet (kernel : Kernel) : Lifecycle where
  kernel := kernel
  parsed := []
  loaded := []
  listed := []
  cpu := .running

def lifecycleSystem : System Lifecycle LifecycleEvent where
  start := quiet kernelInit
  step := lifecycleStep

/-! ## What a step can do -/

section Inversion

variable {state after : Lifecycle}

theorem load_inv {creation : Creation} {fresh : Nat → Page}
    (fired : lifecycleStep state (.load creation fresh) = some after) :
    creation ∈ state.parsed ∧ after = state.load creation fresh := by
  obtain ⟨parsed, same⟩ := Option.ite_none_right_eq_some.mp fired
  exact ⟨parsed, (Option.some.inj same).symm⟩

theorem list_inv {proc : ProcId} (fired : lifecycleStep state (.list proc) = some after) :
    proc ∈ state.loaded ∧ after = state.list proc := by
  obtain ⟨loaded, same⟩ := Option.ite_none_right_eq_some.mp fired
  exact ⟨loaded, (Option.some.inj same).symm⟩

theorem queue_inv {proc : ProcId} (fired : lifecycleStep state (.queue proc) = some after) :
    proc ∈ state.listed ∧ after = state.queue proc := by
  obtain ⟨listed, same⟩ := Option.ite_none_right_eq_some.mp fired
  exact ⟨listed, (Option.some.inj same).symm⟩

theorem kernel_inv {event : KernelEvent} (fired : state.fireKernel event = some after) :
    (∃ kernel, kernelStep state.kernel event = some kernel ∧
        after = { state with kernel := kernel }) ∧
      (∀ program fresh, event ≠ .processCreate program fresh) ∧ event ≠ .processFinish ∧
      (event = .diskTick ∨ state.cpu = .running) := by
  have only : ∀ {event : KernelEvent}, state.kernelOnly event = some after →
      ∃ kernel, kernelStep state.kernel event = some kernel ∧
        after = { state with kernel := kernel } := by
    intro event fired
    obtain ⟨kernel, step, rfl⟩ := Option.map_eq_some_iff.mp fired
    exact ⟨kernel, step, rfl⟩
  cases event with
  | processCreate program fresh => exact nomatch fired
  | processFinish => exact nomatch fired
  | diskTick => exact ⟨only fired, by simp, by simp, .inl rfl⟩
  | idleDispatch | execute | quantumCompleted =>
      obtain ⟨running, fired⟩ := Option.ite_none_right_eq_some.mp fired
      exact ⟨only fired, by simp, by simp, .inr running⟩

theorem unlist_inv (fired : state.finish = some after) :
    ∃ proc, state.cpu = .running ∧ state.kernel.scheduler.scheduledProc = some proc ∧
      proc ∈ state.kernel.procTable ∧ after =
        { state with
          kernel := { state.kernel with procTable := state.kernel.procTable.erase proc }
          cpu := .interrupting proc } := by
  unfold Lifecycle.finish at fired
  split at fired
  case h_1 running =>
      obtain ⟨proc, scheduled, fired⟩ := Option.bind_eq_some_iff.mp fired
      obtain ⟨listed, fired⟩ := Option.ite_none_right_eq_some.mp fired
      exact ⟨proc, running, scheduled, listed, (Option.some.inj fired).symm⟩
  all_goals exact nomatch fired

/-- A finish dispatches, or closes a file, or frees the segment, or leaves the queues. -/
theorem resume_inv (fired : state.resume = some after) :
    (∃ proc kernel, state.cpu = .interrupting proc ∧
        interruptCurrent state.kernel proc = some kernel ∧ after =
          { state with
            kernel := kernel
            cpu := .closing proc (kernel.procs proc).oFiles }) ∨
      (∃ proc inumber files, state.cpu = .closing proc (inumber :: files) ∧ after =
          { state with
            kernel := fsCloseRequest state.kernel proc inumber
            cpu := .closing proc files }) ∨
      (∃ proc segTable, state.cpu = .closing proc [] ∧
        segmentFree state.kernel.segTable (state.kernel.procs proc).segId = some segTable ∧
          after =
            { state with
              kernel := { state.kernel with segTable := segTable }
              cpu := .leaving proc }) ∨
      ∃ proc, state.cpu = .leaving proc ∧ after =
        { state with
          kernel := leaveQueues state.kernel proc
          cpu := .running } := by
  unfold Lifecycle.resume at fired
  split at fired
  case h_1 => exact nomatch fired
  case h_2 proc interrupting =>
      obtain ⟨kernel, interrupted, rfl⟩ := Option.map_eq_some_iff.mp fired
      exact .inl ⟨proc, kernel, interrupting, interrupted, rfl⟩
  case h_3 proc inumber files closing =>
      obtain rfl := Option.some.inj fired
      exact .inr (.inl ⟨proc, inumber, files, closing, rfl⟩)
  case h_4 proc closing =>
      obtain ⟨segTable, freed, rfl⟩ := Option.map_eq_some_iff.mp fired
      exact .inr (.inr (.inl ⟨proc, segTable, closing, freed, rfl⟩))
  case h_5 proc leaving =>
      obtain rfl := Option.some.inj fired
      exact .inr (.inr (.inr ⟨proc, leaving, rfl⟩))

end Inversion

/-! ## Uninterrupted creations and finishes -/

/-- The steps of one creation. -/
def createSteps (proc : ProcId) (program : Program) (fresh : Nat → Page) : List LifecycleEvent :=
  [.parse program, .load { proc := proc, program := program } fresh, .list proc, .queue proc]

theorem create_uninterrupted (kernel : Kernel) (program : Program) (fresh : Nat → Page) :
    run lifecycleSystem (createSteps kernel.nextProcId program fresh) (quiet kernel) =
      some (quiet (processCreate kernel program fresh)) := by
  have queued : queueProcess
      { registerProgram kernel program with
        segTable := memReqLoad
          { proc := newProcess program, code := program.code, counted := rfl } fresh
          kernel.segTable
        procTable := kernel.procTable ++ [kernel.nextProcId] } kernel.nextProcId =
      processCreate kernel program fresh := by
    unfold queueProcess processCreate interruptControl
    dsimp only
    split <;> rfl
  simp only [createSteps, run, lifecycleSystem, lifecycleStep, quiet, Lifecycle.parse,
    Lifecycle.load, Lifecycle.list, Lifecycle.queue, List.nil_append, List.mem_singleton, if_true,
    Option.bind_some, List.erase_cons_head]
  rw [← queued]
  rfl

/-- What is left of a finish when the files are to be closed. -/
theorem closing_uninterrupted (kernel : Kernel) (proc : ProcId) (files : List Int) :
    run lifecycleSystem (List.replicate (files.length + 2) .resume)
        { quiet kernel with cpu := .closing proc files } =
      (segmentFree (closeFiles kernel proc files).segTable
        ((closeFiles kernel proc files).procs proc).segId).map fun segTable =>
          quiet (leaveQueues { closeFiles kernel proc files with segTable := segTable } proc) := by
  induction files generalizing kernel with
  | nil =>
      rw [List.length_nil, List.replicate_succ, run]
      cases freed : segmentFree kernel.segTable (kernel.procs proc).segId <;>
        simp [lifecycleSystem, lifecycleStep, Lifecycle.resume, quiet, closeFiles, run, freed]
  | cons inumber files ih =>
      rw [List.length_cons, Nat.succ_add, List.replicate_succ, run]
      exact ih (fsCloseRequest kernel proc inumber)

/-- The steps of one finish of a process with so many open files. -/
def finishSteps (files : Nat) : List LifecycleEvent := .finish :: List.replicate (files + 3) .resume

theorem finish_uninterrupted {kernel : Kernel} {proc : ProcId}
    (running : kernel.scheduler.scheduledProc = some proc) :
    run lifecycleSystem (finishSteps (kernel.procs proc).oFiles.length) (quiet kernel) =
      (processFinish kernel proc).map quiet := by
  by_cases listed : proc ∈ kernel.procTable
  · let dispatched := scheduleProcess { kernel with procTable := kernel.procTable.erase proc } .none
    have files : (dispatched.procs proc).oFiles = (kernel.procs proc).oFiles :=
      (image_fields (schedule_image _ _ proc)).2.2.2.2
    have closed := closing_uninterrupted dispatched proc (dispatched.procs proc).oFiles
    have begins : run lifecycleSystem (finishSteps (kernel.procs proc).oFiles.length) (quiet kernel) =
        run lifecycleSystem (List.replicate ((kernel.procs proc).oFiles.length + 2) .resume)
          { quiet dispatched with cpu := .closing proc (dispatched.procs proc).oFiles } := by
      rw [finishSteps, List.replicate_succ]
      simp [run, lifecycleSystem, lifecycleStep, Lifecycle.finish, Lifecycle.resume,
        interruptCurrent, quiet, running, listed, dispatched]
    rw [begins, ← files, closed]
    simp only [processFinish, if_pos listed, running, Option.bind_eq_bind, Option.bind_some, if_true]
    cases segmentFree (closeFiles dispatched proc (dispatched.procs proc).oFiles).segTable
        ((closeFiles dispatched proc (dispatched.procs proc).oFiles).procs proc).segId <;> rfl
  · simp [finishSteps, run, lifecycleSystem, lifecycleStep, Lifecycle.finish, quiet, running,
      processFinish, listed]

/-- A kernel event, in the steps it consists of. -/
theorem event_uninterrupted {kernel after : Kernel} {event : KernelEvent}
    (fired : kernelStep kernel event = some after) :
    ∃ steps, run lifecycleSystem steps (quiet kernel) = some (quiet after) := by
  have inOneStep : ∀ {event : KernelEvent}, (quiet kernel).fireKernel event =
        (quiet kernel).kernelOnly event → kernelStep kernel event = some after →
      run lifecycleSystem [.kernel event] (quiet kernel) = some (quiet after) := by
    intro event fires fired
    rw [run_single]
    change (quiet kernel).fireKernel event = some (quiet after)
    rw [fires]
    exact Option.map_eq_some_iff.mpr ⟨after, fired, rfl⟩
  cases event with
  | processCreate program fresh =>
      obtain rfl := Option.some.inj fired
      exact ⟨_, create_uninterrupted kernel program fresh⟩
  | processFinish =>
      obtain ⟨proc, running, finished⟩ := finish_fires fired
      refine ⟨_, (finish_uninterrupted running).trans ?_⟩
      rw [finished]
      rfl
  | idleDispatch logged => exact ⟨_, inOneStep rfl fired⟩
  | execute instr => exact ⟨_, inOneStep rfl fired⟩
  | quantumCompleted => exact ⟨_, inOneStep rfl fired⟩
  | diskTick => exact ⟨_, inOneStep rfl fired⟩

/-- The runs of the kernel are the runs in which no creation and no finish is interrupted. -/
theorem quiet_reachable {kernel : Kernel} (reached : Reachable kernelSystem kernel) :
    Reachable lifecycleSystem (quiet kernel) := by
  obtain ⟨past, trace⟩ := reached
  induction trace with
  | start => exact ⟨[], .start⟩
  | next prior fired ih =>
      obtain ⟨steps, result⟩ := event_uninterrupted fired
      obtain ⟨earlier, run⟩ := ih
      exact ⟨_, trace_history steps run result⟩

end Ribabari.LifecycleThreads

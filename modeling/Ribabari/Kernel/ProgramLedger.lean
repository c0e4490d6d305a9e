import Ribabari.Kernel.Placement
import Ribabari.Kernel.RecordFrame

/-!
# Programs and what has been evaluated of them

A history variable of the kernel: the code each process was loaded with and the
instructions evaluated for it so far. The program counter is the number of these,
so a run that evaluates the instruction at the counter evaluates a prefix.
-/

namespace Ribabari.ProgramLedger

open Ribabari.ProcessRecords Ribabari.SegmentMemory Ribabari.KernelState
open Ribabari.DiskAndFiles Ribabari.KernelEvents Ribabari.RecordFrame
open Ribabari.QueueBoard Ribabari.QueueRefinement Ribabari.Placement
open Ribabari.TransitionSystem

set_option autoImplicit false

structure Ledger where
  loaded : ProcId → List Instr
  evaluated : ProcId → List Instr

def Ledger.empty : Ledger where
  loaded := fun _ => []
  evaluated := fun _ => []

def Ledger.record (ledger : Ledger) (kernel : Kernel) : KernelEvent → Ledger
  | .processCreate program _ =>
      { ledger with
        loaded := Function.update ledger.loaded kernel.nextProcId program.code }
  | .execute instr =>
      match kernel.scheduler.scheduledProc with
      | none => ledger
      | some proc =>
          { ledger with
            evaluated :=
              Function.update ledger.evaluated proc (ledger.evaluated proc ++ [instr]) }
  | _ => ledger

def recordedSystem : System (Kernel × Ledger) KernelEvent :=
  withHistory kernelSystem Ledger.empty Ledger.record

def samplePast : List ((Kernel × Ledger) × KernelEvent) :=
  history recordedSystem sampleEvents recordedSystem.start

def sampleRecord : Kernel × Ledger :=
  (run recordedSystem sampleEvents recordedSystem.start).getD recordedSystem.start

theorem sample_trace : Trace recordedSystem samplePast sampleRecord :=
  trace_history sampleEvents .start rfl

variable {kernel after : Kernel}

/-! ## The code side of a step -/

/-- What code execution reads and writes of the kernel. -/
def codeView (kernel : Kernel) :=
  (kernel.procTable, kernel.nextProcId, kernel.segTable,
    fun proc => ((kernel.procs proc).segId, (kernel.procs proc).codeLen, (kernel.procs proc).pc))

theorem code_of_records (same : recordView after = recordView kernel) :
    codeView after = codeView kernel := by
  have fields := fun proc => image_fields (view_image same proc)
  simp only [recordView, Prod.mk.injEq] at same
  simp only [codeView, same, Prod.mk.injEq, true_and]
  funext proc
  rw [(fields proc).2.1, (fields proc).2.2.1, (fields proc).2.2.2.1]

theorem open_for_code (kernel : Kernel) (proc : ProcId) (inumber : Int) :
    codeView (fsOpenFor kernel proc inumber) = codeView kernel := by
  have listed : ∀ (table : List Inode) (logs : Logs),
      codeView ({ kernel with fileTable := table, logs := logs }.modifyProc proc
        fun process => { process with oFiles := process.oFiles ++ [inumber] }) =
      codeView kernel := by
    intro table logs
    simp only [codeView, Kernel.modifyProc, Prod.mk.injEq, true_and]
    funext other
    by_cases same : other = proc <;> simp [same]
  obtain ⟨fileTable, logs, same | same⟩ := open_for_writes kernel proc inumber
  · rw [same]
    rfl
  · rw [same]
    exact listed fileTable logs

theorem eval_code {proc : ProcId} {instr : Instr}
    (evaluated : eval kernel proc instr = some after) : codeView after = codeView kernel := by
  rcases eval_records evaluated with same | ⟨requested, inumber, same, rfl⟩
  · exact code_of_records same
  · exact (open_for_code _ _ _).trans (code_of_records same)

/-- What an event that spares the code side leaves alone. -/
structure SameCode (kernel after : Kernel) : Prop where
  listed : after.procTable = kernel.procTable
  next : after.nextProcId = kernel.nextProcId
  segments : after.segTable = kernel.segTable
  segId : ∀ proc, (after.procs proc).segId = (kernel.procs proc).segId
  codeLen : ∀ proc, (after.procs proc).codeLen = (kernel.procs proc).codeLen
  pc : ∀ proc, (after.procs proc).pc = (kernel.procs proc).pc

/-- An instruction has been fetched for a process. -/
structure FetchedCode (kernel : Kernel) (proc : ProcId) (after : Kernel) : Prop where
  listed : after.procTable = kernel.procTable
  next : after.nextProcId = kernel.nextProcId
  segments : after.segTable =
    markUsed kernel.segTable (kernel.procs proc).segId (kernel.procs proc).pc
  segId : ∀ other, (after.procs other).segId = (kernel.procs other).segId
  codeLen : ∀ other, (after.procs other).codeLen = (kernel.procs other).codeLen
  pc : ∀ other, (after.procs other).pc =
    if other = proc then (kernel.procs other).pc + 1 else (kernel.procs other).pc

/-- The next process has been loaded with a program. -/
structure LoadedCode (kernel : Kernel) (program : Program) (fresh : Nat → Page) (after : Kernel) :
    Prop where
  listed : after.procTable = kernel.procTable ++ [kernel.nextProcId]
  next : after.nextProcId = kernel.nextProcId + 1
  segments : after.segTable =
    memReqLoad { proc := newProcess program, code := program.code, counted := rfl } fresh
      kernel.segTable
  own : (after.procs kernel.nextProcId).segId = program.segId ∧
    (after.procs kernel.nextProcId).codeLen = program.code.length ∧
    (after.procs kernel.nextProcId).pc = 0
  others : ∀ proc, proc ≠ kernel.nextProcId →
    (after.procs proc).segId = (kernel.procs proc).segId ∧
      (after.procs proc).codeLen = (kernel.procs proc).codeLen ∧
      (after.procs proc).pc = (kernel.procs proc).pc

/-- A process has been unlisted and its segment freed. -/
structure FreedCode (kernel : Kernel) (proc : ProcId) (after : Kernel) : Prop where
  member : proc ∈ kernel.procTable
  listed : after.procTable = kernel.procTable.erase proc
  next : after.nextProcId = kernel.nextProcId
  segments : segmentFree kernel.segTable (kernel.procs proc).segId = some after.segTable
  segId : ∀ other, (after.procs other).segId = (kernel.procs other).segId
  codeLen : ∀ other, (after.procs other).codeLen = (kernel.procs other).codeLen
  pc : ∀ other, (after.procs other).pc = (kernel.procs other).pc

theorem same_code (same : codeView after = codeView kernel) : SameCode kernel after := by
  simp only [codeView, Prod.mk.injEq] at same
  obtain ⟨listed, next, segments, records⟩ := same
  have fields := fun proc => congrFun records proc
  simp only [Prod.mk.injEq] at fields
  exact
    { listed := listed
      next := next
      segments := segments
      segId := fun proc => (fields proc).1
      codeLen := fun proc => (fields proc).2.1
      pc := fun proc => (fields proc).2.2 }

/-- A load, an execution and a finish change the code side, each in its own way. -/
def sparesCode : KernelEvent → Bool
  | .processCreate _ _ | .execute _ | .processFinish => false
  | .idleDispatch _ | .quantumCompleted | .diskTick => true

theorem spared_code {event : KernelEvent} (fired : kernelStep kernel event = some after)
    (spares : sparesCode event = true) : SameCode kernel after := by
  apply same_code
  cases event with
  | processCreate | execute | processFinish => exact nomatch spares
  | idleDispatch logged =>
      obtain ⟨-, rfl⟩ := idle_fires fired
      cases logged <;> exact code_of_records (schedule_records _ _)
  | quantumCompleted =>
      obtain ⟨proc, -, rfl⟩ := quantum_fires fired
      exact code_of_records (schedule_records _ _)
  | diskTick =>
      obtain rfl := Option.some.inj fired
      exact code_of_records (tick_records kernel)

theorem fetched_code (kernel : Kernel) (proc : ProcId) :
    FetchedCode kernel proc (fetched kernel proc) := by
  have fields : ∀ other, ((fetched kernel proc).procs other).segId = (kernel.procs other).segId ∧
      ((fetched kernel proc).procs other).codeLen = (kernel.procs other).codeLen ∧
      ((fetched kernel proc).procs other).pc =
        if other = proc then (kernel.procs other).pc + 1 else (kernel.procs other).pc := by
    intro other
    by_cases same : other = proc
    · subst same
      simp [fetched, processLog, Kernel.log, Kernel.modifyProc]
    · simp [fetched, processLog, Kernel.log, Kernel.modifyProc, same]
  exact
    { listed := rfl
      next := rfl
      segments := rfl
      segId := fun other => (fields other).1
      codeLen := fun other => (fields other).2.1
      pc := fun other => (fields other).2.2 }

theorem execute_code {instr : Instr} (fired : kernelStep kernel (.execute instr) = some after) :
    ∃ proc, kernel.scheduler.scheduledProc = some proc ∧ FetchedCode kernel proc after := by
  obtain ⟨proc, running, evaluated⟩ := execute_fires fired
  have fetch := fetched_code kernel proc
  have kept := same_code (eval_code evaluated)
  refine ⟨proc, running, ?_⟩
  exact
    { listed := kept.listed.trans fetch.listed
      next := kept.next.trans fetch.next
      segments := kept.segments.trans fetch.segments
      segId := fun other => (kept.segId other).trans (fetch.segId other)
      codeLen := fun other => (kept.codeLen other).trans (fetch.codeLen other)
      pc := fun other => (kept.pc other).trans (fetch.pc other) }

theorem create_code (kernel : Kernel) (program : Program) (fresh : Nat → Page) :
    LoadedCode kernel program fresh (processCreate kernel program fresh) := by
  have records := create_records kernel program fresh
  simp only [recordView, Prod.mk.injEq] at records
  obtain ⟨listed, next, segments, -, images⟩ := records
  refine
    { listed := listed
      next := next
      segments := segments
      own := ?_
      others := ?_ }
  · have image := congrFun images kernel.nextProcId
    rw [if_pos rfl] at image
    obtain ⟨-, pc, codeLen, segId, -⟩ := image_fields image
    exact ⟨segId, codeLen, pc⟩
  · intro proc different
    have image := congrFun images proc
    rw [if_neg different] at image
    obtain ⟨-, pc, codeLen, segId, -⟩ := image_fields image
    exact ⟨segId, codeLen, pc⟩

theorem finish_code {proc : ProcId} (running : kernel.scheduler.scheduledProc = some proc)
    (finished : processFinish kernel proc = some after) : FreedCode kernel proc after := by
  obtain ⟨interrupted, closed, segTable, listed, unlisted, rfl, freed, left⟩ :=
    finish_parts running finished
  have before := same_code (code_of_records unlisted)
  have kept := same_code (code_of_records left)
  obtain ⟨procs, procTable, next, segments⟩ :=
    close_files_frame interrupted proc (interrupted.procs proc).oFiles
  rw [segments, procs, before.segId, before.segments] at freed
  have segId := kept.segId
  have codeLen := kept.codeLen
  have pc := kept.pc
  simp only [procs] at segId codeLen pc
  exact
    { member := listed
      listed := (kept.listed.trans procTable).trans before.listed
      next := (kept.next.trans next).trans before.next
      segments := freed.trans (congrArg some kept.segments.symm)
      segId := fun other => (segId other).trans (before.segId other)
      codeLen := fun other => (codeLen other).trans (before.codeLen other)
      pc := fun other => (pc other).trans (before.pc other) }

/-! ## The ledger -/

/-- Program counters count evaluated instructions and code lengths loaded ones;
ids that were not handed out yet have neither. -/
structure Ledgered (kernel : Kernel) (ledger : Ledger) : Prop where
  counter : ∀ proc < kernel.nextProcId, (kernel.procs proc).pc = (ledger.evaluated proc).length
  length : ∀ proc < kernel.nextProcId, (kernel.procs proc).codeLen = (ledger.loaded proc).length
  unused : ∀ proc, kernel.nextProcId ≤ proc →
    ledger.loaded proc = [] ∧ ledger.evaluated proc = []

theorem ledgered_of_code {ledger : Ledger} (ledgered : Ledgered kernel ledger)
    (next : after.nextProcId = kernel.nextProcId)
    (codeLen : ∀ proc, (after.procs proc).codeLen = (kernel.procs proc).codeLen)
    (pc : ∀ proc, (after.procs proc).pc = (kernel.procs proc).pc) : Ledgered after ledger where
  counter := fun proc used => (pc proc).trans (ledgered.counter proc (next ▸ used))
  length := fun proc used => (codeLen proc).trans (ledgered.length proc (next ▸ used))
  unused := fun proc beyond => ledgered.unused proc (next ▸ beyond)

theorem create_ledgered {ledger : Ledger} (ledgered : Ledgered kernel ledger)
    (program : Program) (fresh : Nat → Page) :
    Ledgered (processCreate kernel program fresh)
      (ledger.record kernel (.processCreate program fresh)) := by
  have code := create_code kernel program fresh
  have split : ∀ {proc}, proc < (processCreate kernel program fresh).nextProcId →
      proc = kernel.nextProcId ∨ (proc < kernel.nextProcId ∧ proc ≠ kernel.nextProcId) := by
    intro proc used
    rw [code.next] at used
    exact (Nat.lt_succ_iff_lt_or_eq.mp used).symm.imp_right fun old => ⟨old, Nat.ne_of_lt old⟩
  refine
    { counter := ?_
      length := ?_
      unused := ?_ }
  · intro proc used
    rcases split used with rfl | ⟨old, different⟩
    · rw [code.own.2.2]
      simp [Ledger.record, (ledgered.unused kernel.nextProcId (Nat.le_refl _)).2]
    · rw [(code.others proc different).2.2, ledgered.counter proc old]
      rfl
  · intro proc used
    rcases split used with rfl | ⟨old, different⟩
    · rw [code.own.2.1]
      simp [Ledger.record]
    · rw [(code.others proc different).2.1, ledgered.length proc old]
      simp [Ledger.record, different]
  · intro proc beyond
    rw [code.next] at beyond
    have different : proc ≠ kernel.nextProcId := (Nat.ne_of_lt beyond).symm
    obtain ⟨loaded, evaluated⟩ := ledgered.unused proc (Nat.le_of_succ_le beyond)
    exact ⟨by simpa [Ledger.record, different] using loaded, evaluated⟩

theorem execute_ledgered {ledger : Ledger} {instr : Instr} (ledgered : Ledgered kernel ledger)
    (numbered : ∀ proc, kernel.scheduler.scheduledProc = some proc → proc < kernel.nextProcId)
    (fired : kernelStep kernel (.execute instr) = some after) :
    Ledgered after (ledger.record kernel (.execute instr)) := by
  obtain ⟨proc, running, code⟩ := execute_code fired
  have recorded : ledger.record kernel (.execute instr) =
      { ledger with
        evaluated := Function.update ledger.evaluated proc (ledger.evaluated proc ++ [instr]) } := by
    simp [Ledger.record, running]
  rw [recorded]
  refine
    { counter := ?_
      length := fun other used =>
        (code.codeLen other).trans (ledgered.length other (code.next ▸ used))
      unused := ?_ }
  · intro other used
    rw [code.next] at used
    rw [code.pc other]
    by_cases same : other = proc
    · subst same
      simp [ledgered.counter other used]
    · simp [same, ledgered.counter other used]
  · intro other beyond
    rw [code.next] at beyond
    have different : other ≠ proc := by
      rintro rfl
      exact absurd (numbered other running) (Nat.not_lt.mpr beyond)
    obtain ⟨loaded, evaluated⟩ := ledgered.unused other beyond
    exact ⟨loaded, by simpa [different] using evaluated⟩

theorem step_ledgered {ledger : Ledger} {event : KernelEvent}
    (reached : Reachable kernelSystem kernel) (ledgered : Ledgered kernel ledger)
    (fired : kernelStep kernel event = some after) :
    Ledgered after (ledger.record kernel event) := by
  cases event with
  | processCreate program fresh =>
      obtain rfl := Option.some.inj fired
      exact create_ledgered ledgered program fresh
  | execute instr =>
      exact execute_ledgered ledgered (fun _ running => (scheduled_numbered reached running).2) fired
  | processFinish =>
      obtain ⟨proc, running, finished⟩ := finish_fires fired
      have code := finish_code running finished
      exact ledgered_of_code ledgered code.next code.codeLen code.pc
  | idleDispatch | quantumCompleted | diskTick =>
      have code := spared_code fired rfl
      exact ledgered_of_code ledgered code.next code.codeLen code.pc

theorem empty_ledgered : Ledgered kernelInit Ledger.empty where
  counter := fun _ _ => rfl
  length := fun _ _ => rfl
  unused := fun _ _ => ⟨rfl, rfl⟩

theorem reachable_ledgered {state : Kernel × Ledger} (reached : Reachable recordedSystem state) :
    Ledgered state.1 state.2 := by
  apply reachable_invariant (fun state => Ledgered state.1 state.2) reached empty_ledgered
  intro before event after reachedBefore ledgered fired
  obtain ⟨step, record⟩ := history_step fired
  rw [record]
  exact step_ledgered (history_reachable reachedBefore) ledgered step

/-! ## Runs that evaluate the program -/

/-- The fetch stays in range: the instruction evaluated for the scheduled process
is the one at its program counter in the code it was loaded with. -/
def FetchInRange (state : Kernel × Ledger) : KernelEvent → Prop
  | .execute instr => ∀ proc, state.1.scheduler.scheduledProc = some proc →
      (state.2.loaded proc)[(state.1.procs proc).pc]? = some instr
  | _ => True

instance (state : Kernel × Ledger) (event : KernelEvent) : Decidable (FetchInRange state event) :=
  match event with
  | .execute instr => inferInstanceAs (Decidable (∀ proc ∈ state.1.scheduler.scheduledProc,
      (state.2.loaded proc)[(state.1.procs proc).pc]? = some instr))
  | .processCreate _ _ | .idleDispatch _ | .quantumCompleted | .processFinish | .diskTick =>
      inferInstanceAs (Decidable True)

/-- Every program loaded satisfies `ok`. -/
def Loads (ok : List Instr → Prop) : KernelEvent → Prop
  | .processCreate program _ => ok program.code
  | _ => True

instance (ok : List Instr → Prop) [DecidablePred ok] (event : KernelEvent) :
    Decidable (Loads ok event) :=
  match event with
  | .processCreate program _ => inferInstanceAs (Decidable (ok program.code))
  | .idleDispatch _ | .execute _ | .quantumCompleted | .processFinish | .diskTick =>
      inferInstanceAs (Decidable True)

theorem record_loaded_ok (ok : List Instr → Prop) {ledger : Ledger} {event : KernelEvent}
    (holds : ∀ proc, ok (ledger.loaded proc)) (allowed : Loads ok event) :
    ∀ proc, ok ((ledger.record kernel event).loaded proc) := by
  intro proc
  cases event with
  | processCreate program fresh =>
      by_cases new : proc = kernel.nextProcId
      · have added : ok program.code := allowed
        simpa [Ledger.record, new] using added
      · simpa [Ledger.record, new] using holds proc
  | execute instr =>
      cases running : kernel.scheduler.scheduledProc <;>
        simpa [Ledger.record, running] using holds proc
  | idleDispatch | quantumCompleted | processFinish | diskTick => exact holds proc

theorem loaded_ok (ok : List Instr → Prop) (empty : ok [])
    {past : List ((Kernel × Ledger) × KernelEvent)} {state : Kernel × Ledger}
    (trace : Trace recordedSystem past state) (loads : ∀ entry ∈ past, Loads ok entry.2)
    (proc : ProcId) : ok (state.2.loaded proc) := by
  refine trace_invariant (fun _ event => Loads ok event)
    (fun state => ∀ proc, ok (state.2.loaded proc)) trace loads
    (fun _ => empty) ?_ proc
  intro before event after _ holds allowed fired
  rw [(history_step fired).2]
  exact record_loaded_ok ok holds allowed

theorem prefix_snoc {α : Type*} {items whole : List α} {item : α} (before : items <+: whole)
    (next : whole[items.length]? = some item) : items ++ [item] <+: whole := by
  obtain ⟨rest, rfl⟩ := before
  rw [List.getElem?_append_right (Nat.le_refl _), Nat.sub_self] at next
  cases rest with
  | nil => simp at next
  | cons head tail =>
      obtain rfl : head = item := by simpa using next
      exact ⟨tail, by simp⟩

theorem step_follows {ledger : Ledger} {event : KernelEvent}
    (reached : Reachable kernelSystem kernel) (ledgered : Ledgered kernel ledger)
    (follows : ∀ proc, ledger.evaluated proc <+: ledger.loaded proc)
    (inRange : FetchInRange (kernel, ledger) event) :
    ∀ proc, (ledger.record kernel event).evaluated proc <+:
      (ledger.record kernel event).loaded proc := by
  intro proc
  cases event with
  | processCreate program fresh =>
      by_cases new : proc = kernel.nextProcId
      · subst new
        simp [Ledger.record, (ledgered.unused kernel.nextProcId (Nat.le_refl _)).2]
      · simpa [Ledger.record, new] using follows proc
  | execute instr =>
      cases running : kernel.scheduler.scheduledProc with
      | none => simpa [Ledger.record, running] using follows proc
      | some scheduled =>
          by_cases same : proc = scheduled
          · subst same
            have next := inRange proc running
            rw [ledgered.counter proc (scheduled_numbered reached running).2] at next
            simpa [Ledger.record, running] using prefix_snoc (follows proc) next
          · simpa [Ledger.record, running, same] using follows proc
  | idleDispatch | quantumCompleted | processFinish | diskTick => exact follows proc

/-- In a run whose fetches stay in range, what has been evaluated for a process is
a prefix of its code. -/
theorem evaluated_prefix {past : List ((Kernel × Ledger) × KernelEvent)}
    {state : Kernel × Ledger} (trace : Trace recordedSystem past state)
    (inRange : ∀ entry ∈ past, FetchInRange entry.1 entry.2) (proc : ProcId) :
    state.2.evaluated proc <+: state.2.loaded proc := by
  refine trace_invariant FetchInRange
    (fun state => ∀ proc, state.2.evaluated proc <+: state.2.loaded proc)
    trace inRange (fun _ => List.nil_prefix) ?_ proc
  intro before event after reached follows allowed fired
  rw [(history_step fired).2]
  exact step_follows (history_reachable reached) (reachable_ledgered reached) follows allowed

end Ribabari.ProgramLedger

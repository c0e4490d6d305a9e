import Ribabari.Kernel.Completion
import Ribabari.Kernel.LogEntries
import Ribabari.Kernel.RecordGrowth

/-!
# The output of a program

What the logs show under the name of a program is what the program does by itself, in
program order: its requests and prints in the I/O log, its semaphore calls in the
resource log, and one line for each instruction in the process log. The other programs,
the disk and the scheduler cannot reorder, repeat or lose any of it.
-/

namespace Ribabari.ProgramOutput

open Filter Ribabari.ProcessRecords Ribabari.SemaphoreTable Ribabari.KernelState
open Ribabari.KernelEvents Ribabari.CpuLoop Ribabari.ArmSweep Ribabari.ProgramLedger
open Ribabari.Placement Ribabari.InstructionFetch Ribabari.Completion Ribabari.RecordGrowth
open Ribabari.LogEntries Ribabari.FairRuns Ribabari.TransitionSystem

set_option autoImplicit false

/-! ## The output of a program by itself -/

def instrOutput (name : CString) (instr : Instr) : List IoLogInfo :=
  match instr.op with
  | .read => [.diskRequest name true]
  | .write => [.diskRequest name false]
  | .print => [.print name instr.value]
  | .exec | .semP | .semV => []

/-- The semaphore an instruction calls, and whether it takes it. -/
def instrAccess (instr : Instr) : Option (CString × Bool) :=
  match instr.op with
  | .semP => instr.sem.map fun name => (name, true)
  | .semV => instr.sem.map fun name => (name, false)
  | .exec | .read | .write | .print => none

/-! ## What the logs show under a name -/

def outputName : IoLogInfo → Option CString
  | .print name _ | .diskRequest name _ => some name
  | .fileSystem _ _ _ => none

def outputOf (logs : Logs) (name : CString) : List IoLogInfo :=
  logs.ioLogList.filter fun entry => outputName entry = some name

def accessOf (name : CString) (entry : ResAcqLog) : Option (CString × Bool) :=
  if entry.procName = name then some (entry.semName, entry.acq) else none

def lineOf (name : CString) (entry : Option ProcLogInfo) : Option Nat :=
  entry.bind fun info => if info.name = name then some info.pc else none

/-- The logs show these instructions under the name. -/
structure Reported (logs : Logs) (name : CString) (evaluated : List Instr) : Prop where
  output : outputOf logs name = evaluated.flatMap (instrOutput name)
  accesses : logs.resAcqLogList.filterMap (accessOf name) = evaluated.filterMap instrAccess
  counters : logs.processLogList.filterMap (lineOf name) = List.range evaluated.length

variable {kernel after : Kernel}

section Entries

variable {logs : Logs} {name : CString} {evaluated : List Instr} {entries : Entries}

theorem nothing_reported (name : CString) : Reported logsInit name [] := ⟨rfl, rfl, rfl⟩

/-- Entries that show nothing under the name. -/
theorem reported_quiet (reported : Reported logs name evaluated)
    (io : ∀ entry ∈ entries.io, outputName entry ≠ some name)
    (res : ∀ entry ∈ entries.res, accessOf name entry = none)
    (process : ∀ entry ∈ entries.process, lineOf name entry = none) :
    Reported (appended logs entries) name evaluated := by
  have silent : entries.io.filter (fun entry => outputName entry = some name) = [] := by
    apply List.filter_eq_nil_iff.mpr
    intro entry member
    simp [io entry member]
  constructor
  · rw [outputOf, appended, List.filter_append, silent, List.append_nil]
    exact reported.output
  · rw [appended, List.filterMap_append, List.filterMap_eq_nil_iff.mpr res, List.append_nil]
    exact reported.accesses
  · rw [appended, List.filterMap_append, List.filterMap_eq_nil_iff.mpr process, List.append_nil]
    exact reported.counters

/-- Entries that show one more instruction under the name. -/
theorem reported_next (reported : Reported logs name evaluated) {instr : Instr}
    (io : entries.io.filter (fun entry => outputName entry = some name) = instrOutput name instr)
    (res : entries.res.filterMap (accessOf name) = (instrAccess instr).toList)
    (process : entries.process.filterMap (lineOf name) = [evaluated.length]) :
    Reported (appended logs entries) name (evaluated ++ [instr]) := by
  constructor
  · have output := reported.output
    rw [outputOf] at output
    rw [outputOf, appended, List.filter_append, output, io, List.flatMap_append]
    simp
  · rw [appended, List.filterMap_append, reported.accesses, res, List.filterMap_append]
    cases access : instrAccess instr with
    | none => simp [access]
    | some call => simp [access]
  · rw [appended, List.filterMap_append, reported.counters, process, List.length_append,
      List.length_singleton, List.range_succ]

end Entries

/-! ## One event -/

/-- Opening and closing files shows under no name. -/
theorem file_change_output {entry : IoLogInfo} (change : isFileChange entry = true) :
    outputName entry = none := by
  unfold isFileChange at change
  split at change <;> simp_all [outputName]

theorem instr_io_own (kernel : Kernel) (proc : ProcId) (instr : Instr) :
    (instrIo kernel proc instr).filter
        (fun entry => outputName entry = some (kernel.procs proc).name) =
      instrOutput (kernel.procs proc).name instr := by
  have opening : ∀ inumber : Int, (openEntries kernel proc inumber).filter
      (fun entry => outputName entry = some (kernel.procs proc).name) = [] := by
    intro inumber
    apply List.filter_eq_nil_iff.mpr
    intro entry member
    simp [file_change_output (open_entries_change kernel proc inumber entry member)]
  rcases instr with ⟨op, value, sem⟩
  cases op with
  | read | write =>
      simp only [instrIo, instrOutput, List.filter_cons, opening]
      exact if_pos (decide_eq_true rfl)
  | exec | print | semP | semV => simp [instrIo, instrOutput, outputName]

theorem instr_io_named (kernel : Kernel) (proc : ProcId) (instr : Instr) :
    ∀ entry ∈ instrIo kernel proc instr, ∀ name, outputName entry = some name →
      name = (kernel.procs proc).name := by
  have opening : ∀ (inumber : Int), ∀ entry ∈ openEntries kernel proc inumber, ∀ name,
      outputName entry = some name → name = (kernel.procs proc).name := by
    intro inumber entry member name named
    rw [file_change_output (open_entries_change kernel proc inumber entry member)] at named
    exact nomatch named
  intro entry member name named
  rcases instr with ⟨op, value, sem⟩
  cases op with
  | read | write =>
      rcases List.mem_cons.mp member with rfl | opened
      · exact (Option.some.inj named).symm
      · exact opening _ entry opened name named
  | print =>
      obtain rfl := List.mem_singleton.mp member
      exact (Option.some.inj named).symm
  | exec | semP | semV => exact absurd member List.not_mem_nil

/-- The semaphore calls of an instruction whose semaphore was found. -/
theorem instr_res_own {proc : ProcId} {instr : Instr}
    (evaluated : eval kernel proc instr = some after) :
    (instrRes kernel proc instr).filterMap (accessOf (kernel.procs proc).name) =
      (instrAccess instr).toList := by
  have named : ∀ sem, instrSemaphore kernel instr = some sem → instr.sem = some sem.name := by
    intro sem found
    obtain ⟨name, asked, listed⟩ := Option.bind_eq_some_iff.mp found
    rw [asked, find_name listed]
  rcases instr with ⟨op, value, sem⟩
  cases op with
  | exec | read | write | print => rfl
  | semP =>
      obtain ⟨found, called, finds, -, -⟩ := acquire_inv evaluated
      obtain rfl : sem = some found.name := named found finds
      simp [instrRes, finds, instrAccess, accessOf]
  | semV =>
      obtain ⟨found, called, finds, -, -⟩ := release_inv evaluated
      obtain rfl : sem = some found.name := named found finds
      simp [instrRes, finds, instrAccess, accessOf]

theorem instr_res_named (kernel : Kernel) (proc : ProcId) (instr : Instr) :
    ∀ entry ∈ instrRes kernel proc instr, entry.procName = (kernel.procs proc).name := by
  intro entry member
  unfold instrRes at member
  split at member
  · rw [List.mem_singleton.mp member]
  · rw [List.mem_singleton.mp member]
  · exact absurd member List.not_mem_nil

/-- An event that evaluates nothing shows nothing under any name. -/
theorem quiet_step {event : KernelEvent} (fired : kernelStep kernel event = some after)
    (idle : ∀ instr, event ≠ .execute instr) {name : CString} {evaluated : List Instr}
    (reported : Reported kernel.logs name evaluated) : Reported after.logs name evaluated := by
  rw [step_logs fired]
  have silent : Reported (appended kernel.logs .empty) name evaluated := by
    rw [appended_empty]
    exact reported
  have none : ∀ entries : List IoLogInfo, (∀ entry ∈ entries, outputName entry = none) →
      Reported (appended kernel.logs (ioEntries entries)) name evaluated := by
    intro entries unnamed
    apply reported_quiet reported
    · intro entry member
      rw [unnamed entry member]
      exact fun named => absurd named.symm (Option.some_ne_none _)
    · exact fun entry member => absurd member List.not_mem_nil
    · exact fun entry member => absurd member List.not_mem_nil
  cases event with
  | execute instr => exact absurd rfl (idle instr)
  | processCreate program fresh =>
      cases running : kernel.scheduler.scheduledProc with
      | none =>
          simp only [eventEntries, running, Option.elim_none]
          exact silent
      | some proc =>
          simp only [eventEntries, running, Option.elim_some]
          exact silent
  | idleDispatch logged =>
      obtain ⟨free, -⟩ := idle_fires fired
      cases logged with
      | false =>
          simp only [eventEntries, free, Option.elim_none]
          exact silent
      | true =>
          apply reported_quiet reported
          · exact fun entry member => absurd member List.not_mem_nil
          · exact fun entry member => absurd member List.not_mem_nil
          · intro entry member
            obtain rfl := List.mem_singleton.mp member
            rfl
  | quantumCompleted =>
      obtain ⟨proc, running, -⟩ := quantum_fires fired
      simp only [eventEntries, running, Option.elim_some]
      exact silent
  | processFinish =>
      obtain ⟨proc, running, -⟩ := finish_fires fired
      simp only [eventEntries, running, Option.elim_some]
      exact none _ fun entry member => file_change_output
        (close_all_entries_change kernel proc (kernel.procs proc).oFiles entry member)
  | diskTick =>
      apply reported_quiet reported
      · intro entry member
        obtain ⟨request, -, rfl⟩ := List.mem_map.mp member
        exact fun named => absurd named.symm (Option.some_ne_none _)
      · exact fun entry member => absurd member List.not_mem_nil
      · exact fun entry member => absurd member List.not_mem_nil

/-- An evaluation shows its instruction under the name of its process and nothing under
any other. -/
theorem execute_step {instr : Instr} (fired : kernelStep kernel (.execute instr) = some after)
    {proc : ProcId} (running : kernel.scheduler.scheduledProc = some proc) {name : CString}
    {evaluated : List Instr} (reported : Reported kernel.logs name evaluated) :
    (name ≠ (kernel.procs proc).name → Reported after.logs name evaluated) ∧
      (name = (kernel.procs proc).name → (kernel.procs proc).pc = evaluated.length →
        Reported after.logs name (evaluated ++ [instr])) := by
  have logs := step_logs fired
  simp only [eventEntries, running, Option.elim_some] at logs
  rw [logs]
  constructor
  · intro differs
    apply reported_quiet reported
    · exact fun entry member same =>
        differs (instr_io_named kernel proc instr entry member name same)
    · intro entry member
      exact if_neg fun same =>
        differs (same.symm.trans (instr_res_named kernel proc instr entry member))
    · intro entry member
      obtain rfl := List.mem_singleton.mp member
      exact if_neg differs.symm
  · rintro rfl counter
    obtain ⟨other, scheduled, evaluation⟩ := execute_fires fired
    obtain rfl : proc = other := Option.some.inj (running.symm.trans scheduled)
    have res := instr_res_own evaluation
    rw [fetched_res, fetched_name] at res
    apply reported_next reported
    · exact instr_io_own kernel proc instr
    · exact res
    · rw [← counter]
      simp [runEntries, lineOf, fetchEntry]

/-! ## Every run -/

def InUse (kernel : Kernel) (proc : ProcId) : Prop := 0 < proc ∧ proc < kernel.nextProcId

instance (kernel : Kernel) (proc : ProcId) : Decidable (InUse kernel proc) :=
  inferInstanceAs (Decidable (_ ∧ _))

/-- A program is loaded under a name that no process has had before. -/
def NewName (state : Kernel × Ledger) : KernelEvent → Prop
  | .processCreate program _ =>
      ∀ proc < state.1.nextProcId, 0 < proc → (state.1.procs proc).name ≠ program.name
  | _ => True

instance (state : Kernel × Ledger) : DecidablePred (NewName state)
  | .processCreate program _ => inferInstanceAs (Decidable
      (∀ proc < state.1.nextProcId, 0 < proc → (state.1.procs proc).name ≠ program.name))
  | .idleDispatch _ | .execute _ | .quantumCompleted | .processFinish | .diskTick =>
      inferInstanceAs (Decidable True)

structure AllReported (state : Kernel × Ledger) : Prop where
  distinct : ∀ proc other, InUse state.1 proc → InUse state.1 other →
    (state.1.procs proc).name = (state.1.procs other).name → proc = other
  shown : ∀ proc, InUse state.1 proc →
    Reported state.1.logs (state.1.procs proc).name (state.2.evaluated proc)
  silent : ∀ name, (∀ proc, InUse state.1 proc → (state.1.procs proc).name ≠ name) →
    Reported state.1.logs name []

theorem start_reported : AllReported recordedSystem.start where
  distinct := fun _ _ used _ _ => absurd used.2 (Nat.not_lt_of_le used.1)
  shown := fun _ used => absurd used.2 (Nat.not_lt_of_le used.1)
  silent := fun name _ => nothing_reported name

theorem create_reported {ledger : Ledger} (reached : Reachable recordedSystem (kernel, ledger))
    (reported : AllReported (kernel, ledger)) {program : Program}
    {fresh : Nat → SegmentMemory.Page}
    (named : NewName (kernel, ledger) (.processCreate program fresh))
    (fired : kernelStep kernel (.processCreate program fresh) = some after) :
    AllReported (after, ledger.record kernel (.processCreate program fresh)) := by
  have quiet : ∀ {name evaluated}, Reported kernel.logs name evaluated →
      Reported after.logs name evaluated :=
    quiet_step fired fun _ same => nomatch same
  have next : after.nextProcId = kernel.nextProcId + 1 := by
    rw [← Option.some.inj fired]
    exact (create_code kernel program fresh).next
  have unused : ∀ proc, InUse kernel proc → (kernel.procs proc).name ≠ program.name :=
    fun proc used => named proc used.2 used.1
  have own : (after.procs kernel.nextProcId).name = program.name := by
    rw [← Option.some.inj fired, create_procs, Function.update_self]
    rfl
  have parted : ∀ proc, InUse after proc → proc = kernel.nextProcId ∨
      (InUse kernel proc ∧ (after.procs proc).name = (kernel.procs proc).name) := by
    rintro proc ⟨one, used⟩
    rw [next] at used
    rcases Nat.lt_succ_iff_lt_or_eq.mp used with old | new
    · exact .inr ⟨⟨one, old⟩, (step_keeps fired old).name⟩
    · exact .inl new
  have grown : ∀ proc, InUse kernel proc → InUse after proc ∧
      (after.procs proc).name = (kernel.procs proc).name := by
    rintro proc ⟨one, used⟩
    refine ⟨⟨one, ?_⟩, (step_keeps fired used).name⟩
    rw [next]
    exact Nat.lt_succ_of_lt used
  constructor
  · intro proc other used otherUsed same
    rcases parted proc used with rfl | ⟨old, name⟩
    · rcases parted other otherUsed with rfl | ⟨otherOld, otherName⟩
      · rfl
      · exact absurd (otherName.symm.trans (same.symm.trans own)) (unused other otherOld)
    · rcases parted other otherUsed with rfl | ⟨otherOld, otherName⟩
      · exact absurd (name.symm.trans (same.trans own)) (unused proc old)
      · exact reported.distinct proc other old otherOld (name.symm.trans (same.trans otherName))
  · intro proc used
    rcases parted proc used with rfl | ⟨old, name⟩
    · have none : ledger.evaluated kernel.nextProcId = [] :=
        ((reachable_ledgered reached).unused _ (Nat.le_refl _)).2
      have first : Reported after.logs program.name [] := quiet (reported.silent _ unused)
      change Reported after.logs (after.procs kernel.nextProcId).name
        (ledger.evaluated kernel.nextProcId)
      rw [own, none]
      exact first
    · have shown := quiet (reported.shown proc old)
      change Reported after.logs (after.procs proc).name (ledger.evaluated proc)
      rw [name]
      exact shown
  · intro name absent
    apply quiet
    apply reported.silent
    intro proc used
    obtain ⟨later, same⟩ := grown proc used
    rw [← same]
    exact absent proc later

/-- A step that loads nothing keeps the names. -/
theorem names_kept {event : KernelEvent} (fired : kernelStep kernel event = some after)
    (unloaded : ∀ program fresh, event ≠ .processCreate program fresh) (proc : ProcId) :
    (InUse after proc ↔ InUse kernel proc) ∧
      (InUse kernel proc → (after.procs proc).name = (kernel.procs proc).name) := by
  have next := next_kept fired unloaded
  constructor
  · rw [InUse, InUse, next]
  · exact fun used => (step_keeps fired used.2).name

theorem execute_reported {ledger : Ledger} (reached : Reachable recordedSystem (kernel, ledger))
    (reported : AllReported (kernel, ledger)) {instr : Instr}
    (fired : kernelStep kernel (.execute instr) = some after) :
    AllReported (after, ledger.record kernel (.execute instr)) := by
  obtain ⟨proc, running, -⟩ := execute_fires fired
  have kernelReached := history_reachable reached
  obtain ⟨listed, numbered⟩ := scheduled_numbered kernelReached running
  have used : InUse kernel proc := ⟨(numbered_from_one kernelReached).2 proc listed, numbered⟩
  have counter := (reachable_ledgered reached).counter proc numbered
  have record : (ledger.record kernel (.execute instr)).evaluated =
      Function.update ledger.evaluated proc (ledger.evaluated proc ++ [instr]) := by
    simp only [Ledger.record, running]
  have kept := names_kept fired (by
    intro program fresh same
    cases same)
  constructor
  · intro first second firstUsed secondUsed same
    have firstOld := (kept first).1.mp firstUsed
    have secondOld := (kept second).1.mp secondUsed
    rw [(kept first).2 firstOld, (kept second).2 secondOld] at same
    exact reported.distinct first second firstOld secondOld same
  · intro other otherUsed
    have old := (kept other).1.mp otherUsed
    have shown := execute_step fired running (reported.shown other old)
    rw [(kept other).2 old]
    change Reported after.logs (kernel.procs other).name
      ((ledger.record kernel (.execute instr)).evaluated other)
    rw [record]
    by_cases own : other = proc
    · subst own
      rw [Function.update_self]
      exact shown.2 rfl counter
    · rw [Function.update_of_ne own]
      exact shown.1 fun same => own (reported.distinct other proc old used same)
  · intro name unused
    have old : ∀ other, InUse kernel other → (kernel.procs other).name ≠ name := by
      intro other otherUsed
      rw [← (kept other).2 otherUsed]
      exact unused other ((kept other).1.mpr otherUsed)
    exact (execute_step fired running (reported.silent name old)).1 (old proc used).symm

theorem quiet_reported {ledger : Ledger} (reported : AllReported (kernel, ledger))
    {event : KernelEvent} (fired : kernelStep kernel event = some after)
    (unloaded : ∀ program fresh, event ≠ .processCreate program fresh)
    (idle : ∀ instr, event ≠ .execute instr) : AllReported (after, ledger) := by
  have kept := names_kept fired unloaded
  constructor
  · intro first second firstUsed secondUsed same
    have firstOld := (kept first).1.mp firstUsed
    have secondOld := (kept second).1.mp secondUsed
    rw [(kept first).2 firstOld, (kept second).2 secondOld] at same
    exact reported.distinct first second firstOld secondOld same
  · intro proc used
    have old := (kept proc).1.mp used
    rw [(kept proc).2 old]
    exact quiet_step fired idle (reported.shown proc old)
  · intro name unused
    apply quiet_step fired idle
    apply reported.silent
    intro proc used
    rw [← (kept proc).2 used]
    exact unused proc ((kept proc).1.mpr used)

theorem all_reported {past : List ((Kernel × Ledger) × KernelEvent)} {state : Kernel × Ledger}
    (trace : Trace recordedSystem past state)
    (named : ∀ entry ∈ past, NewName entry.1 entry.2) : AllReported state := by
  apply trace_invariant NewName AllReported trace named start_reported
  intro before event after reached reported allowed fired
  obtain ⟨step, record⟩ := history_step fired
  change kernelStep before.1 event = some after.1 at step
  have same : after = (after.1, before.2.record before.1 event) := Prod.ext rfl record
  rw [same]
  cases event with
  | processCreate program fresh => exact create_reported reached reported allowed step
  | execute instr => exact execute_reported reached reported step
  | idleDispatch | quantumCompleted | processFinish | diskTick =>
      apply quiet_reported reported step
      · exact fun _ _ same => nomatch same
      · exact fun _ same => nomatch same

theorem evaluated_so_far {past : List ((Kernel × Ledger) × KernelEvent)}
    {state : Kernel × Ledger} (trace : Trace recordedSystem past state)
    (inRange : ∀ entry ∈ past, FetchInRange entry.1 entry.2) {proc : ProcId}
    (used : InUse state.1 proc) :
    state.2.evaluated proc = (state.2.loaded proc).take (state.1.procs proc).pc := by
  have follows := evaluated_prefix trace inRange proc
  rw [(reachable_ledgered ⟨past, trace⟩).counter proc used.2]
  exact List.prefix_iff_eq_take.mp follows

/-- Two programs that print and read in turns. -/
def printingProgram : Program :=
  { sampleProgram with
    name := ['p']
    code := [⟨.print, 3, none⟩, ⟨.print, 4, none⟩] }

def readingProgram : Program :=
  { sampleProgram with
    name := ['r']
    segId := 2
    code := [⟨.semP, 0, some ['s']⟩, ⟨.read, 45, none⟩] }

def turnsEvents : List KernelEvent :=
  [.processCreate printingProgram blankPage, .processCreate readingProgram blankPage,
    .idleDispatch true, .execute ⟨.print, 3, none⟩, .execute ⟨.semP, 0, some ['s']⟩,
    .quantumCompleted, .execute ⟨.print, 4, none⟩, .execute ⟨.read, 45, none⟩]

def turnsRecord : Kernel × Ledger :=
  (run recordedSystem turnsEvents recordedSystem.start).getD recordedSystem.start

/-- The kernel's own events of a run of the cpu load programs under new names. -/
theorem run_names_new (run : InfiniteRun recordedCpu)
    (named : ∀ time program fresh, run.events time = .processCreate program fresh →
      NewName ((run.states time).1.kernel, (run.states time).2)
        (.processCreate program fresh)) (time : Nat) :
    ∀ entry ∈ cpuRefinesKernel.project (run.past time), NewName entry.1 entry.2 := by
  apply cpuRefinesKernel.project_allowed NewName
  intro source member action acts
  obtain ⟨earlier, -, rfl⟩ := List.mem_map.mp member
  cases action with
  | processCreate program fresh => exact named earlier program fresh (create_action acts)
  | idleDispatch | execute | quantumCompleted | processFinish | diskTick => trivial

end Ribabari.ProgramOutput

import Ribabari.Loader.LineEndings
import Ribabari.Loader.ProgramRoundTrip
import Ribabari.Terminal.ProgramOutput

/-!
# The meaning of a program text

The lines of a program file say what the program prints, which tracks' requests it makes
and which semaphores it takes and gives back, in which order. The file is parsed, stored in
pages, fetched and evaluated among other programs; what the logs show of it in the end is
what its lines say.
-/

namespace Ribabari.TextMeaning

open Filter Ribabari.ProcessRecords Ribabari.SegmentMemory Ribabari.SemaphoreTable
open Ribabari.KernelState Ribabari.KernelEvents Ribabari.CpuLoop Ribabari.ProgramFile
open Ribabari.ProgramRoundTrip Ribabari.LineEndings Ribabari.ProgramLedger Ribabari.InstructionFetch
open Ribabari.Placement Ribabari.Completion Ribabari.RecordGrowth Ribabari.ProgramOutput
open Ribabari.FairRuns Ribabari.TransitionSystem

set_option autoImplicit false

/-! ## What the lines say -/

def Command.output (name : CString) : Command → List IoLogInfo
  | .binary .read _ => [.diskRequest name true]
  | .binary .write _ => [.diskRequest name false]
  | .binary .print k => [.print name k]
  | .binary .exec _ | .acquire _ | .release _ => []

def Command.access : Command → Option (CString × Bool)
  | .acquire sem => some (sem, true)
  | .release sem => some (sem, false)
  | .binary _ _ => none

/-- The logs show under the name what these lines say. -/
structure Shows (logs : Logs) (name : CString) (commands : List Command) : Prop where
  output : outputOf logs name = commands.flatMap (Command.output name)
  accesses : logs.resAcqLogList.filterMap (accessOf name) = commands.filterMap Command.access
  counters : logs.processLogList.filterMap (lineOf name) = List.range commands.length

theorem matches_output {command : Command} {instr : Instr} (name : CString)
    (parsed : command.Matches instr) :
    instrOutput name instr = Command.output name command ∧
      instrAccess instr = Command.access command := by
  rcases instr with ⟨op, value, sem⟩
  cases command with
  | binary mnemonic k =>
      obtain ⟨rfl, rfl, rfl⟩ := parsed
      cases mnemonic <;> exact ⟨rfl, rfl⟩
  | acquire taken =>
      obtain ⟨rfl, rfl⟩ := parsed
      exact ⟨rfl, rfl⟩
  | release given =>
      obtain ⟨rfl, rfl⟩ := parsed
      exact ⟨rfl, rfl⟩

/-- Instructions that were parsed from the lines do what the lines say. -/
theorem shows_of_reported {logs : Logs} {name : CString} {commands : List Command}
    {code : List Instr} (parsed : List.Forall₂ Command.Matches commands code)
    (reported : Reported logs name code) : Shows logs name commands := by
  have same : code.flatMap (instrOutput name) = commands.flatMap (Command.output name) ∧
      code.filterMap instrAccess = commands.filterMap Command.access := by
    clear reported
    induction parsed with
    | nil => exact ⟨rfl, rfl⟩
    | cons first rest ih =>
        obtain ⟨output, access⟩ := matches_output name first
        constructor
        · rw [List.flatMap_cons, List.flatMap_cons, output, ih.1]
        · rw [List.filterMap_cons, List.filterMap_cons, access, ih.2]
  constructor
  · rw [← same.1]
    exact reported.output
  · rw [← same.2]
    exact reported.accesses
  · rw [parsed.length_eq]
    exact reported.counters

/-! ## Loading a text -/

/-- What `process_create` reads from a file before it asks for memory. -/
def readProgram (table : List Semaphore) (reader : Reader) (garbage : Nat → Instr) :
    Option Program := do
  let header ← parseSyntheticProgram table reader
  let code ← readCode header.semTable garbage header.reader.rest
  some
    { name := header.name
      segId := header.segId
      priority := header.priority
      segSize := header.segSize
      semaphores := header.semaphores
      code := code.2 }

theorem create_file_eq (kernel : Kernel) (reader : Reader) (garbage : Nat → Instr)
    (fresh : Nat → Page) :
    processCreateFile kernel reader garbage fresh =
      (readProgram kernel.semTable reader garbage).map fun program =>
        processCreate kernel program fresh := by
  simp only [processCreateFile, readProgram, Option.bind_eq_bind, Option.map_bind,
    Function.comp_def, Option.map_some]

/-- The event loads the program of this text. -/
def LoadsText (text : DocumentedProgram) (kernel : Kernel) (program : Program) : Prop :=
  ∃ buf garbage, readProgram kernel.semTable { rest := text.text, buf := buf } garbage =
    some program

theorem loads_text_parsed {text : DocumentedProgram} {kernel : Kernel} {program : Program}
    (loads : LoadsText text kernel program) :
    program.name = text.name ∧ List.Forall₂ Command.Matches text.commands program.code := by
  obtain ⟨buf, garbage, read⟩ := loads
  obtain ⟨left, header⟩ := header_read text kernel.semTable buf
  obtain ⟨code, parsed, body⟩ := code_read text kernel.semTable garbage
  rw [readProgram, header] at read
  simp only [Option.bind_eq_bind, Option.bind_some, body, Option.some.injEq] at read
  rw [← read]
  exact ⟨rfl, parsed⟩

/-! ## Every run -/

variable {past : List ((Kernel × Ledger) × KernelEvent)} {state : Kernel × Ledger}

/-- The process has been loaded with this name and this code. -/
structure LoadedAs (state : Kernel × Ledger) (proc : ProcId) (program : Program) : Prop where
  used : InUse state.1 proc
  name : (state.1.procs proc).name = program.name
  code : state.2.loaded proc = program.code

theorem create_loaded_as {loader after : Kernel × Ledger} {program : Program}
    {fresh : Nat → Page} (reached : Reachable recordedSystem loader)
    (fired : recordedSystem.step loader (.processCreate program fresh) = some after) :
    LoadedAs after loader.1.nextProcId program := by
  obtain ⟨step, record⟩ := history_step fired
  have created : processCreate loader.1 program fresh = after.1 := Option.some.inj step
  have next := (create_code loader.1 program fresh).next
  rw [created] at next
  constructor
  · refine ⟨(numbered_from_one (history_reachable reached)).1, ?_⟩
    rw [next]
    exact Nat.lt_succ_self _
  · rw [← created, create_procs, Function.update_self]
    rfl
  · rw [record]
    exact Function.update_self _ _ _

theorem step_loaded_as {before after : Kernel × Ledger} {event : KernelEvent} {proc : ProcId}
    {program : Program} (loaded : LoadedAs before proc program)
    (fired : recordedSystem.step before event = some after) : LoadedAs after proc program := by
  obtain ⟨step, record⟩ := history_step fired
  have kept : after.2.loaded proc = before.2.loaded proc := by
    rw [record]
    cases event with
    | processCreate other fresh =>
        exact Function.update_of_ne (Nat.ne_of_lt loaded.used.2) _ _
    | execute instr =>
        cases running : before.1.scheduler.scheduledProc <;> simp [Ledger.record, running]
    | idleDispatch | quantumCompleted | processFinish | diskTick => rfl
  constructor
  · exact ⟨loaded.used.1, Nat.lt_of_lt_of_le loaded.used.2 (next_le step)⟩
  · rw [(step_keeps step loaded.used.2).name]
    exact loaded.name
  · rw [kept]
    exact loaded.code

theorem loaded_as (trace : Trace recordedSystem past state) {loader : Kernel × Ledger}
    {program : Program} {fresh : Nat → Page}
    (loads : (loader, KernelEvent.processCreate program fresh) ∈ past) :
    LoadedAs state loader.1.nextProcId program := by
  apply trace_eventually
    (fun before event => before = loader ∧ event = .processCreate program fresh)
    (fun state => LoadedAs state loader.1.nextProcId program) trace
  · rintro before event after reached ⟨rfl, rfl⟩ fired
    exact create_loaded_as reached fired
  · exact fun before event after reached loaded fired => step_loaded_as loaded fired
  · exact ⟨_, loads, rfl, rfl⟩

/-- The program that is read from the README's text, with these values in memory. -/
def readmeLoaded : Program where
  name := ['p', 'r', 'o', 'c', 'e', 's', 's', '1']
  segId := 50
  priority := 0
  segSize := 24
  semaphores := [['s']]
  code :=
    [⟨.exec, 20, none⟩, ⟨.semP, 7, some ['s']⟩, ⟨.read, 110, none⟩, ⟨.print, 50, none⟩,
      ⟨.write, 150, none⟩, ⟨.semV, 7, some ['s']⟩]

def readmeEvents : List KernelEvent :=
  [.processCreate readmeLoaded blankPage, .idleDispatch true, .execute ⟨.exec, 20, none⟩,
    .execute ⟨.semP, 7, some ['s']⟩, .execute ⟨.read, 110, none⟩]

def readmeRecord : Kernel × Ledger :=
  (run recordedSystem readmeEvents recordedSystem.start).getD recordedSystem.start

/-- The text of the program that reads one track. -/
def readingText : DocumentedProgram where
  name := ['s', 'i', 'n', 't', '1']
  segId := 1
  priority := 1
  segSize := 4
  semaphores := []
  commands := [.binary .read 0]
  name_plain := by decide
  segId_int := smallProgram.segId_int
  priority_int := smallProgram.segId_int
  segSize_int := smallProgram.segSize_int
  semaphores_nonempty := smallProgram.semaphores_nonempty
  semaphores_plain := smallProgram.semaphores_plain
  semaphores_unspaced := smallProgram.semaphores_unspaced
  commands_documented := by decide
  lines_short := by decide

end Ribabari.TextMeaning

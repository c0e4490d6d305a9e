import Ribabari.Kernel.CpuGuarantees
import Ribabari.Kernel.RemainingTime

/-!
# Remaining times under the cpu

The loop's condition and the dispatches together see to it that the scheduled process has
something left whenever the cpu evaluates an instruction. What is evaluated has an operand
in range while it comes from a program, which the cell behind the end of a process's code
does not.
-/

namespace Ribabari.EvaluationTime

open Ribabari.CLibrary Ribabari.ProcessRecords Ribabari.SegmentMemory Ribabari.KernelState
open Ribabari.KernelEvents Ribabari.CpuLoop Ribabari.ProgramLedger Ribabari.InstructionFetch
open Ribabari.CpuGuarantees Ribabari.Placement Ribabari.RemainingTime Ribabari.TransitionSystem

set_option autoImplicit false

/-- Where an evaluation may follow, the scheduled process is ready for it. -/
def ReadyToEvaluate (cpu : Cpu) : Prop :=
  match cpu.control with
  | .outer | .body _ => ScheduledReady cpu.kernel
  | .condition | .ending => True

theorem evaluates_in_body {cpu : Cpu} {event : CpuEvent} {instr : Instr}
    (ready : ReadyToEvaluate cpu) (acts : cpuAction cpu event = some (.execute instr)) :
    ScheduledReady cpu.kernel := by
  obtain ⟨-, ⟨first, control⟩, -⟩ := execute_action acts
  simpa only [ReadyToEvaluate, control] using ready

theorem goes_on_ready {kernel : Kernel} (goes : goesOn kernel = true) : ScheduledReady kernel := by
  intro proc running
  simp only [goesOn, running, Bool.and_eq_true, decide_eq_true_eq] at goes
  exact Int.le_of_lt goes.1

/-- The cpu goes on with the process it has left something to, or with one that has just
been dispatched. -/
theorem pass_times {cpu next : Cpu} {elapsed : Bool} (bounded : TimesBounded cpu.kernel)
    (ready : ReadyToEvaluate cpu)
    (operand : ∀ instr, cpuAction cpu (.pass elapsed) = some (.execute instr) →
      OperandInRange instr)
    (fired : cpuPass cpu elapsed = some next) :
    TimesBounded next.kernel ∧ ReadyToEvaluate next := by
  have dispatched : ∀ {before : Cpu} {event : KernelEvent},
      before.fire event .outer = some next →
      (∀ {kernel}, kernelStep before.kernel event = some kernel →
        TimesBounded kernel ∧ ScheduledReady kernel) →
      TimesBounded next.kernel ∧ ReadyToEvaluate next := by
    intro before event fired times
    obtain ⟨step, control⟩ := fire_kernel fired
    obtain ⟨bounded, ready⟩ := times step
    exact ⟨bounded, by simpa only [ReadyToEvaluate, control] using ready⟩
  simp only [cpuPass] at fired
  cases control : cpu.control with
  | outer =>
      simp only [control] at fired
      have here : ScheduledReady cpu.kernel := by
        simpa only [ReadyToEvaluate, control] using ready
      split at fired
      · exact dispatched fired fun step => idle_times bounded step
      · obtain rfl := Option.some.inj fired
        exact ⟨bounded, here⟩
  | body first =>
      simp only [control] at fired
      cases elapsed with
      | true =>
          obtain ⟨instr, found, fired⟩ := Option.bind_eq_some_iff.mp fired
          have acts : cpuAction cpu (.pass true) = some (.execute instr) := by
            simp [cpuAction, control, found]
          obtain ⟨step, kept⟩ := fire_kernel fired
          have here := evaluates_in_body ready acts
          refine ⟨execute_bounded bounded here (operand instr acts) step, ?_⟩
          simp only [ReadyToEvaluate, kept]
      | false =>
          obtain rfl := Option.some.inj fired
          exact ⟨bounded, trivial⟩
  | condition =>
      simp only [control, Option.some.injEq] at fired
      obtain rfl := fired
      refine ⟨bounded, ?_⟩
      cases goes : goesOn cpu.kernel with
      | true => exact goes_on_ready goes
      | false => trivial
  | ending =>
      simp only [control] at fired
      split at fired
      case h_1 idle =>
          obtain rfl := Option.some.inj fired
          refine ⟨bounded, fun proc running => ?_⟩
          cases idle.symm.trans running
      case h_2 proc running =>
          split at fired
          · refine dispatched fired fun step => ?_
            obtain ⟨other, runs, finished⟩ := finish_fires step
            exact finish_times bounded runs finished
          · exact dispatched fired fun step => quantum_times bounded step

theorem step_times {cpu next : Cpu} {event : CpuEvent} (bounded : TimesBounded cpu.kernel)
    (ready : ReadyToEvaluate cpu)
    (operand : ∀ instr, cpuAction cpu event = some (.execute instr) → OperandInRange instr)
    (fired : cpuStep cpu event = some next) : TimesBounded next.kernel ∧ ReadyToEvaluate next := by
  -- The other threads leave the control point and the scheduled process alone.
  have background : ∀ {action : KernelEvent} {kernel : Kernel},
      cpu.fire action cpu.control = some next → kernelStep cpu.kernel action = some kernel →
      TimesBounded kernel → (ScheduledReady cpu.kernel → ScheduledReady kernel) →
      TimesBounded next.kernel ∧ ReadyToEvaluate next := by
    intro action kernel fired step after keeps
    obtain ⟨taken, control⟩ := fire_kernel fired
    obtain rfl := Option.some.inj (step.symm.trans taken)
    refine ⟨after, ?_⟩
    unfold ReadyToEvaluate at *
    rw [control]
    split at ready
    · exact keeps ready
    · exact keeps ready
    · trivial
    · trivial
  cases event with
  | pass elapsed => exact pass_times bounded ready operand fired
  | processCreate program fresh =>
      exact background fired rfl (create_bounded bounded program fresh)
        fun ready => create_ready ready program fresh
  | diskTick => exact background fired rfl (tick_bounded bounded) tick_ready

/-! ## Runs -/

/-- An evaluation starts within the quantum, and no value that the step computes for a
remaining time or a turnaround leaves 32 bits. -/
structure InTime (cpu : Cpu) (event : CpuEvent) : Prop where
  starts : ∀ instr, cpuAction cpu event = some (.execute instr) →
    ∀ proc, cpu.kernel.scheduler.scheduledProc = some proc →
      0 ≤ (cpu.kernel.procs proc).remaining ∧ (cpu.kernel.procs proc).remaining ≤ 2000
  sums : ∀ action, cpuAction cpu event = some action →
    ∀ value ∈ kernelSums cpu.kernel action, IsInt32 value

/-- What the event evaluates is the process's own instruction, or has an operand in
range. -/
def EvaluatesInRange (state : Cpu × Ledger) (event : CpuEvent) : Prop :=
  ∀ instr, cpuAction state.1 event = some (.execute instr) →
    ∀ proc, state.1.kernel.scheduler.scheduledProc = some proc →
      (state.2.loaded proc)[(state.1.kernel.procs proc).pc]? = some instr ∨ OperandInRange instr

variable {past : List ((Cpu × Ledger) × CpuEvent)} {state : Cpu × Ledger}

theorem operand_evaluated {event : CpuEvent} {instr : Instr}
    (code : ∀ proc, OperandsInRange (state.2.loaded proc)) (evaluates : EvaluatesInRange state event)
    (acts : cpuAction state.1 event = some (.execute instr)) : OperandInRange instr := by
  obtain ⟨proc, running, -⟩ := Option.bind_eq_some_iff.mp (execute_action acts).2.2
  rcases evaluates instr acts proc running with own | inRange
  · exact code proc instr (List.mem_of_getElem? own)
  · exact inRange

/-- With unique segment ids, a run without a first pass past the end evaluates each
process's own instructions. -/
theorem quiet_evaluates_in_range (trace : Trace recordedCpu past state)
    (unique : ∀ entry ∈ past, FreshLoad entry.1 entry.2)
    (quiet : ∀ entry ∈ past, ¬EntersPastEnd entry.1 entry.2) :
    ∀ entry ∈ past, EvaluatesInRange entry.1 entry.2 := by
  intro entry member instr acts proc running
  have reached := (trace_entry trace member).1
  have stored := cpu_stored trace unique entry.1 (mem_visited member _)
  have below := (fetch_below_end_iff reached entry.2).mpr (quiet entry member)
  exact .inl (cpu_fetch_in_range reached stored below acts proc running)

theorem visited_times (trace : Trace recordedCpu past state)
    (operands : ∀ entry ∈ past, LoadsCode OperandsInRange entry.2)
    (evaluates : ∀ entry ∈ past, EvaluatesInRange entry.1 entry.2) :
    ∀ seen ∈ visited past state, TimesBounded seen.1.kernel ∧ ReadyToEvaluate seen.1 := by
  have code := visited_loaded_ok OperandsInRange (fun _ member => nomatch member) trace operands
  refine trace_visited_invariant
    (fun (state : Cpu × Ledger) event => ∀ instr,
      cpuAction state.1 event = some (.execute instr) → OperandInRange instr)
    (fun state => TimesBounded state.1.kernel ∧ ReadyToEvaluate state.1) trace ?_
    ⟨init_bounded, init_ready⟩ ?_
  · intro entry member instr acts
    exact operand_evaluated (code entry.1 (mem_visited member _)) (evaluates entry member) acts
  · intro before event after _ times operand fired
    exact step_times times.1 times.2 operand (history_step fired).1

/-- Along a run of programs whose operands are in range, all remaining times are within
their bounds and all values in 32 bits, if whatever is evaluated is the process's own or
in range; which it is in every run with unique segment ids in which no first pass enters
past the end. -/
theorem times_bounded (trace : Trace recordedCpu past state)
    (operands : ∀ entry ∈ past, LoadsCode OperandsInRange entry.2) :
    ((∀ entry ∈ past, EvaluatesInRange entry.1 entry.2) →
        (∀ entry ∈ past, InTime entry.1.1 entry.2) ∧
          ∀ seen ∈ visited past state, ∀ proc, (seen.1.kernel.procs proc).remaining ≤ 2000) ∧
      ((∀ entry ∈ past, FreshLoad entry.1 entry.2) →
        (∀ entry ∈ past, ¬EntersPastEnd entry.1 entry.2) →
          ∀ entry ∈ past, EvaluatesInRange entry.1 entry.2) := by
  refine ⟨fun evaluates => ?_, quiet_evaluates_in_range trace⟩
  have code := visited_loaded_ok OperandsInRange (fun _ member => nomatch member) trace operands
  have times := visited_times trace operands evaluates
  refine ⟨fun entry member => ?_, fun seen member proc => (times seen member).1.upper proc⟩
  have seen := mem_visited member state
  obtain ⟨bounded, ready⟩ := times entry.1 seen
  constructor
  · intro instr acts proc running
    exact ⟨evaluates_in_body ready acts proc running, bounded.upper proc⟩
  · intro action acts
    apply kernel_sums_int32 bounded
    rintro instr rfl
    exact ⟨evaluates_in_body ready acts,
      operand_evaluated (code entry.1 seen) (evaluates entry member) acts⟩

theorem times_bounded_sample :
    (∀ entry ∈ readerPast false, InTime entry.1.1 entry.2) ∧
      ∀ seen ∈ visited (readerPast false) (readerState false), ∀ proc,
        (seen.1.kernel.procs proc).remaining ≤ 2000 := by
  obtain ⟨bounded, evaluates⟩ := times_bounded (reader_trace false) (by decide)
  exact bounded (evaluates (by decide) (by decide))

/-- Its only instruction prints for no time, at low priority. -/
def printerProgram : Program :=
  { sampleProgram with
    priority := 2
    semaphores := []
    code := [⟨.print, 0, none⟩] }

/-- A page whose storage held something else before. -/
def stalePage : Nat → Page := fun _ =>
  { code := fun _ => ⟨.exec, -5, none⟩
    used := false }

/-- The printer is dispatched with 2000 units, prints, is queued again and dispatched
again, and the second has elapsed on its first pass. -/
def printerEvents : List CpuEvent :=
  [.processCreate printerProgram stalePage, .pass false, .pass false, .pass true, .pass false,
    .pass false, .pass false, .pass false, .pass true]

def printerPast : List ((Cpu × Ledger) × CpuEvent) :=
  history recordedCpu printerEvents recordedCpu.start

def printerState : Cpu × Ledger :=
  (run recordedCpu printerEvents recordedCpu.start).getD recordedCpu.start

/-- The cell after the only instruction is evaluated, and the printer has more time than
any quantum. -/
theorem printer_exceeds_its_quantum :
    Trace recordedCpu printerPast printerState ∧
      (∀ entry ∈ printerPast, LoadsCode OperandsInRange entry.2) ∧
      (∀ entry ∈ printerPast, FreshLoad entry.1 entry.2) ∧
      (printerState.1.kernel.procs 1).remaining = 2005 ∧
      ¬(∀ seen ∈ visited printerPast printerState, ∀ proc,
        (seen.1.kernel.procs proc).remaining ≤ 2000) := by
  have exceeds : (printerState.1.kernel.procs 1).remaining = 2005 := by decide
  refine ⟨trace_history printerEvents .start rfl, by decide, by decide, exceeds, fun bounded => ?_⟩
  have last := bounded printerState (last_visited _ _) 1
  omega

end Ribabari.EvaluationTime

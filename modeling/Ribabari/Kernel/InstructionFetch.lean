import Ribabari.Kernel.CodeMemory
import Ribabari.Model.CpuLoop

/-!
# The range of instruction fetches

The `do` block of the cpu runs once before its range test. A process that comes back
from the blocked queue after its last instruction, or that has no code, is fetched
from beyond its end when the elapsed test of that first pass holds, and in no other
case.
-/

namespace Ribabari.InstructionFetch

open Ribabari.ProcessRecords Ribabari.SegmentMemory Ribabari.KernelState
open Ribabari.DiskAndFiles Ribabari.KernelEvents Ribabari.CpuLoop Ribabari.ProgramLedger
open Ribabari.CodeMemory
open Ribabari.QueueBoard Ribabari.QueueRefinement Ribabari.BoardInvariants Ribabari.Placement
open Ribabari.TransitionSystem

set_option autoImplicit false

/-- The cpu with the ledger of the kernel it drives. -/
def recordedCpu : System (Cpu × Ledger) CpuEvent :=
  withHistory cpuSystem Ledger.empty fun ledger cpu event =>
    (cpuAction cpu event).elim ledger (ledger.record cpu.kernel)

/-- Every run of the cpu is a run of the kernel. -/
def cpuRefinesKernel : Refinement recordedCpu recordedSystem where
  view state := (state.1.kernel, state.2)
  image state event := cpuAction state.1 event
  start := rfl
  stutter := by
    intro before event after fired quiet
    obtain ⟨step, record⟩ := history_step fired
    rcases step_action step with ⟨-, kernel⟩ | ⟨action, acts, -⟩
    · rw [record, kernel, quiet]
      rfl
    · rw [quiet] at acts
      exact nomatch acts
  fires := by
    intro before event after action fired acts
    obtain ⟨step, record⟩ := history_step fired
    rcases step_action step with ⟨quiet, -⟩ | ⟨other, otherActs, kernel⟩
    · rw [quiet] at acts
      exact nomatch acts
    · obtain rfl : other = action := Option.some.inj (otherActs.symm.trans acts)
      rw [record, acts]
      simp only [recordedSystem, withHistory, kernelSystem, kernel, Option.map_some,
        Option.elim_some]

/-- The scheduled process has evaluated its whole code. -/
def AtEnd (kernel : Kernel) : Prop :=
  ∃ proc, kernel.scheduler.scheduledProc = some proc ∧
    (kernel.procs proc).codeLen ≤ (kernel.procs proc).pc

instance (kernel : Kernel) : Decidable (AtEnd kernel) :=
  inferInstanceAs (Decidable (∃ proc, proc ∈ kernel.scheduler.scheduledProc ∧
    (kernel.procs proc).codeLen ≤ (kernel.procs proc).pc))

/-- The event fetches, and then from below the end of the code. -/
def FetchBelowEnd (state : Cpu × Ledger) : CpuEvent → Prop
  | .pass true => ∀ first, state.1.control = .body first → ¬AtEnd state.1.kernel
  | _ => True

/-- The first pass through the `do` block finds the process at its end and the
second elapsed. -/
def EntersPastEnd (state : Cpu × Ledger) : CpuEvent → Prop
  | .pass true => state.1.control = .body true ∧ AtEnd state.1.kernel
  | _ => False

/-- A program is loaded under a segment id that no live process uses. -/
def FreshLoad (state : Cpu × Ledger) : CpuEvent → Prop
  | .processCreate program fresh =>
      FreshSegment state.1.kernel (.processCreate program fresh)
  | _ => True

instance (state : Cpu × Ledger) : DecidablePred (FetchBelowEnd state)
  | .pass true => inferInstanceAs (Decidable
      (∀ first, state.1.control = .body first → ¬AtEnd state.1.kernel))
  | .pass false | .processCreate _ _ | .diskTick => inferInstanceAs (Decidable True)

instance (state : Cpu × Ledger) : DecidablePred (EntersPastEnd state)
  | .pass true => inferInstanceAs (Decidable
      (state.1.control = .body true ∧ AtEnd state.1.kernel))
  | .pass false | .processCreate _ _ | .diskTick => inferInstanceAs (Decidable False)

instance (state : Cpu × Ledger) : DecidablePred (FreshLoad state)
  | .processCreate program fresh => inferInstanceAs (Decidable
      (FreshSegment state.1.kernel (.processCreate program fresh)))
  | .pass _ | .diskTick => inferInstanceAs (Decidable True)

variable {past : List ((Cpu × Ledger) × CpuEvent)} {state : Cpu × Ledger}

/-! ## Later passes -/

/-- Before a later pass, the range test has just held. -/
def Tested (cpu : Cpu) : Prop := cpu.control = .body false → ¬AtEnd cpu.kernel

/-- Loads and disk ticks leave the scheduled process at the place where it was. -/
theorem at_end_of_background {kernel after : Kernel} {event : KernelEvent}
    (reached : Reachable kernelSystem kernel)
    (background : event = .diskTick ∨ ∃ program fresh, event = .processCreate program fresh)
    (fired : kernelStep kernel event = some after) (atEnd : AtEnd after) : AtEnd kernel := by
  obtain ⟨proc, running, ended⟩ := atEnd
  rcases background with rfl | ⟨program, fresh, rfl⟩
  · have code := spared_code fired rfl
    obtain rfl := Option.some.inj fired
    rw [disk_tick_scheduled] at running
    exact ⟨proc, running, by rw [← code.codeLen, ← code.pc]; exact ended⟩
  · obtain rfl := Option.some.inj fired
    have scheduled : kernel.scheduler.scheduledProc = some proc := by
      rwa [create_queues, enroll_scheduled] at running
    have old : proc ≠ kernel.nextProcId := Nat.ne_of_lt (scheduled_numbered reached scheduled).2
    obtain ⟨-, codeLen, pc⟩ := (create_code kernel program fresh).others proc old
    exact ⟨proc, scheduled, by rw [← codeLen, ← pc]; exact ended⟩

theorem goes_on_not_at_end {kernel : Kernel} (goes : goesOn kernel = true) : ¬AtEnd kernel := by
  rintro ⟨proc, running, ended⟩
  simp only [goesOn, running, Bool.and_eq_true, decide_eq_true_eq] at goes
  omega

theorem step_tested {before after : Cpu} {event : CpuEvent}
    (reached : Reachable kernelSystem before.kernel) (tested : Tested before)
    (fired : cpuStep before event = some after) : Tested after := by
  intro control
  cases event with
  | diskTick =>
      obtain ⟨step, kept⟩ := fire_kernel fired
      exact fun atEnd => tested (kept.symm.trans control)
        (at_end_of_background reached (.inl rfl) step atEnd)
  | processCreate program fresh =>
      obtain ⟨step, kept⟩ := fire_kernel fired
      exact fun atEnd => tested (kept.symm.trans control)
        (at_end_of_background reached (.inr ⟨program, fresh, rfl⟩) step atEnd)
  | pass elapsed =>
      obtain ⟨goes, kernel⟩ := pass_again fired control
      rw [kernel]
      exact goes_on_not_at_end goes

theorem cpu_kernel_reachable (reached : Reachable recordedCpu state) :
    Reachable kernelSystem state.1.kernel :=
  history_reachable (cpuRefinesKernel.reachable reached)

theorem reachable_tested (reached : Reachable recordedCpu state) : Tested state.1 := by
  refine reachable_invariant (fun state => Tested state.1) reached
    (fun control => Control.noConfusion control) ?_
  intro before event after reachedBefore tested fired
  exact step_tested (cpu_kernel_reachable reachedBefore) tested (history_step fired).1

/-- A fetch stays in range unless a first pass enters past the end. -/
theorem fetch_below_end_iff (reached : Reachable recordedCpu state) (event : CpuEvent) :
    FetchBelowEnd state event ↔ ¬EntersPastEnd state event := by
  rcases event with (_ | _) | _ | _
  · simp [FetchBelowEnd, EntersPastEnd]
  · simp only [FetchBelowEnd, EntersPastEnd, not_and]
    constructor
    · exact fun below first => below true first
    · intro below first control
      cases first with
      | true => exact below control
      | false => exact reachable_tested reached control
  · simp [FetchBelowEnd, EntersPastEnd]
  · simp [FetchBelowEnd, EntersPastEnd]

/-! ## What is evaluated -/

/-- Some process has evaluated more instructions than it was loaded with. -/
def Overran (state : Kernel × Ledger) : Prop :=
  ∃ proc < state.1.nextProcId, (state.2.loaded proc).length < (state.2.evaluated proc).length

theorem step_overran {kernel after : Kernel} {ledger : Ledger} {event : KernelEvent}
    (overran : Overran (kernel, ledger)) (fired : kernelStep kernel event = some after) :
    Overran (after, ledger.record kernel event) := by
  obtain ⟨proc, used, longer⟩ := overran
  cases event with
  | processCreate program fresh =>
      obtain rfl := Option.some.inj fired
      have code := create_code kernel program fresh
      refine ⟨proc, code.next ▸ Nat.lt_succ_of_lt used, ?_⟩
      simpa [Ledger.record, Nat.ne_of_lt used] using longer
  | execute instr =>
      obtain ⟨scheduled, running, code⟩ := execute_code fired
      refine ⟨proc, code.next ▸ used, ?_⟩
      have grown : (ledger.evaluated proc).length ≤
          ((ledger.record kernel (.execute instr)).evaluated proc).length := by
        by_cases same : proc = scheduled <;> simp [Ledger.record, running, same]
      have loaded : (ledger.record kernel (.execute instr)).loaded = ledger.loaded := by
        simp [Ledger.record, running]
      rw [loaded]
      exact Nat.lt_of_lt_of_le longer grown
  | processFinish =>
      obtain ⟨scheduled, running, finished⟩ := finish_fires fired
      exact ⟨proc, (finish_code running finished).next ▸ used, longer⟩
  | idleDispatch | quantumCompleted | diskTick =>
      have code := spared_code fired rfl
      exact ⟨proc, code.next ▸ used, longer⟩

theorem enters_past_end_overruns {before after : Cpu × Ledger} {event : CpuEvent}
    (reached : Reachable recordedCpu before) (enters : EntersPastEnd before event)
    (fired : recordedCpu.step before event = some after) :
    Overran (after.1.kernel, after.2) := by
  rcases event with (_ | _) | _ | _ <;> try exact enters.elim
  obtain ⟨control, proc, running, ended⟩ := enters
  have step : cpuStep before.1 (.pass true) = some after.1 := (history_step fired).1
  have record := (history_step fired).2
  have kernelReached := cpu_kernel_reachable reached
  have ledgered : Ledgered before.1.kernel before.2 :=
    reachable_ledgered (cpuRefinesKernel.reachable reached)
  have used := (scheduled_numbered kernelReached running).2
  have counter := ledgered.counter proc used
  have length := ledgered.length proc used
  rcases step_action step with ⟨none, -⟩ | ⟨action, acts, stepped⟩
  · simp only [cpuStep, cpuPass, control, if_true] at step
    obtain ⟨instr, fetched, -⟩ := Option.bind_eq_some_iff.mp step
    simp [cpuAction, control, fetched] at none
  · have executes : ∃ instr, action = .execute instr := by
      simp only [cpuAction, control, if_true, Option.map_eq_some_iff] at acts
      obtain ⟨instr, -, rfl⟩ := acts
      exact ⟨instr, rfl⟩
    obtain ⟨instr, rfl⟩ := executes
    obtain ⟨scheduled, runs, code⟩ := execute_code stepped
    refine ⟨proc, code.next ▸ used, ?_⟩
    rw [record, acts]
    simp only [Option.elim_some, Ledger.record, running, Function.update_self, List.length_append,
      List.length_singleton]
    omega

/-- With unique segment ids, an in-range fetch of the cpu evaluates the process's own
instruction. -/
theorem cpu_fetch_in_range {event : CpuEvent} {action : KernelEvent}
    (reached : Reachable recordedCpu state) (stored : CodeStored state.1.kernel state.2)
    (below : FetchBelowEnd state event) (acts : cpuAction state.1 event = some action) :
    FetchInRange (state.1.kernel, state.2) action := by
  cases action with
  | processCreate | idleDispatch | quantumCompleted | processFinish | diskTick => trivial
  | execute instr =>
      obtain ⟨rfl, ⟨first, control⟩, fetched⟩ := execute_action acts
      intro proc (running : state.1.kernel.scheduler.scheduledProc = some proc)
      obtain ⟨listed, used⟩ := scheduled_numbered (cpu_kernel_reachable reached) running
      have ledgered : Ledgered state.1.kernel state.2 :=
        reachable_ledgered (cpuRefinesKernel.reachable reached)
      have length := ledgered.length proc used
      have inRange : (state.1.kernel.procs proc).pc < (state.2.loaded proc).length := by
        rw [← length]
        exact Nat.lt_of_not_le fun ended => below first control ⟨proc, running, ended⟩
      rw [← fetch_is_own_instruction stored listed inRange, ← fetched]
      simp [fetchScheduled, running]

/-- A load is never the action of a pass. -/
theorem create_action {cpu : Cpu} {event : CpuEvent} {program : Program} {fresh : Nat → Page}
    (acts : cpuAction cpu event = some (.processCreate program fresh)) :
    event = .processCreate program fresh := by
  rcases event with elapsed | ⟨other, content⟩ | _
  · rcases pass_action acts with same | ⟨_, _, _, _, _, same⟩ | ⟨_, _, _, same⟩ | same <;>
      exact nomatch same
  · cases acts
    rfl
  · exact nomatch Option.some.inj acts

theorem cpu_stored (trace : Trace recordedCpu past state)
    (unique : ∀ entry ∈ past, FreshLoad entry.1 entry.2) :
    ∀ seen ∈ visited past state, CodeStored seen.1.kernel seen.2 := by
  refine trace_visited_invariant FreshLoad
    (fun state => CodeStored state.1.kernel state.2) trace unique empty_stored ?_
  intro before event after reached stored fresh fired
  obtain ⟨step, record⟩ := history_step fired
  rw [record]
  rcases step_action step with ⟨quiet, kernel⟩ | ⟨action, acts, stepped⟩
  · rw [quiet, kernel]
    exact stored
  · rw [acts]
    refine step_stored (cpu_kernel_reachable reached) stored ?_ stepped
    cases action with
    | processCreate program content =>
        rw [create_action acts] at fresh
        exact fresh
    | idleDispatch | execute | quantumCompleted | processFinish | diskTick => trivial

/-- The kernel run behind a cpu run whose fetches stay in range. -/
theorem projected_in_range (trace : Trace recordedCpu past state)
    (unique : ∀ entry ∈ past, FreshLoad entry.1 entry.2)
    (below : ∀ entry ∈ past, FetchBelowEnd entry.1 entry.2) :
    ∀ entry ∈ cpuRefinesKernel.project past, FetchInRange entry.1 entry.2 := by
  apply cpuRefinesKernel.project_allowed FetchInRange
  intro source member action acts
  have stored := cpu_stored trace unique source.1 (mem_visited member _)
  exact cpu_fetch_in_range (trace_entry trace member).1 stored (below source member) acts

/-- Along a run of the cpu, every fetch is below the end of the code exactly when no
first pass enters past the end with the second elapsed. The same holds of the event tried
next, whose fetch may lie outside the page table and then has no successor. With unique
segment ids the runs are also exactly those in which every process has evaluated a prefix
of its code. -/
theorem fetches_in_range_iff (trace : Trace recordedCpu past state) :
    ((∀ entry ∈ past, FetchBelowEnd entry.1 entry.2) ↔
        ∀ entry ∈ past, ¬EntersPastEnd entry.1 entry.2) ∧
      (∀ event, FetchBelowEnd state event ↔ ¬EntersPastEnd state event) ∧
      ((∀ entry ∈ past, FreshLoad entry.1 entry.2) →
        ((∀ proc, state.2.evaluated proc <+: state.2.loaded proc) ↔
          ∀ entry ∈ past, ¬EntersPastEnd entry.1 entry.2)) := by
  have range : (∀ entry ∈ past, FetchBelowEnd entry.1 entry.2) ↔
      ∀ entry ∈ past, ¬EntersPastEnd entry.1 entry.2 :=
    forall₂_congr fun entry member => fetch_below_end_iff (trace_entry trace member).1 entry.2
  refine ⟨range, fetch_below_end_iff ⟨past, trace⟩, fun unique => ⟨?_, ?_⟩⟩
  · intro follows entry member enters
    obtain ⟨proc, -, longer⟩ := trace_eventually EntersPastEnd
      (fun state => Overran (state.1.kernel, state.2)) trace
      (fun before event after reached enters fired =>
        enters_past_end_overruns reached enters fired)
      (fun before event after reached overran fired => by
        obtain ⟨step, record⟩ := history_step fired
        rw [record]
        rcases step_action step with ⟨quiet, kernel⟩ | ⟨action, acts, stepped⟩
        · rw [quiet, kernel]
          exact overran
        · rw [acts]
          exact step_overran overran stepped)
      ⟨entry, member, enters⟩
    exact Nat.not_lt.mpr (follows proc).length_le longer
  · intro quiet
    exact evaluated_prefix (cpuRefinesKernel.trace trace)
      (projected_in_range trace unique (range.mpr quiet))

/-- Its only instruction reads the track under the arm. -/
def readerProgram : Program :=
  { sampleProgram with
    semaphores := []
    code := [⟨.read, 0, none⟩] }

/-- The reader is dispatched, reads and blocks, is woken by the disk, and is
dispatched again with nothing left to do. -/
def readerEvents : List CpuEvent :=
  [.processCreate readerProgram blankPage, .pass false, .pass false, .pass true, .pass false,
    .pass false, .diskTick, .pass false, .pass false]

def readerPast (elapsed : Bool) : List ((Cpu × Ledger) × CpuEvent) :=
  history recordedCpu (readerEvents ++ [.pass elapsed]) recordedCpu.start

def readerState (elapsed : Bool) : Cpu × Ledger :=
  (run recordedCpu (readerEvents ++ [.pass elapsed]) recordedCpu.start).getD recordedCpu.start

theorem reader_trace (elapsed : Bool) :
    Trace recordedCpu (readerPast elapsed) (readerState elapsed) := by
  have result : run recordedCpu (readerEvents ++ [.pass elapsed]) recordedCpu.start =
      some (readerState elapsed) := by
    cases elapsed <;> rfl
  exact trace_history _ .start result

theorem fetches_in_range_iff_sample :
    (∀ entry ∈ readerPast false, FetchBelowEnd entry.1 entry.2) ∧
      FetchBelowEnd (readerState false) (.pass false) ∧
      ∀ proc, (readerState false).2.evaluated proc <+: (readerState false).2.loaded proc :=
  have ⟨range, last, follows⟩ := fetches_in_range_iff (reader_trace false)
  ⟨range.mpr (by decide), (last (.pass false)).mpr (by decide),
    (follows (by decide)).mpr (by decide)⟩

/-- With the second elapsed, the cell after the last instruction is fetched and
evaluated. -/
theorem reader_fetches_past_its_end :
    Trace recordedCpu (readerPast true) (readerState true) ∧
      ¬(∀ entry ∈ readerPast true, FetchBelowEnd entry.1 entry.2) ∧
      (readerState true).2.loaded 1 = [⟨.read, 0, none⟩] ∧
      (readerState true).2.evaluated 1 = [⟨.read, 0, none⟩, ⟨.exec, 0, none⟩] :=
  ⟨reader_trace true, by decide, by decide, by decide⟩

end Ribabari.InstructionFetch

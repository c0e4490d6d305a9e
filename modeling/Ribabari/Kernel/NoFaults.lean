import Ribabari.Kernel.CpuGuarantees
import Ribabari.Kernel.FinishFrame
import Ribabari.Kernel.RecordGrowth
import Ribabari.Loader.ResolvedNames

/-!
# Where the cpu faults

A step of the model is undefined where the source dereferences a null pointer, indexes
outside a page table or terminates the application: a fetch with nobody scheduled or from
a page that is not there, a semaphore that is not found, a wake-up from an empty queue, a
finish of a process without a record or a segment. A finish may also free a pointer that
nothing was assigned to. Only a fetch past the end of a program and a program without a
semaphore line lead to any of these.
-/

namespace Ribabari.NoFaults

open Ribabari.ProcessRecords Ribabari.SegmentMemory Ribabari.SemaphoreTable
open Ribabari.KernelState Ribabari.Dispatch Ribabari.KernelEvents Ribabari.CpuLoop
open Ribabari.ProgramLedger
open Ribabari.CodeMemory Ribabari.SemaphoreAccounts Ribabari.CountingSemaphore
open Ribabari.QueueBoard Ribabari.QueueRefinement Ribabari.BoardInvariants Ribabari.Placement
open Ribabari.InstructionFetch Ribabari.FinishFrame Ribabari.RecordGrowth
open Ribabari.ResolvedNames
open Ribabari.SemaphoreNames Ribabari.TransitionSystem

set_option autoImplicit false

/-- A program is loaded whose semaphore instructions find their semaphores in the table
that the load leaves. -/
def ResolvedLoad (state : Cpu × Ledger) : CpuEvent → Prop
  | .processCreate program _ => ∀ instr ∈ program.code,
      Resolves (program.semaphores.foldl semaphoreRegister state.1.kernel.semTable) instr
  | _ => True

/-- The code in the ledger finds its semaphores. -/
def CodeResolves (kernel : Kernel) (ledger : Ledger) : Prop :=
  ∀ proc, ∀ instr ∈ ledger.loaded proc, Resolves kernel.semTable instr

/-- The `do` block has a process to run. -/
def Occupied (cpu : Cpu) : Prop :=
  ∀ first, cpu.control = .body first → cpu.kernel.scheduler.scheduledProc ≠ none

/-- The load of the run that created the process had no semaphore line. -/
def LoadedBare (past : List ((Cpu × Ledger) × CpuEvent)) (proc : ProcId) : Prop :=
  ∃ entry ∈ past, ∃ program fresh, entry.2 = .processCreate program fresh ∧
    entry.1.1.kernel.nextProcId = proc ∧ program.semaphores = []

/-- The pass behind the loop finishes a process that was loaded without a semaphore line. -/
def FinishesBare (past : List ((Cpu × Ledger) × CpuEvent)) (state : Cpu × Ledger) :
    CpuEvent → Prop
  | .pass _ => state.1.control = .ending ∧ ∃ proc,
      state.1.kernel.scheduler.scheduledProc = some proc ∧
        (state.1.kernel.procs proc).codeLen ≤ (state.1.kernel.procs proc).pc ∧
        LoadedBare past proc
  | .processCreate _ _ | .diskTick => False

/-- The source's behaviour is undefined in the event: the model has no step for it, or it
ends with a `free` of a pointer that nothing was assigned to. -/
def Undefined (state : Cpu × Ledger) (event : CpuEvent) : Prop :=
  recordedCpu.step state event = none ∨
    ∃ action, cpuAction state.1 event = some action ∧ FreesUnset state.1.kernel action

section Invariants

theorem background_scheduled {kernel after : Kernel} {event : KernelEvent}
    (background : event = .diskTick ∨ ∃ program fresh, event = .processCreate program fresh)
    (fired : kernelStep kernel event = some after) :
    after.scheduler.scheduledProc = kernel.scheduler.scheduledProc := by
  rcases background with rfl | ⟨program, fresh, rfl⟩
  · rw [← Option.some.inj fired, disk_tick_scheduled]
  · rw [← Option.some.inj fired, create_queues, enroll_scheduled]

/-- A pass enters the `do` block with the process it found, or with the one that
passed the range test. -/
theorem pass_enters {cpu after : Cpu} {elapsed first : Bool}
    (fired : cpuPass cpu elapsed = some after) (enters : after.control = .body first) :
    after.kernel.scheduler.scheduledProc ≠ none := by
  cases first with
  | false =>
      obtain ⟨goes, kernel⟩ := pass_again fired enters
      intro idle
      rw [kernel] at idle
      simp [goesOn, idle] at goes
  | true =>
      simp only [cpuPass] at fired
      cases control : cpu.control with
      | outer =>
          simp only [control] at fired
          split at fired
          case h_1 => exact Control.noConfusion ((fire_kernel fired).2.symm.trans enters)
          case h_2 proc running =>
              obtain rfl := Option.some.inj fired
              simp [running]
      | body again =>
          simp only [control] at fired
          split at fired
          case isTrue =>
              obtain ⟨instr, -, fired⟩ := Option.bind_eq_some_iff.mp fired
              exact Control.noConfusion ((fire_kernel fired).2.symm.trans enters)
          case isFalse =>
              obtain rfl := Option.some.inj fired
              exact Control.noConfusion enters
      | condition =>
          simp only [control, Option.some.injEq] at fired
          subst fired
          dsimp only at enters
          split at enters <;> simp at enters
      | ending =>
          simp only [control] at fired
          split at fired
          case h_1 =>
              obtain rfl := Option.some.inj fired
              exact Control.noConfusion enters
          case h_2 =>
              split at fired <;>
                exact Control.noConfusion ((fire_kernel fired).2.symm.trans enters)

theorem step_occupied {before after : Cpu} {event : CpuEvent} (occupied : Occupied before)
    (fired : cpuStep before event = some after) : Occupied after := by
  intro first control
  cases event with
  | pass elapsed => exact pass_enters fired control
  | diskTick =>
      obtain ⟨step, kept⟩ := fire_kernel fired
      rw [background_scheduled (.inl rfl) step]
      exact occupied first (kept.symm.trans control)
  | processCreate program fresh =>
      obtain ⟨step, kept⟩ := fire_kernel fired
      rw [background_scheduled (.inr ⟨program, fresh, rfl⟩) step]
      exact occupied first (kept.symm.trans control)

theorem reachable_occupied {state : Cpu × Ledger} (reached : Reachable recordedCpu state) :
    Occupied state.1 := by
  apply reachable_invariant (fun state => Occupied state.1) reached
  · intro first control
    exact Control.noConfusion control
  · intro before event after _ occupied fired
    exact step_occupied occupied (history_step fired).1

theorem record_resolves {kernel after : Kernel} {ledger : Ledger} {event : KernelEvent}
    (resolves : CodeResolves kernel ledger)
    (loads : ∀ program fresh, event = .processCreate program fresh → ∀ instr ∈ program.code,
      Resolves (program.semaphores.foldl semaphoreRegister kernel.semTable) instr)
    (fired : kernelStep kernel event = some after) :
    CodeResolves after (ledger.record kernel event) := by
  apply record_loaded_ok (fun code => ∀ instr ∈ code, Resolves after.semTable instr)
  · intro proc instr member
    exact resolves_longer (step_keeps_names fired) (resolves proc instr member)
  · cases event with
    | processCreate program fresh =>
        have table : (processCreate kernel program fresh).semTable =
            program.semaphores.foldl semaphoreRegister kernel.semTable :=
          congrArg Board.semTable (create_board kernel program fresh)
        rw [← Option.some.inj fired, table]
        exact loads program fresh rfl
    | execute | idleDispatch | quantumCompleted | processFinish | diskTick => trivial

theorem cpu_resolves {past : List ((Cpu × Ledger) × CpuEvent)} {state : Cpu × Ledger}
    (trace : Trace recordedCpu past state)
    (named : ∀ entry ∈ past, ResolvedLoad entry.1 entry.2) :
    CodeResolves state.1.kernel state.2 := by
  apply trace_invariant ResolvedLoad (fun state => CodeResolves state.1.kernel state.2) trace named
  · intro proc instr member
    exact nomatch member
  · intro before event after _ resolves loads fired
    obtain ⟨step, record⟩ := history_step fired
    rw [record]
    rcases step_action step with ⟨quiet, kernel⟩ | ⟨action, acts, stepped⟩
    · rw [quiet, kernel]
      exact resolves
    · rw [acts]
      apply record_resolves resolves _ stepped
      rintro program fresh rfl
      rw [create_action acts] at loads
      exact loads

end Invariants

/-! ## Evaluation -/

section Evaluation

variable {kernel : Kernel} {ledger : Ledger}

/-- A semaphore that owes a wake-up has somebody to wake. -/
theorem v_defined {World : Type*} {parties : Finset ProcId} {taken : ProcId → Int}
    {sem : Semaphore} (balanced : Balanced parties 1 sem.S sem.waiters taken)
    (wakeup : ProcId → World → World) (world : World) :
    ∃ result, semaphoreV sem wakeup world = some result := by
  unfold semaphoreV
  split
  case isFalse => exact ⟨_, rfl⟩
  case isTrue owed =>
      have queued := balanced.queued
      cases waiting : sem.waiters with
      | nil =>
          rw [waiting, List.length_nil] at queued
          omega
      | cons proc rest => exact ⟨_, rfl⟩

theorem eval_defined (accounts : SemaphoresBalanced kernel ledger) (proc : ProcId) {instr : Instr}
    (resolves : Resolves kernel.semTable instr) :
    ∃ after, eval (fetched kernel proc) proc instr = some after := by
  rcases instr with ⟨op, value, name⟩
  cases op with
  | exec | read | write | print => exact ⟨_, rfl⟩
  | semP =>
      obtain ⟨sem, found⟩ := resolves (.inl rfl)
      have here : instrSemaphore (fetched kernel proc) ⟨.semP, value, name⟩ = some sem := found
      simp only [eval, here, sysCall, Option.bind_eq_bind, Option.bind_some]
      split
      case isTrue => exact ⟨_, rfl⟩
      case isFalse => exact ⟨_, rfl⟩
  | semV =>
      obtain ⟨sem, found⟩ := resolves (.inr rfl)
      have here : instrSemaphore (fetched kernel proc) ⟨.semV, value, name⟩ = some sem := found
      obtain ⟨text, -, entry⟩ := Option.bind_eq_some_iff.mp found
      obtain ⟨result, released⟩ :=
        v_defined (accounts.balanced entry) wakeup (fetched kernel proc)
      simp only [eval, here, sysCall, released, Option.bind_eq_bind, Option.bind_some]
      exact ⟨_, rfl⟩

theorem eval_resolves {proc : ProcId} {instr : Instr} {after : Kernel}
    (evaluated : eval (fetched kernel proc) proc instr = some after) :
    Resolves kernel.semTable instr := by
  rcases instr with ⟨op, value, name⟩
  rintro (rfl | rfl)
  · obtain ⟨sem, called, found, -, -⟩ := acquire_inv evaluated
    exact ⟨sem, found⟩
  · obtain ⟨sem, called, found, -, -⟩ := release_inv evaluated
    exact ⟨sem, found⟩

end Evaluation

section Runs

variable {past : List ((Cpu × Ledger) × CpuEvent)} {state : Cpu × Ledger}

theorem fire_defined {cpu : Cpu} {event : KernelEvent} {kernel : Kernel} (control : Control)
    (step : kernelStep cpu.kernel event = some kernel) :
    ∃ after, cpu.fire event control = some after := by
  rw [Cpu.fire, step]
  exact ⟨_, rfl⟩

/-- What the `do` block needs when its elapsed test holds. -/
theorem body_defined_iff (reached : Reachable recordedCpu state) {proc : ProcId}
    (running : state.1.kernel.scheduler.scheduledProc = some proc) (control : Control) :
    (∃ after, ((fetchScheduled state.1.kernel).bind fun instr =>
        state.1.fire (.execute instr) control) = some after) ↔
      ∃ instr, fetchScheduled state.1.kernel = some instr ∧
        Resolves state.1.kernel.semTable instr := by
  constructor
  · rintro ⟨after, fired⟩
    obtain ⟨instr, fetch, fired⟩ := Option.bind_eq_some_iff.mp fired
    have step := (fire_kernel fired).1
    rw [kernelStep, running] at step
    exact ⟨instr, fetch, eval_resolves step⟩
  · rintro ⟨instr, fetch, resolves⟩
    obtain ⟨kernel, evaluated⟩ :=
      eval_defined (reachable_balanced (cpuRefinesKernel.reachable reached)) proc resolves
    have step : kernelStep state.1.kernel (.execute instr) = some kernel := by
      rw [kernelStep, running]
      exact evaluated
    rw [fetch, Option.bind_some]
    exact fire_defined control step

/-- Below the end of the code, the process's own instruction is fetched. -/
theorem fetch_resolves (trace : Trace recordedCpu past state)
    (unique : ∀ entry ∈ past, FreshLoad entry.1 entry.2)
    (named : ∀ entry ∈ past, ResolvedLoad entry.1 entry.2) {proc : ProcId}
    (running : state.1.kernel.scheduler.scheduledProc = some proc)
    (below : ¬AtEnd state.1.kernel) :
    ∃ instr, fetchScheduled state.1.kernel = some instr ∧
      Resolves state.1.kernel.semTable instr := by
  have reached : Reachable recordedCpu state := ⟨past, trace⟩
  have stored := cpu_stored trace unique state (last_visited _ _)
  have ledgered : Ledgered state.1.kernel state.2 :=
    reachable_ledgered (cpuRefinesKernel.reachable reached)
  obtain ⟨listed, used⟩ := scheduled_numbered (cpu_kernel_reachable reached) running
  have inRange : (state.1.kernel.procs proc).pc < (state.2.loaded proc).length := by
    rw [← ledgered.length proc used]
    exact Nat.lt_of_not_le fun ended => below ⟨proc, running, ended⟩
  obtain ⟨instr, next⟩ : ∃ instr,
      (state.2.loaded proc)[(state.1.kernel.procs proc).pc]? = some instr :=
    ⟨_, List.getElem?_eq_getElem inRange⟩
  refine ⟨instr, ?_, cpu_resolves trace named proc instr (List.mem_of_getElem? next)⟩
  rw [fetchScheduled, running]
  exact (fetch_is_own_instruction stored listed inRange).trans next

theorem ending_defined (reached : Reachable recordedCpu state) {proc : ProcId}
    (running : state.1.kernel.scheduler.scheduledProc = some proc) (control : Control) :
    (∃ after, state.1.fire .processFinish control = some after) ∧
      ∃ after, state.1.fire .quantumCompleted control = some after := by
  obtain ⟨kernel, finished⟩ := finish_goes_through (cpu_kernel_reachable reached) running
  have finishes : kernelStep state.1.kernel .processFinish = some kernel := by
    rw [kernelStep, running]
    exact finished
  have completes : kernelStep state.1.kernel .quantumCompleted =
      some (scheduleProcess state.1.kernel .quantumCompleted) := by
    rw [kernelStep, running]
  exact ⟨fire_defined control finishes, fire_defined control completes⟩

/-- Outside the `do` block with a second elapsed, every step is defined. -/
theorem step_defined (reached : Reachable recordedCpu state) (event : CpuEvent)
    (elsewhere : ∀ first, state.1.control = .body first → event ≠ .pass true) :
    ∃ after, cpuStep state.1 event = some after := by
  cases event with
  | processCreate program fresh => exact fire_defined _ rfl
  | diskTick => exact fire_defined _ rfl
  | pass elapsed =>
      simp only [cpuStep, cpuPass]
      cases control : state.1.control with
      | condition => exact ⟨_, rfl⟩
      | body first =>
          cases elapsed with
          | false => exact ⟨_, rfl⟩
          | true => exact absurd rfl (elsewhere first control)
      | outer =>
          dsimp only
          split
          case h_1 idle =>
              apply fire_defined
              rw [kernelStep, idle]
          case h_2 => exact ⟨_, rfl⟩
      | ending =>
          dsimp only
          split
          case h_1 => exact ⟨_, rfl⟩
          case h_2 proc running =>
              split
              · exact (ending_defined reached running .outer).1
              · exact (ending_defined reached running .outer).2

/-- In a run whose programs have segment ids of their own and semaphore instructions that
resolve, the model has no step exactly when the `do` block enters past the end of a program
and finds no cell there, or a semaphore instruction without a semaphore. -/
theorem step_missing_iff (trace : Trace recordedCpu past state)
    (unique : ∀ entry ∈ past, FreshLoad entry.1 entry.2)
    (named : ∀ entry ∈ past, ResolvedLoad entry.1 entry.2) (event : CpuEvent) :
    recordedCpu.step state event = none ↔
      EntersPastEnd state event ∧ ∀ instr, fetchScheduled state.1.kernel = some instr →
        ¬Resolves state.1.kernel.semTable instr := by
  have reached : Reachable recordedCpu state := ⟨past, trace⟩
  have undefined : recordedCpu.step state event = none ↔
      ¬∃ after, cpuStep state.1 event = some after := by
    rw [← Option.ne_none_iff_exists', not_not]
    exact Option.map_eq_none_iff
  rw [undefined]
  by_cases fetches : ∃ first, state.1.control = .body first ∧ event = .pass true
  · obtain ⟨first, control, rfl⟩ := fetches
    obtain ⟨proc, running⟩ :=
      Option.ne_none_iff_exists'.mp (reachable_occupied reached first control)
    have body := body_defined_iff reached running .condition
    simp only [cpuStep, cpuPass, control, if_true]
    rw [body, not_exists]
    constructor
    · intro faults
      have enters : EntersPastEnd state (.pass true) := by
        by_contra quiet
        have below := (fetch_below_end_iff reached (.pass true)).mpr quiet first control
        obtain ⟨instr, fetched⟩ := fetch_resolves trace unique named running below
        exact faults instr fetched
      exact ⟨enters, fun instr fetch resolves => faults instr ⟨fetch, resolves⟩⟩
    · rintro ⟨-, faults⟩ instr ⟨fetch, resolves⟩
      exact faults instr fetch resolves
  · have defined := step_defined reached event fun first control same =>
      fetches ⟨first, control, same⟩
    constructor
    · intro faults
      exact absurd defined faults
    · rintro ⟨enters, -⟩
      cases event with
      | pass elapsed =>
          cases elapsed with
          | true => exact absurd ⟨true, enters.1, rfl⟩ fetches
          | false => exact enters.elim
      | processCreate program fresh => exact enters.elim
      | diskTick => exact enters.elim

/-- What the records of a run keep of its loads. -/
structure LoadsKept (past : List ((Cpu × Ledger) × CpuEvent)) (kernel : Kernel) : Prop where
  kept : ∀ entry ∈ past, ∀ program fresh, entry.2 = .processCreate program fresh →
    entry.1.1.kernel.nextProcId < kernel.nextProcId ∧
      (kernel.procs entry.1.1.kernel.nextProcId).semaphores = (newProcess program).semaphores
  loaded : ∀ proc, 0 < proc → proc < kernel.nextProcId → ∃ entry ∈ past, ∃ program fresh,
    entry.2 = .processCreate program fresh ∧ entry.1.1.kernel.nextProcId = proc

/-- Later steps leave the semaphores of a record alone. -/
theorem kept_later {kernel after : Kernel} {action : KernelEvent} (keeps : LoadsKept past kernel)
    (stepped : kernelStep kernel action = some after) :
    ∀ entry ∈ past, ∀ program fresh, entry.2 = .processCreate program fresh →
      entry.1.1.kernel.nextProcId < after.nextProcId ∧
        (after.procs entry.1.1.kernel.nextProcId).semaphores =
          (newProcess program).semaphores := by
  intro entry member program fresh same
  obtain ⟨used, pointer⟩ := keeps.kept entry member program fresh same
  exact ⟨Nat.lt_of_lt_of_le used (next_le stepped),
    (step_keeps stepped used).semaphores.trans pointer⟩

/-- A load adds a record, and the record has the semaphores of its program. -/
theorem load_kept {before : Cpu × Ledger} {program : Program} {fresh : Nat → Page}
    (keeps : LoadsKept past before.1.kernel) :
    LoadsKept (past ++ [(before, .processCreate program fresh)])
      (processCreate before.1.kernel program fresh) := by
  have next := (create_code before.1.kernel program fresh).next
  have stepped : kernelStep before.1.kernel (.processCreate program fresh) =
      some (processCreate before.1.kernel program fresh) := rfl
  constructor
  · intro entry member other content same
    rcases List.mem_append.mp member with earlier | last
    · exact kept_later keeps stepped entry earlier other content same
    · obtain rfl := List.mem_singleton.mp last
      cases same
      refine ⟨by rw [next]; exact Nat.lt_succ_self _, ?_⟩
      rw [create_procs, Function.update_self]
      rfl
  · intro proc positive used
    rw [next] at used
    rcases Nat.lt_succ_iff_lt_or_eq.mp used with earlier | rfl
    · obtain ⟨entry, member, load⟩ := keeps.loaded proc positive earlier
      exact ⟨entry, List.mem_append_left _ member, load⟩
    · exact ⟨_, List.mem_append_right _ (List.mem_singleton_self _), program, fresh, rfl, rfl⟩

/-- What is no load adds no record. -/
theorem plain_kept {before after : Cpu × Ledger} {event : CpuEvent}
    (keeps : LoadsKept past before.1.kernel) (step : cpuStep before.1 event = some after.1)
    (plain : ∀ program fresh, event ≠ .processCreate program fresh) :
    LoadsKept (past ++ [(before, event)]) after.1.kernel := by
  have later : LoadsKept past after.1.kernel := by
    rcases step_action step with ⟨-, kernel⟩ | ⟨action, acts, stepped⟩
    · rw [kernel]
      exact keeps
    · have next : after.1.kernel.nextProcId = before.1.kernel.nextProcId := by
        apply next_kept stepped
        rintro program fresh rfl
        exact plain program fresh (create_action acts)
      exact ⟨kept_later keeps stepped, next ▸ keeps.loaded⟩
  constructor
  · intro entry member program fresh load
    rcases List.mem_append.mp member with earlier | last
    · exact later.kept entry earlier program fresh load
    · obtain rfl := List.mem_singleton.mp last
      exact absurd load (plain program fresh)
  · intro proc positive used
    obtain ⟨entry, member, load⟩ := later.loaded proc positive used
    exact ⟨entry, List.mem_append_left _ member, load⟩

theorem trace_loads_kept (trace : Trace recordedCpu past state) :
    LoadsKept past state.1.kernel := by
  induction trace with
  | start =>
      constructor
      · exact fun entry member => absurd member List.not_mem_nil
      · intro proc positive used
        exact absurd used (Nat.not_lt.mpr positive)
  | @next past before after event prior fired ih =>
      have step : cpuStep before.1 event = some after.1 := (history_step fired).1
      cases event with
      | processCreate program fresh =>
          have created : processCreate before.1.kernel program fresh = after.1.kernel :=
            Option.some.inj (fire_kernel step).1
          rw [← created]
          exact load_kept ih
      | pass | diskTick => exact plain_kept ih step fun program fresh => CpuEvent.noConfusion

/-- The pointer of a record is unset exactly when the load had no semaphore line. -/
theorem unset_iff (trace : Trace recordedCpu past state) {proc : ProcId} (positive : 0 < proc)
    (used : proc < state.1.kernel.nextProcId) :
    (state.1.kernel.procs proc).semaphores = none ↔ LoadedBare past proc := by
  have keeps := trace_loads_kept trace
  have pointer : ∀ program : Program,
      (newProcess program).semaphores = none ↔ program.semaphores = [] := by
    intro program
    simp [newProcess]
  constructor
  · intro unset
    obtain ⟨entry, member, program, fresh, load, rfl⟩ := keeps.loaded proc positive used
    refine ⟨entry, member, program, fresh, load, rfl, (pointer program).mp ?_⟩
    rw [← (keeps.kept entry member program fresh load).2]
    exact unset
  · rintro ⟨entry, member, program, fresh, load, rfl, bare⟩
    rw [(keeps.kept entry member program fresh load).2]
    exact (pointer program).mpr bare

theorem finishing_pass {cpu : Cpu} {elapsed : Bool}
    (acts : cpuAction cpu (.pass elapsed) = some .processFinish) :
    cpu.control = .ending ∧ ∃ proc, cpu.kernel.scheduler.scheduledProc = some proc ∧
      (cpu.kernel.procs proc).codeLen ≤ (cpu.kernel.procs proc).pc := by
  constructor
  · simp only [cpuAction] at acts
    split at acts
    case h_1 => split at acts <;> cases acts
    case h_2 =>
        split at acts
        · obtain ⟨instr, -, same⟩ := Option.map_eq_some_iff.mp acts
          cases same
        · cases acts
    case h_3 => cases acts
    case h_4 control => exact control
  · rcases pass_action acts with same | ⟨_, _, _, _, _, same⟩ | ⟨proc, running, ended, -⟩ | same
    · cases same
    · cases same
    · exact ⟨proc, running, ended⟩
    · cases same

/-- Only the pass behind the loop frees, when it finishes a process. -/
theorem frees_unset_iff (trace : Trace recordedCpu past state) (event : CpuEvent) :
    (∃ action, cpuAction state.1 event = some action ∧ FreesUnset state.1.kernel action) ↔
      FinishesBare past state event := by
  have reached : Reachable kernelSystem state.1.kernel := cpu_kernel_reachable ⟨past, trace⟩
  have pointer : ∀ proc, state.1.kernel.scheduler.scheduledProc = some proc →
      ((state.1.kernel.procs proc).semaphores = none ↔ LoadedBare past proc) := by
    intro proc running
    obtain ⟨listed, used⟩ := scheduled_numbered reached running
    exact unset_iff trace ((numbered_from_one reached).2 proc listed) used
  cases event with
  | processCreate program fresh =>
      simp [cpuAction, FreesUnset, FinishesBare]
  | diskTick => simp [cpuAction, FreesUnset, FinishesBare]
  | pass elapsed =>
      simp only [FinishesBare]
      constructor
      · rintro ⟨action, acts, frees⟩
        cases action with
        | processFinish =>
            obtain ⟨proc, running, unset⟩ := frees
            obtain ⟨ending, other, scheduled, ended⟩ := finishing_pass acts
            obtain rfl := Option.some.inj (scheduled.symm.trans running)
            exact ⟨ending, other, running, ended, (pointer other running).mp unset⟩
        | processCreate | idleDispatch | execute | quantumCompleted | diskTick =>
            exact frees.elim
      · rintro ⟨ending, proc, running, ended, bare⟩
        refine ⟨.processFinish, ?_, proc, running, (pointer proc running).mpr bare⟩
        simp [cpuAction, ending, running, ended]

end Runs

/-- A program without instructions, which has no page either. -/
def emptyProgram : Program :=
  { sampleProgram with
    semaphores := []
    code := [] }

def emptyEvents : List CpuEvent :=
  [.processCreate emptyProgram blankPage, .pass false, .pass false]

def emptyState : Cpu × Ledger :=
  (run recordedCpu emptyEvents recordedCpu.start).getD recordedCpu.start

theorem empty_trace : Trace recordedCpu (history recordedCpu emptyEvents recordedCpu.start)
    emptyState := by
  have result : run recordedCpu emptyEvents recordedCpu.start = some emptyState := rfl
  exact trace_history _ .start result

/-- After a pass whose second has not elapsed the loop ends and the program is finished. -/
def endedState : Cpu × Ledger :=
  (run recordedCpu (emptyEvents ++ [.pass false, .pass false]) recordedCpu.start).getD
    recordedCpu.start

theorem empty_named (later : List CpuEvent) (passes : ∀ event ∈ later, event = .pass false) :
    ∀ entry ∈ history recordedCpu (emptyEvents ++ later) recordedCpu.start,
      ResolvedLoad entry.1 entry.2 := by
  intro entry member
  rcases List.mem_append.mp (history_event member) with load | pass
  · simp only [emptyEvents, List.mem_cons, List.not_mem_nil, or_false] at load
    rcases load with fired | fired | fired <;> rw [fired]
    · intro instr listed
      exact absurd listed List.not_mem_nil
    all_goals trivial
  · rw [passes _ pass]
    trivial

end Ribabari.NoFaults

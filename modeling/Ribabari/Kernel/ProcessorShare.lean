import Ribabari.Foundation.AmortisedCost
import Ribabari.Kernel.EvaluationTime
import Ribabari.Kernel.HighQueueWait
import Ribabari.Kernel.ProcessLives

/-!
# Shares of the CPU

A dispatch gives a process 1000 units of time from the high queue, and at most 2000 from
the low one. If every `exec` takes time, an evaluation that does not lead to a dispatch
uses up a unit. So evaluations are bounded by what the dispatches have given, and a
process in the high queue knows how many evaluations it waits at most.
-/

namespace Ribabari.ProcessorShare

open Ribabari.ProcessRecords Ribabari.SemaphoreTable Ribabari.KernelState Ribabari.Dispatch
open Ribabari.DiskAndFiles Ribabari.KernelEvents Ribabari.CpuLoop Ribabari.ProgramLedger
open Ribabari.QueueBoard Ribabari.QueueRefinement Ribabari.Placement Ribabari.InstructionFetch
open Ribabari.CpuGuarantees Ribabari.RemainingTime Ribabari.EvaluationTime
open Ribabari.HighQueueWait Ribabari.ProcessLives Ribabari.FifoQueue Ribabari.AmortisedCost
open Ribabari.StateField Ribabari.TransitionSystem

set_option autoImplicit false

/-- The time that the scheduled process has left. -/
def timeLeft (kernel : Kernel) : Nat :=
  (kernel.scheduler.scheduledProc.elim 0 fun proc => (kernel.procs proc).remaining).toNat

/-- The time that the next dispatch gives at most. -/
def dispatchCredit (queues : Scheduler) : Nat :=
  match queues.highQueue, queues.lowQueue with
  | _ :: _, _ => schedHighQueueQuantum.toNat
  | [], _ :: _ => schedLowQueueQuantum.toNat
  | [], [] => 0

/-- An `exec` takes time. -/
def Advances (instr : Instr) : Prop := instr.op = .exec → 0 < instr.value

instance : DecidablePred Advances := fun instr =>
  inferInstanceAs (Decidable (instr.op = .exec → 0 < instr.value))

def Demanding (code : List Instr) : Prop := OperandsInRange code ∧ ∀ instr ∈ code, Advances instr

instance : DecidablePred Demanding := fun code =>
  inferInstanceAs (Decidable (OperandsInRange code ∧ ∀ instr ∈ code, Advances instr))

section Kernels

variable {kernel after : Kernel} {proc : ProcId}

theorem time_left_running (running : kernel.scheduler.scheduledProc = some proc) :
    timeLeft kernel = (kernel.procs proc).remaining.toNat := by
  rw [timeLeft, running, Option.elim_some]

theorem time_left_idle (idle : kernel.scheduler.scheduledProc = none) : timeLeft kernel = 0 := by
  rw [timeLeft, idle]
  rfl

/-! ## A dispatch -/

theorem credited_le {queues : Scheduler} (next : Queues.next queues = some proc)
    (remaining : Int) : (credited queues remaining).toNat ≤ dispatchCredit queues ∧
      0 < dispatchCredit queues := by
  unfold Queues.next at next
  unfold credited dispatchCredit schedHighQueueQuantum schedLowQueueQuantum
  cases high : queues.highQueue with
  | cons head rest => simp
  | nil =>
      cases low : queues.lowQueue with
      | cons head rest => simp
      | nil => simp [high, low] at next

theorem modify_own (kernel : Kernel) (proc : ProcId) (f : Process → Process) :
    (kernel.modifyProc proc f).procs proc = f (kernel.procs proc) :=
  Function.update_self _ _ _

theorem modify_other (kernel : Kernel) (f : Process → Process) {other : ProcId}
    (differs : other ≠ proc) :
    ((kernel.modifyProc proc f).procs other).remaining = (kernel.procs other).remaining := by
  simp [Kernel.modifyProc, differs]

theorem disk_call_remaining (kernel : Kernel) (track : Int) (read : Bool) {other : ProcId}
    (differs : other ≠ proc) :
    ((diskCall kernel proc track read).procs other).remaining =
      ((scheduleProcess kernel .ioRequested).procs other).remaining := by
  have opened : clockView (diskCall kernel proc track read) =
      clockView (diskRequest (scheduleProcess kernel .ioRequested) proc track read) := by
    rw [diskCall, fsRequest]
    split <;> exact open_for_clock _ _ _
  rw [clock_remaining opened, diskRequest]
  exact modify_other _ _ differs

/-- What `schedule_process` credits in an evaluation is not charged to the successor. -/
theorem eval_credits {instr : Instr} (evaluated : eval kernel proc instr = some after)
    (calls : callsSchedule kernel (.execute instr) = true) {next : ProcId}
    (dispatched : Queues.next kernel.scheduler = some next) (differs : next ≠ proc) :
    (after.procs next).remaining =
      credited kernel.scheduler (kernel.procs next).remaining := by
  have given : ∀ flag, ((scheduleProcess kernel flag).procs next).remaining =
      credited kernel.scheduler (kernel.procs next).remaining := by
    intro flag
    rw [schedule_remaining, if_pos dispatched]
  rcases instr with ⟨op, value, name⟩
  cases op with
  | exec | semV => exact absurd calls Bool.false_ne_true
  | read =>
      obtain rfl := Option.some.inj evaluated
      rw [disk_call_remaining kernel value true differs]
      exact given .ioRequested
  | write =>
      obtain rfl := Option.some.inj evaluated
      rw [disk_call_remaining kernel value false differs]
      exact given .ioRequested
  | print =>
      obtain rfl := Option.some.inj evaluated
      rw [printRequest, interruptControl, clock_remaining (unblock_clock _ _ _),
        modify_other _ _ differs]
      exact given .ioRequested
  | semP =>
      obtain ⟨sem, called, found, call, ended⟩ := acquire_inv evaluated
      have short : sem.S - 1 < 0 := by simpa [callsSchedule, found] using calls
      have kept : (after.procs next).remaining = (called.procs next).remaining := by
        rcases ended with rfl | rfl
        · exact modify_other _ _ differs
        · rfl
      obtain rfl := Option.some.inj call
      rw [kept, semaphoreP, if_pos short]
      exact given .semaphoreBlocked

theorem next_differs (reached : Reachable kernelSystem kernel) {next : ProcId}
    (running : kernel.scheduler.scheduledProc = some proc)
    (dispatched : Queues.next kernel.scheduler = some next) : next ≠ proc := by
  have queued := scheduled_not_queued (kernel_accounted reached).places_nodup running
  rintro rfl
  obtain ⟨queue, ready⟩ := LifeCycle.next_lives dispatched
  cases ready with
  | high member => exact queued.1 member
  | low member => exact queued.2.1 member

theorem step_credits (reached : Reachable kernelSystem kernel) {event : KernelEvent}
    (fired : kernelStep kernel event = some after)
    (calls : callsSchedule kernel event = true) {next : ProcId}
    (dispatched : Queues.next kernel.scheduler = some next) :
    (after.procs next).remaining =
      credited kernel.scheduler (kernel.procs next).remaining := by
  cases event with
  | processCreate | diskTick => exact absurd calls Bool.false_ne_true
  | idleDispatch logged =>
      obtain ⟨-, rfl⟩ := idle_fires fired
      cases logged with
      | true =>
          have written := schedule_remaining (processNpLog kernel) .none next
          exact written.trans (if_pos dispatched)
      | false => exact (schedule_remaining kernel .none next).trans (if_pos dispatched)
  | execute instr =>
      obtain ⟨proc, running, evaluated⟩ := execute_fires fired
      have fetching : callsSchedule (fetched kernel proc) (.execute instr) = true := calls
      have written := eval_credits evaluated fetching dispatched
        (next_differs reached running dispatched)
      rw [clock_remaining (fetched_clock kernel proc)] at written
      exact written
  | quantumCompleted =>
      obtain ⟨-, -, rfl⟩ := quantum_fires fired
      exact (schedule_remaining kernel .quantumCompleted next).trans (if_pos dispatched)
  | processFinish =>
      obtain ⟨proc, running, finished⟩ := finish_fires fired
      rw [clock_remaining (finish_clock running finished)]
      exact (schedule_remaining _ .none next).trans (if_pos dispatched)

/-- The dispatched process has the time that the dispatch gives it. -/
theorem dispatch_pays (reached : Reachable kernelSystem kernel) {event : KernelEvent}
    (fired : kernelStep kernel event = some after)
    (calls : callsSchedule kernel event = true) :
    (if after.scheduler.scheduledProc = none then 0 else max 1 (timeLeft after)) ≤
      dispatchCredit kernel.scheduler := by
  have scheduled : after.scheduler.scheduledProc = Queues.next kernel.scheduler := by
    have served := (step_served reached fired).2
    rw [calls, if_pos rfl] at served
    exact served
  cases dispatched : Queues.next kernel.scheduler with
  | none =>
      rw [scheduled, dispatched, if_pos rfl]
      exact Nat.zero_le _
  | some next =>
      have running := scheduled.trans dispatched
      have given := credited_le dispatched (kernel.procs next).remaining
      rw [if_neg (by rw [running]; exact Option.some_ne_none next), time_left_running running,
        step_credits reached fired calls dispatched]
      exact max_le given.2 given.1

/-! ## An evaluation without a dispatch -/

theorem charged_remaining (kernel : Kernel) (proc : ProcId) :
    ((chargeSemaphore kernel proc).procs proc).remaining =
      max 0 ((kernel.procs proc).remaining - 200) :=
  congrArg Process.remaining (modify_own kernel proc _)

/-- A `P` that returns is charged, since the caller is `RUNNING`. -/
theorem acquire_charges {value : Int} {name : Option CString}
    (evaluated : eval kernel proc ⟨.semP, value, name⟩ = some after)
    (returns : callsSchedule kernel (.execute ⟨.semP, value, name⟩) = false)
    (runs : (kernel.procs proc).state = .running) :
    (after.procs proc).remaining = max 0 ((kernel.procs proc).remaining - 200) := by
  simp only [eval, Option.bind_eq_bind, Option.bind_eq_some_iff] at evaluated
  obtain ⟨called, call, ended⟩ := evaluated
  cases found : instrSemaphore kernel ⟨.semP, value, name⟩ with
  | none =>
      rw [found] at call
      exact absurd call.symm (Option.some_ne_none called)
  | some sem =>
      rw [found] at call
      have free : ¬sem.S - 1 < 0 := by simpa [callsSchedule, found] using returns
      obtain rfl := Option.some.inj call
      rw [semaphoreP, if_neg free] at ended
      change (if (kernel.procs proc).state ≠ .blocked then _ else _) = _ at ended
      rw [runs, if_pos (by decide)] at ended
      obtain rfl := Option.some.inj ended
      exact charged_remaining _ proc

theorem eval_spends {instr : Instr} (evaluated : eval kernel proc instr = some after)
    (stays : callsSchedule kernel (.execute instr) = false) (advances : Advances instr)
    (runs : (kernel.procs proc).state = .running) :
    (after.procs proc).remaining.toNat + 1 ≤ max 1 (kernel.procs proc).remaining.toNat := by
  rcases instr with ⟨op, value, name⟩
  cases op with
  | read | write | print => exact absurd stays.symm Bool.false_ne_true
  | exec =>
      obtain rfl := Option.some.inj evaluated
      have positive : 0 < value := advances rfl
      have spent : ((kernel.modifyProc proc fun process =>
          process.setRemaining (process.remaining - value)).procs proc).remaining =
          (kernel.procs proc).remaining - value :=
        congrArg Process.remaining (modify_own kernel proc _)
      rw [spent]
      omega
  | semP =>
      rw [acquire_charges evaluated stays runs]
      omega
  | semV =>
      obtain ⟨sem, called, -, call, rfl⟩ := release_inv evaluated
      rw [charged_remaining, clock_remaining (semaphore_v_clock call)]
      omega

/-- It uses up a unit of time, or there was none left. -/
theorem evaluation_pays (reached : Reachable kernelSystem kernel) {instr : Instr}
    (fired : kernelStep kernel (.execute instr) = some after)
    (stays : callsSchedule kernel (.execute instr) = false) (advances : Advances instr) :
    1 + timeLeft after ≤ max 1 (timeLeft kernel) := by
  obtain ⟨proc, running, evaluated⟩ := execute_fires fired
  have scheduled := (step_served reached fired).2
  rw [stays, if_neg Bool.false_ne_true, running] at scheduled
  have runs : ((fetched kernel proc).procs proc).state = .running := by
    rw [← scheduled_runs reached running]
    exact view_state (modify_proc_view kernel proc
      (fun process => { process with pc := process.pc + 1 }) fun _ => rfl) proc
  have fetching : callsSchedule (fetched kernel proc) (.execute instr) = false := stays
  have spent := eval_spends evaluated fetching advances runs
  rw [clock_remaining (fetched_clock kernel proc)] at spent
  rw [time_left_running running, time_left_running scheduled, Nat.add_comm]
  exact spent

/-- The disk and the loader leave the scheduled process and its time. -/
theorem background_time (reached : Reachable kernelSystem kernel) {event : KernelEvent}
    (background : event = .diskTick ∨ ∃ program fresh, event = .processCreate program fresh)
    (fired : kernelStep kernel event = some after) :
    after.scheduler.scheduledProc = kernel.scheduler.scheduledProc ∧
      timeLeft after = timeLeft kernel := by
  have quiet : callsSchedule kernel event = false := by
    rcases background with rfl | ⟨program, fresh, rfl⟩ <;> rfl
  have scheduled := (step_served reached fired).2
  rw [quiet, if_neg Bool.false_ne_true] at scheduled
  refine ⟨scheduled, ?_⟩
  cases running : kernel.scheduler.scheduledProc with
  | none => rw [time_left_idle running, time_left_idle (scheduled.trans running)]
  | some proc =>
      rw [time_left_running running, time_left_running (scheduled.trans running)]
      rcases background with rfl | ⟨program, fresh, rfl⟩
      · obtain rfl := Option.some.inj fired
        have same : clockView (resolveFrom kernel.diskScheduler.currTrack kernel []
            kernel.diskScheduler.pendingRequests) = clockView kernel := resolve_clock _ _ _ _
        exact congrArg Int.toNat (clock_remaining same proc)
      · obtain rfl := Option.some.inj fired
        have other : proc ≠ kernel.nextProcId :=
          Nat.ne_of_lt (scheduled_numbered reached running).2
        rw [create_remaining, if_neg other]

end Kernels

/-! ## The cpu -/

/-- The evaluations that the scheduled process can still start before the next dispatch. -/
def allowance (cpu : Cpu) : Nat :=
  match cpu.control with
  | .outer | .body _ =>
      if cpu.kernel.scheduler.scheduledProc = none then 0 else max 1 (timeLeft cpu.kernel)
  | .condition => timeLeft cpu.kernel
  | .ending => 0

def isExecute : KernelEvent → Bool
  | .execute _ => true
  | _ => false

/-- One for each instruction that is evaluated. -/
def evaluates (cpu : Cpu) (event : CpuEvent) : Nat :=
  if (cpuAction cpu event).any isExecute then 1 else 0

/-- The event calls `schedule_process`. -/
def dispatches (cpu : Cpu) (event : CpuEvent) : Bool :=
  (cpuAction cpu event).any (callsSchedule cpu.kernel)

def credits (cpu : Cpu) (event : CpuEvent) : Nat :=
  if dispatches cpu event then dispatchCredit cpu.kernel.scheduler else 0

section Passes

variable {cpu next : Cpu}

theorem condition_allowance (cpu : Cpu) :
    timeLeft cpu.kernel ≤
      if cpu.kernel.scheduler.scheduledProc = none then 0 else max 1 (timeLeft cpu.kernel) := by
  split
  case isTrue idle => exact Nat.le_of_eq (time_left_idle idle)
  case isFalse => exact Nat.le_max_right _ _

/-- The loop goes on with a process that has time left. -/
theorem goes_on_allowance {kernel : Kernel} (goes : goesOn kernel = true) :
    max 1 (timeLeft kernel) = timeLeft kernel := by
  unfold goesOn at goes
  split at goes
  case h_1 => exact absurd goes Bool.false_ne_true
  case h_2 proc running =>
      simp only [Bool.and_eq_true, decide_eq_true_eq] at goes
      rw [time_left_running running]
      omega

/-- An action that leads back to the outer loop. -/
theorem dispatch_allowance (reached : Reachable kernelSystem cpu.kernel) {event : CpuEvent}
    {action : KernelEvent} (acts : cpuAction cpu event = some action)
    (calls : callsSchedule cpu.kernel action = true) (other : isExecute action = false)
    (fired : kernelStep cpu.kernel action = some next.kernel ∧ next.control = .outer) :
    evaluates cpu event + allowance next ≤ allowance cpu + credits cpu event := by
  obtain ⟨step, control⟩ := fired
  have paid := dispatch_pays reached step calls
  simp only [evaluates, credits, dispatches, acts, Option.any_some, other, calls,
    Bool.false_eq_true, if_false, if_true, allowance, control]
  omega

theorem execute_pays (reached : Reachable kernelSystem cpu.kernel) {first : Bool} {instr : Instr}
    (control : cpu.control = .body first)
    (acts : cpuAction cpu (.pass true) = some (.execute instr)) (advances : Advances instr)
    (fired : cpu.fire (.execute instr) .condition = some next) :
    evaluates cpu (.pass true) + allowance next ≤
      allowance cpu + credits cpu (.pass true) := by
  obtain ⟨step, ends⟩ := fire_kernel fired
  obtain ⟨proc, running, -⟩ := execute_fires step
  have busy : ¬cpu.kernel.scheduler.scheduledProc = none := by
    rw [running]
    exact Option.some_ne_none proc
  simp only [evaluates, credits, dispatches, acts, Option.any_some, isExecute, if_true,
    allowance, control, ends, if_neg busy]
  cases calls : callsSchedule cpu.kernel (.execute instr) with
  | true =>
      have paid := (condition_allowance next).trans (dispatch_pays reached step calls)
      rw [if_pos rfl]
      omega
  | false =>
      have paid := evaluation_pays reached step calls advances
      rw [if_neg Bool.false_ne_true]
      omega

theorem pass_pays (reached : Reachable kernelSystem cpu.kernel) {elapsed : Bool}
    (advancing : ∀ instr, cpuAction cpu (.pass elapsed) = some (.execute instr) → Advances instr)
    (fired : cpuPass cpu elapsed = some next) :
    evaluates cpu (.pass elapsed) + allowance next ≤
      allowance cpu + credits cpu (.pass elapsed) := by
  have silent : cpuAction cpu (.pass elapsed) = none → allowance next ≤ allowance cpu →
      evaluates cpu (.pass elapsed) + allowance next ≤
        allowance cpu + credits cpu (.pass elapsed) := by
    intro none fewer
    simp only [evaluates, none, Option.any_none, Bool.false_eq_true, if_false]
    omega
  simp only [cpuPass] at fired
  cases control : cpu.control with
  | outer =>
      simp only [control] at fired
      split at fired
      case h_1 idle =>
          have acts : cpuAction cpu (.pass elapsed) = some (.idleDispatch (!cpu.noProcess)) := by
            simp [cpuAction, control, idle]
          have step := fire_kernel fired
          exact dispatch_allowance reached acts rfl rfl step
      case h_2 proc running =>
          obtain rfl := Option.some.inj fired
          apply silent
          · simp [cpuAction, control, running]
          · simp [allowance, control]
  | body first =>
      simp only [control] at fired
      cases elapsed with
      | true =>
          obtain ⟨instr, found, fired⟩ := Option.bind_eq_some_iff.mp fired
          have acts : cpuAction cpu (.pass true) = some (.execute instr) := by
            simp [cpuAction, control, found]
          exact execute_pays reached control acts (advancing instr acts) fired
      | false =>
          obtain rfl := Option.some.inj fired
          apply silent
          · simp [cpuAction, control]
          · simp only [allowance, control]
            exact condition_allowance cpu
  | condition =>
      simp only [control, Option.some.injEq] at fired
      obtain rfl := fired
      apply silent
      · simp [cpuAction, control]
      · cases goes : goesOn cpu.kernel with
        | true =>
            have left := goes_on_allowance goes
            simp only [allowance, control, if_true]
            split
            · exact Nat.zero_le _
            · exact Nat.le_of_eq left
        | false => exact Nat.zero_le _
  | ending =>
      simp only [control] at fired
      split at fired
      case h_1 idle =>
          obtain rfl := Option.some.inj fired
          apply silent
          · simp [cpuAction, control, idle]
          · simp [allowance, idle]
      case h_2 proc running =>
          split at fired
          case isTrue ended =>
              have acts : cpuAction cpu (.pass elapsed) = some .processFinish := by
                simp [cpuAction, control, running, ended]
              exact dispatch_allowance reached acts rfl rfl (fire_kernel fired)
          case isFalse left =>
              have acts : cpuAction cpu (.pass elapsed) = some .quantumCompleted := by
                simp [cpuAction, control, running, left]
              exact dispatch_allowance reached acts rfl rfl (fire_kernel fired)

theorem background_pays (reached : Reachable kernelSystem cpu.kernel) {event : CpuEvent}
    {action : KernelEvent}
    (background : action = .diskTick ∨ ∃ program fresh, action = .processCreate program fresh)
    (acts : cpuAction cpu event = some action)
    (fired : cpu.fire action cpu.control = some next) :
    evaluates cpu event + allowance next ≤ allowance cpu + credits cpu event := by
  obtain ⟨step, control⟩ := fire_kernel fired
  obtain ⟨scheduled, time⟩ := background_time reached background step
  have same : allowance next = allowance cpu := by
    simp only [allowance, control, scheduled, time]
  have other : isExecute action = false := by
    rcases background with rfl | ⟨program, fresh, rfl⟩ <;> rfl
  rw [same, evaluates, acts, Option.any_some, other, if_neg Bool.false_ne_true]
  omega

theorem cpu_pays (reached : Reachable kernelSystem cpu.kernel) {event : CpuEvent}
    (advancing : ∀ instr, cpuAction cpu event = some (.execute instr) → Advances instr)
    (fired : cpuStep cpu event = some next) :
    evaluates cpu event + allowance next ≤ allowance cpu + credits cpu event := by
  cases event with
  | pass elapsed => exact pass_pays reached advancing fired
  | processCreate program fresh =>
      exact background_pays reached (.inr ⟨program, fresh, rfl⟩) rfl fired
  | diskTick => exact background_pays reached (.inl rfl) rfl fired

end Passes

/-! ## Runs -/

theorem cpu_amortised : Amortised recordedCpu (Reachable recordedCpu)
    (fun state event => ∀ instr, cpuAction state.1 event = some (.execute instr) → Advances instr)
    (fun state => allowance state.1) (fun state event => evaluates state.1 event)
    fun state event => credits state.1 event where
  kept := reachable_next
  pays reached advancing fired :=
    cpu_pays (cpu_kernel_reachable reached) advancing (history_step fired).1

theorem cpu_high_queue_fifo : Fifo recordedCpu (Reachable recordedCpu)
    (fun state => state.1.kernel.scheduler.highQueue)
    fun state event => dispatches state.1 event where
  kept := reachable_next
  moves reached fired := by
    rcases step_action (history_step fired).1 with ⟨quiet, same⟩ | ⟨action, acts, step⟩
    · refine ⟨[], ?_⟩
      rw [dispatches, quiet, same]
      exact (List.append_nil _).symm
    · rw [dispatches, acts]
      exact (step_served (cpu_kernel_reachable reached) step).1

section Runs

variable {past : List ((Cpu × Ledger) × CpuEvent)} {state final : Cpu × Ledger}
  {events : List CpuEvent}

theorem evaluates_advancing (trace : Trace recordedCpu past state)
    (unique : ∀ entry ∈ past, FreshLoad entry.1 entry.2)
    (quiet : ∀ entry ∈ past, ¬EntersPastEnd entry.1 entry.2)
    (demanding : ∀ entry ∈ past, LoadsCode Demanding entry.2) :
    ∀ entry ∈ past, ∀ instr, cpuAction entry.1.1 entry.2 = some (.execute instr) →
      Advances instr := by
  intro entry member instr acts
  have reached := (trace_entry trace member).1
  have seen := mem_visited member state
  have loaded := visited_loaded_ok Demanding ⟨by simp [OperandsInRange], by simp⟩ trace demanding
    entry.1 seen
  have below := (fetch_below_end_iff reached entry.2).mpr (quiet entry member)
  have inRange := cpu_fetch_in_range reached (cpu_stored trace unique entry.1 seen) below acts
  obtain ⟨proc, running, -⟩ := Option.bind_eq_some_iff.mp (execute_action acts).2.2
  exact (loaded proc).2 instr (List.mem_of_getElem? (inRange proc running))

theorem allowance_le (trace : Trace recordedCpu past state)
    (unique : ∀ entry ∈ past, FreshLoad entry.1 entry.2)
    (quiet : ∀ entry ∈ past, ¬EntersPastEnd entry.1 entry.2)
    (demanding : ∀ entry ∈ past, LoadsCode Demanding entry.2) : allowance state.1 ≤ 2000 := by
  have operands : ∀ entry ∈ past, LoadsCode OperandsInRange entry.2 := by
    intro entry member
    have ok := demanding entry member
    cases event : entry.2 with
    | processCreate program fresh =>
        rw [event] at ok
        exact ok.1
    | pass | diskTick => trivial
  have times := (visited_times trace operands (quiet_evaluates_in_range trace unique quiet) state
    (last_visited past state)).1
  have left : timeLeft state.1.kernel ≤ 2000 := by
    cases running : state.1.kernel.scheduler.scheduledProc with
    | none =>
        rw [time_left_idle running]
        exact Nat.zero_le _
    | some proc =>
        have upper := times.upper proc
        rw [time_left_running running]
        unfold schedLowQueueQuantum at upper
        omega
  unfold allowance
  split
  · split <;> omega
  · split <;> omega
  · exact left
  · exact Nat.zero_le _

variable (trace : Trace recordedCpu past state) (result : run recordedCpu events state = some final)
  (unique : ∀ entry ∈ past ++ history recordedCpu events state, FreshLoad entry.1 entry.2)
  (quiet : ∀ entry ∈ past ++ history recordedCpu events state, ¬EntersPastEnd entry.1 entry.2)
  (demanding : ∀ entry ∈ past ++ history recordedCpu events state, LoadsCode Demanding entry.2)

include trace unique quiet demanding in
theorem first_allowance : allowance state.1 ≤ 2000 :=
  allowance_le trace (fun entry member => unique entry (List.mem_append_left _ member))
    (fun entry member => quiet entry (List.mem_append_left _ member))
    fun entry member => demanding entry (List.mem_append_left _ member)

include trace result unique quiet demanding in
theorem later_advancing : ∀ entry ∈ history recordedCpu events state, ∀ instr,
    cpuAction entry.1.1 entry.2 = some (.execute instr) → Advances instr := fun entry member =>
  evaluates_advancing (trace_history events trace result) unique quiet demanding entry
    (List.mem_append_right _ member)

include trace result unique quiet demanding in
/-- From any state on, the instructions evaluated are bounded by what the process in the cpu
has left and by what the dispatches give. -/
theorem evaluations_bounded :
    total (fun state event => evaluates state.1 event) (history recordedCpu events state) ≤
      2000 + total (fun state event => credits state.1 event)
        (history recordedCpu events state) := by
  have paid := cpu_amortised.run_pays events ⟨past, trace⟩ result
    (later_advancing trace result unique quiet demanding)
  have first := first_allowance trace unique quiet demanding
  omega

include trace result unique quiet demanding in
/-- As long as a process of the high queue has not had the cpu, at most 1000 instructions are
evaluated for each process ahead of it, and 2000 for the one in the cpu. -/
theorem high_queue_response {ahead behind : List ProcId} {proc : ProcId}
    (place : state.1.kernel.scheduler.highQueue = ahead ++ proc :: behind)
    (waits : ∀ entry ∈ history recordedCpu events state, ∀ after,
      recordedCpu.step entry.1 entry.2 = some after →
        after.1.kernel.scheduler.scheduledProc ≠ some proc) :
    total (fun state event => evaluates state.1 event) (history recordedCpu events state) ≤
      2000 + 1000 * ahead.length := by
  have whole := trace_history events trace result
  have first := first_allowance trace unique quiet demanding
  have given : ∀ (state : Cpu × Ledger) event, state.1.kernel.scheduler.highQueue ≠ [] →
      dispatches state.1 event = true → credits state.1 event ≤ 1000 := by
    intro state event waiting calls
    obtain ⟨head, rest, high⟩ := List.exists_cons_of_ne_nil waiting
    rw [credits, calls, if_pos rfl, dispatchCredit, high]
    exact Nat.le_refl 1000
  have free : ∀ (state : Cpu × Ledger) event, dispatches state.1 event = false →
      credits state.1 event = 0 := by
    intro state event quiet
    rw [credits, quiet, if_neg Bool.false_ne_true]
  by_contra more
  obtain ⟨entry, member, calls, head⟩ := cpu_amortised.taken_within cpu_high_queue_fifo given free
    ⟨past, trace⟩ result (later_advancing trace result unique quiet demanding) place (by omega)
  obtain ⟨reached, after, -, fired⟩ := trace_entry whole (List.mem_append_right _ member)
  apply waits entry member after fired
  rcases step_action (history_step fired).1 with ⟨silent, -⟩ | ⟨action, acts, step⟩
  · rw [dispatches, silent] at calls
    exact absurd calls Bool.false_ne_true
  · rw [dispatches, acts, Option.any_some] at calls
    have served := (step_served (cpu_kernel_reachable reached) step).2
    rw [calls, if_pos rfl, Queues.next, head] at served
    exact served

end Runs

/-- The second process waits while the first one runs. -/
def waitingPrograms : List CpuEvent :=
  [.processCreate { sampleProgram with code := [⟨.exec, 3, none⟩, ⟨.exec, 4, none⟩] } blankPage,
    .processCreate { sampleProgram with code := [⟨.exec, 5, none⟩], segId := 2 } blankPage,
    .pass false]

def waitingState : Cpu × Ledger :=
  (run recordedCpu waitingPrograms recordedCpu.start).getD recordedCpu.start

def waitingEvents : List CpuEvent :=
  [.pass false, .pass true, .pass false, .diskTick, .pass true, .pass false]

theorem waiting_trace :
    Trace recordedCpu (history recordedCpu waitingPrograms recordedCpu.start) waitingState :=
  trace_history waitingPrograms .start
    (show run recordedCpu waitingPrograms recordedCpu.start = some waitingState from rfl)

theorem evaluations_bounded_sample :
    total (fun state event => evaluates state.1 event)
        (history recordedCpu waitingEvents waitingState) = 2 ∧
      total (fun state event => evaluates state.1 event)
          (history recordedCpu waitingEvents waitingState) ≤
        2000 + total (fun state event => credits state.1 event)
          (history recordedCpu waitingEvents waitingState) := by
  have result : run recordedCpu waitingEvents waitingState =
      some ((run recordedCpu waitingEvents waitingState).getD waitingState) := rfl
  exact ⟨by decide,
    evaluations_bounded waiting_trace result (by decide) (by decide) (by decide)⟩

theorem high_queue_response_sample :
    total (fun state event => evaluates state.1 event)
      (history recordedCpu waitingEvents waitingState) ≤ 2000 + 1000 * 0 := by
  have result : run recordedCpu waitingEvents waitingState =
      some ((run recordedCpu waitingEvents waitingState).getD waitingState) := rfl
  have place : waitingState.1.kernel.scheduler.highQueue = [] ++ 2 :: [] := by decide
  have others : ∀ entry ∈ history recordedCpu waitingEvents waitingState,
      (recordedCpu.step entry.1 entry.2).map
        (fun after => after.1.kernel.scheduler.scheduledProc) ≠ some (some 2) := by decide
  apply high_queue_response waiting_trace result (by decide) (by decide) (by decide) place
  intro entry member after fired has
  apply others entry member
  rw [fired, Option.map_some, has]

end Ribabari.ProcessorShare

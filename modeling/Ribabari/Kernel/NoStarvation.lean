import Ribabari.Foundation.ServedQueue
import Ribabari.Kernel.Completion
import Ribabari.Kernel.ProcessorShare

/-!
# Nobody starves in the high queue

Infinite runs in which the cpu keeps making passes and a second keeps elapsing for a
process that polls for it; programs may be loaded for ever. Calls of `schedule_process`
recur: between two of them one process runs, whose code is finite, and what it may evaluate
past its end is one cell. So everybody in the high queue gets the cpu. In the low queue that
needs an end of the loads, and what may then still hold a process back is a semaphore, or a
track that the disk does not have.
-/

namespace Ribabari.NoStarvation

open Filter Ribabari.ProcessRecords Ribabari.SemaphoreTable Ribabari.KernelState
open Ribabari.Dispatch Ribabari.KernelEvents Ribabari.CpuLoop Ribabari.ProgramLedger
open Ribabari.QueueBoard Ribabari.QueueRefinement Ribabari.BoardInvariants Ribabari.Placement
open Ribabari.SemaphoreAccounts Ribabari.DeadlockFreedom Ribabari.InstructionFetch
open Ribabari.CpuGuarantees Ribabari.WorkLeft Ribabari.Completion Ribabari.ProcessorShare
open Ribabari.RequestTracks
open Ribabari.ServedQueue Ribabari.FairRuns Ribabari.TransitionSystem
open Ribabari.HighQueueWait hiding dispatches

set_option autoImplicit false

/-! ## The code that is left -/

section Kernels

variable {kernel after : Kernel} {proc : ProcId}

/-- The instructions that the scheduled process has left. -/
def codeLeft (kernel : Kernel) : Nat :=
  kernel.scheduler.scheduledProc.elim 0 fun proc =>
    (kernel.procs proc).codeLen - (kernel.procs proc).pc

theorem code_left_running (running : kernel.scheduler.scheduledProc = some proc) :
    codeLeft kernel = (kernel.procs proc).codeLen - (kernel.procs proc).pc := by
  rw [codeLeft, running, Option.elim_some]

theorem undispatched_same (reached : Reachable kernelSystem kernel) {event : KernelEvent}
    (fired : kernelStep kernel event = some after)
    (calls : callsSchedule kernel event = false) :
    after.scheduler.scheduledProc = kernel.scheduler.scheduledProc := by
  have served := (step_served reached fired).2
  rw [calls, if_neg Bool.false_ne_true] at served
  exact served

/-- The disk and the loader leave the scheduled process and its counter. -/
theorem background_code (reached : Reachable kernelSystem kernel) {event : KernelEvent}
    (background : event = .diskTick ∨ ∃ program fresh, event = .processCreate program fresh)
    (fired : kernelStep kernel event = some after) :
    after.scheduler.scheduledProc = kernel.scheduler.scheduledProc ∧
      ∀ proc, kernel.scheduler.scheduledProc = some proc →
        (after.procs proc).codeLen = (kernel.procs proc).codeLen ∧
          (after.procs proc).pc = (kernel.procs proc).pc := by
  constructor
  · apply undispatched_same reached fired
    rcases background with rfl | ⟨program, fresh, rfl⟩ <;> rfl
  · intro proc running
    rcases background with rfl | ⟨program, fresh, rfl⟩
    · have code := spared_code fired rfl
      exact ⟨code.codeLen proc, code.pc proc⟩
    · obtain rfl := Option.some.inj fired
      have numbered := (scheduled_numbered reached running).2
      have code := (create_code kernel program fresh).others proc (Nat.ne_of_lt numbered)
      exact ⟨code.2.1, code.2.2⟩

theorem background_code_left (reached : Reachable kernelSystem kernel) {event : KernelEvent}
    (background : event = .diskTick ∨ ∃ program fresh, event = .processCreate program fresh)
    (fired : kernelStep kernel event = some after) :
    codeLeft after = codeLeft kernel ∧ (AtEnd after ↔ AtEnd kernel) := by
  obtain ⟨scheduled, code⟩ := background_code reached background fired
  cases running : kernel.scheduler.scheduledProc with
  | none =>
      rw [running] at scheduled
      simp [codeLeft, AtEnd, scheduled, running]
  | some proc =>
      obtain ⟨codeLen, pc⟩ := code proc running
      rw [running] at scheduled
      simp [codeLeft, AtEnd, scheduled, running, codeLen, pc]

/-- An evaluation that leaves its process the cpu leaves it less code, if there was any. -/
theorem evaluated_code_left (reached : Reachable kernelSystem kernel) {instr : Instr}
    (fired : kernelStep kernel (.execute instr) = some after)
    (stays : callsSchedule kernel (.execute instr) = false) :
    codeLeft after ≤ codeLeft kernel ∧ (¬AtEnd kernel → codeLeft after < codeLeft kernel) := by
  obtain ⟨proc, running, code⟩ := execute_code fired
  have scheduled := undispatched_same reached fired stays
  rw [code_left_running running, code_left_running (scheduled.trans running), code.codeLen,
    code.pc, if_pos rfl]
  constructor
  · omega
  · intro below
    have more : (kernel.procs proc).pc < (kernel.procs proc).codeLen :=
      Nat.lt_of_not_le fun ended => below ⟨proc, running, ended⟩
    omega

end Kernels

/-! ## Passes between two dispatches -/

section Passes

variable {state after : Cpu × Ledger}

def Dispatches (state : Cpu × Ledger) (event : CpuEvent) : Prop :=
  dispatches state.1 event = true

/-- A pass that neither evaluates nor dispatches leaves the kernel alone. -/
theorem silent_pass {elapsed : Bool}
    (fired : cpuStep state.1 (.pass elapsed) = some after.1)
    (unevaluated : ∀ instr, cpuAction state.1 (.pass elapsed) ≠ some (.execute instr))
    (undispatched : ¬Dispatches state (.pass elapsed)) :
    cpuAction state.1 (.pass elapsed) = none ∧ after.1.kernel = state.1.kernel := by
  rcases step_action fired with silent | ⟨action, acts, -⟩
  · exact silent
  · exfalso
    have calls : callsSchedule state.1.kernel action = true → False := by
      intro calls
      apply undispatched
      rw [Dispatches, dispatches, acts, Option.any_some, calls]
    rcases pass_action acts with rfl | ⟨_, instr, _, _, _, rfl⟩ | ⟨_, _, _, rfl⟩ | rfl
    · exact calls rfl
    · exact unevaluated instr acts
    · exact calls rfl
    · exact calls rfl

/-- The passes until the scheduled process polls or loses the cpu, at most. -/
def passesLeft (state : Cpu × Ledger) : Nat :=
  match state.1.control with
  | .outer => if AtEnd state.1.kernel then 5 else 1
  | .body _ => if AtEnd state.1.kernel then 4 else 0
  | .condition => 3
  | .ending => 2

/-- Either outcome of the elapsed test leads from the head of the `do` block to its end. -/
theorem body_to_condition {elapsed first : Bool} (control : state.1.control = .body first)
    (fired : cpuStep state.1 (.pass elapsed) = some after.1) : after.1.control = .condition := by
  cases elapsed with
  | false => rw [body_pass control fired]
  | true =>
      simp only [cpuStep, cpuPass, control, if_true] at fired
      obtain ⟨instr, -, fires⟩ := Option.bind_eq_some_iff.mp fired
      exact (fire_kernel fires).2

theorem pass_drops {elapsed : Bool} (fired : cpuStep state.1 (.pass elapsed) = some after.1)
    (unpolled : ¬Polls state (.pass elapsed)) (undispatched : ¬Dispatches state (.pass elapsed)) :
    passesLeft after < passesLeft state := by
  have silent : (∀ first, state.1.control ≠ .body first) →
      cpuAction state.1 (.pass elapsed) = none ∧ after.1.kernel = state.1.kernel := by
    intro outside
    apply silent_pass fired _ undispatched
    intro instr acts
    obtain ⟨-, ⟨first, control⟩, -⟩ := execute_action acts
    exact outside first control
  cases control : state.1.control with
  | outer =>
      obtain ⟨quiet, kernel⟩ := silent (by simp [control])
      rcases outer_pass control fired with ⟨idle, -⟩ | ⟨-, next⟩
      · simp [cpuAction, control, idle] at quiet
      · simp only [passesLeft, control, next, kernel]
        split <;> omega
  | body first =>
      -- Past its end the process may evaluate one cell, but the block is left all the same.
      have atEnd : AtEnd state.1.kernel := by
        by_contra below
        exact unpolled ⟨⟨elapsed, rfl⟩, ⟨first, control⟩, below⟩
      simp [passesLeft, control, body_to_condition control fired, atEnd]
  | condition =>
      obtain ⟨-, kernel⟩ := silent (by simp [control])
      obtain ⟨-, next⟩ := condition_pass control fired
      cases goes : goesOn state.1.kernel with
      | false => simp [passesLeft, control, next, goes]
      | true =>
          have below : ¬AtEnd state.1.kernel := goes_on_not_at_end goes
          simp [passesLeft, control, next, goes, kernel, below]
  | ending =>
      obtain ⟨quiet, kernel⟩ := silent (by simp [control])
      have next := ending_pass control fired
      have idle : state.1.kernel.scheduler.scheduledProc = none := by
        simpa [cpuAction, control] using quiet
      have nobody : ¬AtEnd state.1.kernel := by
        rintro ⟨proc, running, -⟩
        exact absurd (running.symm.trans idle) (Option.some_ne_none proc)
      simp [passesLeft, control, next, kernel, nobody]

/-- What is not a pass leaves the cpu where it is. -/
theorem background_step (reached : Reachable recordedCpu state) {event : CpuEvent}
    (fired : cpuStep state.1 event = some after.1) (rests : ¬Passes state event) :
    passesLeft after = passesLeft state ∧ codeLeft after.1.kernel = codeLeft state.1.kernel := by
  have fires : ∃ action, (action = .diskTick ∨ ∃ program fresh,
      action = .processCreate program fresh) ∧
      state.1.fire action state.1.control = some after.1 := by
    cases event with
    | pass elapsed => exact absurd ⟨elapsed, rfl⟩ rests
    | processCreate program fresh => exact ⟨_, .inr ⟨program, fresh, rfl⟩, fired⟩
    | diskTick => exact ⟨_, .inl rfl, fired⟩
  obtain ⟨action, background, fires⟩ := fires
  obtain ⟨step, control⟩ := fire_kernel fires
  obtain ⟨left, ended⟩ :=
    background_code_left (cpu_kernel_reachable reached) background step
  refine ⟨?_, left⟩
  simp only [passesLeft, control, ended]

/-- Without a dispatch the scheduled process keeps the cpu and gets no new code. -/
theorem undispatched_code_left (reached : Reachable recordedCpu state) {event : CpuEvent}
    (fired : cpuStep state.1 event = some after.1) (undispatched : ¬Dispatches state event) :
    codeLeft after.1.kernel ≤ codeLeft state.1.kernel ∧
      (Polls state event ∧ event = .pass true →
        codeLeft after.1.kernel < codeLeft state.1.kernel) := by
  by_cases evaluates : ∃ instr, cpuAction state.1 event = some (.execute instr)
  · obtain ⟨instr, acts⟩ := evaluates
    rcases step_action fired with ⟨silent, -⟩ | ⟨action, same, step⟩
    · exact absurd (acts.symm.trans silent) (Option.some_ne_none _)
    · obtain rfl : action = .execute instr := Option.some.inj (same.symm.trans acts)
      have stays : callsSchedule state.1.kernel (.execute instr) = false := by
        simpa [Dispatches, dispatches, acts] using undispatched
      obtain ⟨lower, less⟩ := evaluated_code_left (cpu_kernel_reachable reached) step stays
      exact ⟨lower, fun polled => less polled.1.2.2⟩
  · push Not at evaluates
    constructor
    · by_cases pass : Passes state event
      · obtain ⟨elapsed, rfl⟩ := pass
        obtain ⟨-, kernel⟩ := silent_pass fired evaluates undispatched
        rw [kernel]
      · exact Nat.le_of_eq (background_step reached fired pass).2
    · rintro ⟨⟨-, ⟨first, control⟩, -⟩, rfl⟩
      obtain ⟨instr, acts⟩ := elapsed_evaluates control fired
      exact absurd acts (evaluates instr)

end Passes

/-! ## Infinite runs -/

/-- The cpu keeps going and its clock keeps ticking. -/
structure Serving (run : InfiniteRun recordedCpu) : Prop where
  passes : run.Recurs Passes
  elapses : run.Recurs Polls →
    run.Recurs fun state event => Polls state event ∧ event = .pass true

section Runs

variable {run : InfiniteRun recordedCpu} {time : Nat} {proc : ProcId}

theorem run_step (run : InfiniteRun recordedCpu) (time : Nat) :
    cpuStep (run.states time).1 (run.events time) = some (run.states (time + 1)).1 :=
  (history_step (run.fires time)).1

theorem polls_or_dispatches_recur (serving : Serving run) :
    run.Recurs fun state event => Polls state event ∨ Dispatches state event := by
  have drops : ∀ time, ¬(Polls (run.states time) (run.events time) ∨
      Dispatches (run.states time) (run.events time)) →
      Passes (run.states time) (run.events time) →
      passesLeft (run.states (time + 1)) < passesLeft (run.states time) := by
    rintro time unmarked ⟨elapsed, event⟩
    have step := run_step run time
    rw [event] at step unmarked
    exact pass_drops step (fun polls => unmarked (.inl polls))
      fun dispatch => unmarked (.inr dispatch)
  apply recurs_of_drops run serving.passes passesLeft
  · intro time unmarked
    by_cases pass : Passes (run.states time) (run.events time)
    · exact Nat.le_of_lt (drops time unmarked pass)
    · exact Nat.le_of_eq (background_step (run.reachable time) (run_step run time) pass).1
  · exact drops

/-- `schedule_process` is called again and again. -/
theorem dispatches_recur (serving : Serving run) : run.Recurs Dispatches := by
  rcases frequently_or_distrib.mp (polls_or_dispatches_recur serving) with polls | dispatched
  · apply recurs_of_drops run (serving.elapses polls) fun state => codeLeft state.1.kernel
    · intro time undispatched
      exact (undispatched_code_left (run.reachable time) (run_step run time) undispatched).1
    · intro time undispatched
      exact (undispatched_code_left (run.reachable time) (run_step run time) undispatched).2
  · exact dispatched

/-- The next process gets the cpu. -/
theorem dispatched_next (dispatched : Dispatches (run.states time) (run.events time)) :
    (run.states (time + 1)).1.kernel.scheduler.scheduledProc =
      Queues.next (run.states time).1.kernel.scheduler := by
  rcases step_action (run_step run time) with ⟨silent, -⟩ | ⟨action, acts, step⟩
  · simp [Dispatches, dispatches, silent] at dispatched
  · have calls : callsSchedule (run.states time).1.kernel action = true := by
      simpa [Dispatches, dispatches, acts] using dispatched
    have served := (step_served (cpu_kernel_reachable (run.reachable time)) step).2
    rw [calls, if_pos rfl] at served
    exact served

/-- Nobody waits in the high queue for ever, even if programs are loaded for ever. -/
theorem high_queue_never_starves (serving : Serving run)
    (waits : proc ∈ (run.states time).1.kernel.scheduler.highQueue) :
    ∃ later > time, (run.states later).1.kernel.scheduler.scheduledProc = some proc := by
  obtain ⟨served, after, dispatched, head⟩ :=
    everybody_served cpu_high_queue_fifo run run.reachable (dispatches_recur serving) waits
  refine ⟨served + 1, by omega, ?_⟩
  rw [dispatched_next dispatched, Queues.next, head, Option.some_or]

end Runs

theorem completing_serving : Serving completingRun where
  passes := completing_fair.passes
  elapses := completing_fair.elapses

theorem high_queue_never_starves_sample :
    ∃ later > 1, (completingRun.states later).1.kernel.scheduler.scheduledProc = some 1 := by
  have waits : 1 ∈ (completingRun.states 1).1.kernel.scheduler.highQueue := by decide
  exact high_queue_never_starves completing_serving waits

/-! ## The low queue -/

section LowQueue

variable {queues : Scheduler} {board after : Board} {proc : ProcId}

/-- The process is still in the low queue, or has got the cpu. -/
def StillLow (queues : Scheduler) (proc : ProcId) : Prop :=
  proc ∈ queues.lowQueue ∨ queues.scheduledProc = some proc

theorem schedule_still_low (flag : SchedulerFlag) (waits : proc ∈ queues.lowQueue) :
    StillLow (Queues.schedule queues flag) proc := by
  rcases queues with ⟨curr, high, low, blocked, highQuantum, lowQuantum⟩
  cases high with
  | cons head high => exact .inl (by cases flag <;> exact waits)
  | nil =>
      cases low with
      | nil => exact absurd waits List.not_mem_nil
      | cons head low =>
          rcases List.mem_cons.mp waits with rfl | behind
          · exact .inr rfl
          · exact .inl (by cases flag <;> exact behind)

theorem unblock_still_low (queue : SchedulerQueueFlag) (woken : ProcId)
    (still : StillLow queues proc) : StillLow (Queues.unblock queue woken queues) proc := by
  rcases still with waits | scheduled
  · apply Or.inl
    unfold Queues.unblock
    split
    · cases queue
      · exact List.mem_append_left _ waits
      · exact waits
    · exact waits
  · exact .inr ((unblock_scheduled _ queue woken).trans scheduled)

theorem release_still_low {sem : Semaphore} (released : board.release sem = some after)
    (waits : proc ∈ board.queues.lowQueue) : StillLow after.queues proc := by
  by_cases asleep : sem.S + 1 ≤ 0
  · cases waiters : sem.waiters with
    | nil => simp [Board.release, semaphoreV, asleep, waiters] at released
    | cons woken rest =>
        simp only [Board.release, semaphoreV, asleep, if_true, waiters, Option.map_some,
          Option.some.injEq] at released
        rw [← released]
        exact unblock_still_low _ _ (.inl waits)
  · simp only [Board.release, semaphoreV, asleep, if_false, Option.map_some,
      Option.some.injEq] at released
    rw [← released]
    exact .inl waits

theorem run_process_still_low (accounted : Accounted board) {runner : ProcId}
    (running : board.queues.scheduledProc = some runner) {event : BoardEvent}
    (fired : board.runProcess runner event = some after) (waits : proc ∈ board.queues.lowQueue) :
    StillLow after.queues proc := by
  cases event with
  | run =>
      obtain rfl := Option.some.inj fired
      exact .inl waits
  | acquire name =>
      obtain ⟨sem, -, rfl⟩ := Option.map_eq_some_iff.mp fired
      by_cases short : sem.S - 1 < 0
      · simp only [Board.acquire, semaphoreP, if_pos short]
        exact schedule_still_low _ waits
      · simp only [Board.acquire, semaphoreP, if_neg short]
        exact .inl waits
  | release name =>
      obtain ⟨sem, -, released⟩ := Option.bind_eq_some_iff.mp fired
      exact release_still_low released waits
  | requestDisk request =>
      obtain ⟨-, rfl⟩ := request_inv fired
      exact schedule_still_low _ waits
  | print =>
      obtain rfl := Option.some.inj fired
      exact unblock_still_low _ _ (schedule_still_low _ waits)
  | quantum =>
      obtain rfl := Option.some.inj fired
      exact schedule_still_low _ waits
  | finish =>
      obtain ⟨-, rfl⟩ := finish_inv fired
      rw [finish_queues accounted running]
      exact schedule_still_low _ waits
  | create | idle | tick => simp [Board.runProcess] at fired

/-- A step takes a process from the low queue onto the cpu only. -/
theorem step_still_low (accounted : Accounted board) {event : BoardEvent}
    (fired : boardStep board event = some after) (waits : proc ∈ board.queues.lowQueue) :
    StillLow after.queues proc := by
  have scheduled : board.queues.scheduledProc.bind
      (fun runner => board.runProcess runner event) = some after →
      StillLow after.queues proc := by
    intro ran
    obtain ⟨runner, running, ran⟩ := Option.bind_eq_some_iff.mp ran
    exact run_process_still_low accounted running ran waits
  cases event with
  | create names high =>
      obtain rfl := Option.some.inj fired
      cases high with
      | true => exact .inl waits
      | false => exact .inl (List.mem_append_left _ waits)
  | idle =>
      obtain ⟨-, rfl⟩ := idle_inv fired
      exact schedule_still_low _ waits
  | tick track =>
      obtain rfl := Option.some.inj fired
      obtain ⟨-, low, -⟩ := tick_queues accounted track
      apply Or.inl
      rw [low]
      exact List.mem_append_left _ waits
  | run | acquire | release | requestDisk | print | quantum | finish => exact scheduled fired

end LowQueue

section Ends

variable {run : InfiniteRun recordedCpu} {time : Nat} {proc : ProcId}

def Loads (_ : Cpu × Ledger) (event : CpuEvent) : Prop :=
  ∃ program fresh, event = .processCreate program fresh

theorem run_still_low (run : InfiniteRun recordedCpu)
    (waits : proc ∈ (run.states time).1.kernel.scheduler.lowQueue) :
    StillLow (run.states (time + 1)).1.kernel.scheduler proc := by
  rcases step_action (run_step run time) with ⟨-, kernel⟩ | ⟨action, -, step⟩
  · rw [kernel]
    exact .inl waits
  · have accounted := kernel_accounted (cpu_kernel_reachable (run.reachable time))
    exact step_still_low accounted (kernel_step_board step) waits

/-- When loads come to an end, nobody waits in the low queue for ever either. -/
theorem low_queue_waits_for_loads (serving : Serving run)
    (waits : proc ∈ (run.states time).1.kernel.scheduler.lowQueue) :
    (∃ later > time, (run.states later).1.kernel.scheduler.scheduledProc = some proc) ∨
      run.Recurs Loads := by
  by_contra starves
  rw [not_or] at starves
  obtain ⟨never, ends⟩ := starves
  have unloaded : ∀ᶠ time in atTop, ∀ program fresh,
      run.events time ≠ .processCreate program fresh :=
    (not_frequently.mp ends).mono fun time none program fresh event =>
      none ⟨program, fresh, event⟩
  have stays := run.forever (fun state => proc ∈ state.1.kernel.scheduler.lowQueue) waits
    fun later after here => (run_still_low run here).resolve_right fun scheduled =>
      never ⟨later + 1, by omega, scheduled⟩
  obtain ⟨begin, after, stalled⟩ :=
    comes_to_a_stall serving.elapses unloaded time
  obtain ⟨idle, late, control⟩ := reaches_outer serving.passes stalled
  have empty := outer_empty serving.passes stalled late control
  rw [Queues.next, Option.or_eq_none_iff, List.head?_eq_none_iff, List.head?_eq_none_iff] at empty
  have here := stays idle (after.trans late)
  rw [empty.2] at here
  exact List.not_mem_nil here

theorem completing_loads_end : ¬completingRun.Recurs Loads := by
  intro recurs
  obtain ⟨time, late, program, fresh, loads⟩ := completingRun.recurs_after recurs 1
  exact absurd (completing_loads loads).1 (Nat.ne_of_gt late)

theorem low_queue_waits_for_loads_sample :
    ∃ later > 7, (completingRun.states later).1.kernel.scheduler.scheduledProc = some 1 := by
  have waits : 1 ∈ (completingRun.states 7).1.kernel.scheduler.lowQueue := by decide
  have served := low_queue_waits_for_loads completing_serving waits
  exact served.resolve_right completing_loads_end

/-- With loads at an end and ticks, two things can hold a process back for ever: from some
time on, everybody alive waits for a semaphore or for a track beyond those of the disk. -/
theorem only_programs_hold_back (serving : Serving run) (ticks : run.Recurs Ticks)
    (ends : ¬run.Recurs Loads) :
    ∀ᶠ time in atTop, ∀ proc ∈ (run.states time).1.kernel.procTable,
      (∃ name, proc ∈ waiters (run.states time).1.kernel name) ∨
        ∃ request ∈ (run.states time).1.kernel.diskScheduler.pendingRequests,
          request.process = proc ∧ ¬OnDisk request.track := by
  have unloaded : ∀ᶠ time in atTop, ∀ program fresh,
      run.events time ≠ .processCreate program fresh :=
    (not_frequently.mp ends).mono fun time none program fresh event =>
      none ⟨program, fresh, event⟩
  obtain ⟨begin, -, stalled⟩ := comes_to_a_stall serving.elapses unloaded 0
  obtain ⟨outer, late, control⟩ := reaches_outer serving.passes stalled
  apply eventually_atTop.mpr
  refine ⟨outer, fun time after proc listed => ?_⟩
  have here := stays_outer serving.passes stalled late control time after
  exact stalled_all_wait serving.passes stalled ticks (late.trans after) here listed

theorem only_programs_hold_back_sample :
    ∀ᶠ time in atTop, ∀ proc ∈ (completingRun.states time).1.kernel.procTable,
      (∃ name, proc ∈ waiters (completingRun.states time).1.kernel name) ∨
        ∃ request ∈ (completingRun.states time).1.kernel.diskScheduler.pendingRequests,
          request.process = proc ∧ ¬OnDisk request.track :=
  only_programs_hold_back completing_serving completing_fair.ticks completing_loads_end

end Ends

end Ribabari.NoStarvation

import Ribabari.Disk.ElevatorOrder
import Ribabari.Foundation.FairRuns
import Ribabari.Kernel.NoFaults
import Ribabari.Kernel.WorkLeft

/-!
# Every program completes

An infinite run of the cpu, the disk and the loader, in which passes and ticks recur, a
second keeps elapsing for a process that polls for it, and loads come to an end. If the
programs acquire semaphores in order and read and write on the disk, all of them are
evaluated to their end and finished.

The work that is left never goes up once loads have ended. Suppose it never goes down
again either. Then nobody is in the `do` block, so the cpu is soon idle with empty ready
queues for good, and the one live process that does not wait for a semaphore waits for
the disk. But the arm comes to its track and the tick makes it ready.
-/

namespace Ribabari.Completion

open Filter
open Ribabari.ProcessRecords Ribabari.SegmentMemory Ribabari.KernelState Ribabari.Dispatch
open Ribabari.DiskAndFiles Ribabari.KernelEvents Ribabari.CpuLoop Ribabari.ProgramLedger
open Ribabari.QueueBoard Ribabari.QueueRefinement Ribabari.BoardInvariants Ribabari.Placement
open Ribabari.SemaphoreAccounts Ribabari.DeadlockFreedom Ribabari.InstructionFetch
open Ribabari.CpuGuarantees Ribabari.SweepArm Ribabari.ArmSweep Ribabari.RequestTracks
open Ribabari.ElevatorOrder Ribabari.WorkLeft Ribabari.NoFaults Ribabari.FairRuns
open Ribabari.TransitionSystem

set_option autoImplicit false

/-! ## One pass -/

section Passes

variable {cpu after : Cpu} {elapsed : Bool}

theorem outer_pass (control : cpu.control = .outer)
    (fired : cpuStep cpu (.pass elapsed) = some after) :
    (cpu.kernel.scheduler.scheduledProc = none ∧ after.control = .outer ∧ ∃ logged,
        kernelStep cpu.kernel (.idleDispatch logged) = some after.kernel) ∨
      (cpu.kernel.scheduler.scheduledProc ≠ none ∧ after.control = .body true) := by
  simp only [cpuStep, cpuPass, control] at fired
  split at fired
  case h_1 idle =>
      obtain ⟨step, next⟩ := fire_kernel fired
      exact .inl ⟨idle, next, _, step⟩
  case h_2 proc running =>
      rw [← Option.some.inj fired]
      exact .inr ⟨by simp [running], rfl⟩

theorem body_pass {first : Bool} (control : cpu.control = .body first)
    (fired : cpuStep cpu (.pass false) = some after) :
    after = { cpu with control := .condition } := by
  simp only [cpuStep, cpuPass, control, Bool.false_eq_true, if_false] at fired
  exact (Option.some.inj fired).symm

theorem condition_pass (control : cpu.control = .condition)
    (fired : cpuStep cpu (.pass elapsed) = some after) :
    after.kernel = cpu.kernel ∧
      after.control = if goesOn cpu.kernel then .body false else .ending := by
  simp only [cpuStep, cpuPass, control] at fired
  rw [← Option.some.inj fired]
  exact ⟨rfl, rfl⟩

theorem ending_pass (control : cpu.control = .ending)
    (fired : cpuStep cpu (.pass elapsed) = some after) : after.control = .outer := by
  simp only [cpuStep, cpuPass, control] at fired
  split at fired
  case h_1 => rw [← Option.some.inj fired]
  case h_2 =>
      split at fired
      · exact (fire_kernel fired).2
      · exact (fire_kernel fired).2

/-- At the end of its code, the scheduled process is finished. -/
theorem ending_finishes (control : cpu.control = .ending) (ended : AtEnd cpu.kernel) :
    cpuAction cpu (.pass elapsed) = some .processFinish := by
  obtain ⟨proc, running, past⟩ := ended
  simp only [cpuAction, control, running, Option.map_some, if_pos past]

/-- A second that elapses in the `do` block evaluates an instruction. -/
theorem elapsed_evaluates {first : Bool} (control : cpu.control = .body first)
    (fired : cpuStep cpu (.pass true) = some after) :
    ∃ instr, cpuAction cpu (.pass true) = some (.execute instr) := by
  simp only [cpuStep, cpuPass, control, if_true] at fired
  obtain ⟨instr, fetched, -⟩ := Option.bind_eq_some_iff.mp fired
  exact ⟨instr, by simp [cpuAction, control, fetched]⟩

/-- Only the disk ticks. -/
theorem tick_action {event : CpuEvent} (acts : cpuAction cpu event = some .diskTick) :
    event = .diskTick := by
  cases event with
  | pass elapsed =>
      rcases pass_action acts with same | ⟨_, _, _, _, _, same⟩ | ⟨_, _, _, same⟩ | same <;>
        cases same
  | processCreate program fresh => cases acts
  | diskTick => rfl

theorem at_end_stops (ended : AtEnd cpu.kernel) : goesOn cpu.kernel = false := by
  by_contra goes
  exact goes_on_not_at_end (by simpa using goes) ended

theorem tick_at_end {kernel : Kernel} (ended : AtEnd kernel) : AtEnd (diskTick kernel) := by
  obtain ⟨proc, running, past⟩ := ended
  have code : SameCode kernel (diskTick kernel) :=
    spared_code (show kernelStep kernel .diskTick = some (diskTick kernel) from rfl) rfl
  refine ⟨proc, (disk_tick_scheduled kernel).trans running, ?_⟩
  rw [code.codeLen, code.pc]
  exact past

/-- A tick takes nobody out of the ready queues. -/
theorem tick_ready {kernel : Kernel} (reached : Reachable kernelSystem kernel)
    (ready : Queues.next kernel.scheduler ≠ none) :
    Queues.next (diskTick kernel).scheduler ≠ none := by
  obtain ⟨-, low, high⟩ :=
    tick_queues (kernel_accounted reached) kernel.diskScheduler.currTrack
  rw [disk_tick_queues]
  unfold Queues.next at ready ⊢
  rw [low, high]
  intro idle
  rw [Option.or_eq_none_iff, List.head?_eq_none_iff, List.head?_eq_none_iff,
    List.append_eq_nil_iff] at idle
  apply ready
  rw [Option.or_eq_none_iff, List.head?_eq_none_iff, List.head?_eq_none_iff]
  exact ⟨idle.1, idle.2.1⟩

end Passes

def Passes (_ : Cpu × Ledger) (event : CpuEvent) : Prop := ∃ elapsed, event = .pass elapsed

def Ticks (_ : Cpu × Ledger) (event : CpuEvent) : Prop := event = .diskTick

/-- The elapsed test is put to a process that has instructions left. -/
def Polls (state : Cpu × Ledger) (event : CpuEvent) : Prop :=
  Passes state event ∧ (∃ first, state.1.control = .body first) ∧ ¬AtEnd state.1.kernel

/-- No pass enters past the end of a program, every segment id is new, and the programs
acquire in order and stay on the disk. The last four fields are the fairness of the
threads and of the clock. -/
structure FairRun (before : CString → CString → Prop) (run : InfiniteRun recordedCpu) :
    Prop where
  unique : ∀ time, FreshLoad (run.states time) (run.events time)
  quiet : ∀ time, ¬EntersPastEnd (run.states time) (run.events time)
  ordered : ∀ time, LoadsCode (Ordered before) (run.events time)
  onDisk : ∀ time, LoadsCode TracksOnDisk (run.events time)
  loaded : ∀ᶠ time in atTop, ∀ program fresh, run.events time ≠ .processCreate program fresh
  passes : run.Recurs Passes
  ticks : run.Recurs Ticks
  elapses : run.Recurs Polls →
    run.Recurs fun state event => Polls state event ∧ event = .pass true

/-- Nothing is loaded, evaluated, finished or polled for any more. -/
structure Stalled (run : InfiniteRun recordedCpu) (begin : Nat) : Prop where
  unloaded : ∀ time ≥ begin, ∀ program fresh, run.events time ≠ .processCreate program fresh
  unevaluated : ∀ time ≥ begin, ∀ instr,
    cpuAction (run.states time).1 (run.events time) ≠ some (.execute instr)
  unfinished : ∀ time ≥ begin,
    cpuAction (run.states time).1 (run.events time) ≠ some .processFinish
  unpolled : ∀ time ≥ begin, ¬Polls (run.states time) (run.events time)

section Stall

variable {run : InfiniteRun recordedCpu} {begin : Nat}

/-- What is not a pass is a tick. -/
theorem stalled_tick (stalled : Stalled run begin) {time : Nat} (beyond : time ≥ begin)
    (rests : ¬Passes (run.states time) (run.events time)) :
    run.events time = .diskTick ∧
      (run.states (time + 1)).1.control = (run.states time).1.control ∧
      (run.states (time + 1)).1.kernel = diskTick (run.states time).1.kernel := by
  have step : cpuStep (run.states time).1 (run.events time) = some (run.states (time + 1)).1 :=
    (history_step (run.fires time)).1
  cases event : run.events time with
  | pass elapsed => exact absurd ⟨elapsed, event⟩ rests
  | processCreate program fresh => exact absurd event (stalled.unloaded time beyond program fresh)
  | diskTick =>
      rw [event] at step
      obtain ⟨kernel, control⟩ := fire_kernel step
      exact ⟨rfl, control, (Option.some.inj kernel).symm⟩

/-- The next pass finds what ticks keep. -/
theorem next_pass (fair : run.Recurs Passes) (stalled : Stalled run begin)
    (control : Control) (holds : Kernel → Prop)
    (ticks : ∀ kernel, Reachable kernelSystem kernel → holds kernel → holds (diskTick kernel))
    {time : Nat} (beyond : time ≥ begin)
    (here : (run.states time).1.control = control) (now : holds (run.states time).1.kernel) :
    ∃ later ≥ time, (run.states later).1.control = control ∧
      holds (run.states later).1.kernel ∧ ∃ elapsed,
        cpuStep (run.states later).1 (.pass elapsed) = some (run.states (later + 1)).1 ∧
        run.events later = .pass elapsed := by
  obtain ⟨later, after, ⟨there, kept⟩, elapsed, event⟩ := run.until_marked fair
    (fun state => state.1.control = control ∧ holds state.1.kernel) ⟨here, now⟩ (by
      intro later after held rests
      obtain ⟨-, same, kernel⟩ := stalled_tick stalled (Nat.le_trans beyond after) rests
      exact ⟨same.trans held.1,
        kernel ▸ ticks _ (cpu_kernel_reachable (run.reachable later)) held.2⟩)
  have step : cpuStep (run.states later).1 (run.events later) =
      some (run.states (later + 1)).1 := (history_step (run.fires later)).1
  exact ⟨later, after, there, kept, elapsed, event ▸ step, event⟩

/-- In a stall nobody is in the `do` block: a process there would poll or be finished. -/
theorem block_left (passes : run.Recurs Passes) (stalled : Stalled run begin) {time : Nat}
    (beyond : time ≥ begin) {first : Bool} :
    (run.states time).1.control ≠ .body first := by
  intro control
  obtain ⟨inBlock, after, there, -, elapsed, step, event⟩ :=
    next_pass passes stalled (.body first) (fun _ => True) (fun _ _ _ => trivial) beyond control
      trivial
  have late : inBlock ≥ begin := Nat.le_trans beyond after
  have ended : AtEnd (run.states inBlock).1.kernel := by
    by_contra below
    exact stalled.unpolled inBlock late ⟨⟨elapsed, event⟩, ⟨first, there⟩, below⟩
  have waits : elapsed = false := by
    by_contra holds
    obtain rfl : elapsed = true := by simpa using holds
    obtain ⟨instr, acts⟩ := elapsed_evaluates there step
    exact stalled.unevaluated inBlock late instr (event ▸ acts)
  subst waits
  have left := body_pass there step
  obtain ⟨tested, afterBlock, atTest, stillEnded, _, test, -⟩ :=
    next_pass passes stalled .condition AtEnd (fun _ _ => tick_at_end)
      (Nat.le_succ_of_le late) (by rw [left]) (by rw [left]; exact ended)
  obtain ⟨kernel, next⟩ := condition_pass atTest test
  rw [at_end_stops stillEnded] at next
  have beyondTest : tested + 1 ≥ begin := by omega
  obtain ⟨finishing, afterTest, atEnding, lastEnded, _, -, last⟩ :=
    next_pass passes stalled .ending AtEnd (fun _ _ => tick_at_end) beyondTest next
      (by rw [kernel]; exact stillEnded)
  apply stalled.unfinished finishing (by omega)
  rw [last]
  exact ending_finishes atEnding lastEnded

variable (passes : run.Recurs Passes) (stalled : Stalled run begin)

include passes stalled

theorem outer_idle {time : Nat} (beyond : time ≥ begin)
    (control : (run.states time).1.control = .outer) :
    (run.states time).1.kernel.scheduler.scheduledProc = none := by
  by_contra running
  obtain ⟨later, after, there, busy, elapsed, step, -⟩ :=
    next_pass passes stalled .outer (fun kernel => kernel.scheduler.scheduledProc ≠ none)
      (fun kernel _ busy => (disk_tick_scheduled kernel).symm ▸ busy) beyond control running
  rcases outer_pass there step with ⟨idle, -, -⟩ | ⟨-, enters⟩
  · exact busy idle
  · have late : later + 1 ≥ begin := by omega
    exact block_left passes stalled late enters

theorem stays_outer {time : Nat} (beyond : time ≥ begin)
    (control : (run.states time).1.control = .outer) :
    ∀ later ≥ time, (run.states later).1.control = .outer := by
  apply run.forever (fun state => state.1.control = .outer) control
  intro later after here
  have late : later ≥ begin := Nat.le_trans beyond after
  by_cases pass : Passes (run.states later) (run.events later)
  · obtain ⟨elapsed, event⟩ := pass
    have step : cpuStep (run.states later).1 (run.events later) =
        some (run.states (later + 1)).1 := (history_step (run.fires later)).1
    rw [event] at step
    rcases outer_pass here step with ⟨-, next, -⟩ | ⟨-, enters⟩
    · exact next
    · exact absurd enters (block_left passes stalled (Nat.le_succ_of_le late))
  · exact (stalled_tick stalled late pass).2.1.trans here

/-- An idle cpu in a stall has nobody to dispatch. -/
theorem outer_empty {time : Nat} (beyond : time ≥ begin)
    (control : (run.states time).1.control = .outer) :
    Queues.next (run.states time).1.kernel.scheduler = none := by
  by_contra ready
  obtain ⟨later, after, there, busy, elapsed, step, -⟩ :=
    next_pass passes stalled .outer (fun kernel => Queues.next kernel.scheduler ≠ none)
      (fun kernel reached busy => tick_ready reached busy) beyond control ready
  have late : later + 1 ≥ begin := by omega
  rcases outer_pass there step with ⟨-, next, logged, idle⟩ | ⟨-, enters⟩
  · obtain ⟨-, dispatched⟩ := idle_fires idle
    apply busy
    rw [← outer_idle passes stalled late next, dispatched, schedule_queues]
    cases logged <;> rfl
  · exact block_left passes stalled late enters

theorem reaches_outer : ∃ time ≥ begin, (run.states time).1.control = .outer := by
  have fromEnding : ∀ time ≥ begin, (run.states time).1.control = .ending →
      ∃ later ≥ begin, (run.states later).1.control = .outer := by
    intro time beyond control
    obtain ⟨later, after, there, -, elapsed, step, -⟩ :=
      next_pass passes stalled .ending (fun _ => True) (fun _ _ _ => trivial) beyond control trivial
    exact ⟨later + 1, by omega, ending_pass there step⟩
  cases control : (run.states begin).1.control with
  | outer => exact ⟨begin, Nat.le_refl _, control⟩
  | body first => exact absurd control (block_left passes stalled (Nat.le_refl _))
  | ending => exact fromEnding begin (Nat.le_refl _) control
  | condition =>
      obtain ⟨later, after, there, -, elapsed, step, -⟩ :=
        next_pass passes stalled .condition (fun _ => True) (fun _ _ _ => trivial)
          (Nat.le_refl _) control trivial
      have late : later + 1 ≥ begin := by omega
      obtain ⟨-, next⟩ := condition_pass there step
      split at next
      · exact absurd next (block_left passes stalled late)
      · exact fromEnding (later + 1) late next

end Stall

section Disk

theorem pending_kept {kernel after : Kernel} {event : KernelEvent}
    (fired : kernelStep kernel event = some after) (other : event ≠ .diskTick)
    {request : DiskRequest} (waits : request ∈ kernel.diskScheduler.pendingRequests) :
    request ∈ after.diskScheduler.pendingRequests := by
  have pending : after.diskScheduler.pendingRequests =
      pendingAfter kernel.diskScheduler.pendingRequests (boardEvent kernel event) :=
    board_pending_after (kernel_step_board fired)
  rw [pending]
  cases image : boardEvent kernel event with
  | tick track => exact absurd (tick_is_disk_tick image) other
  | requestDisk => exact List.mem_append_left _ waits
  | create | idle | run | acquire | release | print | quantum | finish => exact waits

variable {run : InfiniteRun recordedCpu}

/-- Between two ticks the arm rests and no request goes away. -/
theorem between_ticks {time : Nat} (rests : ¬Ticks (run.states time) (run.events time))
    {request : DiskRequest}
    (waits : request ∈ (run.states time).1.kernel.diskScheduler.pendingRequests) :
    request ∈ (run.states (time + 1)).1.kernel.diskScheduler.pendingRequests ∧
      armOf (run.states (time + 1)).1.kernel.diskScheduler =
        armOf (run.states time).1.kernel.diskScheduler := by
  have step : cpuStep (run.states time).1 (run.events time) = some (run.states (time + 1)).1 :=
    (history_step (run.fires time)).1
  rcases step_action step with ⟨-, kernel⟩ | ⟨action, acts, fired⟩
  · rw [kernel]
    exact ⟨waits, rfl⟩
  · have other : action ≠ .diskTick := by
      rintro rfl
      exact rests (tick_action acts)
    exact ⟨pending_kept fired other waits, arm_kept fired other⟩

theorem ticked_kernel {time : Nat} (tick : Ticks (run.states time) (run.events time)) :
    (run.states (time + 1)).1.kernel = diskTick (run.states time).1.kernel := by
  have step : cpuStep (run.states time).1 (run.events time) = some (run.states (time + 1)).1 :=
    (history_step (run.fires time)).1
  rw [show run.events time = .diskTick from tick] at step
  exact (Option.some.inj (fire_kernel step).1).symm

/-- At the next tick the request is still there and the arm where it was. -/
theorem next_tick (ticks : run.Recurs Ticks) {request : DiskRequest} {time : Nat}
    (waits : request ∈ (run.states time).1.kernel.diskScheduler.pendingRequests) :
    ∃ later ≥ time,
      (run.states (later + 1)).1.kernel = diskTick (run.states later).1.kernel ∧
      request ∈ (run.states later).1.kernel.diskScheduler.pendingRequests ∧
      armOf (run.states later).1.kernel.diskScheduler =
        armOf (run.states time).1.kernel.diskScheduler := by
  obtain ⟨later, after, held, tick⟩ := run.until_marked ticks
    (fun state => request ∈ state.1.kernel.diskScheduler.pendingRequests ∧
      armOf state.1.kernel.diskScheduler = armOf (run.states time).1.kernel.diskScheduler)
    ⟨waits, rfl⟩ fun between _ held rests =>
      ⟨(between_ticks rests held.1).1, (between_ticks rests held.1).2.trans held.2⟩
  exact ⟨later, after, ticked_kernel tick, held⟩

/-- The arm comes to the track of every request that waits. -/
theorem arm_arrives (ticks : run.Recurs Ticks) {request : DiskRequest}
    (onDisk : OnDisk request.track) {time : Nat}
    (waits : request ∈ (run.states time).1.kernel.diskScheduler.pendingRequests) :
    ∃ later ≥ time, (run.states (later + 1)).1.kernel = diskTick (run.states later).1.kernel ∧
      request ∈ completed (run.states later).1.kernel := by
  induction far : (armOf (run.states time).1.kernel.diskScheduler).arrival diskTrackLimit
      request.track generalizing time with
  | zero =>
      obtain ⟨later, after, ticked, still, arm⟩ := next_tick ticks waits
      have inRange := reachable_arm (cpu_kernel_reachable (run.reachable time))
      have here := (arrival_zero_iff inRange onDisk).mp far
      rw [← arm] at here
      exact ⟨later, after, ticked, List.mem_filter.mpr ⟨still, decide_eq_true here⟩⟩
  | succ ticksLeft ih =>
      obtain ⟨later, after, ticked, still, arm⟩ := next_tick ticks waits
      have inRange := reachable_arm (cpu_kernel_reachable (run.reachable later))
      rw [← arm] at far
      have away : request.track ≠ (armOf (run.states later).1.kernel.diskScheduler).position := by
        intro here
        rw [(arrival_zero_iff inRange onDisk).mpr here] at far
        exact absurd far.symm (Nat.succ_ne_zero _)
      have passed := pass_completes diskTrackLimit (run.states later).1.kernel
      rw [← disk_tick_is_pass, ← ticked] at passed
      have closer := arrival_step inRange onDisk away
      rw [← passed.2.2, far] at closer
      have next : request ∈ (run.states (later + 1)).1.kernel.diskScheduler.pendingRequests := by
        rw [passed.2.1]
        exact List.mem_filter.mpr ⟨still, decide_eq_true away⟩
      obtain ⟨found, beyond, serves⟩ := ih next (Nat.succ_inj.mp closer)
      exact ⟨found, by omega, serves⟩

/-- The process of a request that is completed goes to the low queue. -/
theorem completed_ready {time : Nat} {request : DiskRequest}
    (ticked : (run.states (time + 1)).1.kernel = diskTick (run.states time).1.kernel)
    (served : request ∈ completed (run.states time).1.kernel) :
    request.process ∈ (run.states (time + 1)).1.kernel.scheduler.lowQueue := by
  obtain ⟨-, low, -⟩ :=
    tick_queues (kernel_accounted (cpu_kernel_reachable (run.reachable time)))
      (run.states time).1.kernel.diskScheduler.currTrack
  rw [ticked, disk_tick_queues, low]
  exact List.mem_append_right _ (List.mem_map_of_mem served)

variable {begin : Nat} (passes : run.Recurs Passes) (stalled : Stalled run begin)

include passes stalled

/-- In an idle system in a stall the arm comes to no request that is left. -/
theorem pending_off_disk (ticks : run.Recurs Ticks) {time : Nat} (beyond : time ≥ begin)
    (control : (run.states time).1.control = .outer) {request : DiskRequest}
    (waits : request ∈ (run.states time).1.kernel.diskScheduler.pendingRequests) :
    ¬OnDisk request.track := by
  intro onDisk
  obtain ⟨later, after, ticked, served⟩ := arm_arrives ticks onDisk waits
  have outer := stays_outer passes stalled beyond control (later + 1) (by omega)
  have late : later + 1 ≥ begin := by omega
  have empty := outer_empty passes stalled late outer
  rw [Queues.next, Option.or_eq_none_iff, List.head?_eq_none_iff, List.head?_eq_none_iff] at empty
  exact List.ne_nil_of_mem (completed_ready ticked served) empty.2

/-- Whoever is alive in a stall waits for a semaphore, or for a track that the arm does not
visit. -/
theorem stalled_all_wait (ticks : run.Recurs Ticks) {time : Nat} (beyond : time ≥ begin)
    (control : (run.states time).1.control = .outer) {proc : ProcId}
    (listed : proc ∈ (run.states time).1.kernel.procTable) :
    (∃ name, proc ∈ waiters (run.states time).1.kernel name) ∨
      ∃ request ∈ (run.states time).1.kernel.diskScheduler.pendingRequests,
        request.process = proc ∧ ¬OnDisk request.track := by
  have idle := outer_idle passes stalled beyond control
  have empty := outer_empty passes stalled beyond control
  rw [Queues.next, Option.or_eq_none_iff, List.head?_eq_none_iff, List.head?_eq_none_iff] at empty
  rcases placed_or_waiting (cpuRefinesKernel.reachable (run.reachable time)) listed with
    (scheduled | high | low | ⟨request, pending, owner⟩) | waits
  · exact absurd (scheduled.symm.trans idle) (Option.some_ne_none proc)
  · exact absurd high (empty.1 ▸ List.not_mem_nil)
  · exact absurd low (empty.2 ▸ List.not_mem_nil)
  · exact .inr
      ⟨request, pending, owner, pending_off_disk passes stalled ticks beyond control pending⟩
  · exact .inl waits

end Disk

section Completing

variable {before : CString → CString → Prop} [IsStrictOrder CString before]
  {run : InfiniteRun recordedCpu}

section Pasts

omit [IsStrictOrder CString before]

variable (fair : FairRun before run) (time : Nat)

include fair

theorem past_quiet : ∀ entry ∈ run.past time, ¬EntersPastEnd entry.1 entry.2 :=
  run.past_allowed (fun state event => ¬EntersPastEnd state event) fair.quiet time

theorem past_unique : ∀ entry ∈ run.past time, FreshLoad entry.1 entry.2 :=
  run.past_allowed FreshLoad fair.unique time

theorem past_ordered : ∀ entry ∈ run.past time, LoadsCode (Ordered before) entry.2 :=
  run.past_allowed (fun _ event => LoadsCode (Ordered before) event) fair.ordered time

theorem past_in_range :
    ∀ entry ∈ cpuRefinesKernel.project (run.past time), FetchInRange entry.1 entry.2 :=
  kernel_fetches_in_range (run.trace time) (past_unique fair time) (past_quiet fair time)

theorem fair_on_disk : PendingOnDisk (run.states time).1.kernel :=
  pending_on_disk (cpuRefinesKernel.trace (run.trace time))
    (projected_loads (run.past_allowed (fun _ event => LoadsCode TracksOnDisk event)
      fair.onDisk time))
    (past_in_range fair time)

end Pasts

/-- A stalled system has no live process. -/
theorem stalled_is_empty (fair : FairRun before run) {begin : Nat}
    (stalled : Stalled run begin) :
    ∃ time ≥ begin, (run.states time).1.kernel.procTable = [] := by
  obtain ⟨time, beyond, control⟩ := reaches_outer fair.passes stalled
  refine ⟨time, beyond, ?_⟩
  by_contra live
  obtain ⟨proc, listed, awake⟩ := cpu_not_deadlocked (run.trace time) (past_unique fair time)
    (past_quiet fair time) (past_ordered fair time) live
  rcases stalled_all_wait fair.passes stalled fair.ticks beyond control listed with
    ⟨name, waits⟩ | ⟨request, pending, -, away⟩
  · exact awake name waits
  · exact away (fair_on_disk fair time request pending)

/-! ## The work goes down -/

def work (cells : Nat) (state : Cpu × Ledger) : Nat := workLeft cells state.1.kernel

section Work

omit [IsStrictOrder CString before]

variable {cells : Nat}

/-- Without loads the work never goes up. -/
theorem work_falls {time : Nat}
    (unloaded : ∀ program fresh, run.events time ≠ .processCreate program fresh) :
    work cells (run.states (time + 1)) ≤ work cells (run.states time) := by
  have step : cpuStep (run.states time).1 (run.events time) =
      some (run.states (time + 1)).1 := (history_step (run.fires time)).1
  unfold work
  rcases step_action step with ⟨-, kernel⟩ | ⟨action, acts, stepped⟩
  · rw [kernel]
  · apply step_work _ stepped
    rintro program fresh rfl
    exact unloaded program fresh (create_action acts)

/-- Without loads no page table gets longer. -/
theorem cells_stay {time : Nat} (within : CellsWithin cells (run.states time).1.kernel)
    (unloaded : ∀ later ≥ time, ∀ program fresh,
      run.events later ≠ .processCreate program fresh) :
    ∀ later ≥ time, CellsWithin cells (run.states later).1.kernel := by
  apply run.forever (fun state => CellsWithin cells state.1.kernel) within
  intro later after here
  have step : cpuStep (run.states later).1 (run.events later) =
      some (run.states (later + 1)).1 := (history_step (run.fires later)).1
  rcases step_action step with ⟨-, kernel⟩ | ⟨action, acts, stepped⟩
  · rw [kernel]
    exact here
  · apply step_within here _ stepped
    rintro program fresh rfl
    exact unloaded later after program fresh (create_action acts)

/-- Evaluating and finishing take work away. -/
theorem work_drops {time : Nat} (within : CellsWithin cells (run.states time).1.kernel)
    {action : KernelEvent}
    (acts : cpuAction (run.states time).1 (run.events time) = some action)
    (progress : action = .processFinish ∨ ∃ instr, action = .execute instr) :
    work cells (run.states (time + 1)) < work cells (run.states time) := by
  have step : cpuStep (run.states time).1 (run.events time) =
      some (run.states (time + 1)).1 := (history_step (run.fires time)).1
  rcases step_action step with ⟨quietStep, -⟩ | ⟨other, otherActs, stepped⟩
  · exact absurd (acts.symm.trans quietStep) (Option.some_ne_none action)
  · obtain rfl : other = action := Option.some.inj (otherActs.symm.trans acts)
    rcases progress with rfl | ⟨instr, rfl⟩
    · obtain ⟨proc, running, finished⟩ := finish_fires stepped
      exact work_finished (finish_code running finished)
    · obtain ⟨proc, running, code⟩ := execute_code stepped
      obtain ⟨-, -, fetched⟩ := execute_action acts
      obtain ⟨scheduled, runs, fetch⟩ := Option.bind_eq_some_iff.mp fetched
      obtain rfl : scheduled = proc := Option.some.inj (runs.symm.trans running)
      have listed := (scheduled_numbered (cpu_kernel_reachable (run.reachable time)) running).1
      exact work_evaluated code listed (fetch_within within fetch)

/-- Work that no longer goes down is a stall. -/
theorem steady_is_stalled
    (elapses : run.Recurs Polls →
      run.Recurs fun state event => Polls state event ∧ event = .pass true) {now : Nat}
    (unloaded : ∀ time ≥ now, ∀ program fresh,
      run.events time ≠ .processCreate program fresh)
    (within : ∀ time ≥ now, CellsWithin cells (run.states time).1.kernel)
    (steady : ∀ time ≥ now, work cells (run.states now) ≤ work cells (run.states time)) :
    ∃ begin ≥ now, Stalled run begin := by
  have falls := run.forever (fun state => work cells state ≤ work cells (run.states now))
    (Nat.le_refl _) fun later after below => (work_falls (unloaded later after)).trans below
  have stuck : ∀ time ≥ now, ∀ action,
      cpuAction (run.states time).1 (run.events time) = some action →
      ¬(action = .processFinish ∨ ∃ instr, action = .execute instr) := by
    intro time after action acts progress
    have drops := work_drops (within time after) acts progress
    have next := steady (time + 1) (by omega)
    have here := falls time after
    omega
  have unpolled : ¬run.Recurs Polls := by
    intro polled
    obtain ⟨time, after, ⟨-, ⟨first, control⟩, -⟩, event⟩ :=
      run.recurs_after (elapses polled) now
    have step : cpuStep (run.states time).1 (run.events time) =
        some (run.states (time + 1)).1 := (history_step (run.fires time)).1
    rw [event] at step
    obtain ⟨instr, acts⟩ := elapsed_evaluates control step
    exact stuck time after _ (event ▸ acts) (.inr ⟨instr, rfl⟩)
  obtain ⟨last, silent⟩ := eventually_atTop.mp (not_frequently.mp unpolled)
  refine ⟨max now last, Nat.le_max_left _ _, ?_⟩
  constructor
  · exact fun time after => unloaded time (le_of_max_le_left after)
  · exact fun time after instr acts =>
      stuck time (le_of_max_le_left after) _ acts (.inr ⟨instr, rfl⟩)
  · exact fun time after acts => stuck time (le_of_max_le_left after) _ acts (.inl rfl)
  · exact fun time after => silent time (le_of_max_le_right after)

/-- Work cannot go down for ever. -/
theorem comes_to_a_stall
    (elapses : run.Recurs Polls →
      run.Recurs fun state event => Polls state event ∧ event = .pass true)
    (loaded : ∀ᶠ time in atTop, ∀ program fresh,
      run.events time ≠ .processCreate program fresh) (now : Nat) :
    ∃ begin ≥ now, Stalled run begin := by
  obtain ⟨last, unloaded⟩ := eventually_atTop.mp loaded
  obtain ⟨cells, bound⟩ := cells_exist (run.states last).1.kernel
  have within := cells_stay bound unloaded
  by_contra moving
  have drops : ∀ time ≥ max now last, ¬False →
      ∃ later ≥ time, work cells (run.states later) < work cells (run.states time) := by
    intro time beyond _
    have late : time ≥ last := le_of_max_le_right beyond
    by_contra steady
    push Not at steady
    obtain ⟨begin, after, stalled⟩ := steady_is_stalled elapses
      (fun later after => unloaded later (late.trans after))
      (fun later after => within later (late.trans after)) steady
    exact moving ⟨begin, (le_of_max_le_left beyond).trans after, stalled⟩
  obtain ⟨_, -, never⟩ := run.reaches (work cells) (fun _ => False) drops
  exact never

end Work

/-- In a fair run of ordered programs, from some time on nobody is alive. -/
theorem everybody_leaves (fair : FairRun before run) :
    ∀ᶠ time in atTop, (run.states time).1.kernel.procTable = [] := by
  obtain ⟨begin, -, stalled⟩ := comes_to_a_stall fair.elapses fair.loaded 0
  obtain ⟨time, late, empty⟩ := stalled_is_empty fair stalled
  have none : work 0 (run.states time) = 0 := (work_eq_zero_iff 0 _).mpr empty
  have stays := run.forever (fun state => work 0 state = 0) none fun later after zero => by
    have falls : work 0 (run.states (later + 1)) ≤ work 0 (run.states later) :=
      work_falls (stalled.unloaded later (late.trans after))
    omega
  apply eventually_atTop.mpr
  exact ⟨time, fun later after => (work_eq_zero_iff 0 _).mp (stays later after)⟩

omit [IsStrictOrder CString before] in
/-- With nobody alive, everything that was loaded has been evaluated. -/
theorem all_evaluated (fair : FairRun before run) {time : Nat}
    (empty : (run.states time).1.kernel.procTable = []) (proc : ProcId) :
    (run.states time).2.evaluated proc = (run.states time).2.loaded proc := by
  have whole := finished_whole (cpuRefinesKernel.trace (run.trace time))
    (past_in_range fair time) (projected_finishes_at_end (run.past time))
  have ledgered : Ledgered (run.states time).1.kernel (run.states time).2 :=
    reachable_ledgered (cpuRefinesKernel.reachable (run.reachable time))
  rcases Nat.lt_or_ge proc (run.states time).1.kernel.nextProcId with used | unused
  · exact whole proc used (empty ▸ List.not_mem_nil)
  · obtain ⟨unloaded, unevaluated⟩ := ledgered.unused proc unused
    rw [unloaded, unevaluated]

/-- In a fair run of ordered programs, from some time on nobody is alive and every
program that was loaded has been evaluated to its end. -/
theorem every_program_completes (before : CString → CString → Prop)
    [IsStrictOrder CString before] (run : InfiniteRun recordedCpu) (fair : FairRun before run) :
    ∀ᶠ time in atTop, (run.states time).1.kernel.procTable = [] ∧
      ∀ proc, (run.states time).2.evaluated proc = (run.states time).2.loaded proc := by
  apply (everybody_leaves fair).mono
  intro time empty
  exact ⟨empty, all_evaluated fair empty⟩

end Completing

/-! ## Runs that come to rest -/

/-- The cpu is idle and nobody can be woken. -/
structure Resting (state : Cpu × Ledger) : Prop where
  reached : Reachable recordedCpu state
  control : state.1.control = .outer
  queues : state.1.kernel.scheduler = schedulerInit
  pending : state.1.kernel.diskScheduler.pendingRequests = []

theorem resting_step {state : Cpu × Ledger} (resting : Resting state) {event : CpuEvent}
    (plain : event = .pass false ∨ event = .diskTick) :
    ∃ after, recordedCpu.step state event = some after ∧ Resting after := by
  obtain ⟨after, step⟩ := step_defined resting.reached event fun first control _ =>
    nomatch resting.control.symm.trans control
  have recorded : recordedCpu.step state event = some (after, _) :=
    Option.map_eq_some_iff.mpr ⟨after, step, rfl⟩
  obtain ⟨past, trace⟩ := resting.reached
  suffices rests : after.control = .outer ∧ after.kernel.scheduler = schedulerInit ∧
      after.kernel.diskScheduler.pendingRequests = [] from
    ⟨_, recorded, ⟨_, trace.next recorded⟩, rests.1, rests.2.1, rests.2.2⟩
  rcases plain with rfl | rfl
  · rcases outer_pass resting.control step with ⟨-, control, logged, idle⟩ | ⟨busy, -⟩
    · have pending := board_pending_after (kernel_step_board idle)
      obtain ⟨-, dispatched⟩ := idle_fires idle
      refine ⟨control, ?_, pending.trans resting.pending⟩
      have same : (if logged then processNpLog state.1.kernel else state.1.kernel).scheduler =
          schedulerInit := by
        cases logged <;> exact resting.queues
      rw [dispatched, schedule_queues, same]
      rfl
    · exact absurd (congrArg Scheduler.scheduledProc resting.queues) busy
  · obtain ⟨ticked, control⟩ := fire_kernel step
    have board := kernel_step_board ticked
    have pending := board_pending_after board
    have queues : after.kernel.scheduler = ((boardOf state.1.kernel).tick _).queues :=
      congrArg Board.queues (Option.some.inj board).symm
    have silent : (boardOf state.1.kernel).pending = [] := resting.pending
    refine ⟨control.trans resting.control, ?_, ?_⟩
    · rw [queues, Board.tick, silent]
      exact resting.queues
    · exact pending.trans (by rw [silent]; rfl)

/-- These events, and then passes of the idle cpu and ticks in turns. -/
def thenResting (start : List CpuEvent) (time : Nat) : CpuEvent :=
  start.getD time (if time % 2 = 0 then .pass false else .diskTick)

section ThenResting

variable {start : List CpuEvent}

theorem then_resting_late {time : Nat} (late : time ≥ start.length) :
    thenResting start time = if time % 2 = 0 then .pass false else .diskTick :=
  List.getD_eq_default _ _ late

theorem then_resting_plain {time : Nat} (late : time ≥ start.length) :
    thenResting start time = .pass false ∨ thenResting start time = .diskTick := by
  rw [then_resting_late late]
  split
  · exact .inl rfl
  · exact .inr rfl

theorem then_resting_defined {state : Cpu × Ledger}
    (result : run recordedCpu start recordedCpu.start = some state) (rests : Resting state) :
    (∀ time, (stateAfter recordedCpu (thenResting start) time).isSome) ∧
      ∀ time ≥ start.length, ∃ state,
        stateAfter recordedCpu (thenResting start) time = some state ∧ Resting state := by
  have first : stateAfter recordedCpu (thenResting start) start.length = some state := by
    have same : ∀ time (earlier : time < start.length), thenResting start time = start[time] :=
      fun _ earlier => List.getD_eq_getElem _ _ earlier
    rw [state_after_list start same (Nat.le_refl _), List.take_length]
    exact result
  apply state_after_defined Resting start.length
  · exact ⟨state, first, rests⟩
  · intro state resting time late
    exact resting_step resting (then_resting_plain late)

variable {run : InfiniteRun recordedCpu} (same : run.events = thenResting start)

include same

theorem then_resting_passes : run.Recurs Passes := by
  apply frequently_atTop.mpr
  intro time
  refine ⟨2 * (time + start.length), by omega, false, ?_⟩
  rw [same, then_resting_late (by omega), if_pos (by omega)]

theorem then_resting_ticks : run.Recurs Ticks := by
  apply frequently_atTop.mpr
  intro time
  refine ⟨2 * (time + start.length) + 1, by omega, ?_⟩
  rw [Ticks, same, then_resting_late (by omega), if_neg (by omega)]

theorem then_resting_quiet
    (early : ∀ time < start.length, ¬EntersPastEnd (run.states time) (run.events time))
    (time : Nat) : ¬EntersPastEnd (run.states time) (run.events time) := by
  rcases Nat.lt_or_ge time start.length with before | late
  · exact early time before
  · intro enters
    rw [same] at enters
    rcases then_resting_plain late with event | event
    · rw [event] at enters
      exact enters
    · rw [event] at enters
      exact enters

omit same in
/-- At rest nobody polls. -/
theorem then_resting_elapses (rests : ∀ time ≥ start.length, Resting (run.states time))
    (polled : run.Recurs Polls) :
    run.Recurs fun state event => Polls state event ∧ event = .pass true := by
  obtain ⟨time, late, -, ⟨first, control⟩, -⟩ := run.recurs_after polled start.length
  exact nomatch (rests time late).control.symm.trans control

end ThenResting

/-! ## A run that completes -/

section Sample

/-- The reader is loaded, blocks for its request, comes back at its end and is finished. -/
def completingStart : List CpuEvent :=
  readerEvents ++ [.pass false, .pass false, .pass false]

def completedState : Cpu × Ledger :=
  (run recordedCpu completingStart recordedCpu.start).getD recordedCpu.start

theorem completed_rests : Resting completedState where
  reached := reachable_run completingStart rfl
  control := rfl
  queues := rfl
  pending := rfl

theorem completing_defined :
    (∀ time, (stateAfter recordedCpu (thenResting completingStart) time).isSome) ∧
      ∀ time ≥ completingStart.length, ∃ state,
        stateAfter recordedCpu (thenResting completingStart) time = some state ∧
          Resting state :=
  then_resting_defined rfl completed_rests

def completingRun : InfiniteRun recordedCpu := .ofEvents completing_defined.1

theorem completing_same : completingRun.events = thenResting completingStart := rfl

theorem completing_rests :
    ∀ time ≥ completingStart.length, Resting (completingRun.states time) := by
  intro time late
  obtain ⟨state, defined, rests⟩ := completing_defined.2 time late
  have same : completingRun.states time = state := Option.get_of_eq_some _ defined
  exact same ▸ rests

/-- The first event is the only load. -/
theorem completing_loads {time : Nat} {program : Program} {fresh : Nat → Page}
    (loads : thenResting completingStart time = .processCreate program fresh) :
    time = 0 ∧ program = readerProgram := by
  have others : ∀ time < 12, 0 < time →
      LoadsCode (fun _ => False) (thenResting completingStart time) := by decide
  rcases Nat.lt_or_ge time 12 with early | late
  · rcases Nat.eq_zero_or_pos time with rfl | positive
    · exact ⟨rfl, (CpuEvent.processCreate.inj loads).1.symm⟩
    · have none := others time early positive
      rw [loads] at none
      exact none.elim
  · have plain : thenResting completingStart time = .pass false ∨
        thenResting completingStart time = .diskTick := then_resting_plain late
    rcases plain with same | same
    · exact nomatch same.symm.trans loads
    · exact nomatch same.symm.trans loads

theorem reader_ordered : Ordered (· < ·) readerProgram.code where
  acquires := by
    intro pc instr found name acquires
    rcases pc with - | pc <;> simp [readerProgram] at found
    subst found
    simp [isAcquire] at acquires
  releases := by
    intro pc instr found name releases
    rcases pc with - | pc <;> simp [readerProgram] at found
    subst found
    simp [isRelease] at releases
  returns := by
    intro name
    simp [balance, readerProgram, isAcquire, isRelease]

theorem completing_fair : FairRun (· < ·) completingRun where
  unique := by
    intro time
    cases event : completingRun.events time with
    | pass | diskTick => trivial
    | processCreate program fresh =>
        obtain ⟨rfl, -⟩ := completing_loads event
        intro proc listed
        exact nomatch listed
  quiet := then_resting_quiet completing_same (by decide)
  ordered := by
    intro time
    cases event : completingRun.events time with
    | pass | diskTick => trivial
    | processCreate program fresh =>
        obtain ⟨-, rfl⟩ := completing_loads event
        exact reader_ordered
  onDisk := by
    intro time
    cases event : completingRun.events time with
    | pass | diskTick => trivial
    | processCreate program fresh =>
        obtain ⟨-, rfl⟩ := completing_loads event
        exact (by decide : TracksOnDisk readerProgram.code)
  loaded := by
    apply eventually_atTop.mpr
    refine ⟨1, fun time late program fresh event => ?_⟩
    exact absurd (completing_loads event).1 (Nat.ne_of_gt late)
  passes := then_resting_passes completing_same
  ticks := then_resting_ticks completing_same
  elapses := then_resting_elapses completing_rests

theorem every_program_completes_sample :
    ∀ᶠ time in atTop, (completingRun.states time).1.kernel.procTable = [] ∧
      ∀ proc, (completingRun.states time).2.evaluated proc =
        (completingRun.states time).2.loaded proc :=
  every_program_completes (· < ·) completingRun completing_fair

end Sample

end Ribabari.Completion

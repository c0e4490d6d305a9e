import Ribabari.Kernel.Placement

/-!
# The state field against the queues

`schedule_process` and the load interrupt write the state together with the
queue. `schedule_unblock_process` moves a process to a ready queue and leaves
`BLOCKED` in its record, so the two agree in exactly the runs in which nobody is
woken.
-/

namespace Ribabari.StateField

open Ribabari.ProcessRecords Ribabari.SemaphoreTable Ribabari.KernelState
open Ribabari.Dispatch Ribabari.DiskAndFiles Ribabari.KernelEvents
open Ribabari.QueueBoard Ribabari.QueueRefinement Ribabari.BoardInvariants
open Ribabari.TransitionSystem Ribabari.Placement

set_option autoImplicit false

structure StatesAgree (kernel : Kernel) : Prop where
  running : ∀ proc, kernel.scheduler.scheduledProc = some proc →
    (kernel.procs proc).state = .running
  high : ∀ proc ∈ kernel.scheduler.highQueue, (kernel.procs proc).state = .ready
  low : ∀ proc ∈ kernel.scheduler.lowQueue, (kernel.procs proc).state = .ready
  blocked : ∀ proc ∈ kernel.scheduler.blockedQueue, (kernel.procs proc).state = .blocked

/-- The event makes `schedule_unblock_process` move a process. -/
def Wakes (kernel : Kernel) : KernelEvent → Prop
  | .execute instr =>
      instr.op = .print ∨
        (instr.op = .semV ∧ ∃ sem, instrSemaphore kernel instr = some sem ∧ sem.S + 1 ≤ 0)
  | .diskTick => ∃ request ∈ kernel.diskScheduler.pendingRequests,
      request.track = kernel.diskScheduler.currTrack
  | _ => False

/-! ## What a dispatch writes -/

theorem state_take_next (kernel : Kernel) (proc : ProcId) :
    ((takeNext kernel).2.procs proc).state = (kernel.procs proc).state := by
  unfold takeNext
  split
  · exact modify_proc_state _ _ _ (fun process => state_set_remaining process _) proc
  · split
    · exact modify_proc_state _ _ _ (fun process => state_set_remaining process _) proc
    · rfl

theorem take_next_fst (kernel : Kernel) :
    (takeNext kernel).1 = Queues.next kernel.scheduler := by
  unfold takeNext Queues.next
  split
  · simp [*]
  · split <;> simp [*]

/-- The state a flag leaves in the record of the process that was in the cpu. -/
def parkedState (flag : SchedulerFlag) (state : ProcessState) : ProcessState :=
  match flag with
  | .none => state
  | .quantumCompleted => .ready
  | .ioRequested => .blocked
  | .semaphoreBlocked => .blocked

theorem state_park (curr : Option ProcId) (flag : SchedulerFlag) (kernel : Kernel)
    (proc : ProcId) :
    ((parkCurrent curr flag kernel).procs proc).state =
      if curr = some proc then parkedState flag (kernel.procs proc).state
      else (kernel.procs proc).state := by
  cases curr with
  | none => rfl
  | some parked =>
      by_cases same : proc = parked
      · subst same
        cases flag <;> simp [parkCurrent, parkedState, Process.setState]
      · have different : ¬(some parked = some proc) := by simpa using Ne.symm same
        rw [if_neg different]
        cases flag <;> simp [parkCurrent, modify_proc_other _ _ same]

theorem state_schedule (kernel : Kernel) (flag : SchedulerFlag) (proc : ProcId) :
    ((scheduleProcess kernel flag).procs proc).state =
      if Queues.next kernel.scheduler = some proc then .running
      else if kernel.scheduler.scheduledProc = some proc then
        parkedState flag (kernel.procs proc).state
      else (kernel.procs proc).state := by
  simp only [scheduleProcess, take_next_fst]
  cases chosen : Queues.next kernel.scheduler with
  | none => simp [setScheduled, state_park, state_take_next]
  | some new =>
      by_cases same : proc = new
      · subst same
        simp [setScheduled, Process.setState]
      · have different : ¬(some new = some proc) := by simpa using Ne.symm same
        rw [if_neg different]
        simp [setScheduled, modify_proc_other _ _ same, state_park, state_take_next]

/-! ## Steps that wake nobody -/

section Quiet

variable {kernel after : Kernel}

/-- All that `StatesAgree` reads. -/
def stateView (kernel : Kernel) : Scheduler × (ProcId → ProcessState) :=
  (kernel.scheduler, fun proc => (kernel.procs proc).state)

theorem agree_of_view (agree : StatesAgree kernel) (same : stateView after = stateView kernel) :
    StatesAgree after := by
  simp only [stateView, Prod.mk.injEq] at same
  have states := fun proc => congrFun same.2 proc
  exact
    { running := fun proc scheduled => (states proc).trans (agree.running proc (same.1 ▸ scheduled))
      high := fun proc member => (states proc).trans (agree.high proc (same.1 ▸ member))
      low := fun proc member => (states proc).trans (agree.low proc (same.1 ▸ member))
      blocked := fun proc member => (states proc).trans (agree.blocked proc (same.1 ▸ member)) }

theorem modify_proc_view (kernel : Kernel) (proc : ProcId) (f : Process → Process)
    (keeps : ∀ process, (f process).state = process.state) :
    stateView (kernel.modifyProc proc f) = stateView kernel := by
  simp only [stateView, modify_proc_scheduler, modify_proc_state _ _ _ keeps]

theorem fetched_agree (agree : StatesAgree kernel) (proc : ProcId) :
    StatesAgree (fetched kernel proc) :=
  agree_of_view agree (modify_proc_view kernel proc
    (fun process => { process with pc := process.pc + 1 }) fun _ => rfl)

theorem open_for_view (kernel : Kernel) (proc : ProcId) (inumber : Int) :
    stateView (fsOpenFor kernel proc inumber) = stateView kernel := by
  obtain ⟨fileTable, logs, same | same⟩ := open_for_writes kernel proc inumber
  · rw [same]
    rfl
  · rw [same]
    exact modify_proc_view _ _ _ fun _ => rfl

theorem close_files_view (kernel : Kernel) (proc : ProcId) (files : List Int) :
    stateView (closeFiles kernel proc files) = stateView kernel := by
  obtain ⟨fileTable, logs, closed⟩ := close_files_writes kernel proc files
  rw [closed]
  rfl

theorem schedule_ready_mem {queues : Scheduler} {flag : SchedulerFlag} {proc : ProcId}
    (member : proc ∈ (Queues.schedule queues flag).highQueue ∨
      proc ∈ (Queues.schedule queues flag).lowQueue) :
    proc ∈ queues.highQueue ∨ proc ∈ queues.lowQueue ∨
      (flag = .quantumCompleted ∧ queues.scheduledProc = some proc) := by
  rcases queues with ⟨curr, high, low, blocked, highQuantum, lowQuantum⟩
  cases high <;> cases low <;> cases curr <;> cases flag <;>
    simp [Queues.schedule, Queues.pop, Queues.park] at member ⊢ <;> tauto

theorem schedule_blocked_mem {queues : Scheduler} {flag : SchedulerFlag} {proc : ProcId}
    (member : proc ∈ (Queues.schedule queues flag).blockedQueue) :
    proc ∈ queues.blockedQueue ∨
      ((flag = .ioRequested ∨ flag = .semaphoreBlocked) ∧ queues.scheduledProc = some proc) := by
  rw [schedule_blocked, List.mem_append] at member
  refine member.imp id fun parked => ?_
  split at parked
  · exact ⟨‹_›, by simpa using parked⟩
  · simp at parked

theorem places_schedule_nodup {queues : Scheduler} (flag : SchedulerFlag)
    (distinct : (Queues.places queues).Nodup) :
    (Queues.places (Queues.schedule queues flag)).Nodup := by
  by_cases parked : flag ≠ .none ∨ queues.scheduledProc = none
  · exact (places_schedule queues parked).nodup_iff.mpr distinct
  · simp only [not_or, not_not] at parked
    obtain ⟨rfl, running⟩ := parked
    obtain ⟨proc, running⟩ := Option.ne_none_iff_exists'.mp running
    have dropped := (places_schedule_dropped queues running).nodup_iff.mpr distinct
    exact (List.nodup_cons.mp dropped).2

theorem scheduled_not_queued {queues : Scheduler} {proc : ProcId}
    (distinct : (Queues.places queues).Nodup) (running : queues.scheduledProc = some proc) :
    proc ∉ queues.highQueue ∧ proc ∉ queues.lowQueue ∧ proc ∉ queues.blockedQueue := by
  have split : Queues.places queues =
      proc :: (queues.highQueue ++ (queues.lowQueue ++ queues.blockedQueue)) := by
    simp [Queues.places, running]
  rw [split, List.nodup_cons] at distinct
  simpa using distinct.1

/-- A dispatch writes the states of exactly the two processes it moves. -/
theorem schedule_agree (agree : StatesAgree kernel)
    (distinct : (Queues.places kernel.scheduler).Nodup) (flag : SchedulerFlag) :
    StatesAgree (scheduleProcess kernel flag) := by
  have queues := schedule_queues kernel flag
  have distinctAfter := places_schedule_nodup flag distinct
  have notNext : ∀ proc, proc ∈ (Queues.schedule kernel.scheduler flag).highQueue ∨
      proc ∈ (Queues.schedule kernel.scheduler flag).lowQueue ∨
      proc ∈ (Queues.schedule kernel.scheduler flag).blockedQueue →
      Queues.next kernel.scheduler ≠ some proc := by
    intro proc member chosen
    obtain ⟨high, low, blocked⟩ := scheduled_not_queued distinctAfter
      (show (Queues.schedule kernel.scheduler flag).scheduledProc = some proc from chosen)
    tauto
  have ready : ∀ proc, proc ∈ (Queues.schedule kernel.scheduler flag).highQueue ∨
      proc ∈ (Queues.schedule kernel.scheduler flag).lowQueue →
      ((scheduleProcess kernel flag).procs proc).state = .ready := by
    intro proc member
    rw [state_schedule, if_neg (notNext proc (by tauto))]
    rcases schedule_ready_mem member with high | low | ⟨rfl, parked⟩
    · rw [if_neg fun running => (scheduled_not_queued distinct running).1 high]
      exact agree.high proc high
    · rw [if_neg fun running => (scheduled_not_queued distinct running).2.1 low]
      exact agree.low proc low
    · rw [if_pos parked]
      rfl
  refine
    { running := ?_
      high := fun proc member => ready proc (.inl (queues ▸ member))
      low := fun proc member => ready proc (.inr (queues ▸ member))
      blocked := ?_ }
  · intro proc scheduled
    rw [queues] at scheduled
    rw [state_schedule, if_pos (show Queues.next kernel.scheduler = some proc from scheduled)]
  · intro proc member
    rw [queues] at member
    rw [state_schedule, if_neg (notNext proc (.inr (.inr member)))]
    rcases schedule_blocked_mem member with blocked | ⟨cause, parked⟩
    · rw [if_neg fun running => (scheduled_not_queued distinct running).2.2 blocked]
      exact agree.blocked proc blocked
    · rw [if_pos parked]
      rcases cause with rfl | rfl <;> rfl

theorem disk_call_agree (agree : StatesAgree kernel)
    (distinct : (Queues.places kernel.scheduler).Nodup) (proc : ProcId) (track : Int)
    (read : Bool) : StatesAgree (diskCall kernel proc track read) := by
  apply agree_of_view (schedule_agree agree distinct .ioRequested)
  have requested : stateView (diskRequest (scheduleProcess kernel .ioRequested) proc track read) =
      stateView (scheduleProcess kernel .ioRequested) :=
    modify_proc_view _ _ _ fun process => state_set_remaining process _
  rw [← requested, diskCall, fsRequest]
  split <;> exact open_for_view _ _ _

theorem eval_agree (agree : StatesAgree kernel)
    (distinct : (Queues.places kernel.scheduler).Nodup) {proc : ProcId} {instr : Instr}
    (quiet : ¬Wakes kernel (.execute instr)) (evaluated : eval kernel proc instr = some after) :
    StatesAgree after := by
  rcases instr with ⟨op, value, name⟩
  cases op with
  | exec =>
      obtain rfl := Option.some.inj evaluated
      exact agree_of_view agree
        (modify_proc_view _ _ _ fun process => state_set_remaining process _)
  | read =>
      obtain rfl := Option.some.inj evaluated
      exact disk_call_agree agree distinct proc value true
  | write =>
      obtain rfl := Option.some.inj evaluated
      exact disk_call_agree agree distinct proc value false
  | print => exact absurd (.inl rfl) quiet
  | semP =>
      obtain ⟨sem, called, -, call, ended⟩ := acquire_inv evaluated
      have charged : stateView after = stateView called := by
        rcases ended with rfl | rfl
        · exact modify_proc_view _ _ _ fun process => state_set_remaining process _
        · rfl
      refine agree_of_view ?_ charged
      obtain ⟨semTable, logs, same | same⟩ := semaphore_p_writes call
      · rw [same]
        exact agree_of_view agree rfl
      · rw [same]
        exact agree_of_view (schedule_agree agree distinct .semaphoreBlocked) rfl
  | semV =>
      obtain ⟨sem, called, found, call, rfl⟩ := release_inv evaluated
      have charged : stateView (chargeSemaphore called proc) = stateView called :=
        modify_proc_view _ _ _ fun process => state_set_remaining process _
      have positive : ¬sem.S + 1 ≤ 0 := fun asleep => quiet (.inr ⟨rfl, sem, found, asleep⟩)
      refine agree_of_view agree (charged.trans ?_)
      simp only [sysCall, semaphoreV, positive, if_false, Option.bind_eq_bind, Option.bind_some,
        Option.some.injEq] at call
      rw [← call]
      rfl

/-- A load writes the state of the new process only. -/
theorem create_states (kernel : Kernel) (program : Program)
    (fresh : Nat → SegmentMemory.Page) (proc : ProcId) :
    ((processCreate kernel program fresh).procs proc).state =
      if proc = kernel.nextProcId then .ready else (kernel.procs proc).state := by
  rw [create_procs]
  by_cases same : proc = kernel.nextProcId
  · subst same
    simp [Process.setState]
  · simp [same]

theorem create_agree (agree : StatesAgree kernel) {program : Program}
    {fresh : Nat → SegmentMemory.Page}
    (unused : kernel.nextProcId ∉ Queues.places kernel.scheduler) :
    StatesAgree (processCreate kernel program fresh) := by
  have queues := create_queues kernel program fresh
  have old : ∀ proc ∈ Queues.places kernel.scheduler,
      ((processCreate kernel program fresh).procs proc).state = (kernel.procs proc).state := by
    intro proc placed
    rw [create_states, if_neg fun same : proc = kernel.nextProcId => unused (same ▸ placed)]
  have ready : ∀ proc, proc ∈ (processCreate kernel program fresh).scheduler.highQueue ∨
      proc ∈ (processCreate kernel program fresh).scheduler.lowQueue →
      ((processCreate kernel program fresh).procs proc).state = .ready := by
    intro proc member
    rw [queues] at member
    rcases enroll_ready _ member with (high | low) | rfl
    · rw [old proc (by simp [Queues.places, high])]
      exact agree.high proc high
    · rw [old proc (by simp [Queues.places, low])]
      exact agree.low proc low
    · rw [create_states, if_pos rfl]
  refine
    { running := ?_
      high := fun proc member => ready proc (.inl member)
      low := fun proc member => ready proc (.inr member)
      blocked := ?_ }
  · intro proc running
    rw [queues, enroll_scheduled] at running
    rw [old proc (by simp [Queues.places, running])]
    exact agree.running proc running
  · intro proc member
    rw [queues, enroll_blocked] at member
    rw [old proc (by simp [Queues.places, member])]
    exact agree.blocked proc member

theorem finish_agree (agree : StatesAgree kernel) (accounted : Accounted (boardOf kernel))
    {proc : ProcId} (running : kernel.scheduler.scheduledProc = some proc)
    (finished : processFinish kernel proc = some after) : StatesAgree after := by
  have queues := finish_scheduler accounted running finished
  obtain ⟨-, dispatched, closed, segTable, dispatch, closes, -, left⟩ :=
    finish_writes running finished
  let unlisted := { kernel with procTable := kernel.procTable.erase proc }
  have agrees : StatesAgree dispatched := by
    rw [dispatch]
    exact schedule_agree (agree_of_view agree rfl : StatesAgree unlisted)
      accounted.places_nodup .none
  apply agree_of_view agrees (Prod.ext _ _)
  · rw [dispatch]
    exact queues.trans (schedule_queues unlisted .none).symm
  · have closing := congrArg Prod.snd
      (close_files_view dispatched proc (dispatched.procs proc).oFiles)
    rw [← closing, ← closes, left]
    unfold leaveQueues
    split_ifs <;> rfl

theorem resolve_procs (track : Int) (kernel : Kernel) (walked requests : List DiskRequest) :
    (resolveFrom track kernel walked requests).procs = kernel.procs := by
  induction requests generalizing kernel walked with
  | nil => rfl
  | cons request rest ih =>
      unfold resolveFrom
      split
      · exact (ih _ _).trans (unblock_procs _ _ _)
      · exact ih _ _

theorem tick_agree (agree : StatesAgree kernel) (quiet : ¬Wakes kernel .diskTick) :
    StatesAgree (diskTick kernel) := by
  apply agree_of_view agree (Prod.ext _ _)
  · have none : (boardOf kernel).pending.filter
        (fun request => request.track = kernel.diskScheduler.currTrack) = [] := by
      apply List.filter_eq_nil_iff.mpr
      intro request member hit
      exact quiet ⟨request, member, by simpa using hit⟩
    change (diskTick kernel).scheduler = kernel.scheduler
    rw [disk_tick_queues, Board.tick, none]
    rfl
  · exact congrArg (fun procs proc => (procs proc : Process).state) (resolve_procs _ _ _ _)

/-- An event that wakes nobody keeps the state fields and the queues together. -/
theorem step_agree {event : KernelEvent} (reached : Reachable kernelSystem kernel)
    (agree : StatesAgree kernel) (quiet : ¬Wakes kernel event)
    (fired : kernelStep kernel event = some after) : StatesAgree after := by
  have accounted := kernel_accounted reached
  have distinct : (Queues.places kernel.scheduler).Nodup := accounted.places_nodup
  cases event with
  | processCreate program fresh =>
      obtain rfl := Option.some.inj fired
      refine create_agree agree fun member => ?_
      exact Nat.lt_irrefl _ (accounted.numbered _ (accounted.placed.mem_iff.mp member))
  | idleDispatch logged =>
      obtain ⟨-, rfl⟩ := idle_fires fired
      cases logged
      · exact schedule_agree agree distinct .none
      · exact schedule_agree (agree_of_view agree rfl : StatesAgree (processNpLog kernel))
          distinct .none
  | execute instr =>
      obtain ⟨proc, -, evaluated⟩ := execute_fires fired
      exact eval_agree (fetched_agree agree proc) distinct quiet evaluated
  | quantumCompleted =>
      obtain ⟨proc, -, rfl⟩ := quantum_fires fired
      exact schedule_agree agree distinct .quantumCompleted
  | processFinish =>
      obtain ⟨proc, running, finished⟩ := finish_fires fired
      exact finish_agree agree accounted running finished
  | diskTick =>
      obtain rfl := Option.some.inj fired
      exact tick_agree agree quiet

end Quiet

/-! ## Steps that wake somebody -/

section Waking

variable {kernel after : Kernel}

/-- A process that a wake-up queued as ready still says that it is blocked. -/
theorem woken_disagrees (proc : ProcId)
    (queued : proc ∈ after.scheduler.highQueue ∨ proc ∈ after.scheduler.lowQueue)
    (stale : (after.procs proc).state = .blocked) : ¬StatesAgree after := by
  intro agree
  have ready : (after.procs proc).state = .ready :=
    queued.elim (agree.high proc) (agree.low proc)
  rw [stale] at ready
  exact ProcessState.noConfusion ready

theorem unblock_mem {queues : Scheduler} {proc : ProcId} (queue : SchedulerQueueFlag)
    (blocked : proc ∈ queues.blockedQueue) :
    proc ∈ (Queues.unblock queue proc queues).highQueue ∨
      proc ∈ (Queues.unblock queue proc queues).lowQueue := by
  cases queue <;> simp [Queues.unblock, blocked]

theorem print_disagrees {proc : ProcId} (distinct : (Queues.places kernel.scheduler).Nodup)
    (running : kernel.scheduler.scheduledProc = some proc) (duration : Int) :
    ¬StatesAgree (printRequest (scheduleProcess kernel .ioRequested) proc duration) := by
  have parked : proc ∈ (Queues.schedule kernel.scheduler .ioRequested).blockedQueue := by
    rw [schedule_blocked]
    simp [running]
  apply woken_disagrees proc
  · have queued := unblock_mem .lowQueue parked
    rwa [← print_queues] at queued
  · have states : ((printRequest (scheduleProcess kernel .ioRequested) proc duration).procs
        proc).state = ((scheduleProcess kernel .ioRequested).procs proc).state := by
      simp only [printRequest, interruptControl, unblock_procs]
      exact modify_proc_state _ _ _ (fun process => state_set_remaining process _) proc
    rw [states, state_schedule, if_neg, if_pos running]
    · rfl
    · intro chosen
      exact (scheduled_not_queued (places_schedule_nodup .ioRequested distinct)
        (show (Queues.schedule kernel.scheduler .ioRequested).scheduledProc = some proc
          from chosen)).2.2 parked

theorem eval_disagrees (agree : StatesAgree kernel) (accounted : Accounted (boardOf kernel))
    {proc : ProcId} (running : kernel.scheduler.scheduledProc = some proc) {instr : Instr}
    (wakes : Wakes kernel (.execute instr)) (evaluated : eval kernel proc instr = some after) :
    ¬StatesAgree after := by
  rcases instr with ⟨op, value, name⟩
  rcases wakes with rfl | ⟨rfl, sem, found, asleep⟩
  · obtain rfl := Option.some.inj evaluated
    exact print_disagrees accounted.places_nodup running value
  · obtain ⟨same, called, sameFound, call, rfl⟩ := release_inv evaluated
    obtain rfl := Option.some.inj (found.symm.trans sameFound)
    obtain ⟨text, rfl, lookup⟩ := Option.bind_eq_some_iff.mp found
    have listed : sem ∈ kernel.semTable := List.mem_of_find?_eq_some lookup
    cases waiters : sem.waiters with
    | nil => simp [sysCall, semaphoreV, asleep, waiters] at call
    | cons woken rest =>
        have blocked : woken ∈ kernel.scheduler.blockedQueue := by
          refine accounted.blocked.mem_iff.mpr (List.mem_append_left _ ?_)
          exact List.mem_flatMap.mpr ⟨sem, listed, by simp [waiters]⟩
        simp only [sysCall, semaphoreV, asleep, waiters, if_true, Option.bind_eq_bind,
          Option.bind_some, Option.some.injEq] at call
        have queues : (chargeSemaphore called proc).scheduler =
            Queues.unblock .highQueue woken kernel.scheduler := by
          rw [← call]
          exact unblock_queues kernel woken .highQueue
        have states : ((chargeSemaphore called proc).procs woken).state =
            (kernel.procs woken).state := by
          rw [← call]
          refine (modify_proc_state _ _ _ (fun process => state_set_remaining process _)
            woken).trans ?_
          exact congrArg (fun procs => (procs woken : Process).state)
            (unblock_procs kernel woken .highQueue)
        apply woken_disagrees woken
        · rw [queues]
          exact unblock_mem .highQueue blocked
        · exact states.trans (agree.blocked woken blocked)

theorem tick_disagrees (agree : StatesAgree kernel) (accounted : Accounted (boardOf kernel))
    (wakes : Wakes kernel .diskTick) : ¬StatesAgree (diskTick kernel) := by
  obtain ⟨request, pending, hit⟩ := wakes
  obtain ⟨-, low, -⟩ := tick_queues accounted kernel.diskScheduler.currTrack
  apply woken_disagrees request.process
  · right
    rw [disk_tick_queues, low]
    refine List.mem_append_right _ (List.mem_map.mpr ⟨request, ?_, rfl⟩)
    exact List.mem_filter.mpr ⟨pending, by simpa using hit⟩
  · have blocked : request.process ∈ kernel.scheduler.blockedQueue :=
      accounted.blocked.mem_iff.mpr
        (List.mem_append_right _ (List.mem_map.mpr ⟨request, pending, rfl⟩))
    have procs : (diskTick kernel).procs = kernel.procs := resolve_procs _ _ _ _
    rw [procs]
    exact agree.blocked _ blocked

theorem step_disagrees {event : KernelEvent} (reached : Reachable kernelSystem kernel)
    (agree : StatesAgree kernel) (wakes : Wakes kernel event)
    (fired : kernelStep kernel event = some after) : ¬StatesAgree after := by
  have accounted := kernel_accounted reached
  cases event with
  | execute instr =>
      obtain ⟨proc, running, evaluated⟩ := execute_fires fired
      exact eval_disagrees (fetched_agree agree proc) accounted running wakes evaluated
  | diskTick =>
      obtain rfl := Option.some.inj fired
      exact tick_disagrees agree accounted wakes
  | processCreate | idleDispatch | quantumCompleted | processFinish => exact wakes.elim

end Waking

theorem init_agrees : StatesAgree kernelInit where
  running := by simp [kernelInit, schedulerInit]
  high := by simp [kernelInit, schedulerInit]
  low := by simp [kernelInit, schedulerInit]
  blocked := by simp [kernelInit, schedulerInit]

/-- Along a run the state fields agree with the queues in every state exactly when
no step of the run wakes anybody. -/
theorem states_agree_iff_nobody_woken {past : List (Kernel × KernelEvent)} {kernel : Kernel}
    (trace : Trace kernelSystem past kernel) :
    (∀ seen ∈ visited past kernel, StatesAgree seen) ↔
      ∀ entry ∈ past, ¬Wakes entry.1 entry.2 := by
  constructor
  · intro agree entry member wakes
    obtain ⟨reached, after, seen, fired⟩ := trace_entry trace member
    have before := mem_visited member kernel
    exact step_disagrees reached (agree _ before) wakes fired (agree _ seen)
  · intro quiet
    exact trace_visited_invariant _ StatesAgree trace quiet init_agrees
      fun before event after reached agree allowed fired =>
        step_agree reached agree allowed fired

/-- A process is loaded, dispatched and executes: nobody is woken. -/
def quietEvents : List KernelEvent :=
  [.processCreate sampleProgram blankPage, .idleDispatch true, .execute ⟨.exec, 3, none⟩]

theorem states_agree_iff_nobody_woken_sample :
    StatesAgree ((run kernelSystem quietEvents kernelInit).getD kernelInit) := by
  have trace : Trace kernelSystem (history kernelSystem quietEvents kernelInit)
      ((run kernelSystem quietEvents kernelInit).getD kernelInit) :=
    trace_history quietEvents (Trace.start : Trace kernelSystem [] _) rfl
  apply (states_agree_iff_nobody_woken trace).mpr
  · intro entry member
    have fired := history_event member
    simp only [quietEvents, List.mem_cons, List.not_mem_nil, or_false] at fired
    rcases fired with fired | fired | fired <;> simp [fired, Wakes]
  · exact last_visited _ _

/-- The only process prints: the print completes at once and wakes it. -/
def printEvents : List KernelEvent :=
  [.processCreate sampleProgram blankPage, .idleDispatch true, .execute ⟨.print, 1, none⟩]

def printedKernel : Kernel := (run kernelSystem printEvents kernelInit).getD kernelInit

theorem printed_process_is_queued_blocked :
    Reachable kernelSystem printedKernel ∧ 1 ∈ printedKernel.scheduler.lowQueue ∧
      (printedKernel.procs 1).state = .blocked ∧ ¬StatesAgree printedKernel :=
  ⟨reachable_run printEvents rfl, by decide, by decide,
    woken_disagrees 1 (.inr (by decide)) (by decide)⟩

end Ribabari.StateField

import Ribabari.Disk.RequestTracks

/-!
# The remaining time of a process

A dispatch clamps what is left of a process's time and credits its quantum, an
instruction spends from it. So the times stay in 32-bit integers while instructions have
operands in range and only those that have something left evaluate them.
-/

namespace Ribabari.RemainingTime

open Ribabari.CLibrary Ribabari.ProcessRecords Ribabari.SemaphoreTable Ribabari.SegmentMemory
open Ribabari.KernelState Ribabari.Dispatch Ribabari.DiskAndFiles Ribabari.KernelEvents
open Ribabari.QueueBoard Ribabari.QueueRefinement Ribabari.BoardInvariants
open Ribabari.RequestTracks

set_option autoImplicit false

def OperandInRange (instr : Instr) : Prop :=
  match instr.op with
  | .exec | .print => 0 ≤ instr.value ∧ instr.value < 2 ^ 31
  | .read | .write => OnDisk instr.value
  | .semP | .semV => True

instance : DecidablePred OperandInRange := by
  rintro ⟨op, value, sem⟩
  cases op <;> unfold OperandInRange <;> infer_instance

def OperandsInRange (code : List Instr) : Prop := ∀ instr ∈ code, OperandInRange instr

instance : DecidablePred OperandsInRange := fun code =>
  inferInstanceAs (Decidable (∀ instr ∈ code, OperandInRange instr))

/-! ## The values computed -/

/-- The sum of `schedule_process`, before it is clamped. -/
def dispatchSums (kernel : Kernel) : List Int :=
  match kernel.scheduler.highQueue with
  | proc :: _ => [(kernel.procs proc).remaining + kernel.scheduler.highQuantum]
  | [] =>
      match kernel.scheduler.lowQueue with
      | proc :: _ => [(kernel.procs proc).remaining + kernel.scheduler.lowQuantum]
      | [] => []

/-- Every value on the way to the turnaround of `disk_request`. -/
def turnaroundSums (limit : Int) (disk : DiskScheduler) (track : Int) : List Int :=
  let moves :=
    if disk.forwardDir then
      if track ≥ disk.currTrack then [track - disk.currTrack]
      else
        [limit - disk.currTrack, limit - track, (limit - disk.currTrack) + (limit - track)]
    else
      if track < disk.currTrack then [disk.currTrack - track]
      else [disk.currTrack + track]
  moves ++ moves.map (· * diskTrackMoveTime) ++ [requestTime limit disk track]

/-- The cost of a `P` that returned or of a `V`, before it is clamped. -/
def chargeSums (kernel : Kernel) (proc : ProcId) : List Int := [(kernel.procs proc).remaining - 200]

def diskSums (kernel : Kernel) (proc : ProcId) (track : Int) : List Int :=
  let blocked := scheduleProcess kernel .ioRequested
  dispatchSums kernel ++ turnaroundSums diskTrackLimit blocked.diskScheduler track ++
    [(blocked.procs proc).remaining - requestTime diskTrackLimit blocked.diskScheduler track]

/-- The values that `eval` computes for `remaining`, with those of the turnaround. -/
def evalSums (kernel : Kernel) (proc : ProcId) (instr : Instr) : List Int :=
  match instr.op with
  | .exec => [(kernel.procs proc).remaining - instr.value]
  | .semP =>
      let sem := instrSemaphore kernel instr
      let slept := if (sem.elim 0 Semaphore.S) - 1 < 0 then dispatchSums kernel else []
      slept ++ (sysCall kernel proc (.semaphoreP sem)).elim [] fun after =>
        if (after.procs proc).state ≠ .blocked then chargeSums after proc else []
  | .semV =>
      (sysCall kernel proc (.semaphoreV (instrSemaphore kernel instr))).elim [] fun after =>
        chargeSums after proc
  | .read => diskSums kernel proc instr.value
  | .write => diskSums kernel proc instr.value
  | .print =>
      let blocked := scheduleProcess kernel .ioRequested
      dispatchSums kernel ++ [(blocked.procs proc).remaining - instr.value]

def kernelSums (kernel : Kernel) : KernelEvent → List Int
  | .processCreate _ _ | .diskTick => []
  | .idleDispatch _ | .quantumCompleted | .processFinish => dispatchSums kernel
  | .execute instr => kernel.scheduler.scheduledProc.elim [] fun proc =>
      evalSums (fetched kernel proc) proc instr

/-! ## The invariant -/

structure TimesBounded (kernel : Kernel) : Prop where
  highQuantum : kernel.scheduler.highQuantum = schedHighQueueQuantum
  lowQuantum : kernel.scheduler.lowQuantum = schedLowQueueQuantum
  onDisk : OnDisk kernel.diskScheduler.currTrack
  lower : ∀ proc, -2 ^ 31 < (kernel.procs proc).remaining
  upper : ∀ proc, (kernel.procs proc).remaining ≤ schedLowQueueQuantum

/-- The scheduled process has not spent more than it had. -/
def ScheduledReady (kernel : Kernel) : Prop :=
  ∀ proc, kernel.scheduler.scheduledProc = some proc → 0 ≤ (kernel.procs proc).remaining

/-- All that these two read. -/
def clockView (kernel : Kernel) :=
  (fun proc => (kernel.procs proc).remaining, kernel.scheduler.scheduledProc,
    kernel.scheduler.highQuantum, kernel.scheduler.lowQuantum, kernel.diskScheduler.currTrack)

variable {kernel after : Kernel}

theorem clock_remaining (same : clockView after = clockView kernel) (proc : ProcId) :
    (after.procs proc).remaining = (kernel.procs proc).remaining :=
  congrFun (congrArg Prod.fst same) proc

theorem bounded_of_clock (bounded : TimesBounded kernel)
    (same : clockView after = clockView kernel) : TimesBounded after := by
  simp only [clockView, Prod.mk.injEq] at same
  obtain ⟨times, -, high, low, track⟩ := same
  exact
    { highQuantum := high.trans bounded.highQuantum
      lowQuantum := low.trans bounded.lowQuantum
      onDisk := track ▸ bounded.onDisk
      lower := fun proc => (congrFun times proc).symm ▸ bounded.lower proc
      upper := fun proc => (congrFun times proc).symm ▸ bounded.upper proc }

theorem ready_of_clock (ready : ScheduledReady kernel)
    (same : clockView after = clockView kernel) : ScheduledReady after := by
  intro proc running
  have scheduled : after.scheduler.scheduledProc = kernel.scheduler.scheduledProc :=
    congrArg (fun view => view.2.1) same
  rw [clock_remaining same]
  exact ready proc (scheduled ▸ running)

theorem init_bounded : TimesBounded kernelInit where
  highQuantum := rfl
  lowQuantum := rfl
  onDisk := by decide
  lower := fun _ => show (-2 ^ 31 : Int) < 0 by decide
  upper := fun _ => show (0 : Int) ≤ 2000 by decide

theorem init_ready : ScheduledReady kernelInit := fun proc running => by
  simp [kernelInit, schedulerInit] at running

/-! ## What a dispatch credits -/

/-- What the dispatch makes of the time its process has left. -/
def credited (queues : Scheduler) (remaining : Int) : Int :=
  if queues.highQueue = [] then max 0 (min schedLowQueueQuantum (remaining + queues.lowQuantum))
  else max 1000 (min schedHighQueueQuantum (remaining + queues.highQuantum))

theorem credited_range (queues : Scheduler) (remaining : Int) :
    0 ≤ credited queues remaining ∧ credited queues remaining ≤ schedLowQueueQuantum := by
  unfold credited schedLowQueueQuantum schedHighQueueQuantum
  split <;> omega

theorem remaining_set_state (process : Process) (state : ProcessState) :
    (process.setState state).remaining = process.remaining := rfl

theorem modify_proc_remaining (kernel : Kernel) (proc : ProcId) (f : Process → Process)
    (keeps : ∀ process, (f process).remaining = process.remaining) (other : ProcId) :
    ((kernel.modifyProc proc f).procs other).remaining = (kernel.procs other).remaining := by
  by_cases same : other = proc
  · subst same
    rw [modify_proc_same, keeps]
  · rw [modify_proc_other kernel f same]

theorem take_next_remaining (kernel : Kernel) (proc : ProcId) :
    ((takeNext kernel).2.procs proc).remaining =
      if Queues.next kernel.scheduler = some proc then
        credited kernel.scheduler (kernel.procs proc).remaining
      else (kernel.procs proc).remaining := by
  unfold takeNext
  split
  case h_1 next rest high =>
      by_cases same : proc = next
      · subst same
        simp [Queues.next, credited, high, Process.setRemaining]
      · simp [Queues.next, high, Ne.symm same, modify_proc_other _ _ same]
  case h_2 high =>
      split
      case h_1 next rest low =>
          by_cases same : proc = next
          · subst same
            simp [Queues.next, credited, high, low, Process.setRemaining]
          · simp [Queues.next, high, low, Ne.symm same, modify_proc_other _ _ same]
      case h_2 low => simp [Queues.next, high, low]

theorem schedule_remaining (kernel : Kernel) (flag : SchedulerFlag) (proc : ProcId) :
    ((scheduleProcess kernel flag).procs proc).remaining =
      if Queues.next kernel.scheduler = some proc then
        credited kernel.scheduler (kernel.procs proc).remaining
      else (kernel.procs proc).remaining := by
  have parked : ∀ (curr : Option ProcId) (taken : Kernel),
      ((parkCurrent curr flag taken).procs proc).remaining = (taken.procs proc).remaining := by
    intro curr taken
    unfold parkCurrent
    split
    · rfl
    · rfl
    · exact modify_proc_remaining _ _ _ (fun process => remaining_set_state process _) proc
    · exact modify_proc_remaining _ _ _ (fun process => remaining_set_state process _) proc
  rw [← take_next_remaining, ← parked kernel.scheduler.scheduledProc (takeNext kernel).2,
    scheduleProcess]
  cases (takeNext kernel).1 with
  | none => rfl
  | some chosen =>
      exact modify_proc_remaining _ _ _ (fun process => remaining_set_state process _) proc

theorem schedule_quanta (queues : Scheduler) (flag : SchedulerFlag) :
    (Queues.schedule queues flag).highQuantum = queues.highQuantum ∧
      (Queues.schedule queues flag).lowQuantum = queues.lowQuantum := by
  rcases queues with ⟨curr, high, low, blocked, highQuantum, lowQuantum⟩
  cases high <;> cases flag <;> exact ⟨rfl, rfl⟩

theorem schedule_disk (kernel : Kernel) (flag : SchedulerFlag) :
    (scheduleProcess kernel flag).diskScheduler = kernel.diskScheduler := by
  have same := schedule_elsewhere kernel flag
  simp only [elsewhere, Prod.mk.injEq] at same
  exact same.2.2.2.1

theorem schedule_bounded (bounded : TimesBounded kernel) (flag : SchedulerFlag) :
    TimesBounded (scheduleProcess kernel flag) := by
  have quanta := schedule_quanta kernel.scheduler flag
  have range := credited_range kernel.scheduler
  refine
    { highQuantum := ?_
      lowQuantum := ?_
      onDisk := ?_
      lower := ?_
      upper := ?_ }
  · rw [schedule_queues, quanta.1]
    exact bounded.highQuantum
  · rw [schedule_queues, quanta.2]
    exact bounded.lowQuantum
  · rw [schedule_disk]
    exact bounded.onDisk
  · intro proc
    rw [schedule_remaining]
    split
    · have := (range (kernel.procs proc).remaining).1
      omega
    · exact bounded.lower proc
  · intro proc
    rw [schedule_remaining]
    split
    · exact (range _).2
    · exact bounded.upper proc

theorem schedule_ready (kernel : Kernel) (flag : SchedulerFlag) :
    ScheduledReady (scheduleProcess kernel flag) := by
  intro proc running
  rw [schedule_queues] at running
  rw [schedule_remaining, if_pos (show Queues.next kernel.scheduler = some proc from running)]
  exact (credited_range _ _).1

/-- A dispatch takes nothing from a process that owes nothing. -/
theorem schedule_nonneg {proc : ProcId} (left : 0 ≤ (kernel.procs proc).remaining)
    (flag : SchedulerFlag) : 0 ≤ ((scheduleProcess kernel flag).procs proc).remaining := by
  rw [schedule_remaining]
  split
  · exact (credited_range _ _).1
  · exact left

theorem dispatch_sums_int32 (bounded : TimesBounded kernel) :
    ∀ value ∈ dispatchSums kernel, IsInt32 value := by
  have lower := bounded.lower
  have upper := bounded.upper
  have high := bounded.highQuantum
  have low := bounded.lowQuantum
  unfold schedHighQueueQuantum schedLowQueueQuantum at *
  intro value member
  unfold dispatchSums at member
  split at member
  case h_1 proc rest _ =>
      rw [List.mem_singleton.mp member, high, IsInt32]
      have := lower proc
      have := upper proc
      omega
  case h_2 =>
      split at member
      case h_1 proc rest _ =>
          rw [List.mem_singleton.mp member, low, IsInt32]
          have := lower proc
          have := upper proc
          omega
      case h_2 => exact nomatch member

/-! ## What an instruction spends -/

theorem set_remaining_bounded (bounded : TimesBounded kernel) {proc : ProcId}
    {time : Process → Int} (lower : -2 ^ 31 < time (kernel.procs proc))
    (upper : time (kernel.procs proc) ≤ schedLowQueueQuantum) :
    TimesBounded (kernel.modifyProc proc fun process => process.setRemaining (time process)) := by
  have times : ∀ other, ((kernel.modifyProc proc fun process =>
      process.setRemaining (time process)).procs other).remaining =
        if other = proc then time (kernel.procs proc) else (kernel.procs other).remaining := by
    intro other
    by_cases same : other = proc
    · subst same
      simp [Process.setRemaining]
    · simp [modify_proc_other _ _ same, same]
  refine
    { highQuantum := bounded.highQuantum
      lowQuantum := bounded.lowQuantum
      onDisk := bounded.onDisk
      lower := ?_
      upper := ?_ }
  · intro other
    rw [times]
    split
    · exact lower
    · exact bounded.lower other
  · intro other
    rw [times]
    split
    · exact upper
    · exact bounded.upper other

/-- Spending from a process that owes nothing. -/
theorem spend_bounded (bounded : TimesBounded kernel) {proc : ProcId} {amount : Int}
    (left : 0 ≤ (kernel.procs proc).remaining) (cost : 0 ≤ amount ∧ amount < 2 ^ 31) :
    TimesBounded (kernel.modifyProc proc fun process =>
      process.setRemaining (process.remaining - amount)) := by
  have upper := bounded.upper proc
  apply set_remaining_bounded bounded <;> omega

theorem spend_int32 (bounded : TimesBounded kernel) {proc : ProcId} {amount : Int}
    (left : 0 ≤ (kernel.procs proc).remaining) (cost : 0 ≤ amount ∧ amount < 2 ^ 31) :
    IsInt32 ((kernel.procs proc).remaining - amount) := by
  have upper := bounded.upper proc
  unfold schedLowQueueQuantum at upper
  unfold IsInt32
  omega

theorem charge_bounded (bounded : TimesBounded kernel) (proc : ProcId) :
    TimesBounded (chargeSemaphore kernel proc) := by
  have upper := bounded.upper proc
  unfold schedLowQueueQuantum at upper
  apply set_remaining_bounded bounded
  · omega
  · rw [schedLowQueueQuantum]
    omega

theorem charge_sums_int32 (bounded : TimesBounded kernel) (proc : ProcId)
    (left : 0 ≤ (kernel.procs proc).remaining) :
    ∀ value ∈ chargeSums kernel proc, IsInt32 value := by
  intro value member
  rw [List.mem_singleton.mp member]
  exact spend_int32 bounded left (by decide)

theorem turnaround_sums_int32 {disk : DiskScheduler} {track : Int} (arm : OnDisk disk.currTrack)
    (onDisk : OnDisk track) :
    ∀ value ∈ turnaroundSums diskTrackLimit disk track, IsInt32 value := by
  unfold OnDisk diskTrackLimit at *
  unfold turnaroundSums requestTime IsInt32 diskOperationTime diskTrackMoveTime
  split_ifs <;> simp only [List.map_cons, List.map_nil, List.cons_append, List.nil_append,
    List.forall_mem_cons, List.not_mem_nil, false_implies, implies_true, and_true] <;> omega

theorem request_time_range {disk : DiskScheduler} {track : Int} (arm : OnDisk disk.currTrack)
    (onDisk : OnDisk track) :
    0 ≤ requestTime diskTrackLimit disk track ∧
      requestTime diskTrackLimit disk track < 2 ^ 31 := by
  unfold OnDisk diskTrackLimit at *
  unfold requestTime diskOperationTime diskTrackMoveTime
  split_ifs <;> omega

/-! ## Instructions -/

theorem unblock_clock (kernel : Kernel) (proc : ProcId) (queue : SchedulerQueueFlag) :
    clockView (scheduleUnblockProcess kernel proc queue) = clockView kernel := by
  unfold scheduleUnblockProcess
  split
  · cases queue <;> rfl
  · rfl

theorem open_for_clock (kernel : Kernel) (proc : ProcId) (inumber : Int) :
    clockView (fsOpenFor kernel proc inumber) = clockView kernel := by
  have opened : ∀ (table : List Inode) (logs : Logs),
      clockView ({ kernel with fileTable := table, logs := logs }.modifyProc proc
        fun process => { process with oFiles := process.oFiles ++ [inumber] }) =
      clockView kernel := by
    intro table logs
    have times := modify_proc_remaining { kernel with fileTable := table, logs := logs } proc
      (fun process => { process with oFiles := process.oFiles ++ [inumber] }) fun _ => rfl
    simp only [clockView, modify_proc_scheduler, modify_proc_disk, times]
  obtain ⟨fileTable, logs, same | same⟩ := open_for_writes kernel proc inumber
  · rw [same]
    rfl
  · rw [same]
    exact opened fileTable logs

theorem fetched_clock (kernel : Kernel) (proc : ProcId) :
    clockView (fetched kernel proc) = clockView kernel := by
  have times := modify_proc_remaining kernel proc
    (fun process => { process with pc := process.pc + 1 }) fun _ => rfl
  simp only [clockView, fetched, processLog, Kernel.log, modify_proc_scheduler,
    modify_proc_disk, times]

theorem semaphore_p_clock {sem : Option Semaphore} {proc : ProcId}
    (call : sysCall kernel proc (.semaphoreP sem) = some after) :
    clockView after = clockView kernel ∨
      clockView after = clockView (scheduleProcess kernel .semaphoreBlocked) := by
  obtain ⟨semTable, logs, same | same⟩ := semaphore_p_writes call
  · left
    rw [same]
    rfl
  · right
    rw [same]
    rfl

theorem semaphore_v_clock {sem : Option Semaphore} {proc : ProcId}
    (call : sysCall kernel proc (.semaphoreV sem) = some after) :
    clockView after = clockView kernel := by
  obtain ⟨semTable, logs, same | ⟨woken, same⟩⟩ := semaphore_v_writes call
  · rw [same]
    rfl
  · rw [same]
    exact unblock_clock kernel woken .highQueue

/-- After a `P` or a `V` the caller still owes nothing. -/
theorem semaphore_p_times {sem : Option Semaphore} {proc : ProcId} (bounded : TimesBounded kernel)
    (left : 0 ≤ (kernel.procs proc).remaining)
    (call : sysCall kernel proc (.semaphoreP sem) = some after) :
    TimesBounded after ∧ 0 ≤ (after.procs proc).remaining := by
  rcases semaphore_p_clock call with same | slept
  · rw [clock_remaining same]
    exact ⟨bounded_of_clock bounded same, left⟩
  · rw [clock_remaining slept]
    exact ⟨bounded_of_clock (schedule_bounded bounded _) slept, schedule_nonneg left _⟩

theorem semaphore_v_times {sem : Option Semaphore} {proc : ProcId} (bounded : TimesBounded kernel)
    (left : 0 ≤ (kernel.procs proc).remaining)
    (call : sysCall kernel proc (.semaphoreV sem) = some after) :
    TimesBounded after ∧ 0 ≤ (after.procs proc).remaining := by
  have same := semaphore_v_clock call
  rw [clock_remaining same]
  exact ⟨bounded_of_clock bounded same, left⟩

theorem disk_request_bounded (bounded : TimesBounded kernel) {proc : ProcId} {track : Int}
    (left : 0 ≤ (kernel.procs proc).remaining) (onDisk : OnDisk track) (read : Bool) :
    TimesBounded (diskRequest kernel proc track read) := by
  unfold diskRequest
  apply spend_bounded
  · exact bounded_of_clock bounded rfl
  · exact left
  · exact request_time_range bounded.onDisk onDisk

theorem print_request_bounded (bounded : TimesBounded kernel) {proc : ProcId} {duration : Int}
    (left : 0 ≤ (kernel.procs proc).remaining) (cost : 0 ≤ duration ∧ duration < 2 ^ 31) :
    TimesBounded (printRequest kernel proc duration) := by
  unfold printRequest
  refine bounded_of_clock ?_ (unblock_clock _ _ _)
  apply spend_bounded
  · exact bounded_of_clock bounded rfl
  · exact left
  · exact cost

theorem disk_call_bounded (bounded : TimesBounded kernel) {proc : ProcId} {track : Int}
    (left : 0 ≤ (kernel.procs proc).remaining) (onDisk : OnDisk track) (read : Bool) :
    TimesBounded (diskCall kernel proc track read) := by
  have blocked := schedule_bounded bounded .ioRequested
  have requested := disk_request_bounded blocked (schedule_nonneg left .ioRequested) onDisk read
  apply bounded_of_clock requested
  rw [diskCall, fsRequest]
  split <;> exact open_for_clock _ _ _

theorem disk_sums_int32 (bounded : TimesBounded kernel) {proc : ProcId} {track : Int}
    (left : 0 ≤ (kernel.procs proc).remaining) (onDisk : OnDisk track) :
    ∀ value ∈ diskSums kernel proc track, IsInt32 value := by
  have blocked := schedule_bounded bounded .ioRequested
  intro value member
  rcases List.mem_append.mp member with earlier | last
  · rcases List.mem_append.mp earlier with dispatched | turnaround
    · exact dispatch_sums_int32 bounded value dispatched
    · exact turnaround_sums_int32 blocked.onDisk onDisk value turnaround
  · rw [List.mem_singleton.mp last]
    exact spend_int32 blocked (schedule_nonneg left _) (request_time_range blocked.onDisk onDisk)

section Eval

variable {proc : ProcId} {instr : Instr} (bounded : TimesBounded kernel)
  (left : 0 ≤ (kernel.procs proc).remaining) (operand : OperandInRange instr)

include bounded left operand

theorem eval_bounded (evaluated : eval kernel proc instr = some after) : TimesBounded after := by
  rcases instr with ⟨op, value, name⟩
  cases op with
  | exec =>
      obtain rfl := Option.some.inj evaluated
      exact spend_bounded bounded left operand
  | read =>
      obtain rfl := Option.some.inj evaluated
      exact disk_call_bounded bounded left operand true
  | write =>
      obtain rfl := Option.some.inj evaluated
      exact disk_call_bounded bounded left operand false
  | print =>
      obtain rfl := Option.some.inj evaluated
      have blocked := schedule_bounded bounded .ioRequested
      exact print_request_bounded blocked (schedule_nonneg left _) operand
  | semP =>
      obtain ⟨sem, called, -, call, ended⟩ := acquire_inv evaluated
      have returned := (semaphore_p_times bounded left call).1
      rcases ended with rfl | rfl
      · exact charge_bounded returned proc
      · exact returned
  | semV =>
      obtain ⟨sem, called, -, call, rfl⟩ := release_inv evaluated
      exact charge_bounded (semaphore_v_times bounded left call).1 proc

theorem eval_sums_int32 : ∀ value ∈ evalSums kernel proc instr, IsInt32 value := by
  rcases instr with ⟨op, value, name⟩
  intro result member
  cases op with
  | exec =>
      rw [List.mem_singleton.mp member]
      exact spend_int32 bounded left operand
  | read | write => exact disk_sums_int32 bounded left operand result member
  | print =>
      rcases List.mem_append.mp member with dispatched | spent
      · exact dispatch_sums_int32 bounded result dispatched
      · rw [List.mem_singleton.mp spent]
        exact spend_int32 (schedule_bounded bounded _) (schedule_nonneg left _) operand
  | semP =>
      rcases List.mem_append.mp member with slept | charged
      · split at slept
        · exact dispatch_sums_int32 bounded result slept
        · exact nomatch slept
      · cases call : sysCall kernel proc (.semaphoreP (instrSemaphore kernel ⟨.semP, value, name⟩))
          with
        | none => simp [call] at charged
        | some called =>
            obtain ⟨returned, still⟩ := semaphore_p_times bounded left call
            rw [call, Option.elim_some] at charged
            split at charged
            · exact charge_sums_int32 returned proc still result charged
            · exact nomatch charged
  | semV =>
      simp only [evalSums] at member
      cases call : sysCall kernel proc (.semaphoreV (instrSemaphore kernel ⟨.semV, value, name⟩))
        with
      | none => simp [call] at member
      | some called =>
          obtain ⟨returned, still⟩ := semaphore_v_times bounded left call
          rw [call] at member
          exact charge_sums_int32 returned proc still result member

end Eval

/-! ## Kernel steps -/

theorem create_remaining (kernel : Kernel) (program : Program) (fresh : Nat → Page)
    (proc : ProcId) :
    ((processCreate kernel program fresh).procs proc).remaining =
      if proc = kernel.nextProcId then 0 else (kernel.procs proc).remaining := by
  rw [create_procs]
  by_cases same : proc = kernel.nextProcId
  · subst same
    simp [newProcess, Process.setState]
  · simp [same]

theorem create_bounded (bounded : TimesBounded kernel) (program : Program) (fresh : Nat → Page) :
    TimesBounded (processCreate kernel program fresh) := by
  have queues := create_queues kernel program fresh
  have disk : (processCreate kernel program fresh).diskScheduler = kernel.diskScheduler := by
    by_cases high : program.priority = 1 <;>
      simp [processCreate, interruptControl, registerProgram, newProcess, high, Kernel.modifyProc]
  refine
    { highQuantum := ?_
      lowQuantum := ?_
      onDisk := disk ▸ bounded.onDisk
      lower := ?_
      upper := ?_ }
  · rw [queues, Queues.enroll]
    split <;> exact bounded.highQuantum
  · rw [queues, Queues.enroll]
    split <;> exact bounded.lowQuantum
  · intro proc
    rw [create_remaining]
    split
    · decide
    · exact bounded.lower proc
  · intro proc
    rw [create_remaining]
    split
    · decide
    · exact bounded.upper proc

theorem create_ready (ready : ScheduledReady kernel) (program : Program) (fresh : Nat → Page) :
    ScheduledReady (processCreate kernel program fresh) := by
  intro proc running
  rw [create_queues, enroll_scheduled] at running
  rw [create_remaining]
  split
  · exact Int.le_refl 0
  · exact ready proc running

theorem resolve_clock (track : Int) (kernel : Kernel) (walked requests : List DiskRequest) :
    clockView (resolveFrom track kernel walked requests) = clockView kernel := by
  induction requests generalizing kernel walked with
  | nil => rfl
  | cons request rest ih =>
      unfold resolveFrom
      split
      · exact (ih _ _).trans (unblock_clock _ _ _)
      · exact ih _ _

theorem move_arm_on_disk {disk : DiskScheduler} (onDisk : OnDisk disk.currTrack) :
    OnDisk (moveArm diskTrackLimit disk).currTrack := by
  unfold OnDisk diskTrackLimit at *
  unfold moveArm
  split_ifs <;> dsimp only <;> omega

theorem tick_bounded (bounded : TimesBounded kernel) : TimesBounded (diskTick kernel) := by
  have resolved : TimesBounded (rwDiskOpResolve kernel kernel.diskScheduler.currTrack) :=
    bounded_of_clock bounded (resolve_clock _ _ _ _)
  exact
    { highQuantum := resolved.highQuantum
      lowQuantum := resolved.lowQuantum
      onDisk := move_arm_on_disk resolved.onDisk
      lower := resolved.lower
      upper := resolved.upper }

theorem tick_ready (ready : ScheduledReady kernel) : ScheduledReady (diskTick kernel) := by
  have resolved : ScheduledReady (rwDiskOpResolve kernel kernel.diskScheduler.currTrack) :=
    ready_of_clock ready (resolve_clock _ _ _ _)
  exact resolved

theorem close_files_clock (kernel : Kernel) (proc : ProcId) (files : List Int) :
    clockView (closeFiles kernel proc files) = clockView kernel := by
  obtain ⟨fileTable, logs, closed⟩ := close_files_writes kernel proc files
  rw [closed]
  rfl

/-- A finish is a dispatch, as far as the times go. -/
theorem finish_clock {proc : ProcId} (running : kernel.scheduler.scheduledProc = some proc)
    (finished : processFinish kernel proc = some after) :
    clockView after =
      clockView (scheduleProcess { kernel with procTable := kernel.procTable.erase proc }
        .none) := by
  obtain ⟨-, dispatched, closed, segTable, dispatch, closes, -, rfl⟩ :=
    finish_writes running finished
  have closing := close_files_clock dispatched proc (dispatched.procs proc).oFiles
  rw [← dispatch, ← closing, ← closes]
  unfold leaveQueues
  split_ifs <;> rfl

theorem finish_times {proc : ProcId} (bounded : TimesBounded kernel)
    (running : kernel.scheduler.scheduledProc = some proc)
    (finished : processFinish kernel proc = some after) :
    TimesBounded after ∧ ScheduledReady after := by
  have same := finish_clock running finished
  have unlisted : TimesBounded { kernel with procTable := kernel.procTable.erase proc } :=
    bounded_of_clock bounded rfl
  exact ⟨bounded_of_clock (schedule_bounded unlisted .none) same,
    ready_of_clock (schedule_ready _ .none) same⟩

theorem idle_times {logged : Bool} (bounded : TimesBounded kernel)
    (fired : kernelStep kernel (.idleDispatch logged) = some after) :
    TimesBounded after ∧ ScheduledReady after := by
  obtain ⟨-, rfl⟩ := idle_fires fired
  have quiet : TimesBounded (if logged then processNpLog kernel else kernel) := by
    cases logged
    · exact bounded
    · exact bounded_of_clock bounded rfl
  exact ⟨schedule_bounded quiet .none, schedule_ready _ .none⟩

theorem quantum_times (bounded : TimesBounded kernel)
    (fired : kernelStep kernel .quantumCompleted = some after) :
    TimesBounded after ∧ ScheduledReady after := by
  obtain ⟨-, -, rfl⟩ := quantum_fires fired
  exact ⟨schedule_bounded bounded _, schedule_ready _ _⟩

theorem execute_bounded {instr : Instr} (bounded : TimesBounded kernel)
    (ready : ScheduledReady kernel) (operand : OperandInRange instr)
    (fired : kernelStep kernel (.execute instr) = some after) : TimesBounded after := by
  obtain ⟨proc, running, evaluated⟩ := execute_fires fired
  have same := fetched_clock kernel proc
  apply eval_bounded (bounded_of_clock bounded same) _ operand evaluated
  rw [clock_remaining same]
  exact ready proc running

theorem kernel_sums_int32 {event : KernelEvent} (bounded : TimesBounded kernel)
    (evaluates : ∀ instr, event = .execute instr → ScheduledReady kernel ∧ OperandInRange instr) :
    ∀ value ∈ kernelSums kernel event, IsInt32 value := by
  cases event with
  | processCreate | diskTick => exact fun value member => nomatch member
  | idleDispatch | quantumCompleted | processFinish => exact dispatch_sums_int32 bounded
  | execute instr =>
      obtain ⟨ready, operand⟩ := evaluates instr rfl
      rw [kernelSums]
      cases running : kernel.scheduler.scheduledProc with
      | none => exact fun value member => nomatch member
      | some proc =>
          have same := fetched_clock kernel proc
          apply eval_sums_int32 (bounded_of_clock bounded same) _ operand
          rw [clock_remaining same]
          exact ready proc running

/-! ## What is stored -/

/-- What may be stored for a computed value: the value itself or one of its clamps. -/
inductive Clamps (value : Int) : Int → Prop where
  | kept : Clamps value value
  | charged : Clamps value (max 0 value)
  | high : Clamps value (max 1000 (min schedHighQueueQuantum value))
  | low : Clamps value (max 0 (min schedLowQueueQuantum value))

/-- A time left is the one from before or comes from one of the computed values. -/
def StoredFrom (sums : List Int) (before after : Int) : Prop :=
  after = before ∨ ∃ value ∈ sums, Clamps value after

theorem stored_mono {sums more : List Int} {time stored : Int}
    (origin : StoredFrom sums time stored) (listed : sums ⊆ more) :
    StoredFrom more time stored := by
  rcases origin with same | ⟨value, member, clamps⟩
  · exact .inl same
  · exact .inr ⟨value, listed member, clamps⟩

theorem schedule_stored (kernel : Kernel) (flag : SchedulerFlag) (proc : ProcId) :
    StoredFrom (dispatchSums kernel) (kernel.procs proc).remaining
      ((scheduleProcess kernel flag).procs proc).remaining := by
  rw [schedule_remaining]
  by_cases next : Queues.next kernel.scheduler = some proc
  · rw [if_pos next]
    right
    unfold Queues.next at next
    unfold dispatchSums credited
    cases high : kernel.scheduler.highQueue with
    | cons first rest =>
        obtain rfl : first = proc := by simpa [high] using next
        exact ⟨_, List.mem_singleton_self _, .high⟩
    | nil =>
        cases low : kernel.scheduler.lowQueue with
        | cons first rest =>
            obtain rfl : first = proc := by simpa [high, low] using next
            exact ⟨_, List.mem_singleton_self _, .low⟩
        | nil => simp [high, low] at next
  · rw [if_neg next]
    exact .inl rfl

/-- Spending stores the difference for its process and leaves the others alone. -/
theorem spend_stored {sums : List Int} (kernel : Kernel) (proc other : ProcId) {time : Int}
    (spend : Int → Int)
    (listed : ∃ value ∈ sums, Clamps value (spend (kernel.procs proc).remaining))
    (origin : StoredFrom sums time (kernel.procs other).remaining) :
    StoredFrom sums time ((kernel.modifyProc proc fun process =>
      process.setRemaining (spend process.remaining)).procs other).remaining := by
  by_cases same : other = proc
  · subst same
    rw [modify_proc_same]
    exact .inr listed
  · rw [modify_proc_other kernel _ same]
    exact origin

theorem disk_call_stored (kernel : Kernel) (proc other : ProcId) (track : Int) (read : Bool) :
    StoredFrom (diskSums kernel proc track) (kernel.procs other).remaining
      ((diskCall kernel proc track read).procs other).remaining := by
  have opened : clockView (diskCall kernel proc track read) =
      clockView (diskRequest (scheduleProcess kernel .ioRequested) proc track read) := by
    rw [diskCall, fsRequest]
    split <;> exact open_for_clock _ _ _
  rw [clock_remaining opened, diskRequest]
  refine spend_stored (Kernel.setPending (ioDiskLog _ _ _) _) proc other
    (· - requestTime diskTrackLimit (scheduleProcess kernel .ioRequested).diskScheduler track)
    ⟨_, ?_, .kept⟩ ?_
  · exact List.mem_append_right _ (List.mem_singleton_self _)
  · exact stored_mono (schedule_stored kernel .ioRequested other) fun value member =>
      List.mem_append_left _ (List.mem_append_left _ member)

theorem print_stored (kernel : Kernel) (proc other : ProcId) (duration : Int) :
    let blocked := scheduleProcess kernel .ioRequested
    StoredFrom (dispatchSums kernel ++ [(blocked.procs proc).remaining - duration])
      (kernel.procs other).remaining
      ((printRequest blocked proc duration).procs other).remaining := by
  intro blocked
  rw [printRequest, interruptControl, clock_remaining (unblock_clock _ _ _)]
  refine spend_stored (ioPrintLog blocked _ _) proc other (· - duration) ⟨_, ?_, .kept⟩ ?_
  · exact List.mem_append_right _ (List.mem_singleton_self _)
  · exact stored_mono (schedule_stored kernel .ioRequested other)
      (List.subset_append_left _ _)

/-- A `P` that does not put its caller to sleep dispatches nobody. -/
theorem semaphore_p_stored {sem : Semaphore} {proc : ProcId}
    (call : sysCall kernel proc (.semaphoreP (some sem)) = some after) (other : ProcId) :
    StoredFrom (if sem.S - 1 < 0 then dispatchSums kernel else []) (kernel.procs other).remaining
      (after.procs other).remaining := by
  obtain rfl := Option.some.inj call
  by_cases short : sem.S - 1 < 0
  · rw [if_pos short]
    simp only [semaphoreP, short, if_true]
    exact schedule_stored kernel .semaphoreBlocked other
  · simp only [semaphoreP, short, if_false]
    exact .inl rfl

theorem charge_stored {sums : List Int} (kernel : Kernel) (proc other : ProcId) {time : Int}
    (listed : chargeSums kernel proc ⊆ sums)
    (origin : StoredFrom sums time (kernel.procs other).remaining) :
    StoredFrom sums time ((chargeSemaphore kernel proc).procs other).remaining :=
  spend_stored kernel proc other (fun left => max 0 (left - 200))
    ⟨_, listed (List.mem_singleton_self _), .charged⟩ origin

theorem eval_stored {proc : ProcId} {instr : Instr} (evaluated : eval kernel proc instr = some after)
    (other : ProcId) :
    StoredFrom (evalSums kernel proc instr) (kernel.procs other).remaining
      (after.procs other).remaining := by
  rcases instr with ⟨op, value, name⟩
  cases op with
  | exec =>
      obtain rfl := Option.some.inj evaluated
      exact spend_stored kernel proc other (· - value)
        ⟨_, List.mem_singleton_self _, .kept⟩ (.inl rfl)
  | read =>
      obtain rfl := Option.some.inj evaluated
      exact disk_call_stored kernel proc other value true
  | write =>
      obtain rfl := Option.some.inj evaluated
      exact disk_call_stored kernel proc other value false
  | print =>
      obtain rfl := Option.some.inj evaluated
      exact print_stored kernel proc other value
  | semP =>
      obtain ⟨sem, called, found, call, rfl⟩ := acquire_ends evaluated
      have slept := semaphore_p_stored call other
      simp only [evalSums, found, call, Option.elim_some]
      by_cases awake : (called.procs proc).state ≠ .blocked
      · rw [if_pos awake, if_pos awake]
        exact charge_stored called proc other (List.subset_append_right _ _)
          (stored_mono slept (List.subset_append_left _ _))
      · rw [if_neg awake, if_neg awake]
        exact stored_mono slept (List.subset_append_left _ _)
  | semV =>
      obtain ⟨sem, called, found, call, rfl⟩ := release_inv evaluated
      have same := clock_remaining (semaphore_v_clock call) other
      simp only [evalSums, found, call, Option.elim_some]
      exact charge_stored called proc other (List.Subset.refl _) (.inl same)

/-- All that an event stores into a time left is a clamp of a computed value; a new process
starts with none. -/
theorem kernel_stored {event : KernelEvent} (fired : kernelStep kernel event = some after)
    (proc : ProcId) :
    (proc = kernel.nextProcId ∧ (after.procs proc).remaining = 0) ∨
      StoredFrom (kernelSums kernel event) (kernel.procs proc).remaining
        (after.procs proc).remaining := by
  cases event with
  | processCreate program fresh =>
      obtain rfl := Option.some.inj fired
      rw [create_remaining]
      split
      case isTrue new => exact .inl ⟨new, rfl⟩
      case isFalse => exact .inr (.inl rfl)
  | idleDispatch logged =>
      obtain ⟨-, rfl⟩ := idle_fires fired
      right
      cases logged with
      | true => exact schedule_stored (processNpLog kernel) .none proc
      | false => exact schedule_stored kernel .none proc
  | execute instr =>
      obtain ⟨running, scheduled, evaluated⟩ := execute_fires fired
      right
      rw [kernelSums, scheduled, Option.elim_some,
        ← clock_remaining (fetched_clock kernel running)]
      exact eval_stored evaluated proc
  | quantumCompleted =>
      obtain ⟨-, -, rfl⟩ := quantum_fires fired
      exact .inr (schedule_stored kernel .quantumCompleted proc)
  | processFinish =>
      obtain ⟨running, scheduled, finished⟩ := finish_fires fired
      right
      rw [clock_remaining (finish_clock scheduled finished)]
      exact schedule_stored _ .none proc
  | diskTick =>
      obtain rfl := Option.some.inj fired
      exact .inr (.inl (clock_remaining (resolve_clock kernel.diskScheduler.currTrack kernel []
        kernel.diskScheduler.pendingRequests) proc))

end Ribabari.RemainingTime

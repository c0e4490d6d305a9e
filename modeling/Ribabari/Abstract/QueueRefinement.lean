import Ribabari.Abstract.QueueBoard

/-!
# The kernel refines the queue board

Every kernel event is one event of the board on the part of the kernel that the
board keeps. The walk over the pending list, which changes the list it walks, is
the one place that needs an induction.
-/

namespace Ribabari.QueueRefinement

open Ribabari.ProcessRecords Ribabari.SemaphoreTable Ribabari.KernelState
open Ribabari.Dispatch Ribabari.DiskAndFiles Ribabari.KernelEvents
open Ribabari.QueueBoard Ribabari.TransitionSystem

set_option autoImplicit false

def boardOf (kernel : Kernel) : Board where
  procTable := kernel.procTable
  nextProcId := kernel.nextProcId
  queues := kernel.scheduler
  semTable := kernel.semTable
  pending := kernel.diskScheduler.pendingRequests

def Board.withQueues (board : Board) (queues : Scheduler) : Board :=
  { board with queues := queues }

/-! ## Queues -/

theorem schedule_queues (kernel : Kernel) (flag : SchedulerFlag) :
    (scheduleProcess kernel flag).scheduler = Queues.schedule kernel.scheduler flag := by
  rcases queues : kernel.scheduler with ⟨curr, high, low, blocked, highQuantum, lowQuantum⟩
  cases high <;> cases low <;> cases curr <;> cases flag <;>
    simp [scheduleProcess, takeNext, parkCurrent, setScheduled, Queues.schedule,
      Queues.next, Queues.pop, Queues.park, queues]

theorem schedule_board (kernel : Kernel) (flag : SchedulerFlag) :
    boardOf (scheduleProcess kernel flag) =
      Board.withQueues (boardOf kernel) (Queues.schedule kernel.scheduler flag) := by
  have same := schedule_elsewhere kernel flag
  simp only [elsewhere, Prod.mk.injEq] at same
  simp only [boardOf, Board.withQueues, schedule_queues, same]

theorem unblock_queues (kernel : Kernel) (proc : ProcId) (queue : SchedulerQueueFlag) :
    (scheduleUnblockProcess kernel proc queue).scheduler =
      Queues.unblock queue proc kernel.scheduler := by
  unfold scheduleUnblockProcess Queues.unblock
  split
  · cases queue <;> rfl
  · rfl

theorem unblock_board (kernel : Kernel) (proc : ProcId) (queue : SchedulerQueueFlag) :
    boardOf (scheduleUnblockProcess kernel proc queue) =
      Board.withQueues (boardOf kernel) (Queues.unblock queue proc kernel.scheduler) := by
  have same := unblock_elsewhere kernel proc queue
  simp only [elsewhere, Prod.mk.injEq] at same
  simp only [boardOf, Board.withQueues, unblock_queues, same]

/-! ## Steps that leave the board alone -/

@[simp] theorem modify_proc_board (kernel : Kernel) (proc : ProcId) (f : Process → Process) :
    boardOf (kernel.modifyProc proc f) = boardOf kernel := rfl

@[simp] theorem log_board (kernel : Kernel) (f : Logs → Logs) :
    boardOf (kernel.log f) = boardOf kernel := rfl

@[simp] theorem fetched_board (kernel : Kernel) (proc : ProcId) :
    boardOf (fetched kernel proc) = boardOf kernel := rfl

theorem open_for_board (kernel : Kernel) (proc : ProcId) (inumber : Int) :
    boardOf (fsOpenFor kernel proc inumber) = boardOf kernel := by
  obtain ⟨fileTable, logs, same | same⟩ := open_for_writes kernel proc inumber <;>
    rw [same] <;> rfl

theorem fs_request_board (kernel : Kernel) (request : FsOpRequest) :
    boardOf (fsRequest kernel request) = boardOf kernel := by
  unfold fsRequest fsReadRequest fsWriteRequest
  split <;> exact open_for_board _ _ _

theorem close_files_board (kernel : Kernel) (proc : ProcId) (files : List Int) :
    boardOf (closeFiles kernel proc files) = boardOf kernel := by
  obtain ⟨fileTable, logs, closed⟩ := close_files_writes kernel proc files
  rw [closed]
  rfl

/-! ## Disk -/

theorem serve_board (kernel : Kernel) (request : DiskRequest) :
    boardOf (serveRequest kernel request) =
      Board.withQueues (boardOf kernel)
        (Queues.unblock .lowQueue request.process kernel.scheduler) :=
  unblock_board _ _ _

theorem serve_queues (kernel : Kernel) (request : DiskRequest) :
    (serveRequest kernel request).scheduler =
      Queues.unblock .lowQueue request.process kernel.scheduler :=
  congrArg Board.queues (serve_board kernel request)

/-- The walk serves the matching requests in order and leaves the others linked,
behind the nodes it has already passed. -/
theorem resolve_from_board (track : Int) (kernel : Kernel)
    (walked requests : List DiskRequest)
    (linked : kernel.diskScheduler.pendingRequests = walked ++ requests) :
    boardOf (resolveFrom track kernel walked requests) =
      { boardOf kernel with
        queues := (requests.filter fun request => request.track = track).foldl
          (fun queues request => Queues.unblock .lowQueue request.process queues)
          kernel.scheduler
        pending := walked ++ requests.filter fun request => ¬request.track = track } := by
  induction requests generalizing kernel walked with
  | nil =>
      simp only [List.append_nil] at linked
      simp [resolveFrom, boardOf, linked]
  | cons request rest ih =>
      by_cases hit : request.track = track
      · have served := serve_board kernel request
        rw [resolveFrom, if_pos hit, ih _ walked rfl]
        simp only [boardOf, Board.withQueues, Board.mk.injEq] at served
        simp [boardOf, Kernel.setPending, served, hit]
      · rw [resolveFrom, if_neg hit, ih kernel (walked ++ [request]) (by simp [linked])]
        simp [hit]

theorem disk_tick_board (kernel : Kernel) :
    boardOf (diskTick kernel) =
      (boardOf kernel).tick kernel.diskScheduler.currTrack := by
  have resolved := resolve_from_board kernel.diskScheduler.currTrack kernel [] _ rfl
  simp only [boardOf, Board.mk.injEq] at resolved
  simp [diskTick, rwDiskOpResolve, boardOf, Board.tick, move_arm_pending, resolved]

theorem disk_tick_queues (kernel : Kernel) :
    (diskTick kernel).scheduler =
      ((boardOf kernel).tick kernel.diskScheduler.currTrack).queues :=
  congrArg Board.queues (disk_tick_board kernel)

/-! ## Instructions -/

def requestOf (kernel : Kernel) (proc : ProcId) (track : Int) (read : Bool) : DiskRequest where
  process := proc
  track := track
  read := read
  turnaround := requestTime diskTrackLimit kernel.diskScheduler track

theorem disk_call_board (kernel : Kernel) (proc : ProcId) (track : Int) (read : Bool) :
    boardOf (diskCall kernel proc track read) =
      { boardOf kernel with
        queues := Queues.schedule kernel.scheduler .ioRequested
        pending := kernel.diskScheduler.pendingRequests ++
          [requestOf kernel proc track read] } := by
  have scheduled := schedule_board kernel .ioRequested
  have same := schedule_elsewhere kernel .ioRequested
  simp only [elsewhere, Prod.mk.injEq] at same
  simp only [boardOf, Board.withQueues, Board.mk.injEq] at scheduled
  rw [diskCall, fs_request_board]
  simp [diskRequest, boardOf, Kernel.setPending, ioDiskLog, Kernel.log, scheduled, same,
    requestOf]

theorem print_board (kernel : Kernel) (proc : ProcId) (duration : Int) :
    boardOf (printRequest (scheduleProcess kernel .ioRequested) proc duration) =
      Board.withQueues (boardOf kernel) (Queues.unblock .lowQueue proc
        (Queues.schedule kernel.scheduler .ioRequested)) := by
  have scheduled := schedule_board kernel .ioRequested
  simp only [printRequest, interruptControl, unblock_board, modify_proc_board, ioPrintLog,
    log_board, scheduled]
  simp [Board.withQueues, Kernel.log, schedule_queues]

theorem disk_call_queues (kernel : Kernel) (proc : ProcId) (track : Int) (read : Bool) :
    (diskCall kernel proc track read).scheduler = Queues.schedule kernel.scheduler .ioRequested :=
  congrArg Board.queues (disk_call_board kernel proc track read)

theorem print_queues (kernel : Kernel) (proc : ProcId) (duration : Int) :
    (printRequest (scheduleProcess kernel .ioRequested) proc duration).scheduler =
      Queues.unblock .lowQueue proc (Queues.schedule kernel.scheduler .ioRequested) :=
  congrArg Board.queues (print_board kernel proc duration)

theorem semaphore_p_board (kernel : Kernel) (proc : ProcId) (sem : Semaphore) :
    boardOf (Kernel.storeSem (semaphoreP sem proc sleep kernel).2.1
        (semaphoreP sem proc sleep kernel).1) =
      (boardOf kernel).acquire proc sem := by
  have scheduled := schedule_board kernel .semaphoreBlocked
  simp only [boardOf, Board.withQueues, Board.mk.injEq] at scheduled
  by_cases short : sem.S - 1 < 0
  · simp [semaphoreP, short, Board.acquire, boardOf, Kernel.storeSem, sleep, scheduled]
  · simp [semaphoreP, short, Board.acquire, boardOf, Kernel.storeSem]

theorem semaphore_v_board (kernel : Kernel) (sem : Semaphore) :
    ((semaphoreV sem wakeup kernel).map fun result =>
        boardOf (Kernel.storeSem result.2 result.1)) = (boardOf kernel).release sem := by
  unfold semaphoreV Board.release
  by_cases waiting : sem.S + 1 ≤ 0
  · cases waiters : sem.waiters with
    | nil => simp [semaphoreV, waiting, waiters]
    | cons proc rest =>
        have woken := unblock_board kernel proc .highQueue
        simp only [boardOf, Board.withQueues, Board.mk.injEq] at woken
        simp [semaphoreV, waiting, waiters, boardOf, Kernel.storeSem, wakeup, woken]
  · simp [semaphoreV, waiting, boardOf, Kernel.storeSem]

/-- The board event of an instruction, executed by the scheduled process. -/
def instrEvent (kernel : Kernel) (proc : ProcId) (instr : Instr) : BoardEvent :=
  match instr.op with
  | .exec => .run
  | .semP => .acquire (instr.sem.getD [])
  | .semV => .release (instr.sem.getD [])
  | .read => .requestDisk (requestOf kernel proc instr.value true)
  | .write => .requestDisk (requestOf kernel proc instr.value false)
  | .print => .print

theorem eval_board {kernel after : Kernel} {proc : ProcId} {instr : Instr}
    (evaluated : eval kernel proc instr = some after) :
    (boardOf kernel).runProcess proc (instrEvent kernel proc instr) = some (boardOf after) := by
  rcases instr with ⟨op, value, name⟩
  cases op with
  | exec =>
      simp only [eval, Option.some.injEq] at evaluated
      rw [← evaluated]
      rfl
  | read =>
      simp only [eval, sysCall, Option.some.injEq] at evaluated
      rw [← evaluated, disk_call_board]
      exact if_pos rfl
  | write =>
      simp only [eval, sysCall, Option.some.injEq] at evaluated
      rw [← evaluated, disk_call_board]
      exact if_pos rfl
  | print =>
      simp only [eval, sysCall, Option.some.injEq] at evaluated
      rw [← evaluated, print_board]
      rfl
  | semP =>
      obtain ⟨sem, called, found, call, ended⟩ := acquire_inv evaluated
      have charged : boardOf after = boardOf called := by
        rcases ended with rfl | rfl <;> rfl
      obtain ⟨text, rfl, lookup⟩ := Option.bind_eq_some_iff.mp found
      rw [charged, ← Option.some.inj call, resAcqLog, log_board, semaphore_p_board]
      simp only [instrEvent, Option.getD_some, Board.runProcess]
      rw [show (boardOf kernel).semTable = kernel.semTable from rfl, lookup]
      rfl
  | semV =>
      obtain ⟨sem, called, found, call, rfl⟩ := release_inv evaluated
      obtain ⟨text, rfl, lookup⟩ := Option.bind_eq_some_iff.mp found
      simp only [sysCall, Option.bind_eq_bind, Option.bind_eq_some_iff, Option.some.injEq] at call
      obtain ⟨result, released, rfl⟩ := call
      have board := semaphore_v_board kernel sem
      rw [released] at board
      simp only [instrEvent, Option.getD_some, Board.runProcess]
      rw [show (boardOf kernel).semTable = kernel.semTable from rfl, lookup, Option.bind_some,
        ← board]
      rfl

/-! ## Events -/

theorem leave_queues_board (kernel : Kernel) (proc : ProcId) :
    boardOf (leaveQueues kernel proc) =
      Board.withQueues (boardOf kernel) (Queues.leave proc kernel.scheduler) := by
  unfold leaveQueues Queues.leave
  split_ifs <;> rfl

theorem leave_queues_queues (kernel : Kernel) (proc : ProcId) :
    (leaveQueues kernel proc).scheduler = Queues.leave proc kernel.scheduler :=
  congrArg Board.queues (leave_queues_board kernel proc)

theorem finish_board {kernel after : Kernel} {proc : ProcId}
    (running : kernel.scheduler.scheduledProc = some proc)
    (finished : processFinish kernel proc = some after) :
    (boardOf kernel).runProcess proc .finish = some (boardOf after) := by
  obtain ⟨listed, dispatched, closed, segTable, dispatch, rfl, -, rfl⟩ :=
    finish_writes running finished
  have scheduled := schedule_board
    { kernel with procTable := kernel.procTable.erase proc } .none
  have closed := close_files_board dispatched proc (dispatched.procs proc).oFiles
  rw [dispatch, scheduled] at closed
  simp only [boardOf, Board.withQueues, Board.mk.injEq] at closed
  rw [leave_queues_board, dispatch]
  simp [Board.runProcess, boardOf, listed, Board.finish, Board.withQueues, closed]

def boardEvent (kernel : Kernel) : KernelEvent → BoardEvent
  | .processCreate program _ => .create program.semaphores (program.priority = 1)
  | .idleDispatch _ => .idle
  | .execute instr => instrEvent kernel (kernel.scheduler.scheduledProc.getD 0) instr
  | .quantumCompleted => .quantum
  | .processFinish => .finish
  | .diskTick => .tick kernel.diskScheduler.currTrack

theorem create_board (kernel : Kernel) (program : Program)
    (fresh : Nat → SegmentMemory.Page) :
    boardOf (processCreate kernel program fresh) =
      (boardOf kernel).create program.semaphores (program.priority = 1) := by
  by_cases high : program.priority = 1 <;>
    simp [processCreate, interruptControl, registerProgram, newProcess, boardOf, Board.create,
      Queues.enroll, high]

theorem create_queues (kernel : Kernel) (program : Program)
    (fresh : Nat → SegmentMemory.Page) :
    (processCreate kernel program fresh).scheduler =
      Queues.enroll kernel.scheduler kernel.nextProcId (program.priority = 1) :=
  congrArg Board.queues (create_board kernel program fresh)

/-- One kernel event is one board event. -/
theorem kernel_step_board {kernel after : Kernel} {event : KernelEvent}
    (fired : kernelStep kernel event = some after) :
    boardStep (boardOf kernel) (boardEvent kernel event) = some (boardOf after) := by
  cases event with
  | processCreate program fresh =>
      obtain rfl := Option.some.inj fired
      simp only [boardEvent, boardStep, create_board]
  | idleDispatch logged =>
      obtain ⟨idle, rfl⟩ := idle_fires fired
      have quiet : (boardOf kernel).queues.scheduledProc = none := idle
      rw [schedule_board]
      simp only [boardEvent, boardStep, quiet, if_true]
      cases logged <;> rfl
  | execute instr =>
      obtain ⟨proc, running, evaluated⟩ := execute_fires fired
      have step := eval_board evaluated
      rw [fetched_board] at step
      have scheduled : (boardOf kernel).queues.scheduledProc = some proc := running
      simp only [boardEvent, running, Option.getD_some]
      have same : instrEvent kernel proc instr =
          instrEvent (fetched kernel proc) proc instr := rfl
      rw [same]
      rcases instr with ⟨op, value, name⟩
      cases op <;>
        · simp only [instrEvent, boardStep] at step ⊢
          rw [scheduled, Option.bind_some, step]
  | quantumCompleted =>
      obtain ⟨proc, running, rfl⟩ := quantum_fires fired
      have scheduled : (boardOf kernel).queues.scheduledProc = some proc := running
      rw [schedule_board]
      simp only [boardEvent, boardStep, scheduled, Option.bind_some, Board.runProcess]
      rfl
  | processFinish =>
      obtain ⟨proc, running, finished⟩ := finish_fires fired
      have scheduled : (boardOf kernel).queues.scheduledProc = some proc := running
      simp only [boardEvent, boardStep, scheduled, Option.bind_some]
      exact finish_board running finished
  | diskTick =>
      obtain rfl := Option.some.inj fired
      simp only [boardEvent, boardStep, disk_tick_board]

/-- The kernel refines the queue board, without stuttering. -/
def kernelRefinesBoard : Refinement kernelSystem boardSystem where
  view := boardOf
  image kernel event := some (boardEvent kernel event)
  start := rfl
  stutter := by
    intro before event after _ none
    simp at none
  fires := by
    intro before event after abstractEvent fired image
    obtain rfl := Option.some.inj image
    exact kernel_step_board fired

end Ribabari.QueueRefinement

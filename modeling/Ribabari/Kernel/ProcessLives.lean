import Mathlib.Data.List.Induction
import Ribabari.Abstract.LifeCycle
import Ribabari.Kernel.RecordGrowth
import Ribabari.Kernel.StateField

/-!
# Processes live and die

In every run the moves of each process are a path of the life cycle that ends where the
kernel keeps the process: nobody is dispatched who is not ready, woken who is not blocked,
or moved at all once finished. The `state` field is written at the moves and not at the
wake-ups, so it is a function of the path as well.
-/

namespace Ribabari.ProcessLives

open Ribabari.ProcessRecords Ribabari.SemaphoreTable Ribabari.KernelState Ribabari.Dispatch
open Ribabari.DiskAndFiles Ribabari.KernelEvents Ribabari.QueueBoard Ribabari.QueueRefinement
open Ribabari.BoardInvariants Ribabari.RecordFrame Ribabari.RecordGrowth Ribabari.StateField
open Ribabari.Placement Ribabari.LifeCycle Ribabari.TransitionSystem

set_option autoImplicit false

variable {kernel after : Kernel}

/-! ## The moves of a run -/

def kernelMoves (kernel : Kernel) (event : KernelEvent) : List (ProcId × Move) :=
  boardMoves (boardOf kernel) (boardEvent kernel event)

/-- The moves of one process over a run. -/
def pastMoves (past : List (Kernel × KernelEvent)) (proc : ProcId) : List Move :=
  past.flatMap fun entry => movesOf proc (kernelMoves entry.1 entry.2)

theorem past_moves_concat (past : List (Kernel × KernelEvent)) (entry : Kernel × KernelEvent)
    (proc : ProcId) : pastMoves (past ++ [entry]) proc =
      pastMoves past proc ++ movesOf proc (kernelMoves entry.1 entry.2) := by
  rw [pastMoves, List.flatMap_append, List.flatMap_singleton]
  rfl

/-! ## What the moves write -/

/-- What a move writes into the `state` field. A wake-up writes nothing. -/
def stateAfter (state : ProcessState) : Move → ProcessState
  | .create _ => .ready
  | .dispatch => .running
  | .preempt => .ready
  | .block => .blocked
  | .wake _ => state
  | .finish => state

theorem park_move_state (state : ProcessState) (flag : SchedulerFlag) :
    stateAfter state (parkMove flag) = parkedState flag state := by
  cases flag <;> rfl

theorem schedule_state (kernel : Kernel) (flag : SchedulerFlag) (proc : ProcId) :
    ((scheduleProcess kernel flag).procs proc).state =
      (movesOf proc (scheduleMoves kernel.scheduler flag)).foldl stateAfter
        (kernel.procs proc).state := by
  rw [state_schedule, scheduleMoves, moves_of_append, moves_of_option, moves_of_option,
    List.foldl_append]
  by_cases next : Queues.next kernel.scheduler = some proc
  · rw [if_pos next, if_pos next]
    rfl
  · rw [if_neg next, if_neg next]
    by_cases scheduled : kernel.scheduler.scheduledProc = some proc
    · rw [if_pos scheduled, if_pos scheduled]
      exact (park_move_state _ flag).symm
    · rw [if_neg scheduled, if_neg scheduled]
      rfl

/-- Wake-ups leave the field. -/
theorem wakes_state (proc : ProcId) (queue : SchedulerQueueFlag) (woken : List ProcId)
    (state : ProcessState) :
    (movesOf proc (woken.map fun other => (other, .wake queue))).foldl stateAfter state =
      state := by
  induction woken with
  | nil => rfl
  | cons other woken ih =>
      rw [List.map_cons, ← List.singleton_append, moves_of_append, List.foldl_append]
      by_cases own : other = proc
      · simpa [movesOf, own, stateAfter] using ih
      · simpa [movesOf, own] using ih

theorem view_state (same : stateView after = stateView kernel) (proc : ProcId) :
    (after.procs proc).state = (kernel.procs proc).state :=
  congrFun (congrArg Prod.snd same) proc

theorem disk_call_state (kernel : Kernel) (proc : ProcId) (track : Int) (read : Bool)
    (other : ProcId) :
    ((diskCall kernel proc track read).procs other).state =
      ((scheduleProcess kernel .ioRequested).procs other).state := by
  apply view_state
  have requested : stateView (diskRequest (scheduleProcess kernel .ioRequested) proc track read) =
      stateView (scheduleProcess kernel .ioRequested) :=
    modify_proc_view _ _ _ fun process => state_set_remaining process _
  rw [← requested, diskCall, fsRequest]
  split <;> exact open_for_view _ _ _

theorem charged_state (kernel : Kernel) (proc other : ProcId) :
    ((chargeSemaphore kernel proc).procs other).state = (kernel.procs other).state :=
  view_state (modify_proc_view _ _ _ fun process => state_set_remaining process _) other

theorem acquire_state {proc : ProcId} {value : Int} {name : Option CString}
    (evaluated : eval kernel proc ⟨.semP, value, name⟩ = some after) (other : ProcId) :
    (after.procs other).state =
      (movesOf other (boardMoves (boardOf kernel) (.acquire (name.getD [])))).foldl stateAfter
        (kernel.procs other).state := by
  obtain ⟨sem, called, found, call, ended⟩ := acquire_inv evaluated
  obtain ⟨text, rfl, found⟩ := Option.bind_eq_some_iff.mp found
  have table : semaphoreFind (boardOf kernel).semTable text = some sem := found
  have charged : (after.procs other).state = (called.procs other).state := by
    rcases ended with rfl | rfl
    · exact charged_state called proc other
    · rfl
  obtain rfl := Option.some.inj call
  rw [charged, boardMoves, Option.getD_some, table, Option.any_some]
  by_cases short : sem.S - 1 < 0
  · rw [if_pos (decide_eq_true short), semaphoreP, if_pos short]
    exact schedule_state kernel .semaphoreBlocked other
  · rw [if_neg (by simpa using short), semaphoreP, if_neg short]
    rfl

theorem release_state {proc : ProcId} {value : Int} {name : Option CString}
    (evaluated : eval kernel proc ⟨.semV, value, name⟩ = some after) (other : ProcId) :
    (after.procs other).state =
      (movesOf other (boardMoves (boardOf kernel) (.release (name.getD [])))).foldl stateAfter
        (kernel.procs other).state := by
  obtain ⟨sem, called, found, call, rfl⟩ := release_inv evaluated
  obtain ⟨text, rfl, found⟩ := Option.bind_eq_some_iff.mp found
  have table : semaphoreFind (boardOf kernel).semTable text = some sem := found
  have kept : (called.procs other).state = (kernel.procs other).state := by
    obtain ⟨semTable, logs, same | ⟨woken, same⟩⟩ := semaphore_v_writes call
    · rw [same]
    · rw [same]
      exact congrArg (fun procs => (procs other : Process).state) (unblock_procs kernel woken _)
  rw [charged_state, kept, boardMoves, Option.getD_some, table, Option.elim_some]
  by_cases asleep : sem.S + 1 ≤ 0
  · rw [if_pos asleep]
    exact (wakes_state other .highQueue _ _).symm
  · rw [if_neg asleep]
    rfl

theorem print_state (kernel : Kernel) {proc : ProcId}
    (running : kernel.scheduler.scheduledProc = some proc) (duration : Int) (other : ProcId) :
    ((printRequest (scheduleProcess kernel .ioRequested) proc duration).procs other).state =
      (movesOf other (boardMoves (boardOf kernel) .print)).foldl stateAfter
        (kernel.procs other).state := by
  have charged : ((printRequest (scheduleProcess kernel .ioRequested) proc duration).procs
      other).state = ((scheduleProcess kernel .ioRequested).procs other).state := by
    rw [printRequest, interruptControl, unblock_procs]
    exact view_state (modify_proc_view _ _ _ fun process => state_set_remaining process _) other
  have scheduled : (boardOf kernel).queues.scheduledProc = some proc := running
  rw [charged, schedule_state, boardMoves, scheduled, moves_of_append, List.foldl_append]
  exact (wakes_state other .lowQueue [proc] _).symm

theorem eval_state {proc : ProcId} (running : kernel.scheduler.scheduledProc = some proc)
    {instr : Instr} (evaluated : eval kernel proc instr = some after) (other : ProcId) :
    (after.procs other).state =
      (movesOf other (boardMoves (boardOf kernel) (instrEvent kernel proc instr))).foldl stateAfter
        (kernel.procs other).state := by
  rcases instr with ⟨op, value, name⟩
  cases op with
  | exec =>
      obtain rfl := Option.some.inj evaluated
      exact view_state (modify_proc_view _ _ _ fun process => state_set_remaining process _) other
  | read =>
      obtain rfl := Option.some.inj evaluated
      rw [disk_call_state]
      exact schedule_state kernel .ioRequested other
  | write =>
      obtain rfl := Option.some.inj evaluated
      rw [disk_call_state]
      exact schedule_state kernel .ioRequested other
  | print =>
      obtain rfl := Option.some.inj evaluated
      exact print_state kernel running value other
  | semP => exact acquire_state evaluated other
  | semV => exact release_state evaluated other

theorem finish_state {proc : ProcId} (running : kernel.scheduler.scheduledProc = some proc)
    (finished : processFinish kernel proc = some after) (other : ProcId) :
    (after.procs other).state = ((scheduleProcess kernel .none).procs other).state := by
  obtain ⟨-, dispatched, closed, segTable, dispatch, closes, -, left⟩ :=
    finish_writes running finished
  have closing := view_state (close_files_view dispatched proc (dispatched.procs proc).oFiles) other
  have leaves : after.procs = closed.procs := by
    rw [left]
    unfold leaveQueues
    split_ifs <;> rfl
  rw [leaves, closes, closing, dispatch, state_schedule, state_schedule]

/-- An event writes the `state` fields of the processes that it moves. -/
theorem step_state {event : KernelEvent} (fired : kernelStep kernel event = some after)
    (proc : ProcId) :
    (after.procs proc).state =
      (movesOf proc (kernelMoves kernel event)).foldl stateAfter (kernel.procs proc).state := by
  cases event with
  | processCreate program fresh =>
      obtain rfl := Option.some.inj fired
      rw [create_states]
      by_cases own : proc = kernel.nextProcId
      · subst own
        simp [kernelMoves, boardMoves, boardEvent, boardOf, movesOf, stateAfter]
      · have other : ¬kernel.nextProcId = proc := fun same => own same.symm
        simp [kernelMoves, boardMoves, boardEvent, boardOf, movesOf, own, other]
  | idleDispatch logged =>
      obtain ⟨-, rfl⟩ := idle_fires fired
      cases logged with
      | true => exact schedule_state (processNpLog kernel) .none proc
      | false => exact schedule_state kernel .none proc
  | execute instr =>
      obtain ⟨runner, running, evaluated⟩ := execute_fires fired
      have fetching : (fetched kernel runner).scheduler.scheduledProc = some runner := running
      have written := eval_state fetching evaluated proc
      have unchanged : ((fetched kernel runner).procs proc).state = (kernel.procs proc).state :=
        view_state (modify_proc_view kernel runner
          (fun process => { process with pc := process.pc + 1 }) fun _ => rfl) proc
      rw [written, unchanged, kernelMoves, boardEvent, running]
      rfl
  | quantumCompleted =>
      obtain ⟨-, -, rfl⟩ := quantum_fires fired
      exact schedule_state kernel .quantumCompleted proc
  | processFinish =>
      obtain ⟨runner, running, finished⟩ := finish_fires fired
      rw [finish_state running finished]
      exact schedule_state kernel .none proc
  | diskTick =>
      obtain rfl := Option.some.inj fired
      have kept : ((diskTick kernel).procs proc).state = (kernel.procs proc).state :=
        congrArg (fun procs => (procs proc : Process).state) (resolve_procs _ _ _ _)
      have wakes := wakes_state proc .lowQueue ((kernel.diskScheduler.pendingRequests.filter
        fun request => request.track = kernel.diskScheduler.currTrack).map DiskRequest.process)
        (kernel.procs proc).state
      rw [List.map_map] at wakes
      rw [kept]
      exact wakes.symm

/-! ## Every run -/

variable {past : List (Kernel × KernelEvent)}

theorem lives_and_states (trace : Trace kernelSystem past kernel) (proc : ProcId) :
    (0 < proc → run lifeSystem (pastMoves past proc) .unborn =
        some (lifeOf (boardOf kernel) proc)) ∧
      (kernel.procs proc).state =
        (pastMoves past proc).foldl stateAfter (kernelInit.procs proc).state := by
  induction trace with
  | start =>
      constructor
      · intro positive
        have unborn : lifeOf (boardOf kernelInit) proc = .unborn :=
          if_pos (show 1 ≤ proc from positive)
        exact congrArg some unborn.symm
      · rfl
  | next prior fired ih =>
      have accounted := kernel_accounted ⟨_, prior⟩
      rw [past_moves_concat, run_append, List.foldl_append, ← ih.2]
      constructor
      · intro positive
        rw [ih.1 positive]
        exact step_life accounted (kernel_step_board fired)
      · exact step_state fired proc

/-- The first process blocks for the disk, the second one for the semaphore. -/
def samplePast : List (Kernel × KernelEvent) := history kernelSystem sampleEvents kernelInit

theorem sample_trace : Trace kernelSystem samplePast sampleKernel :=
  trace_history sampleEvents .start (show run kernelSystem sampleEvents kernelInit =
    some sampleKernel from rfl)

def isWake : Move → Bool
  | .wake _ => true
  | _ => false

/-- What the field says of a process in this state of its life, after a last move. -/
def shownState (last : Option Move) (life : Life) (before : ProcessState) : ProcessState :=
  match life with
  | .unborn => before
  | .ready _ => if last.any isWake then .blocked else .ready
  | .running => .running
  | .blocked => .blocked
  | .gone => .running

/-- The field along a path. -/
theorem path_state (before : ProcessState) (moves : List Move) {life : Life}
    (path : run lifeSystem moves .unborn = some life) :
    moves.foldl stateAfter before = shownState moves.getLast? life before := by
  induction moves using List.reverseRecOn generalizing life with
  | nil =>
      obtain rfl := Option.some.inj path
      rfl
  | append_singleton moves move ih =>
      rw [run_append] at path
      obtain ⟨middle, led, step⟩ := Option.bind_eq_some_iff.mp path
      rw [run_single] at step
      have known := ih led
      rw [List.foldl_append, List.getLast?_concat]
      change stateAfter (moves.foldl stateAfter before) move = _
      rw [known]
      cases middle <;> cases move <;> cases step <;> rfl

theorem numbered_places (reached : Reachable kernelSystem kernel) {proc : ProcId}
    (placed : proc ∈ Queues.places kernel.scheduler) : 0 < proc :=
  (numbered_from_one reached).2 proc ((kernel_accounted reached).placed.subset placed)

theorem state_of_lives (trace : Trace kernelSystem past kernel) {proc : ProcId} {life : Life}
    (lives : Lives kernel.scheduler proc life) :
    (kernel.procs proc).state =
      shownState (pastMoves past proc).getLast? life (kernelInit.procs proc).state := by
  have reached : Reachable kernelSystem kernel := ⟨past, trace⟩
  have placed := lives_placed lives
  have distinct := (kernel_accounted reached).places_nodup
  obtain ⟨path, state⟩ := lives_and_states trace proc
  have here : lifeOf (boardOf kernel) proc = life := life_in_eq distinct _ lives
  rw [state, path_state _ _ (path (numbered_places reached placed)), here]

theorem scheduled_runs (reached : Reachable kernelSystem kernel) {proc : ProcId}
    (running : kernel.scheduler.scheduledProc = some proc) :
    (kernel.procs proc).state = .running := by
  obtain ⟨past, trace⟩ := reached
  exact state_of_lives trace (.running running)

/-- In every run the `state` field says `RUNNING` of the scheduled process and `BLOCKED` of the
blocked ones. Of a process in a ready queue it says `READY`, unless the last move of the
process was a wake-up: then it still says `BLOCKED`. -/
theorem state_field_of_place (trace : Trace kernelSystem past kernel) (proc : ProcId) :
    (kernel.scheduler.scheduledProc = some proc → (kernel.procs proc).state = .running) ∧
      (proc ∈ kernel.scheduler.blockedQueue → (kernel.procs proc).state = .blocked) ∧
      (proc ∈ kernel.scheduler.highQueue ∨ proc ∈ kernel.scheduler.lowQueue →
        (kernel.procs proc).state =
          if (pastMoves past proc).getLast?.any isWake then .blocked else .ready) := by
  refine ⟨fun running => ?_, fun blocked => ?_, fun ready => ?_⟩
  · exact state_of_lives trace (.running running)
  · exact state_of_lives trace (.blocked blocked)
  · rcases ready with high | low
    · exact state_of_lives trace (.high high)
    · exact state_of_lives trace (.low low)

def printPast : List (Kernel × KernelEvent) := history kernelSystem printEvents kernelInit

/-- After its print the process is ready, and its field says that it is blocked. -/
theorem state_field_of_place_sample :
    pastMoves printPast 1 = [.create .highQueue, .dispatch, .block, .wake .lowQueue] ∧
      (printedKernel.procs 1).state =
        if (pastMoves printPast 1).getLast?.any isWake then .blocked else .ready := by
  have trace : Trace kernelSystem printPast printedKernel :=
    trace_history printEvents .start (show run kernelSystem printEvents kernelInit =
      some printedKernel from rfl)
  exact ⟨by decide, (state_field_of_place trace 1).2.2 (.inr (by decide))⟩

end Ribabari.ProcessLives

import Mathlib.Data.List.Dedup
import Ribabari.Model.KernelEvents

/-!
# The queue board

The abstract machine under the scheduling results: who is listed, who is in which
queue, who waits on which semaphore and which disk requests are pending. Process
records, costs, files, memory and logs are gone. `QueueRefinement` shows that the
kernel moves processes exactly as this board does.
-/

namespace Ribabari.QueueBoard

open Ribabari.ProcessRecords Ribabari.SemaphoreTable Ribabari.KernelState
open Ribabari.Dispatch Ribabari.TransitionSystem

set_option autoImplicit false

namespace Queues

def next (queues : Scheduler) : Option ProcId :=
  queues.highQueue.head?.or queues.lowQueue.head?

def pop (queues : Scheduler) : Scheduler :=
  match queues.highQueue with
  | _ :: rest => { queues with highQueue := rest }
  | [] => { queues with lowQueue := queues.lowQueue.tail }

def park (queues : Scheduler) (curr : Option ProcId) (flag : SchedulerFlag) : Scheduler :=
  match flag with
  | .none => queues
  | .quantumCompleted => { queues with highQueue := queues.highQueue ++ curr.toList }
  | .ioRequested => { queues with blockedQueue := queues.blockedQueue ++ curr.toList }
  | .semaphoreBlocked => { queues with blockedQueue := queues.blockedQueue ++ curr.toList }

def schedule (queues : Scheduler) (flag : SchedulerFlag) : Scheduler :=
  { park (pop queues) queues.scheduledProc flag with scheduledProc := next queues }

def unblock (queue : SchedulerQueueFlag) (proc : ProcId) (queues : Scheduler) : Scheduler :=
  if proc ∈ queues.blockedQueue then
    match queue with
    | .highQueue =>
        { queues with
          blockedQueue := queues.blockedQueue.erase proc
          highQueue := queues.highQueue ++ [proc] }
    | .lowQueue =>
        { queues with
          blockedQueue := queues.blockedQueue.erase proc
          lowQueue := queues.lowQueue ++ [proc] }
  else queues

def enroll (queues : Scheduler) (proc : ProcId) (high : Bool) : Scheduler :=
  if high then { queues with highQueue := queues.highQueue ++ [proc] }
  else { queues with lowQueue := queues.lowQueue ++ [proc] }

/-- The search that ends `process_finish`, which looks into one queue only. -/
def leave (proc : ProcId) (queues : Scheduler) : Scheduler :=
  if proc ∈ queues.highQueue then
    { queues with highQueue := queues.highQueue.erase proc }
  else if proc ∈ queues.lowQueue then
    { queues with lowQueue := queues.lowQueue.erase proc }
  else if proc ∈ queues.blockedQueue then
    { queues with blockedQueue := queues.blockedQueue.erase proc }
  else queues

/-- Every place of every process, with multiplicity. -/
def places (queues : Scheduler) : List ProcId :=
  queues.scheduledProc.toList ++ queues.highQueue ++ queues.lowQueue ++ queues.blockedQueue

end Queues

structure Board where
  procTable : List ProcId
  nextProcId : ProcId
  queues : Scheduler
  semTable : List Semaphore
  pending : List DiskRequest

def emptyBoard : Board where
  procTable := []
  nextProcId := 1
  queues := schedulerInit
  semTable := []
  pending := []

inductive BoardEvent where
  | create (names : List CString) (high : Bool)
  | idle
  | run
  | acquire (name : CString)
  | release (name : CString)
  | requestDisk (request : DiskRequest)
  | print
  | quantum
  | finish
  | tick (track : Int)

def Board.create (board : Board) (names : List CString) (high : Bool) : Board where
  procTable := board.procTable ++ [board.nextProcId]
  nextProcId := board.nextProcId + 1
  queues := Queues.enroll board.queues board.nextProcId high
  semTable := names.foldl semaphoreRegister board.semTable
  pending := board.pending

def Board.acquire (board : Board) (proc : ProcId) (sem : Semaphore) : Board :=
  let result := semaphoreP sem proc (Queues.schedule · .semaphoreBlocked) board.queues
  { board with
    semTable := storeSemaphore board.semTable result.1
    queues := result.2.1 }

def Board.release (board : Board) (sem : Semaphore) : Option Board :=
  (semaphoreV sem (Queues.unblock .highQueue) board.queues).map fun result =>
    { board with
      semTable := storeSemaphore board.semTable result.1
      queues := result.2 }

def Board.finish (board : Board) (proc : ProcId) : Board :=
  { board with
    procTable := board.procTable.erase proc
    queues := Queues.leave proc (Queues.schedule board.queues .none) }

/-- All requests on the track are served in order, each waking its process. -/
def Board.tick (board : Board) (track : Int) : Board :=
  { board with
    queues := (board.pending.filter fun request => request.track = track).foldl
      (fun queues request => Queues.unblock .lowQueue request.process queues) board.queues
    pending := board.pending.filter fun request => ¬request.track = track }

/-- The steps of the scheduled process. -/
def Board.runProcess (board : Board) (proc : ProcId) : BoardEvent → Option Board
  | .run => some board
  | .acquire name => (semaphoreFind board.semTable name).map (board.acquire proc)
  | .release name => (semaphoreFind board.semTable name).bind board.release
  | .requestDisk request =>
      if request.process = proc then some
        { board with
          queues := Queues.schedule board.queues .ioRequested
          pending := board.pending ++ [request] }
      else none
  | .print => some
      { board with
        queues := Queues.unblock .lowQueue proc (Queues.schedule board.queues .ioRequested) }
  | .quantum => some { board with queues := Queues.schedule board.queues .quantumCompleted }
  | .finish => if proc ∈ board.procTable then some (board.finish proc) else none
  | _ => none

def boardStep (board : Board) : BoardEvent → Option Board
  | .create names high => some (board.create names high)
  | .idle =>
      if board.queues.scheduledProc = none then some
        { board with queues := Queues.schedule board.queues .none }
      else none
  | .tick track => some (board.tick track)
  | event => board.queues.scheduledProc.bind fun proc => board.runProcess proc event

section Inversion

variable {board after : Board} {proc : ProcId}

theorem idle_inv (fired : boardStep board .idle = some after) :
    board.queues.scheduledProc = none ∧
      after = { board with queues := Queues.schedule board.queues .none } := by
  obtain ⟨idle, same⟩ := Option.ite_none_right_eq_some.mp fired
  exact ⟨idle, (Option.some.inj same).symm⟩

theorem request_inv {request : DiskRequest}
    (fired : board.runProcess proc (.requestDisk request) = some after) :
    request.process = proc ∧ after =
      { board with
        queues := Queues.schedule board.queues .ioRequested
        pending := board.pending ++ [request] } := by
  obtain ⟨own, same⟩ := Option.ite_none_right_eq_some.mp fired
  exact ⟨own, (Option.some.inj same).symm⟩

theorem finish_inv (fired : board.runProcess proc .finish = some after) :
    proc ∈ board.procTable ∧ after = board.finish proc := by
  obtain ⟨listed, same⟩ := Option.ite_none_right_eq_some.mp fired
  exact ⟨listed, (Option.some.inj same).symm⟩

end Inversion

def boardSystem : System Board BoardEvent where
  start := emptyBoard
  step := boardStep

end Ribabari.QueueBoard

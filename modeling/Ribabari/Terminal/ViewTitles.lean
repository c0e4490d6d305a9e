import Mathlib.Algebra.BigOperators.Ring.Finset
import Ribabari.Disk.ElevatorOrder
import Ribabari.Kernel.SemaphoreAccounts

/-!
# The titles of the views

The disk view reads what the disk thread has copied at the end of its last tick, the
resource view adds up the waiters of all semaphores. The arm is shown where it is; the
number of requests is that of the last tick.
-/

namespace Ribabari.ViewTitles

open Ribabari.ProcessRecords Ribabari.SemaphoreTable
open Ribabari.KernelState Ribabari.DiskAndFiles Ribabari.KernelEvents Ribabari.QueueBoard
open Ribabari.QueueRefinement Ribabari.BoardInvariants Ribabari.Placement
open Ribabari.ProgramLedger Ribabari.SemaphoreAccounts Ribabari.ArmSweep
open Ribabari.RequestTracks Ribabari.ElevatorOrder Ribabari.TransitionSystem

set_option autoImplicit false

/-! ## The resource view -/

def semBlockedCount (kernel : Kernel) : Nat :=
  kernel.semTable.foldl (fun count sem => count + sem.waiters.length) 0

variable {kernel after : Kernel}

theorem sem_blocked_count_sum (kernel : Kernel) :
    semBlockedCount kernel = (kernel.semTable.map fun sem => sem.waiters.length).sum := by
  rw [List.sum_eq_foldl, List.foldl_map]
  rfl

/-- Who is blocked and not counted waits for the disk. -/
theorem sem_blocked_count_blocked (reached : Reachable kernelSystem kernel) :
    semBlockedCount kernel + kernel.diskScheduler.pendingRequests.length =
      kernel.scheduler.blockedQueue.length := by
  have blocked := (kernel_accounted reached).blocked.length_eq
  have parts : (waiting (boardOf kernel)).length =
      (kernel.semTable.map fun sem => sem.waiters.length).sum +
        kernel.diskScheduler.pendingRequests.length := by
    rw [waiting, List.length_append, List.length_flatMap, List.length_map]
    rfl
  rw [sem_blocked_count_sum, ← parts]
  exact blocked.symm

/-- The count is what the semaphores owe. -/
theorem sem_blocked_count_owed (reached : Reachable kernelSystem kernel) :
    (semBlockedCount kernel : Int) = (kernel.semTable.map fun sem => max 0 (-sem.S)).sum := by
  obtain ⟨ledger, recorded⟩ := reachable_with_history Ledger.empty Ledger.record reached
  have accounts := reachable_balanced recorded
  have each : ∀ sem ∈ kernel.semTable, (sem.waiters.length : Int) = max 0 (-sem.S) := by
    intro sem member
    exact (accounts.balanced (FirstMatch.find_key accounts.names member)).queued
  rw [sem_blocked_count_sum, Nat.cast_list_sum, List.map_map]
  exact congrArg List.sum (List.map_congr_left each)

/-! ## The disk view -/

/-- The fields of `disk_general_log` that `disk()` writes at the end of a tick. -/
structure DiskTitle where
  forwardDir : Bool
  currTrack : Int
  pendingRequestsSize : Nat
deriving DecidableEq

def diskTitle (kernel : Kernel) : DiskTitle where
  forwardDir := kernel.diskScheduler.forwardDir
  currTrack := kernel.diskScheduler.currTrack
  pendingRequestsSize := kernel.diskScheduler.pendingRequests.length

/-- Before the first tick nothing has been written. -/
def writeDiskTitle (title : Option DiskTitle) (kernel : Kernel) (event : KernelEvent) :
    Option DiskTitle :=
  match event with
  | .diskTick => some (diskTitle (diskTick kernel))
  | .processCreate _ _ | .idleDispatch _ | .execute _ | .quantumCompleted | .processFinish => title

def titledKernel : System (Kernel × Option DiskTitle) KernelEvent :=
  withHistory kernelSystem none writeDiskTitle

def isTick : KernelEvent → Bool
  | .diskTick => true
  | .processCreate _ _ | .idleDispatch _ | .execute _ | .quantumCompleted | .processFinish => false

def isRequest (kernel : Kernel) (event : KernelEvent) : Bool :=
  match boardEvent kernel event with
  | .requestDisk _ => true
  | _ => false

/-- The requests made since the last tick. -/
def requestsSince (past : List ((Kernel × Option DiskTitle) × KernelEvent)) : Nat :=
  (past.reverse.takeWhile fun entry => !isTick entry.2).countP fun entry =>
    isRequest entry.1.1 entry.2

variable {past : List ((Kernel × Option DiskTitle) × KernelEvent)}
  {state : Kernel × Option DiskTitle}

theorem requests_since_concat (before : Kernel × Option DiskTitle) (event : KernelEvent) :
    requestsSince (past ++ [(before, event)]) =
      if isTick event then 0
      else requestsSince past + if isRequest before.1 event then 1 else 0 := by
  rw [requestsSince, List.reverse_append, List.reverse_singleton, List.singleton_append,
    List.takeWhile_cons]
  cases tick : isTick event with
  | true => rfl
  | false =>
      rw [Bool.not_false, if_pos rfl, List.countP_cons, if_neg Bool.false_ne_true]
      rfl

theorem pending_length {event : KernelEvent} (fired : kernelStep kernel event = some after)
    (other : event ≠ .diskTick) :
    after.diskScheduler.pendingRequests.length = kernel.diskScheduler.pendingRequests.length +
      if isRequest kernel event then 1 else 0 := by
  have pending : after.diskScheduler.pendingRequests =
      pendingAfter kernel.diskScheduler.pendingRequests (boardEvent kernel event) :=
    board_pending_after (kernel_step_board fired)
  rw [pending, isRequest]
  cases image : boardEvent kernel event with
  | tick track => exact absurd (tick_is_disk_tick image) other
  | requestDisk request => exact List.length_append
  | create | idle | run | acquire | release | print | quantum | finish => rfl

/-- The title of the disk view shows the arm, and the requests of the last tick. -/
theorem disk_title_shows (trace : Trace titledKernel past state) {shown : DiskTitle}
    (written : state.2 = some shown) :
    shown.forwardDir = state.1.diskScheduler.forwardDir ∧
      shown.currTrack = state.1.diskScheduler.currTrack ∧
      shown.pendingRequestsSize + requestsSince past =
        state.1.diskScheduler.pendingRequests.length := by
  induction trace generalizing shown with
  | start => exact absurd written.symm (Option.some_ne_none _)
  | @next past before after event prior fired ih =>
      obtain ⟨step, record⟩ := history_step fired
      rw [requests_since_concat]
      rw [record] at written
      by_cases tick : event = .diskTick
      · subst tick
        obtain rfl := Option.some.inj written
        have ticked : diskTick before.1 = after.1 := Option.some.inj step
        rw [ticked]
        exact ⟨rfl, rfl, rfl⟩
      · have quiet : isTick event = false ∧ writeDiskTitle before.2 before.1 event = before.2 := by
          cases event with
          | diskTick => exact absurd rfl tick
          | processCreate | idleDispatch | execute | quantumCompleted | processFinish =>
              exact ⟨rfl, rfl⟩
        rw [quiet.2] at written
        obtain ⟨forward, track, size⟩ := ih written
        have arm := arm_kept step tick
        have direction := congrArg SweepArm.Arm.forward arm
        have position := congrArg SweepArm.Arm.position arm
        refine ⟨forward.trans direction.symm, track.trans position.symm, ?_⟩
        rw [quiet.1, if_neg Bool.false_ne_true, pending_length step tick, ← size, Nat.add_assoc]

/-! ## Over a run -/

def titledEvents : List KernelEvent :=
  [.processCreate { sampleProgram with code := [⟨.read, 3, none⟩] } blankPage,
    .processCreate { sampleProgram with code := [⟨.write, 1, none⟩], segId := 2 } blankPage,
    .idleDispatch true, .execute ⟨.read, 3, none⟩, .diskTick, .execute ⟨.write, 1, none⟩]

def titled : Kernel × Option DiskTitle :=
  (run titledKernel titledEvents titledKernel.start).getD titledKernel.start

end Ribabari.ViewTitles

import Ribabari.Abstract.BoardInvariants
import Ribabari.Abstract.QueueRefinement

/-!
# Placement of processes

The invariants of the queue board, read off the kernel through the refinement:
where each listed process is, and who may still be woken.
-/

namespace Ribabari.Placement

open Ribabari.ProcessRecords Ribabari.SemaphoreTable Ribabari.KernelState
open Ribabari.Dispatch Ribabari.DiskAndFiles Ribabari.KernelEvents
open Ribabari.QueueBoard Ribabari.QueueRefinement Ribabari.BoardInvariants
open Ribabari.TransitionSystem

set_option autoImplicit false

theorem kernel_accounted {kernel : Kernel} (reached : Reachable kernelSystem kernel) :
    Accounted (boardOf kernel) :=
  reachable_accounted (kernelRefinesBoard.reachable reached)

theorem scheduled_numbered {kernel : Kernel} (reached : Reachable kernelSystem kernel)
    {proc : ProcId} (running : kernel.scheduler.scheduledProc = some proc) :
    proc ∈ kernel.procTable ∧ proc < kernel.nextProcId := by
  have accounted := kernel_accounted reached
  have listed : proc ∈ kernel.procTable :=
    accounted.placed.mem_iff.mp (by simp [Queues.places, boardOf, running])
  exact ⟨listed, accounted.numbered proc listed⟩

theorem disk_tick_scheduled (kernel : Kernel) :
    (diskTick kernel).scheduler.scheduledProc = kernel.scheduler.scheduledProc := by
  rw [disk_tick_queues]
  exact (tick_moves _ _).1

/-- On the queues a finish is a dispatch without a flag. -/
theorem finish_scheduler {kernel after : Kernel} {proc : ProcId}
    (accounted : Accounted (boardOf kernel))
    (running : kernel.scheduler.scheduledProc = some proc)
    (finished : processFinish kernel proc = some after) :
    after.scheduler = Queues.schedule kernel.scheduler .none := by
  have board := (finish_inv (finish_board running finished)).2
  exact (congrArg Board.queues board).trans (finish_queues accounted running)

/-- The processes somebody still has to wake, with multiplicity: the waiters of
every semaphore, then the owners of the pending disk requests. -/
def sleepers (kernel : Kernel) : List ProcId :=
  kernel.semTable.flatMap Semaphore.waiters ++
    kernel.diskScheduler.pendingRequests.map DiskRequest.process

/-- Every listed process is in exactly one place, ids are distinct and already
handed out, and no place holds a process that is not listed. -/
theorem every_process_has_one_place {kernel : Kernel}
    (reached : Reachable kernelSystem kernel) :
    kernel.procTable.Nodup ∧
      (∀ proc ∈ kernel.procTable, proc < kernel.nextProcId) ∧
      (∀ proc ∈ kernel.procTable, (Queues.places kernel.scheduler).count proc = 1) ∧
      ∀ proc ∈ Queues.places kernel.scheduler, proc ∈ kernel.procTable := by
  have accounted := kernel_accounted reached
  refine ⟨accounted.distinct, accounted.numbered, ?_, ?_⟩
  · intro proc listed
    have same := accounted.placed.count_eq proc
    have once : kernel.procTable.count proc = 1 :=
      List.count_eq_one_of_mem accounted.distinct listed
    exact same.trans once
  · intro proc placed
    exact accounted.placed.mem_iff.mp placed

/-! ## A sample run -/

/-- One process takes `s`, reads and blocks; another waits for the cpu. -/
def sampleProgram : Program where
  name := ['s', 'i', 'n', 't', '1']
  segId := 1
  priority := 1
  segSize := 4
  semaphores := [['s']]
  code := [⟨.semP, 0, some ['s']⟩, ⟨.read, 45, none⟩, ⟨.semV, 0, some ['s']⟩]

def blankPage : Nat → SegmentMemory.Page := fun _ =>
  { code := fun _ => ⟨.exec, 0, none⟩
    used := false }

def sampleEvents : List KernelEvent :=
  [.processCreate sampleProgram blankPage,
    .processCreate { sampleProgram with segId := 2 } blankPage,
    .idleDispatch true, .execute ⟨.semP, 0, some ['s']⟩, .execute ⟨.read, 45, none⟩,
    .execute ⟨.semP, 0, some ['s']⟩]

def sampleKernel : Kernel := (run kernelSystem sampleEvents kernelInit).getD kernelInit

theorem sample_reachable : Reachable kernelSystem sampleKernel :=
  reachable_run sampleEvents rfl

theorem every_process_has_one_place_sample :
    (Queues.places sampleKernel.scheduler).count 2 = 1 :=
  (every_process_has_one_place sample_reachable).2.2.1 2 (by decide)

/-! ## Wake-ups -/

/-- Along the walk over the pending list, every request that is served finds its
process in the blocked queue. -/
def WakesFound (track : Int) (kernel : Kernel) (walked : List DiskRequest) :
    List DiskRequest → Prop
  | [] => True
  | request :: rest =>
      if request.track = track then
        request.process ∈ kernel.scheduler.blockedQueue ∧
          WakesFound track (Kernel.setPending (serveRequest kernel request) (walked ++ rest))
            walked rest
      else WakesFound track kernel (walked ++ [request]) rest

theorem served_blocked (kernel : Kernel) (request : DiskRequest) (pending : List DiskRequest) :
    (Kernel.setPending (serveRequest kernel request) pending).scheduler.blockedQueue =
      kernel.scheduler.blockedQueue.erase request.process := by
  simp only [Kernel.setPending, serve_queues, unblock_blocked]

/-- Serving one request takes its owner out of the blocked queue and no other
owner, so the owners still ahead of the walk stay blocked. -/
theorem wakes_found (track : Int) (kernel : Kernel) (walked requests : List DiskRequest)
    (others : List ProcId)
    (blocked : kernel.scheduler.blockedQueue.Perm
      ((requests.filter fun request => request.track = track).map DiskRequest.process ++ others)) :
    WakesFound track kernel walked requests := by
  induction requests generalizing kernel walked with
  | nil => trivial
  | cons request rest ih =>
      by_cases hit : request.track = track
      · simp only [hit, decide_true, List.filter_cons_of_pos, List.map_cons,
          List.cons_append] at blocked
        rw [WakesFound, if_pos hit]
        refine ⟨blocked.mem_iff.mpr (by simp), ih _ _ ?_⟩
        rw [served_blocked]
        simpa using blocked.erase request.process
      · simp only [hit, decide_false, Bool.false_eq_true, not_false_eq_true,
          List.filter_cons_of_neg] at blocked
        rw [WakesFound, if_neg hit]
        exact ih kernel _ blocked

/-- The blocked queue is the disjoint union of the waiters lists and the owners of
the pending requests. So the process a `V` wakes and every process a walk over the
pending list wakes is found blocked, and nobody to be woken has finished. -/
theorem blocked_queue_is_sleepers {kernel : Kernel}
    (reached : Reachable kernelSystem kernel) :
    kernel.scheduler.blockedQueue.Perm (sleepers kernel) ∧
      (sleepers kernel).Nodup ∧
      (∀ proc ∈ sleepers kernel, proc ∈ kernel.procTable) ∧
      (∀ sem ∈ kernel.semTable, ∀ woken rest, sem.waiters = woken :: rest →
        woken ∈ kernel.scheduler.blockedQueue) ∧
      ∀ track, WakesFound track kernel [] kernel.diskScheduler.pendingRequests := by
  have accounted := kernel_accounted reached
  have blocked : kernel.scheduler.blockedQueue.Perm (sleepers kernel) := accounted.blocked
  refine ⟨blocked, accounted.waiting_nodup, fun proc => accounted.waiting_listed, ?_, ?_⟩
  · intro sem member woken rest waiters
    apply blocked.mem_iff.mpr
    refine List.mem_append_left _ (List.mem_flatMap.mpr ⟨sem, member, ?_⟩)
    rw [waiters]
    exact List.mem_cons_self
  · intro track
    let pending := kernel.diskScheduler.pendingRequests
    let owners (requests : List DiskRequest) := requests.map DiskRequest.process
    have parts := (List.filter_append_perm
      (fun request : DiskRequest => request.track = track) pending).map DiskRequest.process
    refine wakes_found track kernel [] pending
      (kernel.semTable.flatMap Semaphore.waiters ++
        owners (pending.filter fun request => !decide (request.track = track))) (blocked.trans ?_)
    apply List.perm_iff_count.mpr
    intro proc
    have split := parts.count_eq proc
    simp only [sleepers, owners, pending, List.map_append, List.count_append] at split ⊢
    omega

theorem blocked_queue_is_sleepers_sample :
    sampleKernel.scheduler.blockedQueue.Perm (sleepers sampleKernel) ∧
      sleepers sampleKernel = [2, 1] :=
  ⟨(blocked_queue_is_sleepers sample_reachable).1, by decide⟩

end Ribabari.Placement

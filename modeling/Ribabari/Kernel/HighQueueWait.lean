import Ribabari.Foundation.FifoQueue
import Ribabari.Kernel.StateField

/-!
# Waiting in the high queue

Every event takes the head of the high queue or leaves the queue, and appends behind its
tail. `process_finish` searches the queue, but the process it looks for has just left its
only place. So a process at index n is dispatched by the call of `schedule_process` after
the next n, and until then no call turns to the low queue.
-/

namespace Ribabari.HighQueueWait

open Ribabari.ProcessRecords Ribabari.SemaphoreTable Ribabari.KernelState Ribabari.Dispatch
open Ribabari.DiskAndFiles Ribabari.KernelEvents Ribabari.QueueBoard Ribabari.QueueRefinement
open Ribabari.BoardInvariants Ribabari.Placement Ribabari.StateField
open Ribabari.FifoQueue Ribabari.TransitionSystem

set_option autoImplicit false

/-- The event calls `schedule_process`, which none does more than once. -/
def callsSchedule (kernel : Kernel) : KernelEvent → Bool
  | .processCreate _ _ => false
  | .idleDispatch _ => true
  | .execute instr =>
      match instr.op with
      | .exec | .semV => false
      | .read | .write | .print => true
      | .semP => (instrSemaphore kernel instr).any fun sem => sem.S - 1 < 0
  | .quantumCompleted => true
  | .processFinish => true
  | .diskTick => false

/-- The process that `schedule_process` dispatches, with the queue it takes it from. -/
def dispatchOf (kernel : Kernel) : Option (SchedulerQueueFlag × ProcId) :=
  (takeNext kernel).1.map fun proc =>
    (if kernel.scheduler.highQueue = [] then .lowQueue else .highQueue, proc)

/-- What the calls of `schedule_process` along a run dispatch. -/
def dispatches (steps : List (Kernel × KernelEvent)) : List (Option (SchedulerQueueFlag × ProcId)) :=
  (steps.filter fun step => callsSchedule step.1 step.2).map fun step => dispatchOf step.1

variable {kernel after : Kernel} {event : KernelEvent} {proc : ProcId}

/-! ## What one event does to the queues -/

theorem unblock_high (queue : SchedulerQueueFlag) (proc : ProcId) (queues : Scheduler) :
    ∃ new, (Queues.unblock queue proc queues).highQueue = queues.highQueue ++ new := by
  unfold Queues.unblock
  split
  · cases queue
    · exact ⟨[], by simp⟩
    · exact ⟨[proc], rfl⟩
  · exact ⟨[], by simp⟩

/-- What a call of `schedule_process` does to the high queue and the cpu, or its absence. -/
def Served (calls : Bool) (before after : Scheduler) : Prop :=
  (∃ new, after.highQueue = (if calls then before.highQueue.tail else before.highQueue) ++ new) ∧
    after.scheduledProc = if calls then Queues.next before else before.scheduledProc

theorem served_same (queues : Scheduler) : Served false queues queues :=
  ⟨⟨[], by simp⟩, rfl⟩

theorem served_schedule (queues : Scheduler) (flag : SchedulerFlag) :
    Served true queues (Queues.schedule queues flag) := by
  rcases queues with ⟨curr, high, low, blocked, highQuantum, lowQuantum⟩
  refine ⟨⟨if flag = .quantumCompleted then curr.toList else [], ?_⟩, rfl⟩
  cases high <;> cases flag <;> simp [Queues.schedule, Queues.pop, Queues.park]

theorem served_unblock {calls : Bool} {before queues : Scheduler} (served : Served calls before queues)
    (queue : SchedulerQueueFlag) (proc : ProcId) :
    Served calls before (Queues.unblock queue proc queues) := by
  obtain ⟨⟨new, high⟩, scheduled⟩ := served
  obtain ⟨more, appended⟩ := unblock_high queue proc queues
  refine ⟨⟨new ++ more, by rw [appended, high, List.append_assoc]⟩, ?_⟩
  rw [unblock_scheduled]
  exact scheduled

theorem eval_served {instr : Instr} (evaluated : eval kernel proc instr = some after) :
    Served (callsSchedule kernel (.execute instr)) kernel.scheduler after.scheduler := by
  rcases instr with ⟨op, value, name⟩
  cases op with
  | exec =>
      obtain rfl := Option.some.inj evaluated
      exact served_same _
  | read =>
      obtain rfl := Option.some.inj evaluated
      rw [disk_call_queues]
      exact served_schedule _ _
  | write =>
      obtain rfl := Option.some.inj evaluated
      rw [disk_call_queues]
      exact served_schedule _ _
  | print =>
      obtain rfl := Option.some.inj evaluated
      rw [print_queues]
      exact served_unblock (served_schedule _ _) _ _
  | semP =>
      obtain ⟨sem, called, found, call, ended⟩ := acquire_inv evaluated
      have calls : callsSchedule kernel (.execute ⟨.semP, value, name⟩) =
          decide (sem.S - 1 < 0) := by
        simp only [callsSchedule, found, Option.any_some]
      have written : after.scheduler = (semaphoreP sem proc sleep kernel).2.1.scheduler := by
        obtain rfl := Option.some.inj call
        rcases ended with rfl | rfl <;> rfl
      rw [calls, written]
      by_cases short : sem.S - 1 < 0
      · rw [decide_eq_true short, semaphoreP, if_pos short]
        change Served true kernel.scheduler (scheduleProcess kernel .semaphoreBlocked).scheduler
        rw [schedule_queues]
        exact served_schedule _ _
      · rw [decide_eq_false short, semaphoreP, if_neg short]
        exact served_same _
  | semV =>
      obtain ⟨sem, called, -, call, rfl⟩ := release_inv evaluated
      obtain ⟨semTable, logs, same | ⟨woken, same⟩⟩ := semaphore_v_writes call
      · rw [same]
        exact served_same _
      · rw [same]
        have queues := unblock_queues kernel woken .highQueue
        change Served false kernel.scheduler (scheduleUnblockProcess kernel woken .highQueue).scheduler
        rw [queues]
        exact served_unblock (served_same _) _ _

theorem step_served (reached : Reachable kernelSystem kernel)
    (fired : kernelStep kernel event = some after) :
    Served (callsSchedule kernel event) kernel.scheduler after.scheduler := by
  have accounted := kernel_accounted reached
  cases event with
  | processCreate program fresh =>
      obtain rfl := Option.some.inj fired
      rw [create_queues]
      refine ⟨?_, enroll_scheduled _ _ _⟩
      unfold Queues.enroll
      split
      · exact ⟨[kernel.nextProcId], rfl⟩
      · exact ⟨[], by simp [callsSchedule]⟩
  | idleDispatch logged =>
      obtain ⟨-, rfl⟩ := idle_fires fired
      rw [schedule_queues]
      cases logged <;> exact served_schedule _ _
  | execute instr =>
      obtain ⟨proc, -, evaluated⟩ := execute_fires fired
      -- The fetch writes neither the queues nor the semaphores.
      have served := eval_served evaluated
      exact served
  | quantumCompleted =>
      obtain ⟨proc, -, rfl⟩ := quantum_fires fired
      rw [schedule_queues]
      exact served_schedule _ _
  | processFinish =>
      obtain ⟨proc, running, finished⟩ := finish_fires fired
      rw [finish_scheduler accounted running finished]
      exact served_schedule _ _
  | diskTick =>
      obtain rfl := Option.some.inj fired
      have high : (diskTick kernel).scheduler.highQueue = kernel.scheduler.highQueue := by
        rw [disk_tick_queues]
        exact (tick_queues accounted kernel.diskScheduler.currTrack).2.2
      exact ⟨⟨[], by simpa [callsSchedule] using high⟩, disk_tick_scheduled kernel⟩

/-- The dispatch recorded for a call is the one the call makes, and nothing else gives the
cpu to a process. -/
theorem dispatched_has_cpu (reached : Reachable kernelSystem kernel)
    (fired : kernelStep kernel event = some after) :
    after.scheduler.scheduledProc =
      if callsSchedule kernel event then (dispatchOf kernel).map Prod.snd
      else kernel.scheduler.scheduledProc := by
  rw [(step_served reached fired).2, dispatchOf, take_next_fst, Option.map_map]
  exact congrArg (if callsSchedule kernel event then · else kernel.scheduler.scheduledProc)
    (congrFun Option.map_id _).symm

/-! ## Runs -/

theorem high_queue_fifo :
    Fifo kernelSystem (Reachable kernelSystem) (fun kernel => kernel.scheduler.highQueue)
      callsSchedule where
  kept reached fired := by
    obtain ⟨past, trace⟩ := reached
    exact ⟨_, trace.next fired⟩
  moves reached fired := (step_served reached fired).1

theorem dispatch_of_head (head : kernel.scheduler.highQueue.head? = some proc) :
    dispatchOf kernel = some (.highQueue, proc) := by
  obtain ⟨rest, high⟩ := List.head?_eq_some_iff.mp head
  simp [dispatchOf, takeNext, high]

/-- Where the heads of the high queue are known, so are the dispatches. -/
theorem dispatches_of_heads (kernels : List Kernel) (procs : List ProcId)
    (heads : ((kernels.map fun kernel => kernel.scheduler.highQueue.head?).take procs.length) =
      procs.map some) :
    (kernels.map dispatchOf).take procs.length =
      procs.map fun proc => some (.highQueue, proc) := by
  induction kernels generalizing procs with
  | nil =>
      cases procs with
      | nil => rfl
      | cons proc procs => simp at heads
  | cons kernel kernels ih =>
      cases procs with
      | nil => rfl
      | cons proc procs =>
          simp only [List.map_cons, List.length_cons, List.take_succ_cons, List.cons.injEq] at heads ⊢
          exact ⟨dispatch_of_head heads.1, ih procs heads.2⟩

/-- Of a process in the high queue: in any run with enough dispatches the processes ahead
of it are dispatched in their order, then the process itself, all of them from the high
queue. The dispatches are those that give the cpu away along the run. -/
theorem high_queue_wait (reached : Reachable kernelSystem kernel) {ahead behind : List ProcId}
    (place : kernel.scheduler.highQueue = ahead ++ proc :: behind) {events : List KernelEvent}
    (result : run kernelSystem events kernel = some after)
    (enough : ahead.length + 1 ≤ (dispatches (history kernelSystem events kernel)).length) :
    (dispatches (history kernelSystem events kernel)).take (ahead.length + 1) =
        ((ahead ++ [proc]).map fun other => some (.highQueue, other)) ∧
      ∀ step ∈ history kernelSystem events kernel, ∀ next,
        kernelStep step.1 step.2 = some next →
          next.scheduler.scheduledProc =
            if callsSchedule step.1 step.2 then (dispatchOf step.1).map Prod.snd
            else step.1.scheduler.scheduledProc := by
  constructor
  · let steps := (history kernelSystem events kernel).filter fun step =>
      callsSchedule step.1 step.2
    have length : (ahead ++ [proc]).length = ahead.length + 1 := by simp
    have order := high_queue_fifo.taken_in_order events reached result (n := ahead.length + 1)
      (by simp [place]) (by simpa [takenHeads, dispatches] using enough)
    have first : kernel.scheduler.highQueue.take (ahead.length + 1) = ahead ++ [proc] := by
      rw [place, List.append_cons, List.take_left' length]
    rw [first, takenHeads, ← length] at order
    have dispatched := dispatches_of_heads (steps.map Prod.fst) (ahead ++ [proc])
      (by simpa [steps, List.map_map, Function.comp_def] using order)
    rw [length] at dispatched
    simpa [dispatches, steps, List.map_map, Function.comp_def] using dispatched
  · intro step member next fired
    obtain ⟨past, trace⟩ := reached
    have whole := trace_history events trace result
    exact dispatched_has_cpu (trace_entry whole (List.mem_append_right _ member)).1 fired

/-- Two processes wait in the high queue. -/
def twoReady : Kernel := (run kernelSystem (sampleEvents.take 2) kernelInit).getD kernelInit

theorem high_queue_wait_sample :
    (dispatches (history kernelSystem [.idleDispatch true, .quantumCompleted] twoReady)).take 2 =
      [some (.highQueue, 1), some (.highQueue, 2)] := by
  have place : twoReady.scheduler.highQueue = [1] ++ 2 :: [] := rfl
  have result : run kernelSystem [.idleDispatch true, .quantumCompleted] twoReady = some _ := rfl
  exact (high_queue_wait (reachable_run (sampleEvents.take 2) rfl) place result (by decide)).1

end Ribabari.HighQueueWait

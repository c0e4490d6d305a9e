import Ribabari.Model.KernelEvents

/-!
# What scheduling and instructions leave alone

Queues, costs and states change all the time. The tables and the rest of the
process records do not: an instruction can only open a file, and everything else
that happens to them is a load, a fetch or a finish.
-/

namespace Ribabari.RecordFrame

open Ribabari.ProcessRecords Ribabari.SemaphoreTable Ribabari.KernelState
open Ribabari.Dispatch Ribabari.DiskAndFiles Ribabari.KernelEvents

set_option autoImplicit false

def recordView (kernel : Kernel) :=
  (kernel.procTable, kernel.nextProcId, kernel.segTable, kernel.fileTable,
    fun proc => (kernel.procs proc).image)

variable {kernel after : Kernel}

theorem view_image (same : recordView after = recordView kernel) (proc : ProcId) :
    (after.procs proc).image = (kernel.procs proc).image :=
  congrFun (congrArg (fun view => view.2.2.2.2) same) proc

theorem view_of_frame (tables : elsewhere after = elsewhere kernel)
    (images : ∀ proc, (after.procs proc).image = (kernel.procs proc).image) :
    recordView after = recordView kernel := by
  simp only [elsewhere, Prod.mk.injEq] at tables
  simp only [recordView, tables, images]

theorem set_remaining_records (kernel : Kernel) (proc : ProcId) (remaining : Process → Int) :
    recordView
        (kernel.modifyProc proc fun process => process.setRemaining (remaining process)) =
      recordView kernel := by
  have images := modify_proc_image kernel proc
    (fun process => process.setRemaining (remaining process))
    (fun process => image_set_remaining process _)
  simp only [recordView, modify_proc_table, modify_proc_next_id, modify_proc_segments,
    modify_proc_files, images]

theorem schedule_records (kernel : Kernel) (flag : SchedulerFlag) :
    recordView (scheduleProcess kernel flag) = recordView kernel :=
  view_of_frame (schedule_elsewhere kernel flag) (schedule_image kernel flag)

theorem unblock_records (kernel : Kernel) (proc : ProcId) (queue : SchedulerQueueFlag) :
    recordView (scheduleUnblockProcess kernel proc queue) = recordView kernel :=
  view_of_frame (unblock_elsewhere kernel proc queue) fun _ => by rw [unblock_procs]

theorem print_records (kernel : Kernel) (proc : ProcId) (duration : Int) :
    recordView (printRequest kernel proc duration) = recordView kernel :=
  (unblock_records _ _ _).trans
    (set_remaining_records kernel proc fun process => process.remaining - duration)

theorem disk_request_records (kernel : Kernel) (proc : ProcId) (track : Int) (read : Bool) :
    recordView (diskRequest kernel proc track read) = recordView kernel :=
  set_remaining_records kernel proc fun process =>
    process.remaining - requestTime diskTrackLimit kernel.diskScheduler track

theorem semaphore_p_records {sem : Option Semaphore} {proc : ProcId}
    (call : sysCall kernel proc (.semaphoreP sem) = some after) :
    recordView after = recordView kernel := by
  obtain ⟨semTable, logs, same | same⟩ := semaphore_p_writes call
  · rw [same]
    rfl
  · rw [same]
    exact schedule_records kernel .semaphoreBlocked

theorem semaphore_v_records {sem : Option Semaphore} {proc : ProcId}
    (call : sysCall kernel proc (.semaphoreV sem) = some after) :
    recordView after = recordView kernel := by
  obtain ⟨semTable, logs, same | ⟨woken, same⟩⟩ := semaphore_v_writes call
  · rw [same]
    rfl
  · rw [same]
    exact unblock_records kernel woken .highQueue

theorem disk_call_records (kernel : Kernel) (proc : ProcId) (track : Int) (read : Bool) :
    ∃ requested inumber, recordView requested = recordView kernel ∧
      diskCall kernel proc track read = fsOpenFor requested proc inumber := by
  refine ⟨diskRequest (scheduleProcess kernel .ioRequested) proc track read,
    inodeNumber (diskBlock track),
    (disk_request_records _ _ _ _).trans (schedule_records _ _), ?_⟩
  rw [diskCall, fsRequest]
  split <;> rfl

/-- An instruction leaves the records alone, or opens a file where nothing else
in them has changed. -/
theorem eval_records {proc : ProcId} {instr : Instr}
    (evaluated : eval kernel proc instr = some after) :
    recordView after = recordView kernel ∨
      ∃ requested inumber, recordView requested = recordView kernel ∧
        after = fsOpenFor requested proc inumber := by
  rcases instr with ⟨op, value, name⟩
  cases op with
  | exec =>
      obtain rfl := Option.some.inj evaluated
      exact .inl (set_remaining_records _ _ fun process => process.remaining - value)
  | read =>
      obtain rfl := Option.some.inj evaluated
      exact .inr (disk_call_records kernel proc value true)
  | write =>
      obtain rfl := Option.some.inj evaluated
      exact .inr (disk_call_records kernel proc value false)
  | print =>
      obtain rfl := Option.some.inj evaluated
      exact .inl ((print_records _ _ _).trans (schedule_records _ _))
  | semP =>
      obtain ⟨sem, called, -, call, ended⟩ := acquire_inv evaluated
      have charged : recordView after = recordView called := by
        rcases ended with rfl | rfl
        · exact set_remaining_records _ _ fun process => max 0 (process.remaining - 200)
        · rfl
      exact .inl (charged.trans (semaphore_p_records call))
  | semV =>
      obtain ⟨sem, called, -, call, rfl⟩ := release_inv evaluated
      exact .inl ((set_remaining_records _ _ fun process => max 0 (process.remaining - 200)).trans
        (semaphore_v_records call))

theorem tick_records (kernel : Kernel) : recordView (diskTick kernel) = recordView kernel := by
  have walk : ∀ (track : Int) (kernel : Kernel) (walked requests : List DiskRequest),
      recordView (resolveFrom track kernel walked requests) = recordView kernel := by
    intro track kernel walked requests
    induction requests generalizing kernel walked with
    | nil => rfl
    | cons request rest ih =>
        unfold resolveFrom
        split
        · exact (ih _ _).trans (unblock_records _ _ _)
        · exact ih _ _
  exact walk _ _ _ _

/-- Closing files changes the file table and the logs only. -/
theorem close_files_frame (kernel : Kernel) (proc : ProcId) (files : List Int) :
    (closeFiles kernel proc files).procs = kernel.procs ∧
      (closeFiles kernel proc files).procTable = kernel.procTable ∧
      (closeFiles kernel proc files).nextProcId = kernel.nextProcId ∧
      (closeFiles kernel proc files).segTable = kernel.segTable := by
  obtain ⟨fileTable, logs, closed⟩ := close_files_writes kernel proc files
  rw [closed]
  exact ⟨rfl, rfl, rfl, rfl⟩

/-- The dispatch and the search of the queues leave the records alone. -/
theorem finish_parts {proc : ProcId} (running : kernel.scheduler.scheduledProc = some proc)
    (finished : processFinish kernel proc = some after) :
    ∃ interrupted closed segTable, proc ∈ kernel.procTable ∧
      recordView interrupted =
        recordView { kernel with procTable := kernel.procTable.erase proc } ∧
      closed = closeFiles interrupted proc (interrupted.procs proc).oFiles ∧
      SegmentMemory.segmentFree closed.segTable (closed.procs proc).segId = some segTable ∧
      recordView after = recordView { closed with segTable := segTable } := by
  obtain ⟨listed, dispatched, closed, segTable, dispatch, closes, freed, rfl⟩ :=
    finish_writes running finished
  refine ⟨dispatched, closed, segTable, listed, ?_, closes, freed, ?_⟩
  · rw [dispatch]
    exact schedule_records _ _
  · unfold leaveQueues
    split_ifs <;> rfl

/-- A load lists the next id with the record of its program and adds its segment. -/
theorem create_records (kernel : Kernel) (program : Program)
    (fresh : Nat → SegmentMemory.Page) :
    recordView (processCreate kernel program fresh) =
      (kernel.procTable ++ [kernel.nextProcId], kernel.nextProcId + 1,
        SegmentMemory.memReqLoad
          { proc := newProcess program, code := program.code, counted := rfl } fresh
          kernel.segTable,
        kernel.fileTable,
        fun proc => if proc = kernel.nextProcId then (newProcess program).image
          else (kernel.procs proc).image) := by
  by_cases high : program.priority = 1
  all_goals
    simp only [recordView, processCreate, interruptControl, registerProgram, Kernel.modifyProc,
      Function.update_self, newProcess, high, if_true, if_false, Prod.mk.injEq, true_and]
    funext proc
    by_cases same : proc = kernel.nextProcId <;> simp [same, Process.image, Process.setState]

end Ribabari.RecordFrame

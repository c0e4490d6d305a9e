import Mathlib.Algebra.Order.BigOperators.Group.List
import Ribabari.Disk.ArmSweep
import Ribabari.Disk.RequestTracks
import Ribabari.Kernel.CpuGuarantees

/-!
# What is left to do

One measure for the whole kernel: the cells of a page table that the live processes have
not evaluated, and the processes that have not finished. A load raises it, evaluating and
finishing lower it, and nothing else changes it. What a process evaluates beyond its code
is counted as well, since a fetch does not leave the page table. Beside it stand two facts
about the disk that a run needs to go on: only a tick moves the arm, and requests are where
the arm comes.
-/

namespace Ribabari.WorkLeft

open Ribabari.ProcessRecords Ribabari.SemaphoreTable Ribabari.SegmentMemory
open Ribabari.KernelState Ribabari.Dispatch Ribabari.DiskAndFiles Ribabari.KernelEvents
open Ribabari.ProgramLedger Ribabari.Placement Ribabari.SweepArm Ribabari.ArmSweep
open Ribabari.RequestTracks Ribabari.TransitionSystem

set_option autoImplicit false

/-- The cells ahead of a process, and its finish. -/
def Process.ahead (cells : Nat) (process : Process) : Nat := cells - process.pc + 1

def workLeft (cells : Nat) (kernel : Kernel) : Nat :=
  (kernel.procTable.map fun proc => Process.ahead cells (kernel.procs proc)).sum

/-- No page table has more cells. -/
def CellsWithin (cells : Nat) (kernel : Kernel) : Prop :=
  ∀ seg ∈ kernel.segTable.segList, seg.pageCount * instructionsPerPage ≤ cells

variable {kernel after : Kernel} {cells : Nat}

/-! ## The cells -/

theorem cells_exist (kernel : Kernel) : ∃ cells, CellsWithin cells kernel := by
  refine ⟨(kernel.segTable.segList.map fun seg => seg.pageCount * instructionsPerPage).sum, ?_⟩
  intro seg member
  exact List.le_sum_of_mem (List.mem_map_of_mem member)

/-- A fetch finds a cell. -/
theorem fetch_within (within : CellsWithin cells kernel) {proc : ProcId} {instr : Instr}
    (fetch : fetchInstr kernel.segTable (kernel.procs proc).segId (kernel.procs proc).pc =
      some instr) : (kernel.procs proc).pc < cells := by
  simp only [fetchInstr, Option.bind_eq_bind, Option.bind_eq_some_iff] at fetch
  obtain ⟨seg, found, page, here, -⟩ := fetch
  have inside := (List.getElem?_eq_some_iff.mp here).1
  rw [seg.allocated, pageNumber, Nat.div_lt_iff_lt_mul (by decide)] at inside
  exact Nat.lt_of_lt_of_le inside (within seg (List.mem_of_find?_eq_some found))

theorem mark_within (within : CellsWithin cells kernel) (sid : Int) (pc : Nat) :
    ∀ seg ∈ (markUsed kernel.segTable sid pc).segList,
      seg.pageCount * instructionsPerPage ≤ cells := by
  have counts : (markUsed kernel.segTable sid pc).segList.map Segment.pageCount =
      kernel.segTable.segList.map Segment.pageCount := by
    unfold markUsed
    apply FirstMatch.map_update_first
    intro seg _
    rfl
  intro seg member
  obtain ⟨old, listed, same⟩ := List.mem_map.mp (counts ▸ List.mem_map_of_mem member)
  exact same ▸ within old listed

/-- Only a load brings a page table. -/
theorem step_within {event : KernelEvent} (within : CellsWithin cells kernel)
    (unloaded : ∀ program fresh, event ≠ .processCreate program fresh)
    (fired : kernelStep kernel event = some after) : CellsWithin cells after := by
  unfold CellsWithin
  cases event with
  | processCreate program fresh => exact absurd rfl (unloaded program fresh)
  | execute instr =>
      obtain ⟨proc, -, code⟩ := execute_code fired
      rw [code.segments]
      exact mark_within within _ _
  | processFinish =>
      obtain ⟨proc, running, finished⟩ := finish_fires fired
      obtain ⟨seg, -, freed⟩ := free_inv (finish_code running finished).segments
      rw [freed]
      intro other member
      exact within other (List.mem_of_mem_eraseP member)
  | idleDispatch | quantumCompleted | diskTick =>
      rw [(spared_code fired rfl).segments]
      exact within

/-! ## The measure -/

theorem work_same (code : SameCode kernel after) : workLeft cells after = workLeft cells kernel := by
  unfold workLeft Process.ahead
  simp only [code.listed, code.pc]

theorem fetched_ahead {proc : ProcId} (code : FetchedCode kernel proc after) (other : ProcId) :
    Process.ahead cells (after.procs other) ≤ Process.ahead cells (kernel.procs other) := by
  unfold Process.ahead
  rw [code.pc]
  split <;> omega

theorem work_fetched {proc : ProcId} (code : FetchedCode kernel proc after) :
    workLeft cells after ≤ workLeft cells kernel := by
  unfold workLeft
  rw [code.listed]
  exact List.sum_le_sum fun other _ => fetched_ahead code other

/-- An evaluation takes one cell off the work. -/
theorem work_evaluated {proc : ProcId} (code : FetchedCode kernel proc after)
    (listed : proc ∈ kernel.procTable) (below : (kernel.procs proc).pc < cells) :
    workLeft cells after < workLeft cells kernel := by
  unfold workLeft
  rw [code.listed]
  apply List.sum_lt_sum _ _ fun other _ => fetched_ahead code other
  refine ⟨proc, listed, ?_⟩
  unfold Process.ahead
  rw [code.pc, if_pos rfl]
  omega

theorem work_finished {proc : ProcId} (code : FreedCode kernel proc after) :
    workLeft cells after < workLeft cells kernel := by
  have split := ((List.perm_cons_erase code.member).map fun proc =>
    Process.ahead cells (kernel.procs proc)).sum_eq
  have kept : workLeft cells after =
      ((kernel.procTable.erase proc).map fun proc =>
        Process.ahead cells (kernel.procs proc)).sum := by
    unfold workLeft Process.ahead
    simp only [code.listed, code.pc]
  have positive : 0 < Process.ahead cells (kernel.procs proc) := Nat.succ_pos _
  rw [kept, workLeft, split, List.map_cons, List.sum_cons]
  exact Nat.lt_add_of_pos_left positive

/-- Nothing is left when, and only when, nobody is alive. -/
theorem work_eq_zero_iff (cells : Nat) (kernel : Kernel) :
    workLeft cells kernel = 0 ↔ kernel.procTable = [] := by
  unfold workLeft
  cases kernel.procTable with
  | nil => simp
  | cons proc rest => simp [Process.ahead]

/-- Only a load adds work. -/
theorem step_work {event : KernelEvent}
    (unloaded : ∀ program fresh, event ≠ .processCreate program fresh)
    (fired : kernelStep kernel event = some after) :
    workLeft cells after ≤ workLeft cells kernel := by
  cases event with
  | processCreate program fresh => exact absurd rfl (unloaded program fresh)
  | execute instr =>
      obtain ⟨proc, -, code⟩ := execute_code fired
      exact work_fetched code
  | processFinish =>
      obtain ⟨proc, running, finished⟩ := finish_fires fired
      exact Nat.le_of_lt (work_finished (finish_code running finished))
  | idleDispatch | quantumCompleted | diskTick => exact (work_same (spared_code fired rfl)).le

/-! ## The arm -/

theorem arm_of_elsewhere (same : elsewhere after = elsewhere kernel) :
    armOf after.diskScheduler = armOf kernel.diskScheduler := by
  simp only [elsewhere, Prod.mk.injEq] at same
  rw [same.2.2.2.1]

theorem schedule_arm (kernel : Kernel) (flag : SchedulerFlag) :
    armOf (scheduleProcess kernel flag).diskScheduler = armOf kernel.diskScheduler :=
  arm_of_elsewhere (schedule_elsewhere kernel flag)

theorem unblock_arm (kernel : Kernel) (proc : ProcId) (queue : SchedulerQueueFlag) :
    armOf (scheduleUnblockProcess kernel proc queue).diskScheduler =
      armOf kernel.diskScheduler :=
  arm_of_elsewhere (unblock_elsewhere kernel proc queue)

theorem fs_request_disk (kernel : Kernel) (request : FsOpRequest) :
    (fsRequest kernel request).diskScheduler = kernel.diskScheduler := by
  have opened : ∀ inumber,
      (fsOpenFor kernel request.proc inumber).diskScheduler = kernel.diskScheduler := by
    intro inumber
    obtain ⟨fileTable, logs, writes | writes⟩ := open_for_writes kernel request.proc inumber
    · rw [writes]
    · rw [writes, modify_proc_disk]
  unfold fsRequest fsReadRequest fsWriteRequest
  split
  · exact opened _
  · exact opened _

theorem disk_call_arm (kernel : Kernel) (proc : ProcId) (track : Int) (read : Bool) :
    armOf (diskCall kernel proc track read).diskScheduler = armOf kernel.diskScheduler :=
  (congrArg armOf (fs_request_disk _ _)).trans (schedule_arm kernel .ioRequested)

theorem eval_arm {proc : ProcId} {instr : Instr} (evaluated : eval kernel proc instr = some after) :
    armOf after.diskScheduler = armOf kernel.diskScheduler := by
  rcases instr with ⟨op, value, name⟩
  cases op with
  | exec =>
      rw [← Option.some.inj evaluated]
      rfl
  | read | write =>
      rw [← Option.some.inj evaluated]
      exact disk_call_arm _ _ _ _
  | print =>
      rw [← Option.some.inj evaluated]
      exact (unblock_arm _ proc .lowQueue).trans (schedule_arm kernel .ioRequested)
  | semP =>
      obtain ⟨sem, called, -, call, ended⟩ := acquire_inv evaluated
      have kept : armOf called.diskScheduler = armOf kernel.diskScheduler := by
        obtain ⟨semTable, logs, rfl | rfl⟩ := semaphore_p_writes call
        · rfl
        · exact schedule_arm kernel .semaphoreBlocked
      rcases ended with rfl | rfl
      · exact kept
      · exact kept
  | semV =>
      obtain ⟨sem, called, -, call, rfl⟩ := release_inv evaluated
      obtain ⟨semTable, logs, rfl | ⟨woken, rfl⟩⟩ := semaphore_v_writes call
      · rfl
      · exact unblock_arm kernel woken .highQueue

theorem finish_arm {proc : ProcId} (running : kernel.scheduler.scheduledProc = some proc)
    (finished : processFinish kernel proc = some after) :
    armOf after.diskScheduler = armOf kernel.diskScheduler := by
  obtain ⟨-, dispatched, closed, segTable, dispatch, closes, -, rfl⟩ :=
    finish_writes running finished
  have left : ∀ before : Kernel,
      (leaveQueues before proc).diskScheduler = before.diskScheduler := by
    intro before
    unfold leaveQueues
    split_ifs <;> rfl
  obtain ⟨fileTable, logs, writes⟩ :=
    close_files_writes dispatched proc (dispatched.procs proc).oFiles
  rw [left, closes, writes, dispatch]
  exact schedule_arm { kernel with procTable := kernel.procTable.erase proc } .none

def armAfter (arm : Arm) : KernelEvent → Arm
  | .diskTick => arm.step diskTrackLimit
  | _ => arm

/-- Only a tick moves the arm, by one step. -/
theorem step_arm {event : KernelEvent} (fired : kernelStep kernel event = some after) :
    armOf after.diskScheduler = armAfter (armOf kernel.diskScheduler) event := by
  cases event with
  | diskTick =>
      rw [← Option.some.inj fired, disk_tick_is_pass]
      exact (pass_completes diskTrackLimit kernel).2.2
  | processCreate program fresh =>
      rw [← Option.some.inj fired]
      by_cases high : program.priority = 1
      · simp [processCreate, interruptControl, registerProgram, newProcess, high,
          Kernel.modifyProc, armAfter]
      · simp [processCreate, interruptControl, registerProgram, newProcess, high,
          Kernel.modifyProc, armAfter]
  | idleDispatch logged =>
      obtain ⟨-, rfl⟩ := idle_fires fired
      refine (schedule_arm _ .none).trans ?_
      cases logged <;> rfl
  | quantumCompleted =>
      obtain ⟨-, -, rfl⟩ := quantum_fires fired
      exact schedule_arm kernel .quantumCompleted
  | execute instr =>
      obtain ⟨proc, -, evaluated⟩ := execute_fires fired
      have kept := eval_arm evaluated
      exact kept
  | processFinish =>
      obtain ⟨proc, running, finished⟩ := finish_fires fired
      exact finish_arm running finished

theorem reachable_arm (reached : Reachable kernelSystem kernel) :
    (armOf kernel.diskScheduler).InRange diskTrackLimit := by
  apply reachable_invariant
    (fun kernel => (armOf kernel.diskScheduler).InRange diskTrackLimit) reached
  · exact ⟨by decide, by decide⟩
  · intro before event after _ inRange fired
    rw [step_arm fired]
    cases event with
    | diskTick => exact step_in_range inRange
    | processCreate | idleDispatch | execute | quantumCompleted | processFinish => exact inRange

/-! ## Requests on the disk -/

/-- Every `read` and `write` names a track that the arm visits. -/
def TracksOnDisk (code : List Instr) : Prop :=
  ∀ instr ∈ code, ∀ track ∈ diskOperand instr, OnDisk track

instance : DecidablePred TracksOnDisk := fun code =>
  inferInstanceAs (Decidable (∀ instr ∈ code, ∀ track ∈ diskOperand instr, OnDisk track))

def PendingOnDisk (kernel : Kernel) : Prop :=
  ∀ request ∈ kernel.diskScheduler.pendingRequests, OnDisk request.track

theorem step_pending_on_disk {ledger : Ledger} {event : KernelEvent}
    (onDisk : PendingOnDisk kernel) (loaded : ∀ proc, TracksOnDisk (ledger.loaded proc))
    (inRange : FetchInRange (kernel, ledger) event)
    (fired : kernelStep kernel event = some after) : PendingOnDisk after := by
  intro request member
  rcases step_pending fired member with old | asked
  · exact onDisk request old
  · cases event with
    | execute instr =>
        obtain ⟨proc, running, -⟩ := execute_fires fired
        exact loaded proc instr (List.mem_of_getElem? (inRange proc running)) request.track asked
    | processCreate | idleDispatch | quantumCompleted | processFinish | diskTick =>
        exact nomatch asked

theorem pending_on_disk {past : List ((Kernel × Ledger) × KernelEvent)} {state : Kernel × Ledger}
    (trace : Trace recordedSystem past state)
    (loads : ∀ entry ∈ past, Loads TracksOnDisk entry.2)
    (inRange : ∀ entry ∈ past, FetchInRange entry.1 entry.2) : PendingOnDisk state.1 := by
  have both := trace_invariant
    (fun state event => Loads TracksOnDisk event ∧ FetchInRange state event)
    (fun state => (∀ proc, TracksOnDisk (state.2.loaded proc)) ∧ PendingOnDisk state.1)
    trace (fun entry member => ⟨loads entry member, inRange entry member⟩)
    ⟨fun _ _ member => absurd member List.not_mem_nil,
      fun _ member => absurd member List.not_mem_nil⟩ ?_
  · exact both.2
  · intro before event after _ holds allowed fired
    obtain ⟨step, record⟩ := history_step fired
    rw [record]
    exact ⟨record_loaded_ok TracksOnDisk holds.1 allowed.1,
      step_pending_on_disk holds.2 holds.1 allowed.2 step⟩

end Ribabari.WorkLeft

import Ribabari.Kernel.FinishFrame

/-!
# Names and open files of a record

From its load to the end of the run a record keeps its name and its semaphores, and no file
it has opened is taken off its list. Numbers are given from one on and never go back.
-/

namespace Ribabari.RecordGrowth

open Ribabari.ProcessRecords Ribabari.KernelState Ribabari.DiskAndFiles Ribabari.KernelEvents
open Ribabari.QueueBoard Ribabari.QueueRefinement Ribabari.BoardInvariants
open Ribabari.RecordFrame Ribabari.FinishFrame Ribabari.ProgramLedger Ribabari.Placement
open Ribabari.TransitionSystem

set_option autoImplicit false

variable {kernel after : Kernel}

theorem open_for_kept (kernel : Kernel) (proc : ProcId) (inumber : Int) (other : ProcId) :
    ((fsOpenFor kernel proc inumber).procs other).name = (kernel.procs other).name ∧
      ((fsOpenFor kernel proc inumber).procs other).semaphores =
        (kernel.procs other).semaphores := by
  obtain ⟨fileTable, logs, same | same⟩ := open_for_writes kernel proc inumber
  · rw [same]
    exact ⟨rfl, rfl⟩
  · rw [same]
    by_cases own : other = proc
    · subst own
      rw [modify_proc_same]
      exact ⟨rfl, rfl⟩
    · rw [modify_proc_other _ _ own]
      exact ⟨rfl, rfl⟩

theorem open_for_keeps (kernel : Kernel) (proc : ProcId) (inumber : Int) (other : ProcId) :
    (kernel.procs other).oFiles ⊆ ((fsOpenFor kernel proc inumber).procs other).oFiles := by
  obtain ⟨fileTable, logs, same | same⟩ := open_for_writes kernel proc inumber
  · rw [same]
    exact List.Subset.refl _
  · rw [same]
    by_cases own : other = proc
    · subst own
      rw [modify_proc_same]
      exact List.subset_append_left _ _
    · rw [modify_proc_other _ _ own]
      exact List.Subset.refl _

theorem open_for_has (kernel : Kernel) (proc : ProcId) (inumber : Int) :
    inumber ∈ ((fsOpenFor kernel proc inumber).procs proc).oFiles := by
  have listed : inumber ∈ (kernel.procs proc).oFiles ++ [inumber] :=
    List.mem_append_right _ (List.mem_singleton.mpr rfl)
  unfold fsOpenFor
  cases findInode kernel.fileTable inumber <;>
    · dsimp only
      split
      case isTrue opened => exact List.contains_iff_mem.mp opened
      case isFalse =>
          rw [modify_proc_same]
          exact listed

/-- A record keeps its name, its semaphores and its open files until its process leaves. -/
structure Keeps (before after : Process) : Prop where
  name : after.name = before.name
  semaphores : after.semaphores = before.semaphores
  oFiles : before.oFiles ⊆ after.oFiles

theorem keeps_of_image {before after : Process} (same : after.image = before.image) :
    Keeps before after where
  name := (image_fields same).1
  semaphores := image_semaphores same
  oFiles := (image_fields same).2.2.2.2 ▸ List.Subset.refl _

theorem keeps_of_records (same : recordView after = recordView kernel) (proc : ProcId) :
    Keeps (kernel.procs proc) (after.procs proc) :=
  keeps_of_image (view_image same proc)

theorem fetched_keeps (kernel : Kernel) (proc other : ProcId) :
    ((fetched kernel proc).procs other).name = (kernel.procs other).name ∧
      ((fetched kernel proc).procs other).semaphores = (kernel.procs other).semaphores ∧
      ((fetched kernel proc).procs other).oFiles = (kernel.procs other).oFiles := by
  change ((kernel.modifyProc proc fun process =>
    { process with pc := process.pc + 1 }).procs other).name = _ ∧
      ((kernel.modifyProc proc fun process =>
        { process with pc := process.pc + 1 }).procs other).semaphores = _ ∧
      ((kernel.modifyProc proc fun process =>
        { process with pc := process.pc + 1 }).procs other).oFiles = _
  by_cases own : other = proc
  · subst own
    rw [modify_proc_same]
    exact ⟨rfl, rfl, rfl⟩
  · rw [modify_proc_other _ _ own]
    exact ⟨rfl, rfl, rfl⟩

theorem eval_keeps {proc : ProcId} {instr : Instr}
    (evaluated : eval kernel proc instr = some after) (other : ProcId) :
    Keeps (kernel.procs other) (after.procs other) := by
  rcases eval_records evaluated with same | ⟨requested, inumber, same, rfl⟩
  · exact keeps_of_records same other
  · have kept := keeps_of_records same other
    exact
      { name := (open_for_kept requested proc inumber other).1.trans kept.name
        semaphores := (open_for_kept requested proc inumber other).2.trans kept.semaphores
        oFiles := List.Subset.trans kept.oFiles (open_for_keeps requested proc inumber other) }

theorem step_keeps {event : KernelEvent} (fired : kernelStep kernel event = some after)
    {proc : ProcId} (used : proc < kernel.nextProcId) :
    Keeps (kernel.procs proc) (after.procs proc) := by
  cases event with
  | processCreate program fresh =>
      obtain rfl := Option.some.inj fired
      rw [create_procs, Function.update_of_ne (Nat.ne_of_lt used)]
      exact ⟨rfl, rfl, List.Subset.refl _⟩
  | idleDispatch logged =>
      obtain ⟨-, rfl⟩ := idle_fires fired
      apply keeps_of_records
      refine (schedule_records _ .none).trans ?_
      cases logged <;> rfl
  | execute instr =>
      obtain ⟨running, -, evaluated⟩ := execute_fires fired
      have kept := eval_keeps evaluated proc
      obtain ⟨name, semaphores, files⟩ := fetched_keeps kernel running proc
      exact
        { name := kept.name.trans name
          semaphores := kept.semaphores.trans semaphores
          oFiles := files ▸ kept.oFiles }
  | quantumCompleted =>
      obtain ⟨-, -, rfl⟩ := quantum_fires fired
      exact keeps_of_records (schedule_records kernel .quantumCompleted) proc
  | processFinish =>
      obtain ⟨running, scheduled, finished⟩ := finish_fires fired
      exact keeps_of_image (finish_images scheduled finished proc)
  | diskTick =>
      obtain rfl := Option.some.inj fired
      exact keeps_of_records (tick_records kernel) proc

theorem next_kept {event : KernelEvent} (fired : kernelStep kernel event = some after)
    (unloaded : ∀ program fresh, event ≠ .processCreate program fresh) :
    after.nextProcId = kernel.nextProcId := by
  cases event with
  | processCreate program fresh => exact absurd rfl (unloaded program fresh)
  | execute instr =>
      obtain ⟨proc, -, code⟩ := execute_code fired
      exact code.next
  | processFinish =>
      obtain ⟨proc, running, finished⟩ := finish_fires fired
      exact (finish_code running finished).next
  | idleDispatch | quantumCompleted | diskTick => exact (spared_code fired rfl).next

theorem next_le {event : KernelEvent} (fired : kernelStep kernel event = some after) :
    kernel.nextProcId ≤ after.nextProcId := by
  cases event with
  | processCreate program fresh =>
      have code := create_code kernel program fresh
      rw [Option.some.inj fired] at code
      rw [code.next]
      exact Nat.le_succ _
  | idleDispatch | execute | quantumCompleted | processFinish | diskTick =>
      apply Nat.le_of_eq
      refine (next_kept fired ?_).symm
      intro program fresh same
      cases same

theorem pending_listed (reached : Reachable kernelSystem kernel) {request : DiskRequest}
    (member : request ∈ kernel.diskScheduler.pendingRequests) :
    request.process ∈ kernel.procTable ∧ request.process < kernel.nextProcId := by
  have accounted := kernel_accounted reached
  have waits : request.process ∈ waiting (boardOf kernel) :=
    List.mem_append_right _ (List.mem_map_of_mem member)
  have listed := accounted.waiting_listed waits
  exact ⟨listed, accounted.numbered _ listed⟩

/-- Numbers are given from one on. -/
theorem numbered_from_one (reached : Reachable kernelSystem kernel) :
    0 < kernel.nextProcId ∧ ∀ proc ∈ kernel.procTable, 0 < proc := by
  apply reachable_invariant
    (fun kernel => 0 < kernel.nextProcId ∧ ∀ proc ∈ kernel.procTable, 0 < proc) reached
  · exact ⟨Nat.one_pos, fun proc member => absurd member List.not_mem_nil⟩
  · intro before event after _ numbered fired
    change kernelStep before event = some after at fired
    cases event with
    | processCreate program fresh =>
        have code := create_code before program fresh
        rw [Option.some.inj fired] at code
        rw [code.next, code.listed]
        refine ⟨Nat.succ_pos _, fun proc member => ?_⟩
        rcases List.mem_append.mp member with old | new
        · exact numbered.2 proc old
        · rw [List.mem_singleton.mp new]
          exact numbered.1
    | execute instr =>
        obtain ⟨proc, -, code⟩ := execute_code fired
        rw [code.next, code.listed]
        exact numbered
    | processFinish =>
        obtain ⟨proc, running, finished⟩ := finish_fires fired
        have code := finish_code running finished
        rw [code.next, code.listed]
        exact ⟨numbered.1, fun other member => numbered.2 other (List.mem_of_mem_erase member)⟩
    | idleDispatch | quantumCompleted | diskTick =>
        have code := spared_code fired rfl
        rw [code.next, code.listed]
        exact numbered

end Ribabari.RecordGrowth

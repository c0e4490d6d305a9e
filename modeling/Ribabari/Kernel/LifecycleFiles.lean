import Ribabari.Kernel.LifecyclePlaces
import Ribabari.Kernel.OpenFiles

/-!
# Open files between the steps of a finish

A finishing process gives its files back one by one, while the disk thread and the loader
go on. Until it has given a file back it counts as one that has the file open, though it is
in no table any more.
-/

namespace Ribabari.LifecycleFiles

open Ribabari.ProcessRecords Ribabari.SegmentMemory Ribabari.KernelState
open Ribabari.DiskAndFiles Ribabari.KernelEvents Ribabari.Dispatch Ribabari.QueueBoard
open Ribabari.ReferenceCount Ribabari.RecordFrame Ribabari.OpenFiles Ribabari.Placement
open Ribabari.LifecycleThreads Ribabari.SegmentOwners Ribabari.LifecyclePlaces
open Ribabari.TransitionSystem

set_option autoImplicit false

/-- The files that the finish has still to close. -/
def toClose (kernel : Kernel) : CpuWork → List Int
  | .interrupting proc => (kernel.procs proc).oFiles
  | .closing _ files => files
  | .running | .leaving _ => []

def holders (state : Lifecycle) (inumber : Int) : Nat :=
  openers state.kernel inumber + (toClose state.kernel state.cpu).count inumber

/-- The processes that the loader still has in hand. -/
def inHand (state : Lifecycle) : List ProcId :=
  state.loaded ++ state.parsed.map Creation.proc

structure FilesHeld (state : Lifecycle) : Prop where
  table : Counted Inode.id Inode.oCount state.kernel.fileTable (holders state)
  distinct : ∀ proc ∈ state.kernel.procTable, (state.kernel.procs proc).oFiles.Nodup
  left : (toClose state.kernel state.cpu).Nodup
  unopened : ∀ proc ∈ inHand state, (state.kernel.procs proc).oFiles = []

variable {state after : Lifecycle} {kernel : Kernel} {proc : ProcId}

theorem start_held : FilesHeld lifecycleSystem.start where
  table := init_counted.table
  distinct := init_counted.distinct
  left := List.nodup_nil
  unopened := fun _ member => nomatch member

theorem view_openers {kernel after : Kernel} (same : fileView after = fileView kernel) :
    after.fileTable = kernel.fileTable ∧ after.procTable = kernel.procTable ∧
      (∀ proc, (after.procs proc).oFiles = (kernel.procs proc).oFiles) ∧
      openers after = openers kernel := by
  simp only [fileView, Prod.mk.injEq] at same
  obtain ⟨files, listed, opened⟩ := same
  have openFiles := fun proc => congrFun opened proc
  refine ⟨files, listed, openFiles, ?_⟩
  funext inumber
  simp only [openers, listed, openFiles]

theorem view_of_records {kernel after : Kernel} (same : recordView after = recordView kernel) :
    fileView after = fileView kernel := by
  have opened : ∀ proc, (after.procs proc).oFiles = (kernel.procs proc).oFiles :=
    fun proc => (image_fields (view_image same proc)).2.2.2.2
  simp only [recordView, Prod.mk.injEq] at same
  simp only [fileView, same, opened]

/-- A step that touches no file. -/
theorem held_frame (held : FilesHeld state)
    (view : fileView after.kernel = fileView state.kernel)
    (closes : toClose after.kernel after.cpu = toClose state.kernel state.cpu)
    (hands : inHand after ⊆ inHand state) : FilesHeld after := by
  obtain ⟨files, listed, opened, same⟩ := view_openers view
  have sameHolders : holders after = holders state := by
    funext inumber
    simp only [holders, same, closes]
  exact
    { table := by
        rw [files, sameHolders]
        exact held.table
      distinct := by
        intro proc member
        rw [opened]
        exact held.distinct proc (listed ▸ member)
      left := by
        rw [closes]
        exact held.left
      unopened := by
        intro proc member
        rw [opened]
        exact held.unopened proc (hands member) }

/-- While the cpu thread finishes nobody the table counts the listed processes only. -/
theorem running_holders (running : state.cpu = .running) :
    holders state = openers state.kernel := by
  funext inumber
  rw [holders, running]
  rfl

theorem running_counted (held : FilesHeld state) (running : state.cpu = .running) :
    FilesCounted state.kernel where
  table := running_holders running ▸ held.table
  distinct := held.distinct

theorem held_running (counted : FilesCounted state.kernel) (running : state.cpu = .running)
    (unopened : ∀ proc ∈ inHand state, (state.kernel.procs proc).oFiles = []) :
    FilesHeld state where
  table := by
    rw [running_holders running]
    exact counted.table
  distinct := counted.distinct
  left := by
    rw [running]
    exact List.nodup_nil
  unopened := unopened

/-! ## The cpu and the disk -/

/-- An instruction opens files for its own process only. -/
theorem execute_opens {after : Kernel} {instr : Instr}
    (step : kernelStep kernel (.execute instr) = some after) :
    ∃ proc, kernel.scheduler.scheduledProc = some proc ∧
      ∀ other, other ≠ proc → (after.procs other).oFiles = (kernel.procs other).oFiles := by
  obtain ⟨proc, running, evaluated⟩ := execute_fires step
  have fetch := (view_openers (fetched_opened kernel proc)).2.2.1
  refine ⟨proc, running, ?_⟩
  intro other apart
  rw [← fetch other]
  rcases eval_records evaluated with same | ⟨requested, inumber, same, rfl⟩
  · exact (view_openers (view_of_records same)).2.2.1 other
  · rw [← (view_openers (view_of_records same)).2.2.1 other]
    obtain ⟨fileTable, logs, writes | writes⟩ := open_for_writes requested proc inumber
    · rw [writes]
    · rw [writes, modify_proc_other _ _ apart]

theorem running_listed (settled : Settled state) (running : state.cpu = .running)
    (scheduled : state.kernel.scheduler.scheduledProc = some proc) :
    proc ∈ state.kernel.procTable := by
  have place : proc ∈ Queues.places state.kernel.scheduler := by simp [Queues.places, scheduled]
  have listed := settled.placed.subset (List.mem_append_left state.listed place)
  rw [running, interrupted, List.append_nil] at listed
  exact listed

theorem execute_held (settled : Settled state) (held : FilesHeld state)
    (running : state.cpu = .running) {instr : Instr} {kernel : Kernel}
    (step : kernelStep state.kernel (.execute instr) = some kernel) :
    FilesHeld { state with kernel := kernel } := by
  have counted : FilesCounted kernel := by
    obtain ⟨proc, scheduled, evaluated⟩ := execute_fires step
    have fetchedCounted : FilesCounted (fetched state.kernel proc) :=
      counted_of_view (running_counted held running) (fetched_opened state.kernel proc)
    exact eval_counted fetchedCounted (table_apart settled).1
      (running_listed settled running scheduled) evaluated
  refine held_running counted running ?_
  obtain ⟨proc, scheduled, others⟩ := execute_opens step
  intro other hand
  have apart : other ≠ proc := by
    rintro rfl
    have listed := running_listed settled running scheduled
    exact (table_apart settled).2 other listed (List.mem_append_right _ hand)
  rw [others other apart]
  exact held.unopened other hand

theorem kernel_held (settled : Settled state) (held : FilesHeld state) {event : KernelEvent}
    (fired : state.fireKernel event = some after) : FilesHeld after := by
  obtain ⟨⟨kernel, step, rfl⟩, enrols, drops, cpu⟩ := kernel_inv fired
  have kept : recordView kernel = recordView state.kernel →
      FilesHeld { state with kernel := kernel } := by
    intro same
    have view := view_of_records same
    refine held_frame held view ?_ (List.Subset.refl _)
    cases work : state.cpu with
    | interrupting proc => exact (view_openers view).2.2.1 proc
    | running | closing | leaving => rfl
  cases event with
  | processCreate program fresh => exact absurd rfl (enrols program fresh)
  | processFinish => exact absurd rfl drops
  | idleDispatch logged =>
      obtain ⟨-, rfl⟩ := idle_fires step
      cases logged
      · exact kept (schedule_records _ _)
      · exact kept (schedule_records (processNpLog state.kernel) .none)
  | execute instr =>
      exact execute_held settled held (cpu.resolve_left KernelEvent.noConfusion) step
  | quantumCompleted =>
      obtain ⟨proc, -, rfl⟩ := quantum_fires step
      exact kept (schedule_records _ _)
  | diskTick =>
      obtain rfl := Option.some.inj step
      exact kept (tick_records state.kernel)

/-! ## Creations -/

theorem parse_opened (settled : Settled state) (program : Program) (member : proc ∈ known state) :
    ((state.parse program).kernel.procs proc).oFiles = (state.kernel.procs proc).oFiles := by
  have apart : proc ≠ state.kernel.nextProcId := Nat.ne_of_lt (settled.numbered proc member)
  exact congrArg Process.oFiles (Function.update_of_ne apart _ _)

theorem listed_known (listed : proc ∈ state.kernel.procTable) : proc ∈ known state := by
  simp only [known, List.mem_append]
  exact .inl (.inl (.inl listed))

theorem parse_closes (settled : Settled state) (program : Program) :
    toClose (state.parse program).kernel state.cpu = toClose state.kernel state.cpu := by
  cases work : state.cpu with
  | interrupting proc =>
      apply parse_opened settled program
      simp [known, work, dying]
  | running | closing | leaving => rfl

theorem parse_holders (settled : Settled state) (program : Program) :
    holders (state.parse program) = holders state := by
  have opened : openers (state.parse program).kernel = openers state.kernel := by
    funext inumber
    apply List.countP_congr
    intro proc member
    rw [parse_opened settled program (listed_known member)]
  funext inumber
  rw [holders, opened]
  change _ + (toClose (state.parse program).kernel state.cpu).count inumber = _
  rw [parse_closes settled]
  rfl

/-- The new process has no file open. -/
theorem parse_held (settled : Settled state) (held : FilesHeld state) (program : Program) :
    FilesHeld (state.parse program) where
  table := by
    rw [parse_holders settled]
    exact held.table
  distinct := by
    intro proc member
    rw [parse_opened settled program (listed_known member)]
    exact held.distinct proc member
  left := by
    change (toClose (state.parse program).kernel state.cpu).Nodup
    rw [parse_closes settled]
    exact held.left
  unopened := by
    have hands : inHand (state.parse program) = inHand state ++ [state.kernel.nextProcId] := by
      simp only [inHand, Lifecycle.parse, List.map_append, List.map_cons, List.map_nil,
        List.append_assoc]
    have created : (state.parse program).kernel.procs state.kernel.nextProcId =
        newProcess program := Function.update_self ..
    rw [hands]
    intro proc member
    rcases List.mem_append.mp member with before | new
    · rw [parse_opened settled program]
      · exact held.unopened proc before
      · rw [known, List.append_assoc _ state.loaded]
        exact List.mem_append_right _ before
    · rw [List.mem_singleton.mp new, created]
      rfl

theorem list_held (held : FilesHeld state) (member : proc ∈ state.loaded) :
    FilesHeld (state.list proc) := by
  have unopened := held.unopened proc (List.mem_append_left _ member)
  have opened : openers (state.list proc).kernel = openers state.kernel := by
    funext inumber
    change (state.kernel.procTable ++ [proc]).countP
      (fun other => decide (inumber ∈ (state.kernel.procs other).oFiles)) = _
    rw [List.countP_append, List.countP_singleton, unopened]
    simp [openers]
  have same : holders (state.list proc) = holders state := by
    funext inumber
    rw [holders, opened]
    rfl
  exact
    { table := by
        rw [same]
        exact held.table
      distinct := by
        intro other listed
        rcases List.mem_append.mp listed with before | new
        · exact held.distinct other before
        · rw [List.mem_singleton.mp new]
          change (state.kernel.procs proc).oFiles.Nodup
          rw [unopened]
          exact List.nodup_nil
      left := held.left
      unopened := by
        intro other hand
        apply held.unopened other
        rcases List.mem_append.mp hand with loaded | parsed
        · exact List.mem_append_left _ (List.mem_of_mem_erase loaded)
        · exact List.mem_append_right _ parsed }

theorem queue_view (kernel : Kernel) (proc : ProcId) :
    fileView (queueProcess kernel proc) = fileView kernel := by
  have opened : ∀ other, ((kernel.modifyProc proc (·.setState .ready)).procs other).oFiles =
      (kernel.procs other).oFiles := by
    intro other
    have image := modify_proc_image kernel proc (·.setState .ready)
      (fun process => image_set_state process _) other
    exact (image_fields image).2.2.2.2
  unfold queueProcess
  split
  · simp only [fileView, opened]
    rfl
  · simp only [fileView, opened]
    rfl

/-! ## Finishes -/

/-- The process that leaves the table keeps its files for now. -/
theorem finish_held (held : FilesHeld state)
    (fired : state.finish = some after) : FilesHeld after := by
  obtain ⟨proc, running, scheduled, listed, rfl⟩ := unlist_inv fired
  have distinct := held.distinct proc listed
  have same : holders { state with
      kernel := { state.kernel with procTable := state.kernel.procTable.erase proc }
      cpu := .interrupting proc } = holders state := by
    funext inumber
    have split := count_erased
      (fun proc => decide (inumber ∈ (state.kernel.procs proc).oFiles)) listed
    have counted : (state.kernel.procs proc).oFiles.count inumber =
        if decide (inumber ∈ (state.kernel.procs proc).oFiles) then 1 else 0 := by
      by_cases has : inumber ∈ (state.kernel.procs proc).oFiles
      · rw [List.count_eq_one_of_mem distinct has, decide_eq_true has, if_pos rfl]
      · rw [List.count_eq_zero_of_not_mem has, decide_eq_false has]
        rfl
    simp only [holders, openers, toClose, running, counted, split, List.count_nil]
    rfl
  exact
    { table := by
        rw [same]
        exact held.table
      distinct := fun other member => held.distinct other (List.mem_of_mem_erase member)
      left := distinct
      unopened := held.unopened }

theorem close_held (held : FilesHeld state) {inumber : Int} {files : List Int}
    (closing : state.cpu = .closing proc (inumber :: files)) :
    FilesHeld { state with
      kernel := fsCloseRequest state.kernel proc inumber
      cpu := .closing proc files } := by
  have table := held.table
  have left := held.left
  rw [closing] at left
  have waits : 0 < holders state inumber := by
    rw [holders, closing, toClose, List.count_cons_self]
    omega
  have closed := close_counted table waits proc
  obtain ⟨fileTable, logs, writes⟩ := close_writes state.kernel proc inumber
  have opened : openers (fsCloseRequest state.kernel proc inumber) = openers state.kernel := by
    rw [writes]
    rfl
  have same : holders { state with
      kernel := fsCloseRequest state.kernel proc inumber
      cpu := .closing proc files } =
      fun other => holders state other - if other = inumber then 1 else 0 := by
    funext other
    simp only [holders, opened, toClose, closing, List.count_cons]
    by_cases here : other = inumber
    · subst here
      simp
    · have apart : (inumber == other) = false := by simpa using Ne.symm here
      simp [apart, here]
  exact
    { table := by
        rw [same]
        exact closed
      distinct := by
        dsimp only
        rw [writes]
        exact held.distinct
      left := (List.nodup_cons.mp left).2
      unopened := by
        dsimp only
        rw [writes]
        exact held.unopened }

theorem resume_held (settled : Settled state) (held : FilesHeld state)
    (fired : state.resume = some after) : FilesHeld after := by
  rcases resume_inv fired with ⟨proc, kernel, interrupting, dispatched, rfl⟩ |
    ⟨proc, inumber, files, closing, rfl⟩ | ⟨proc, segTable, closing, -, rfl⟩ |
    ⟨proc, leaving, rfl⟩
  · have scheduled := settled.running proc interrupting
    obtain rfl : kernel = scheduleProcess state.kernel .none := by
      simpa [interruptCurrent, scheduled] using dispatched.symm
    have view := view_of_records (schedule_records state.kernel .none)
    refine held_frame held view ?_ (List.Subset.refl _)
    rw [interrupting]
    exact (view_openers view).2.2.1 proc
  · exact close_held held closing
  · refine held_frame held rfl ?_ (List.Subset.refl _)
    rw [closing]
    rfl
  · have view : fileView (leaveQueues state.kernel proc) = fileView state.kernel := by
      unfold leaveQueues
      split_ifs <;> rfl
    refine held_frame held view ?_ (List.Subset.refl _)
    rw [leaving]
    rfl

theorem step_held (settled : Settled state) (held : FilesHeld state) {event : LifecycleEvent}
    (fired : lifecycleStep state event = some after) : FilesHeld after := by
  cases event with
  | parse program =>
      obtain rfl := Option.some.inj fired
      exact parse_held settled held program
  | load creation fresh =>
      obtain ⟨parsed, rfl⟩ := load_inv fired
      refine held_frame held rfl rfl ?_
      have moved := (List.perm_cons_erase parsed).map Creation.proc
      intro proc hand
      simp only [inHand, Lifecycle.load, List.mem_append, List.mem_singleton] at hand ⊢
      rcases hand with (loaded | rfl) | still
      · exact .inl loaded
      · exact .inr (List.mem_map_of_mem parsed)
      · exact .inr (moved.symm.subset (List.mem_cons_of_mem _ still))
  | list proc =>
      obtain ⟨loaded, rfl⟩ := list_inv fired
      exact list_held held loaded
  | queue proc =>
      obtain ⟨listed, rfl⟩ := queue_inv fired
      have view := queue_view state.kernel proc
      refine held_frame held view ?_ (List.Subset.refl _)
      change toClose (queueProcess state.kernel proc) state.cpu = _
      cases work : state.cpu with
      | interrupting other => exact (view_openers view).2.2.1 other
      | running | closing | leaving => rfl
  | kernel event => exact kernel_held settled held fired
  | finish => exact finish_held held fired
  | resume => exact resume_held settled held fired
  | refresh =>
      obtain rfl := Option.some.inj fired
      exact held

theorem reachable_held (reached : Reachable lifecycleSystem state) : FilesHeld state := by
  apply reachable_invariant FilesHeld reached start_held
  intro before event after reachedBefore held fired
  exact step_held (reachable_settled reachedBefore) held fired

/-- At every step the table counts the listed processes that have the file open and the file
that the finishing process still has to close, and it has no other files. -/
theorem files_between_steps (reached : Reachable lifecycleSystem state) :
    (state.kernel.fileTable.map Inode.id).Nodup ∧
      (toClose state.kernel state.cpu).Nodup ∧
      (∀ inode ∈ state.kernel.fileTable, inode.oCount = ((state.kernel.procTable.countP fun proc =>
          decide (inode.id ∈ (state.kernel.procs proc).oFiles)) +
        (toClose state.kernel state.cpu).count inode.id : Nat)) ∧
      ∀ inumber, (∃ inode ∈ state.kernel.fileTable, inode.id = inumber) ↔
        (∃ proc ∈ state.kernel.procTable, inumber ∈ (state.kernel.procs proc).oFiles) ∨
          inumber ∈ toClose state.kernel state.cpu := by
  have held := reachable_held reached
  refine ⟨held.table.distinct, held.left, held.table.counts, ?_⟩
  intro inumber
  rw [held.table.present_iff, holders, Nat.add_pos_iff_pos_or_pos, openers, List.countP_pos_iff,
    List.count_pos_iff]
  simp only [decide_eq_true_eq]

/-- Two processes have one file open and the first of them is being finished. -/
def sharedFileEvents : List LifecycleEvent :=
  let program := { onceProgram with code := [⟨.read, 3, none⟩] }
  createSteps 1 program blankPage ++ createSteps 2 { program with segId := 2 } blankPage ++
    [.kernel (.idleDispatch true), .kernel (.execute ⟨.read, 3, none⟩),
      .kernel (.execute ⟨.read, 3, none⟩)] ++ List.replicate 4 (.kernel .diskTick) ++
    [.kernel (.idleDispatch true), .finish, .resume]

def sharedFile : Lifecycle :=
  (run lifecycleSystem sharedFileEvents lifecycleSystem.start).getD lifecycleSystem.start

theorem files_between_steps_shared :
    sharedFile.kernel.procTable = [2] ∧
      sharedFile.cpu = .closing 1 [inodeNumber (diskBlock 3)] ∧
      ∀ inode ∈ sharedFile.kernel.fileTable, inode.oCount = 2 := by
  have reached : Reachable lifecycleSystem sharedFile := reachable_run sharedFileEvents rfl
  have counts := (files_between_steps reached).2.2.1
  have shared : ∀ inode ∈ sharedFile.kernel.fileTable,
      (sharedFile.kernel.procTable.countP fun proc =>
          decide (inode.id ∈ (sharedFile.kernel.procs proc).oFiles)) +
        (toClose sharedFile.kernel sharedFile.cpu).count inode.id = 2 := by decide
  refine ⟨by decide, by decide, ?_⟩
  intro inode member
  rw [counts inode member, shared inode member]
  rfl

end Ribabari.LifecycleFiles

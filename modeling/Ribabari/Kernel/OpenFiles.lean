import Mathlib.Data.List.Count
import Ribabari.Foundation.ReferenceCount
import Ribabari.Kernel.Placement
import Ribabari.Kernel.RecordFrame

/-!
# The open-file table

The table counts, for every inode, the listed processes that have it in their
`o_files`. The two open paths retain the inode once for each process, and a
finishing process releases what it retained, after it has left the table.
-/

namespace Ribabari.OpenFiles

open Ribabari.ProcessRecords Ribabari.SemaphoreTable Ribabari.KernelState
open Ribabari.Dispatch Ribabari.DiskAndFiles Ribabari.KernelEvents
open Ribabari.FirstMatch Ribabari.ReferenceCount Ribabari.TransitionSystem
open Ribabari.QueueBoard Ribabari.QueueRefinement Ribabari.BoardInvariants
open Ribabari.Placement Ribabari.RecordFrame

set_option autoImplicit false

/-- How many listed processes have the inode open. -/
def openers (kernel : Kernel) (inumber : Int) : Nat :=
  kernel.procTable.countP fun proc => decide (inumber ∈ (kernel.procs proc).oFiles)

structure FilesCounted (kernel : Kernel) : Prop where
  table : Counted Inode.id Inode.oCount kernel.fileTable (openers kernel)
  distinct : ∀ proc ∈ kernel.procTable, (kernel.procs proc).oFiles.Nodup

variable {kernel after : Kernel}

/-! ## Steps that touch no file -/

/-- All that `FilesCounted` reads. -/
def fileView (kernel : Kernel) : List Inode × List ProcId × (ProcId → List Int) :=
  (kernel.fileTable, kernel.procTable, fun proc => (kernel.procs proc).oFiles)

theorem counted_of_view (counted : FilesCounted kernel) (same : fileView after = fileView kernel) :
    FilesCounted after := by
  simp only [fileView, Prod.mk.injEq] at same
  obtain ⟨files, listed, opened⟩ := same
  have openFiles := fun proc => congrFun opened proc
  have holders : openers after = openers kernel := by
    funext inumber
    simp only [openers, listed, openFiles]
  exact
    { table := by
        rw [files, holders]
        exact counted.table
      distinct := fun proc member => by
        rw [openFiles]
        exact counted.distinct proc (listed ▸ member) }

theorem counted_of_records (counted : FilesCounted kernel)
    (same : recordView after = recordView kernel) : FilesCounted after := by
  have opened : ∀ proc, (after.procs proc).oFiles = (kernel.procs proc).oFiles :=
    fun proc => (image_fields (view_image same proc)).2.2.2.2
  simp only [recordView, Prod.mk.injEq] at same
  apply counted_of_view counted
  simp only [fileView, same, opened]

theorem fetched_opened (kernel : Kernel) (proc : ProcId) :
    fileView (fetched kernel proc) = fileView kernel := by
  have opened : ∀ other, ((fetched kernel proc).procs other).oFiles =
      (kernel.procs other).oFiles := by
    intro other
    change ((kernel.modifyProc proc fun process =>
      { process with pc := process.pc + 1 }).procs other).oFiles = _
    by_cases same : other = proc
    · subst same
      rw [modify_proc_same]
    · rw [modify_proc_other _ _ same]
  simp only [fileView, opened]
  rfl

/-! ## Opening -/

/-- Counting over a list in which one element changes its answer. -/
theorem count_changed {α : Type*} [DecidableEq α] {items : List α} {item : α} {p q : α → Bool}
    (distinct : items.Nodup) (member : item ∈ items)
    (others : ∀ other, other ≠ item → q other = p other) :
    items.countP q = (items.erase item).countP p + if q item then 1 else 0 := by
  have rest : (items.erase item).countP q = (items.erase item).countP p := by
    apply List.countP_congr
    intro other kept
    rw [others other ((distinct.mem_erase_iff.mp kept).1)]
  rw [(List.perm_cons_erase member).countP_eq, List.countP_cons, rest]

theorem count_erased {α : Type*} [DecidableEq α] {items : List α} {item : α} (p : α → Bool)
    (member : item ∈ items) :
    items.countP p = (items.erase item).countP p + if p item then 1 else 0 := by
  rw [(List.perm_cons_erase member).countP_eq, List.countP_cons]

/-- Opening a file that the process already has open does nothing: somebody has it
open, so it is in the table. -/
theorem open_for_opened (counted : FilesCounted kernel) {proc : ProcId}
    (member : proc ∈ kernel.procTable) {inumber : Int}
    (opened : inumber ∈ (kernel.procs proc).oFiles) :
    fsOpenFor kernel proc inumber = kernel := by
  have held : 0 < openers kernel inumber :=
    List.countP_pos_iff.mpr ⟨proc, member, by simpa using opened⟩
  have found : findInode kernel.fileTable inumber ≠ none := by
    intro missing
    have zero := (counted.table.find_eq_none_iff inumber).mp missing
    omega
  obtain ⟨inode, found⟩ := Option.ne_none_iff_exists'.mp found
  simp [fsOpenFor, found, hasOpenedFile, opened]

theorem open_for_fresh {proc : ProcId} {inumber : Int}
    (opened : inumber ∉ (kernel.procs proc).oFiles) :
    fileView (fsOpenFor kernel proc inumber) =
      (updateFirst (fun inode => inode.id == inumber) Inode.opened
        (ensured Inode.id inumber (inodeCreate inumber) kernel.fileTable),
        kernel.procTable,
        fun other => if other = proc then (kernel.procs proc).oFiles ++ [inumber]
          else (kernel.procs other).oFiles) := by
  have update : ∀ other, (Function.update kernel.procs proc
      { kernel.procs proc with oFiles := (kernel.procs proc).oFiles ++ [inumber] } other).oFiles =
      if other = proc then (kernel.procs proc).oFiles ++ [inumber]
      else (kernel.procs other).oFiles := by
    intro other
    rw [Function.update_apply]
    split <;> rfl
  cases found : findInode kernel.fileTable inumber <;>
    (simp only [fsOpenFor, found, hasOpenedFile, fsOpenRequest, ioFsLog, Kernel.log, opened,
      List.contains_eq_mem, decide_false, Bool.false_eq_true, if_false, fileView,
      Kernel.modifyProc, update]
     unfold findInode at found
     rw [ensured, found])

/-- A first opening adds the process to the openers of that inode. -/
theorem open_for_holders (listed : kernel.procTable.Nodup) {proc : ProcId}
    (member : proc ∈ kernel.procTable) {inumber : Int}
    (opened : inumber ∉ (kernel.procs proc).oFiles) :
    openers (fsOpenFor kernel proc inumber) =
      fun other => openers kernel other + if other = inumber then 1 else 0 := by
  have shape := open_for_fresh opened
  simp only [fileView, Prod.mk.injEq] at shape
  obtain ⟨-, procTable, openFiles⟩ := shape
  have openFiles := fun other => congrFun openFiles other
  funext other
  have changed := count_changed
    (p := fun proc => decide (other ∈ (kernel.procs proc).oFiles))
    (q := fun owner => decide (other ∈ ((fsOpenFor kernel proc inumber).procs owner).oFiles))
    listed member (fun owner different => by rw [openFiles, if_neg different])
  have before := count_erased
    (fun proc => decide (other ∈ (kernel.procs proc).oFiles)) member
  simp only [openers, procTable]
  rw [changed, before, openFiles, if_pos rfl]
  by_cases same : other = inumber
  · subst same
    simp [opened]
  · simp [same]

theorem open_for_counted (counted : FilesCounted kernel) (listed : kernel.procTable.Nodup)
    {proc : ProcId} (member : proc ∈ kernel.procTable) (inumber : Int) :
    FilesCounted (fsOpenFor kernel proc inumber) := by
  by_cases opened : inumber ∈ (kernel.procs proc).oFiles
  · rw [open_for_opened counted member opened]
    exact counted
  · have shape := open_for_fresh opened
    simp only [fileView, Prod.mk.injEq] at shape
    obtain ⟨files, procTable, openFiles⟩ := shape
    have openFiles := fun other => congrFun openFiles other
    refine
      { table := ?_
        distinct := ?_ }
    · rw [files, open_for_holders listed member opened]
      exact counted.table.retain (inodeCreate inumber) Inode.opened
        rfl rfl (fun _ => rfl) fun _ => rfl
    · intro other otherListed
      rw [openFiles]
      split
      · have fresh : ∀ old ∈ (kernel.procs proc).oFiles, old ≠ inumber :=
          fun old present same => opened (same ▸ present)
        exact List.nodup_append.mpr ⟨counted.distinct proc member, List.nodup_singleton _,
          fun old present new last => List.mem_singleton.mp last ▸ fresh old present⟩
      · exact counted.distinct other (procTable ▸ otherListed)

/-! ## Closing -/

theorem close_counted {holders : Int → Nat} {inumber : Int}
    (counted : Counted Inode.id Inode.oCount kernel.fileTable holders)
    (held : 0 < holders inumber) (proc : ProcId) :
    Counted Inode.id Inode.oCount (fsCloseRequest kernel proc inumber).fileTable
      (fun other => holders other - if other = inumber then 1 else 0) := by
  have found : findInode kernel.fileTable inumber ≠ none := by
    intro missing
    have zero := (counted.find_eq_none_iff inumber).mp missing
    omega
  obtain ⟨inode, found⟩ := Option.ne_none_iff_exists'.mp found
  have released := counted.release Inode.closed found (fun _ => rfl) fun _ => rfl
  have table : (fsCloseRequest kernel proc inumber).fileTable =
      if inode.oCount - 1 = 0 then
        kernel.fileTable.eraseP fun other => other.id == inumber
      else
        updateFirst (fun other => other.id == inumber) Inode.closed kernel.fileTable := by
    simp only [fsCloseRequest, found]
    split <;> rfl
  rw [table]
  exact released

/-- The loop of `process_finish` gives back one holder of each file it walks. -/
theorem close_files_counted {holders : Int → Nat} {files : List Int} (proc : ProcId)
    (counted : Counted Inode.id Inode.oCount kernel.fileTable holders)
    (distinct : files.Nodup) (held : ∀ inumber ∈ files, 0 < holders inumber) :
    Counted Inode.id Inode.oCount (closeFiles kernel proc files).fileTable
      (fun other => holders other - if other ∈ files then 1 else 0) := by
  induction files generalizing kernel holders with
  | nil => simpa [closeFiles] using counted
  | cons inumber files ih =>
      obtain ⟨fresh, distinct⟩ := List.nodup_cons.mp distinct
      have closed := close_counted counted (held inumber (by simp)) proc
      have others : ∀ other ∈ files, 0 < holders other - if other = inumber then 1 else 0 := by
        intro other member
        rw [if_neg fun same : other = inumber => fresh (same ▸ member)]
        exact held other (List.mem_cons_of_mem _ member)
      have rest := ih closed distinct others
      have combined : (fun other => (holders other - if other = inumber then 1 else 0) -
          if other ∈ files then 1 else 0) =
          fun other => holders other - if other ∈ inumber :: files then 1 else 0 := by
        funext other
        by_cases same : other = inumber
        · subst same
          simp [fresh]
        · simp [same]
      rwa [combined] at rest

theorem finish_counted (counted : FilesCounted kernel) {proc : ProcId}
    (running : kernel.scheduler.scheduledProc = some proc)
    (finished : processFinish kernel proc = some after) : FilesCounted after := by
  obtain ⟨interrupted, closed, segTable, member, unlisted, rfl, -, left⟩ :=
    finish_parts running finished
  have opened : ∀ other, (interrupted.procs other).oFiles = (kernel.procs other).oFiles :=
    fun other => (image_fields (view_image unlisted other)).2.2.2.2
  simp only [recordView, Prod.mk.injEq] at unlisted
  obtain ⟨procTable, -, -, fileTable, -⟩ := unlisted
  let files := (interrupted.procs proc).oFiles
  have walked : files = (kernel.procs proc).oFiles := opened proc
  obtain ⟨procs, listed, -⟩ := close_files_frame interrupted proc files
  have held : ∀ inumber ∈ files, 0 < openers kernel inumber := by
    intro inumber present
    exact List.countP_pos_iff.mpr ⟨proc, member, by simpa [walked] using present⟩
  have start : Counted Inode.id Inode.oCount interrupted.fileTable (openers kernel) :=
    fileTable ▸ counted.table
  have distinct : files.Nodup := walked ▸ counted.distinct proc member
  have table := close_files_counted proc start distinct held
  have rest : FilesCounted (closeFiles interrupted proc files) := by
    refine
      { table := ?_
        distinct := ?_ }
    · have holders : openers (closeFiles interrupted proc files) =
          fun other => openers kernel other - if other ∈ files then 1 else 0 := by
        funext other
        have before := count_erased
          (fun proc => decide (other ∈ (kernel.procs proc).oFiles)) member
        simp only [openers]
        rw [procs, listed, procTable, before]
        simp only [opened, walked]
        by_cases present : other ∈ (kernel.procs proc).oFiles <;> simp [present]
      rw [holders]
      exact table
    · intro other stillListed
      rw [listed, procTable] at stillListed
      rw [procs, opened]
      exact counted.distinct other (List.mem_of_mem_erase stillListed)
  have freed : FilesCounted { closeFiles interrupted proc files with segTable := segTable } :=
    counted_of_view rest rfl
  exact counted_of_records freed left

/-! ## Every step -/

theorem eval_counted (counted : FilesCounted kernel) (listed : kernel.procTable.Nodup)
    {proc : ProcId} (member : proc ∈ kernel.procTable) {instr : Instr}
    (evaluated : eval kernel proc instr = some after) : FilesCounted after := by
  rcases eval_records evaluated with same | ⟨requested, inumber, same, rfl⟩
  · exact counted_of_records counted same
  · have tables : requested.procTable = kernel.procTable := congrArg (fun view => view.1) same
    exact open_for_counted (counted_of_records counted same) (tables.symm ▸ listed)
      (tables.symm ▸ member) inumber

theorem create_counted (counted : FilesCounted kernel)
    (numbered : ∀ proc ∈ kernel.procTable, proc < kernel.nextProcId) (program : Program)
    (fresh : Nat → SegmentMemory.Page) : FilesCounted (processCreate kernel program fresh) := by
  have records := create_records kernel program fresh
  simp only [recordView, Prod.mk.injEq] at records
  obtain ⟨procTable, -, -, files, images⟩ := records
  have old : ∀ proc ∈ kernel.procTable,
      ((processCreate kernel program fresh).procs proc).oFiles = (kernel.procs proc).oFiles := by
    intro proc member
    have image := congrFun images proc
    rw [if_neg (Nat.ne_of_lt (numbered proc member))] at image
    exact (image_fields image).2.2.2.2
  have new : ((processCreate kernel program fresh).procs kernel.nextProcId).oFiles = [] := by
    have image := congrFun images kernel.nextProcId
    rw [if_pos rfl] at image
    exact (image_fields image).2.2.2.2
  have holders : openers (processCreate kernel program fresh) = openers kernel := by
    funext inumber
    have same : kernel.procTable.countP
        (fun proc => decide
          (inumber ∈ ((processCreate kernel program fresh).procs proc).oFiles)) =
        kernel.procTable.countP fun proc => decide (inumber ∈ (kernel.procs proc).oFiles) :=
      List.countP_congr fun proc member => by rw [old proc member]
    simp only [openers, procTable, List.countP_append, same]
    simp [new]
  refine
    { table := ?_
      distinct := ?_ }
  · rw [files, holders]
    exact counted.table
  · intro proc member
    rw [procTable] at member
    rcases List.mem_append.mp member with listed | last
    · rw [old proc listed]
      exact counted.distinct proc listed
    · rw [List.mem_singleton.mp last, new]
      exact List.nodup_nil

theorem step_counted {event : KernelEvent} (reached : Reachable kernelSystem kernel)
    (counted : FilesCounted kernel) (fired : kernelStep kernel event = some after) :
    FilesCounted after := by
  have accounted := kernel_accounted reached
  cases event with
  | processCreate program fresh =>
      obtain rfl := Option.some.inj fired
      exact create_counted counted accounted.numbered program fresh
  | idleDispatch logged =>
      obtain ⟨-, rfl⟩ := idle_fires fired
      cases logged
      · exact counted_of_records counted (schedule_records _ _)
      · exact counted_of_records counted (schedule_records (processNpLog kernel) .none)
  | execute instr =>
      obtain ⟨proc, running, evaluated⟩ := execute_fires fired
      have fetchedCounted : FilesCounted (fetched kernel proc) :=
        counted_of_view counted (fetched_opened kernel proc)
      exact eval_counted fetchedCounted accounted.distinct (scheduled_numbered reached running).1
        evaluated
  | quantumCompleted =>
      obtain ⟨proc, -, rfl⟩ := quantum_fires fired
      exact counted_of_records counted (schedule_records _ _)
  | processFinish =>
      obtain ⟨proc, running, finished⟩ := finish_fires fired
      exact finish_counted counted running finished
  | diskTick =>
      obtain rfl := Option.some.inj fired
      exact counted_of_records counted (tick_records kernel)

theorem init_counted : FilesCounted kernelInit where
  table :=
    { distinct := List.nodup_nil
      counts := by simp [kernelInit]
      held := by simp [kernelInit]
      present := by simp [kernelInit, openers] }
  distinct := by simp [kernelInit]

theorem reachable_counted (reached : Reachable kernelSystem kernel) : FilesCounted kernel :=
  reachable_invariant FilesCounted reached init_counted
    fun _ _ _ reachedBefore counted fired => step_counted reachedBefore counted fired

/-- The open-file table is a reference count of the `o_files` of the listed
processes: present means held, and the count is the number of holders. -/
theorem open_files_are_counted (reached : Reachable kernelSystem kernel) :
    (kernel.fileTable.map Inode.id).Nodup ∧
      (∀ proc ∈ kernel.procTable, (kernel.procs proc).oFiles.Nodup) ∧
      (∀ inumber, (∃ inode ∈ kernel.fileTable, inode.id = inumber) ↔
        ∃ proc ∈ kernel.procTable, inumber ∈ (kernel.procs proc).oFiles) ∧
      (∀ inode ∈ kernel.fileTable, inode.oCount =
        kernel.procTable.countP fun proc => decide (inode.id ∈ (kernel.procs proc).oFiles)) ∧
      ∀ inode ∈ kernel.fileTable, 0 ≤ inode.oCount := by
  have counted := reachable_counted reached
  refine ⟨counted.table.distinct, counted.distinct, ?_, counted.table.counts, ?_⟩
  · intro inumber
    rw [counted.table.present_iff, openers, List.countP_pos_iff]
    simp
  · intro inode member
    rw [counted.table.counts inode member]
    exact Int.natCast_nonneg _

theorem open_files_are_counted_sample :
    ∃ inode ∈ sampleKernel.fileTable, inode.id = inodeNumber (diskBlock 45) :=
  ((open_files_are_counted sample_reachable).2.2.1 _).mpr ⟨1, by decide, by decide⟩

end Ribabari.OpenFiles

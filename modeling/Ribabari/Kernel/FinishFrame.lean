import Ribabari.Kernel.CodeMemory
import Ribabari.Kernel.OpenFiles

/-!
# What a finish changes

`process_finish` unlists the process, dispatches, closes the files of the process, frees
its segment and searches the queues for it. The dispatch has already taken the process
out of the cpu without queueing it, so the search finds nothing, and each of the other
steps removes from one table what belonged to the process alone.
-/

namespace Ribabari.FinishFrame

open Ribabari.FirstMatch Ribabari.ReferenceCount Ribabari.ProcessRecords
open Ribabari.SegmentMemory Ribabari.KernelState Ribabari.Dispatch Ribabari.DiskAndFiles
open Ribabari.KernelEvents Ribabari.QueueBoard Ribabari.QueueRefinement
open Ribabari.BoardInvariants Ribabari.Placement Ribabari.RecordFrame Ribabari.OpenFiles
open Ribabari.ProgramLedger Ribabari.CodeMemory Ribabari.TransitionSystem

set_option autoImplicit false

/-- Nobody else has the inode open. -/
def LastOpener (kernel : Kernel) (proc : ProcId) (inumber : Int) : Prop :=
  ∀ other ∈ kernel.procTable, inumber ∈ (kernel.procs other).oFiles → other = proc

instance (kernel : Kernel) (proc : ProcId) (inumber : Int) :
    Decidable (LastOpener kernel proc inumber) :=
  inferInstanceAs (Decidable (∀ other ∈ kernel.procTable, _ → _))

/-- The entry of an inode after the process has closed its files. -/
def closedBy (kernel : Kernel) (proc : ProcId) (inode : Inode) : Option Inode :=
  if inode.id ∈ (kernel.procs proc).oFiles then
    if LastOpener kernel proc inode.id then none else some (Inode.closed inode)
  else some inode

/-- The process is gone from every table, and nothing else is changed but the queue from
which its successor was taken. -/
structure Finished (kernel : Kernel) (proc : ProcId) (after : Kernel) : Prop where
  unlisted : ∃ before rest, kernel.procTable = before ++ proc :: rest ∧
    proc ∉ before ++ rest ∧ after.procTable = before ++ rest
  freed : ∃ before seg rest, kernel.segTable.segList = before ++ seg :: rest ∧
    seg.id = (kernel.procs proc).segId ∧
    (∀ other ∈ before ++ rest, other.id ≠ (kernel.procs proc).segId) ∧
    after.segTable.segList = before ++ rest
  files : after.fileTable = kernel.fileTable.filterMap (closedBy kernel proc)
  queues : after.scheduler =
    { kernel.scheduler with
      scheduledProc := kernel.scheduler.highQueue.head?.or kernel.scheduler.lowQueue.head?
      highQueue := kernel.scheduler.highQueue.tail
      lowQueue :=
        if kernel.scheduler.highQueue = [] then kernel.scheduler.lowQueue.tail
        else kernel.scheduler.lowQueue }
  records : ∀ other, (after.procs other).pc = (kernel.procs other).pc ∧
    (after.procs other).codeLen = (kernel.procs other).codeLen ∧
    (after.procs other).segId = (kernel.procs other).segId ∧
    (after.procs other).oFiles = (kernel.procs other).oFiles
  code : ∀ other ∈ after.procTable, ∃ seg,
    segmentFind kernel.segTable (kernel.procs other).segId = some seg ∧
    segmentFind after.segTable (kernel.procs other).segId = some seg
  semaphores : after.semTable = kernel.semTable
  requests : after.diskScheduler.pendingRequests = kernel.diskScheduler.pendingRequests

variable {kernel after : Kernel} {proc : ProcId}

/-! ## Files -/

theorem last_opener_iff (listed : kernel.procTable.Nodup) (member : proc ∈ kernel.procTable)
    {inumber : Int} (opened : inumber ∈ (kernel.procs proc).oFiles) :
    openers kernel inumber = 1 ↔ LastOpener kernel proc inumber := by
  have count := count_erased (fun other => decide (inumber ∈ (kernel.procs other).oFiles)) member
  rw [decide_eq_true opened, if_pos rfl] at count
  rw [openers, count, Nat.add_eq_right, List.countP_eq_zero]
  constructor
  · intro others other otherListed open_
    by_contra differs
    exact others other (listed.mem_erase_iff.mpr ⟨differs, otherListed⟩) (decide_eq_true open_)
  · intro last other kept open_
    obtain ⟨differs, otherListed⟩ := listed.mem_erase_iff.mp kept
    exact differs (last other otherListed (of_decide_eq_true open_))

theorem close_table (proc : ProcId) (distinct : (kernel.fileTable.map Inode.id).Nodup)
    (inumber : Int) :
    (fsCloseRequest kernel proc inumber).fileTable =
      kernel.fileTable.filterMap (released Inode.id Inode.oCount Inode.closed [inumber]) := by
  unfold fsCloseRequest
  cases found : findInode kernel.fileTable inumber with
  | none =>
      have missing := List.find?_eq_none.mp found
      rw [released_elsewhere]
      intro inode member same
      exact missing inode member (by simpa using same)
  | some inode =>
      rw [← release_table distinct found]
      dsimp only
      split <;> rfl

/-- The loop over `o_files` acts on each entry of the file table by itself. -/
theorem close_files_table (proc : ProcId) {files : List Int}
    (distinct : (kernel.fileTable.map Inode.id).Nodup) (once : files.Nodup) :
    (closeFiles kernel proc files).fileTable =
      kernel.fileTable.filterMap (released Inode.id Inode.oCount Inode.closed files) := by
  have keeps : ∀ inode, (Inode.closed inode).id = inode.id := fun _ => rfl
  induction files generalizing kernel with
  | nil => exact (released_elsewhere fun _ _ => List.not_mem_nil).symm
  | cons inumber files ih =>
      obtain ⟨fresh, once⟩ := List.nodup_cons.mp once
      have closed := close_table proc distinct inumber
      have rest := released_distinct Inode.oCount [inumber] keeps distinct
      rw [← closed] at rest
      rw [closeFiles, List.foldl_cons, ← closeFiles, ih rest once, closed, released_all keeps fresh]

/-- The file table after a finish. -/
theorem finish_files (reached : Reachable kernelSystem kernel)
    (running : kernel.scheduler.scheduledProc = some proc)
    (finished : processFinish kernel proc = some after) :
    after.fileTable = kernel.fileTable.filterMap (closedBy kernel proc) := by
  have counted := reachable_counted reached
  obtain ⟨interrupted, closed, segTable, member, unlisted, rfl, -, left⟩ :=
    finish_parts running finished
  have opened : (interrupted.procs proc).oFiles = (kernel.procs proc).oFiles :=
    (image_fields (view_image unlisted proc)).2.2.2.2
  simp only [recordView, Prod.mk.injEq] at unlisted left
  have files : interrupted.fileTable = kernel.fileTable := unlisted.2.2.2.1
  have distinct : (interrupted.fileTable.map Inode.id).Nodup := files ▸ counted.table.distinct
  have once : (interrupted.procs proc).oFiles.Nodup := opened ▸ counted.distinct proc member
  have walked := close_files_table proc distinct once
  rw [left.2.2.2.1, walked, files, opened]
  apply List.filterMap_congr
  intro inode listed
  unfold released closedBy
  split
  · rename_i open_
    have last := last_opener_iff (kernel_accounted reached).distinct member open_
    have count := counted.table.counts inode listed
    have same : inode.oCount - 1 = 0 ↔ LastOpener kernel proc inode.id := by
      rw [← last, count]
      omega
    exact if_congr same rfl rfl
  · rfl

/-! ## Segments -/

/-- With unique ids the segment of a listed process stands alone under its id. -/
theorem segment_split (reached : Reachable kernelSystem kernel) (distinct : (segIds kernel).Nodup)
    (member : proc ∈ kernel.procTable) :
    ∃ before seg rest, kernel.segTable.segList = before ++ seg :: rest ∧
      seg.id = (kernel.procs proc).segId ∧
      (∀ other ∈ before ++ rest, other.id ≠ (kernel.procs proc).segId) ∧
      segmentFind kernel.segTable (kernel.procs proc).segId = some seg := by
  have ids := reachable_ids reached
  have listed : (kernel.procs proc).segId ∈ kernel.segTable.segList.map Segment.id :=
    ids.mem_iff.mpr (List.mem_map_of_mem member)
  obtain ⟨seg, segMember, id⟩ := List.mem_map.mp listed
  have unique := ids.nodup_iff.mpr distinct
  obtain ⟨before, rest, split⟩ := List.append_of_mem segMember
  have found : segmentFind kernel.segTable seg.id = some seg := find_key unique segMember
  rw [split, List.map_append, List.map_cons, List.nodup_middle, List.nodup_cons,
    ← List.map_append] at unique
  rw [← id]
  exact ⟨before, seg, rest, split, rfl,
    fun other otherMember same => unique.1 (List.mem_map.mpr ⟨other, otherMember, same⟩), found⟩

/-! ## The finish -/

/-- A dispatch without a flag takes the head of the first ready queue that has one. -/
theorem schedule_none (queues : Scheduler) :
    Queues.schedule queues .none =
      { queues with
        scheduledProc := queues.highQueue.head?.or queues.lowQueue.head?
        highQueue := queues.highQueue.tail
        lowQueue := if queues.highQueue = [] then queues.lowQueue.tail else queues.lowQueue } := by
  rcases queues with ⟨curr, high, low, blocked, highQuantum, lowQuantum⟩
  cases high <;> rfl

theorem finish_defined {dispatched closed : Kernel} {segTable : SegmentTable}
    (running : kernel.scheduler.scheduledProc = some proc) (listed : proc ∈ kernel.procTable)
    (dispatch : dispatched =
      scheduleProcess { kernel with procTable := kernel.procTable.erase proc } .none)
    (closes : closed = closeFiles dispatched proc (dispatched.procs proc).oFiles)
    (frees : segmentFree closed.segTable (closed.procs proc).segId = some segTable) :
    processFinish kernel proc = some (leaveQueues { closed with segTable := segTable } proc) := by
  subst closes dispatch
  simp only [processFinish, if_pos listed, running, Option.bind_eq_bind, Option.bind_some,
    if_true, frees]

/-- The scheduled process of a reachable kernel can finish: its segment is found. -/
theorem finish_goes_through (reached : Reachable kernelSystem kernel)
    (running : kernel.scheduler.scheduledProc = some proc) :
    ∃ after, processFinish kernel proc = some after := by
  have listed := (scheduled_numbered reached running).1
  let dispatched := scheduleProcess { kernel with procTable := kernel.procTable.erase proc } .none
  let closed := closeFiles dispatched proc (dispatched.procs proc).oFiles
  have records : recordView dispatched =
      recordView { kernel with procTable := kernel.procTable.erase proc } := schedule_records _ _
  have image := view_image records proc
  simp only [recordView, Prod.mk.injEq] at records
  obtain ⟨procs, -, -, segments⟩ :=
    close_files_frame dispatched proc (dispatched.procs proc).oFiles
  have segId : (closed.procs proc).segId = (kernel.procs proc).segId := by
    rw [procs]
    exact (image_fields image).2.2.2.1
  have segTable : closed.segTable = kernel.segTable := segments.trans records.2.2.1
  have present : (kernel.procs proc).segId ∈ kernel.segTable.segList.map Segment.id :=
    (reachable_ids reached).mem_iff.mpr (List.mem_map_of_mem listed)
  obtain ⟨seg, found⟩ := find_listed present
  have frees : ∃ segTable, segmentFree closed.segTable (closed.procs proc).segId = some segTable := by
    rw [segTable, segId, segmentFree, found]
    exact ⟨_, rfl⟩
  obtain ⟨freed, frees⟩ := frees
  exact ⟨_, finish_defined running listed rfl rfl frees⟩

theorem finish_images (running : kernel.scheduler.scheduledProc = some proc)
    (finished : processFinish kernel proc = some after) (other : ProcId) :
    (after.procs other).image = (kernel.procs other).image := by
  obtain ⟨interrupted, closed, segTable, -, unlisted, rfl, -, left⟩ := finish_parts running finished
  obtain ⟨procs, -⟩ := close_files_frame interrupted proc (interrupted.procs proc).oFiles
  have images := view_image left other
  rw [procs] at images
  exact images.trans (view_image unlisted other)

/-- The segment of every other process is found again, with its pages. -/
theorem other_code (reached : Reachable kernelSystem kernel) (distinct : (segIds kernel).Nodup)
    (running : kernel.scheduler.scheduledProc = some proc)
    (finished : processFinish kernel proc = some after) {other : ProcId}
    (listed : other ∈ kernel.procTable) (differs : other ≠ proc) :
    ∃ seg, segmentFind kernel.segTable (kernel.procs other).segId = some seg ∧
      segmentFind after.segTable (kernel.procs other).segId = some seg := by
  have member := (scheduled_numbered reached running).1
  obtain ⟨-, unlinked, ids⟩ := finish_ids running finished
  obtain ⟨before, seg, rest, split, id, -, found⟩ := segment_split reached distinct listed
  have apart : (kernel.procs other).segId ≠ (kernel.procs proc).segId := fun same =>
    differs (List.inj_on_of_nodup_map distinct listed member same)
  have kept : seg ∈ after.segTable.segList := by
    rw [unlinked, List.mem_eraseP_of_neg (by simpa [id] using apart), split]
    simp
  have unique : (after.segTable.segList.map Segment.id).Nodup := by
    rw [ids]
    exact ((reachable_ids reached).nodup_iff.mpr distinct).erase _
  refine ⟨seg, found, ?_⟩
  rw [← id]
  exact find_key unique kept

def readerProgram : Program :=
  { sampleProgram with code := [⟨.read, 0, none⟩] }

def finishSampleEvents : List KernelEvent :=
  [.processCreate readerProgram blankPage,
    .processCreate { sampleProgram with segId := 2 } blankPage,
    .idleDispatch true, .execute ⟨.read, 0, none⟩, .diskTick, .quantumCompleted]

/-- The only opener of an inode runs, behind its last instruction. -/
def finishSample : Kernel := (run kernelSystem finishSampleEvents kernelInit).getD kernelInit

end Ribabari.FinishFrame

import Mathlib.Data.Multiset.Filter
import Ribabari.Disk.RequestTracks
import Ribabari.Foundation.LogReplay
import Ribabari.Kernel.LogEntries
import Ribabari.Kernel.RecordGrowth

/-!
# The I/O log is an account of the kernel

A reader of the I/O log alone can tell which files are open and which disk requests are
outstanding. A file is opened only when it is closed and closed only when it is open; it
is read or written only while it is open, and each time for a request that was logged
before and has not been served since.
-/

namespace Ribabari.IoAudit

open Ribabari.FirstMatch Ribabari.ProcessRecords Ribabari.KernelState Ribabari.DiskAndFiles
open Ribabari.KernelEvents Ribabari.QueueBoard Ribabari.QueueRefinement
open Ribabari.BoardInvariants Ribabari.RecordFrame Ribabari.RecordGrowth Ribabari.Placement
open Ribabari.OpenFiles Ribabari.ArmSweep Ribabari.RequestTracks Ribabari.LogEntries
open Ribabari.LogReplay Ribabari.TransitionSystem

set_option autoImplicit false

/-! ## The auditor -/

/-- What a reader of the log knows: the open files, and the name and the direction of
every request that waits for the disk. -/
structure IoKnown where
  active : List Int
  outstanding : Multiset (CString × Bool)

def IoKnown.serve (known : IoKnown) (name : CString) (inumber : Int) (read : Bool) :
    Option IoKnown :=
  if inumber ∈ known.active ∧ (name, read) ∈ known.outstanding then
    some { known with outstanding := known.outstanding.erase (name, read) }
  else none

def ioAuditStep (known : IoKnown) : IoLogInfo → Option IoKnown
  | .print _ _ => some known
  | .diskRequest name read =>
      some { known with outstanding := (name, read) ::ₘ known.outstanding }
  | .fileSystem name inumber .read => known.serve name inumber true
  | .fileSystem name inumber .write => known.serve name inumber false
  | .fileSystem _ inumber .fOpen =>
      if inumber ∈ known.active then none
      else some { known with active := known.active ++ [inumber] }
  | .fileSystem _ inumber .fClose =>
      if inumber ∈ known.active then
        some { known with active := known.active.erase inumber }
      else none

def ioAuditor : System IoKnown IoLogInfo where
  start := { active := [], outstanding := 0 }
  step := ioAuditStep

def activeFiles (kernel : Kernel) : List Int := kernel.fileTable.map Inode.id

def requestMark (kernel : Kernel) (request : DiskRequest) : CString × Bool :=
  ((kernel.procs request.process).name, request.read)

/-- The kernel's own state of what the reader knows. -/
def ioKnown (kernel : Kernel) : IoKnown where
  active := activeFiles kernel
  outstanding := (kernel.diskScheduler.pendingRequests : Multiset DiskRequest).map
    (requestMark kernel)

variable {kernel after : Kernel}

/-! ## A pending request has its file open -/

def RequestsOpen (kernel : Kernel) : Prop :=
  ∀ request ∈ kernel.diskScheduler.pendingRequests,
    inodeNumber (diskBlock request.track) ∈ (kernel.procs request.process).oFiles

/-- A step that makes a request pending opens its file. -/
theorem requested_open {event : KernelEvent} {request : DiskRequest}
    (fired : kernelStep kernel event = some after)
    (requested : boardEvent kernel event = .requestDisk request) :
    inodeNumber (diskBlock request.track) ∈ (after.procs request.process).oFiles := by
  cases event with
  | execute instr =>
      obtain ⟨proc, running, evaluated⟩ := execute_fires fired
      rcases instr with ⟨op, value, name⟩
      simp only [boardEvent, running, Option.getD_some] at requested
      cases op with
      | read | write =>
          obtain rfl := Option.some.inj evaluated
          obtain ⟨opening, -, -, opens⟩ := disk_call_opens (fetched kernel proc) proc value _
          obtain rfl := BoardEvent.requestDisk.inj requested
          rw [opens]
          exact open_for_has opening proc _
      | exec | print | semP | semV => cases requested
  | processCreate | idleDispatch | quantumCompleted | processFinish | diskTick =>
      cases requested

theorem reachable_open (reached : Reachable kernelSystem kernel) : RequestsOpen kernel := by
  apply reachable_invariant RequestsOpen reached
  · intro request member
    exact absurd member List.not_mem_nil
  · intro before event after prior opened fired request member
    rcases board_pending (kernel_step_board fired) member with old | requested
    · have used := (pending_listed prior old).2
      exact (step_keeps fired used).oFiles (opened request old)
    · exact requested_open fired requested

/-- The file of a pending request is in the file table. -/
theorem awaited_active (reached : Reachable kernelSystem kernel) {request : DiskRequest}
    (member : request ∈ kernel.diskScheduler.pendingRequests) :
    inodeNumber (diskBlock request.track) ∈ activeFiles kernel := by
  have opened := reachable_open reached request member
  apply (reachable_counted reached).table.present
  exact List.countP_pos_iff.mpr
    ⟨request.process, (pending_listed reached member).1, decide_eq_true opened⟩

/-! ## What an event writes is accepted -/

theorem find_none_iff (kernel : Kernel) (inumber : Int) :
    findInode kernel.fileTable inumber = none ↔ inumber ∉ activeFiles kernel := by
  rw [findInode, List.find?_eq_none, activeFiles, List.mem_map]
  constructor
  · rintro missing ⟨inode, member, rfl⟩
    exact missing inode member (beq_self_eq_true inode.id)
  · intro missing inode member same
    exact missing ⟨inode, member, eq_of_beq same⟩

theorem found_active {inumber : Int} {inode : Inode}
    (found : findInode kernel.fileTable inumber = some inode) :
    inumber ∈ activeFiles kernel := by
  by_contra missing
  rw [(find_none_iff kernel inumber).mpr missing] at found
  exact nomatch found

theorem open_active (kernel : Kernel) (proc : ProcId) (inumber : Int) :
    activeFiles (fsOpenFor kernel proc inumber) =
      if inumber ∈ activeFiles kernel then activeFiles kernel
      else activeFiles kernel ++ [inumber] := by
  have ids : ∀ table : List Inode,
      (updateFirst (fun inode => inode.id == inumber) Inode.opened table).map Inode.id =
        table.map Inode.id := by
    intro table
    exact map_update_first (f := Inode.opened) Inode.id (fun _ _ => rfl) table
  have active : activeFiles kernel ++ [inumber] =
      (kernel.fileTable ++ [inodeCreate inumber]).map Inode.id := by
    rw [List.map_append]
    rfl
  unfold fsOpenFor
  cases found : findInode kernel.fileTable inumber with
  | none =>
      rw [if_neg ((find_none_iff kernel inumber).mp found), active]
      dsimp only
      split
      · rfl
      · exact ids (kernel.fileTable ++ [inodeCreate inumber])
  | some inode =>
      rw [if_pos (found_active found)]
      dsimp only
      split
      · rfl
      · exact ids kernel.fileTable

theorem open_replays (kernel : Kernel) (proc : ProcId) (inumber : Int)
    (outstanding : Multiset (CString × Bool)) :
    run ioAuditor (openEntries kernel proc inumber) ⟨activeFiles kernel, outstanding⟩ =
      some ⟨activeFiles (fsOpenFor kernel proc inumber), outstanding⟩ := by
  rw [open_active, openEntries]
  cases found : findInode kernel.fileTable inumber with
  | none =>
      have missing := (find_none_iff kernel inumber).mp found
      rw [if_neg missing, run_single]
      exact if_neg missing
  | some inode =>
      rw [if_pos (found_active found)]
      rfl

theorem close_replays (kernel : Kernel) (proc : ProcId) (inumber : Int)
    (outstanding : Multiset (CString × Bool)) :
    run ioAuditor (closeEntries kernel proc inumber) ⟨activeFiles kernel, outstanding⟩ =
      some ⟨activeFiles (fsCloseRequest kernel proc inumber), outstanding⟩ := by
  unfold closeEntries fsCloseRequest
  cases found : findInode kernel.fileTable inumber with
  | none => rfl
  | some inode =>
      dsimp only
      split
      case isTrue =>
          obtain ⟨before, rest, split, matched, skipped⟩ := find_split found
          have erased : (kernel.fileTable.eraseP fun other => other.id == inumber).map Inode.id =
              (activeFiles kernel).erase inumber := by
            rw [activeFiles, split, erase_first_append skipped matched, List.map_append,
              List.map_append, List.map_cons, List.erase_append_right, eq_of_beq matched,
              List.erase_cons_head]
            intro member
            obtain ⟨other, early, same⟩ := List.mem_map.mp member
            exact absurd (beq_iff_eq.mpr same) (by simp [skipped other early])
          rw [run_single]
          refine (if_pos (found_active found)).trans ?_
          rw [← erased]
          rfl
      case isFalse =>
          have ids := map_update_first (p := fun other : Inode => other.id == inumber)
            (f := Inode.closed) Inode.id (fun _ _ => rfl) kernel.fileTable
          exact congrArg (fun active => some (IoKnown.mk active outstanding)) ids.symm

theorem close_all_replays (kernel : Kernel) (proc : ProcId) (files : List Int)
    (outstanding : Multiset (CString × Bool)) :
    run ioAuditor (closeAllEntries kernel proc files) ⟨activeFiles kernel, outstanding⟩ =
      some ⟨activeFiles (closeFiles kernel proc files), outstanding⟩ := by
  induction files generalizing kernel with
  | nil => rfl
  | cons inumber files ih =>
      rw [closeAllEntries, run_append, close_replays, Option.bind_some, ih]
      rfl

/-- Requests that are outstanding, with their files open, can be served in any order. -/
theorem served_replays (kernel : Kernel) {active : List Int} (others : Multiset (CString × Bool))
    (requests : List DiskRequest)
    (opened : ∀ request ∈ requests, inodeNumber (diskBlock request.track) ∈ active) :
    run ioAuditor (requests.map (servedEntry kernel))
        ⟨active, ↑(requests.map (requestMark kernel)) + others⟩ =
      some ⟨active, others⟩ := by
  induction requests with
  | nil =>
      rw [List.map_nil, List.map_nil, Multiset.coe_nil, Multiset.zero_add]
      rfl
  | cons request requests ih =>
      have first := opened request List.mem_cons_self
      have rest := ih fun other member => opened other (List.mem_cons_of_mem _ member)
      have listed : requestMark kernel request ∈
          (↑((request :: requests).map (requestMark kernel)) : Multiset (CString × Bool)) +
            others :=
        Multiset.mem_add.mpr (.inl (Multiset.mem_coe.mpr List.mem_cons_self))
      have served : ioAuditStep
          ⟨active, ↑((request :: requests).map (requestMark kernel)) + others⟩
            (servedEntry kernel request) =
          some ⟨active, ↑(requests.map (requestMark kernel)) + others⟩ := by
        have erased : ((↑((request :: requests).map (requestMark kernel)) :
            Multiset (CString × Bool)) + others).erase (requestMark kernel request) =
              ↑(requests.map (requestMark kernel)) + others := by
          rw [List.map_cons, ← Multiset.cons_coe, Multiset.cons_add, Multiset.erase_cons_head]
        rw [← erased]
        cases direction : request.read with
        | true =>
            simp only [requestMark, direction] at listed ⊢
            simp only [servedEntry, direction, if_true, ioAuditStep, IoKnown.serve]
            exact if_pos ⟨first, listed⟩
        | false =>
            simp only [requestMark, direction] at listed ⊢
            simp only [servedEntry, direction, Bool.false_eq_true, if_false, ioAuditStep,
              IoKnown.serve]
            exact if_pos ⟨first, listed⟩
      rw [List.map_cons, run]
      change (ioAuditStep _ _).bind _ = _
      rw [served, Option.bind_some, rest]

/-- What an instruction adds to the outstanding requests. -/
def instrMarks (kernel : Kernel) (proc : ProcId) (instr : Instr) : Multiset (CString × Bool) :=
  match instr.op with
  | .read => {((kernel.procs proc).name, true)}
  | .write => {((kernel.procs proc).name, false)}
  | .exec | .print | .semP | .semV => 0

theorem active_of_records (same : recordView after = recordView kernel) :
    activeFiles after = activeFiles kernel := by
  simp only [recordView, Prod.mk.injEq] at same
  rw [activeFiles, activeFiles, same.2.2.2.1]

theorem disk_call_replays (kernel : Kernel) (proc : ProcId) (track : Int) (read : Bool)
    (outstanding : Multiset (CString × Bool)) :
    run ioAuditor (.diskRequest (kernel.procs proc).name read ::
        openEntries kernel proc (inodeNumber (diskBlock track)))
        ⟨activeFiles kernel, outstanding⟩ =
      some ⟨activeFiles (diskCall kernel proc track read),
        ((kernel.procs proc).name, read) ::ₘ outstanding⟩ := by
  obtain ⟨requested, same, -, opens⟩ := disk_call_opens kernel proc track read
  have opened := open_replays requested proc (inodeNumber (diskBlock track))
    (((kernel.procs proc).name, read) ::ₘ outstanding)
  rw [open_entries_same same, active_of_records same, ← opens] at opened
  exact opened

theorem eval_replays {proc : ProcId} {instr : Instr}
    (evaluated : eval kernel proc instr = some after) (outstanding : Multiset (CString × Bool)) :
    run ioAuditor (instrIo kernel proc instr) ⟨activeFiles kernel, outstanding⟩ =
      some ⟨activeFiles after, instrMarks kernel proc instr + outstanding⟩ := by
  rcases instr with ⟨op, value, name⟩
  cases op with
  | read =>
      obtain rfl := Option.some.inj evaluated
      exact disk_call_replays kernel proc value true outstanding
  | write =>
      obtain rfl := Option.some.inj evaluated
      exact disk_call_replays kernel proc value false outstanding
  | exec =>
      obtain rfl := Option.some.inj evaluated
      simp only [instrMarks, Multiset.zero_add]
      rfl
  | print =>
      obtain rfl := Option.some.inj evaluated
      have same := (print_records (Dispatch.scheduleProcess kernel .ioRequested) proc value).trans
        (schedule_records kernel .ioRequested)
      simp only [instrMarks, Multiset.zero_add]
      rw [← active_of_records same]
      rfl
  | semP =>
      obtain ⟨sem, called, -, call, charged⟩ := acquire_inv evaluated
      have same : activeFiles after = activeFiles called := by
        rcases charged with rfl | rfl <;> rfl
      simp only [instrMarks, Multiset.zero_add, same, active_of_records (semaphore_p_records call)]
      rfl
  | semV =>
      obtain ⟨sem, called, -, call, rfl⟩ := release_inv evaluated
      have same : activeFiles (chargeSemaphore called proc) = activeFiles called := rfl
      simp only [instrMarks, Multiset.zero_add, same, active_of_records (semaphore_v_records call)]
      rfl

/-! ## Every run -/

/-- The names of the pending requests are those of the state before. -/
theorem marks_kept (reached : Reachable kernelSystem kernel) {event : KernelEvent}
    (fired : kernelStep kernel event = some after) {request : DiskRequest}
    (member : request ∈ after.diskScheduler.pendingRequests) :
    requestMark after request = requestMark kernel request := by
  have used : request.process < kernel.nextProcId := by
    rcases board_pending (kernel_step_board fired) member with old | requested
    · exact (pending_listed reached old).2
    · cases event with
      | execute instr =>
          obtain ⟨proc, running, -⟩ := execute_fires fired
          rcases instr with ⟨op, value, name⟩
          simp only [boardEvent, running, Option.getD_some] at requested
          cases op with
          | read | write =>
              obtain rfl := BoardEvent.requestDisk.inj requested
              exact (scheduled_numbered reached running).2
          | exec | print | semP | semV => cases requested
      | processCreate | idleDispatch | quantumCompleted | processFinish | diskTick =>
          cases requested
  rw [requestMark, requestMark, (step_keeps fired used).name]

theorem known_after (reached : Reachable kernelSystem kernel) {event : KernelEvent}
    (fired : kernelStep kernel event = some after) :
    ioKnown after = ⟨activeFiles after,
      ↑((pendingAfter kernel.diskScheduler.pendingRequests (boardEvent kernel event)).map
        (requestMark kernel))⟩ := by
  have pending : after.diskScheduler.pendingRequests =
      pendingAfter kernel.diskScheduler.pendingRequests (boardEvent kernel event) :=
    board_pending_after (kernel_step_board fired)
  rw [← pending, ioKnown, Multiset.map_coe]
  congr 1
  exact congrArg _ (List.map_congr_left fun request => marks_kept reached fired)

/-- An instruction adds its mark to those of the pending requests. -/
theorem marks_of_instr (kernel : Kernel) (proc : ProcId) (instr : Instr) :
    instrMarks (fetched kernel proc) proc instr + (ioKnown kernel).outstanding =
      ↑((pendingAfter kernel.diskScheduler.pendingRequests (instrEvent kernel proc instr)).map
        (requestMark kernel)) := by
  have added : ∀ (request : DiskRequest) (mark : CString × Bool),
      requestMark kernel request = mark →
      ({mark} : Multiset (CString × Bool)) + (ioKnown kernel).outstanding =
        ↑((kernel.diskScheduler.pendingRequests ++ [request]).map (requestMark kernel)) := by
    rintro request mark rfl
    rw [ioKnown, Multiset.map_coe, List.map_append, Multiset.add_comm, ← Multiset.coe_add]
    rfl
  have name := fetched_name kernel proc
  rcases instr with ⟨op, value, sem⟩
  cases op with
  | read => exact added (requestOf kernel proc value true) _ (by rw [name]; rfl)
  | write => exact added (requestOf kernel proc value false) _ (by rw [name]; rfl)
  | exec | print | semP | semV => exact Multiset.zero_add _

/-- A finish closes the files of its process. -/
theorem finish_replays (reached : Reachable kernelSystem kernel)
    (fired : kernelStep kernel .processFinish = some after) :
    run ioAuditor (eventEntries kernel .processFinish).io (ioKnown kernel) =
      some (ioKnown after) := by
  rw [known_after reached fired]
  obtain ⟨proc, running, finished⟩ := finish_fires fired
  obtain ⟨dispatched, closed, segTable, -, unlisted, rfl, -, left⟩ :=
    finish_parts running finished
  have record := image_fields (view_image unlisted proc)
  have files := active_of_records unlisted
  have closes := active_of_records left
  simp only [recordView, Prod.mk.injEq] at unlisted
  have replayed := close_all_replays dispatched proc (dispatched.procs proc).oFiles
    (ioKnown kernel).outstanding
  rw [files, close_entries_same proc _ unlisted.2.2.2.1 record.1] at replayed
  rw [record.2.2.2.2] at replayed closes
  simp only [eventEntries, running, Option.elim_some, closes]
  exact replayed

/-- A tick serves the requests for its track, whose files are open. -/
theorem tick_replays (reached : Reachable kernelSystem kernel)
    (fired : kernelStep kernel .diskTick = some after) :
    run ioAuditor (eventEntries kernel .diskTick).io (ioKnown kernel) = some (ioKnown after) := by
  rw [known_after reached fired]
  obtain rfl := Option.some.inj fired
  have opened : ∀ request ∈ completed kernel,
      inodeNumber (diskBlock request.track) ∈ activeFiles kernel := by
    intro request member
    exact awaited_active reached (List.mem_filter.mp member).1
  have parted : (ioKnown kernel).outstanding =
      ↑((completed kernel).map (requestMark kernel)) +
        ↑((kernel.diskScheduler.pendingRequests.filter fun request =>
          ¬request.track = kernel.diskScheduler.currTrack).map (requestMark kernel)) := by
    rw [ioKnown, Multiset.map_coe, Multiset.coe_add, ← List.map_append]
    apply Multiset.coe_eq_coe.mpr
    apply List.Perm.map
    simpa [completed, decide_not] using (List.filter_append_perm _ _).symm
  have known : ioKnown kernel = ⟨activeFiles kernel, (ioKnown kernel).outstanding⟩ := rfl
  rw [active_of_records (tick_records kernel), known, parted]
  exact served_replays kernel _ (completed kernel) opened

/-- What an event writes takes the reader from one state to the next. -/
theorem step_replays (reached : Reachable kernelSystem kernel) {event : KernelEvent}
    (fired : kernelStep kernel event = some after) :
    run ioAuditor (eventEntries kernel event).io (ioKnown kernel) = some (ioKnown after) := by
  have silent : activeFiles after = activeFiles kernel →
      run ioAuditor [] (ioKnown kernel) = some ⟨activeFiles after,
        ↑(kernel.diskScheduler.pendingRequests.map (requestMark kernel))⟩ := by
    intro files
    rw [files]
    rfl
  rw [known_after reached fired]
  cases event with
  | processCreate program fresh =>
      have same := create_records kernel program fresh
      rw [Option.some.inj fired] at same
      simp only [recordView, Prod.mk.injEq] at same
      have none : (eventEntries kernel (.processCreate program fresh)).io = [] := by
        cases running : kernel.scheduler.scheduledProc <;>
          simp [eventEntries, runEntries, running, Entries.empty]
      rw [none]
      exact silent (congrArg (List.map Inode.id) same.2.2.2.1)
  | idleDispatch logged =>
      obtain ⟨idle, rfl⟩ := idle_fires fired
      have none : (eventEntries kernel (.idleDispatch logged)).io = [] := by
        cases logged <;> simp [eventEntries, idle, Entries.empty]
      rw [none]
      apply silent
      apply active_of_records
      refine (schedule_records _ .none).trans ?_
      cases logged <;> rfl
  | execute instr =>
      obtain ⟨proc, running, evaluated⟩ := execute_fires fired
      have replayed := eval_replays evaluated (ioKnown kernel).outstanding
      rw [fetched_io, marks_of_instr] at replayed
      simp only [eventEntries, boardEvent, running, Option.elim_some, Option.getD_some]
      exact replayed
  | quantumCompleted =>
      obtain ⟨proc, running, rfl⟩ := quantum_fires fired
      simp only [eventEntries, running, Option.elim_some]
      exact silent (active_of_records (schedule_records kernel .quantumCompleted))
  | processFinish =>
      rw [← known_after reached fired]
      exact finish_replays reached fired
  | diskTick =>
      rw [← known_after reached fired]
      exact tick_replays reached fired

def ioAudited : Audited kernelSystem ioAuditor where
  log kernel := kernel.logs.ioLogList
  record := ioKnown
  startLog := rfl
  startRecord := rfl
  writes := by
    intro before event after reached fired
    refine ⟨(eventEntries before event).io, ?_, step_replays reached fired⟩
    rw [step_logs fired]
    rfl

/-- The whole I/O log of a reachable kernel is accepted, and a reader of it knows the open
files and the outstanding requests of that kernel. -/
theorem io_log_replays (reached : Reachable kernelSystem kernel) :
    run ioAuditor kernel.logs.ioLogList ioAuditor.start = some (ioKnown kernel) :=
  ioAudited.replays reached

theorem io_log_replays_sample :
    run ioAuditor sampleKernel.logs.ioLogList ioAuditor.start =
      some ⟨[inodeNumber (diskBlock 45)], {(['s', 'i', 'n', 't', '1'], true)}⟩ :=
  io_log_replays sample_reachable

end Ribabari.IoAudit

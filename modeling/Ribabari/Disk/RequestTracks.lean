import Ribabari.Abstract.QueueRefinement
import Ribabari.Kernel.Placement
import Ribabari.Model.ProgramFile

/-!
# The tracks of the requests

Nothing between the parser and the pending list looks at the operand of a `read` or a
`write`: a pending request is on the track that some evaluated instruction names. So the
requests are on the disk when these operands are, and only then.
-/

namespace Ribabari.RequestTracks

open Ribabari.CLibrary Ribabari.ProcessRecords Ribabari.KernelState Ribabari.DiskAndFiles
open Ribabari.KernelEvents Ribabari.ProgramFile Ribabari.QueueBoard Ribabari.QueueRefinement
open Ribabari.Placement Ribabari.TransitionSystem

set_option autoImplicit false

/-- The track that an instruction asks for. -/
def diskOperand (instr : Instr) : Option Int :=
  match instr.op with
  | .read | .write => some instr.value
  | .exec | .print | .semP | .semV => none

def requestedTrack : KernelEvent → Option Int
  | .execute instr => diskOperand instr
  | _ => none

/-- The arm visits the track. -/
def OnDisk (track : Int) : Prop := 0 ≤ track ∧ track ≤ diskTrackLimit

instance : DecidablePred OnDisk := fun _ => inferInstanceAs (Decidable (_ ∧ _))

/-! ## Where requests come from -/

/-- What a board event does to the pending list. -/
def pendingAfter (pending : List DiskRequest) : BoardEvent → List DiskRequest
  | .requestDisk request => pending ++ [request]
  | .tick track => pending.filter fun request => ¬request.track = track
  | _ => pending

theorem board_pending_after {board after : Board} {event : BoardEvent}
    (fired : boardStep board event = some after) :
    after.pending = pendingAfter board.pending event := by
  cases event with
  | create names high =>
      obtain rfl := Option.some.inj fired
      rfl
  | idle =>
      obtain ⟨-, rfl⟩ := idle_inv fired
      rfl
  | tick track =>
      obtain rfl := Option.some.inj fired
      rfl
  | run | quantum | print =>
      obtain ⟨proc, -, step⟩ := Option.bind_eq_some_iff.mp fired
      obtain rfl := Option.some.inj step
      rfl
  | acquire name =>
      obtain ⟨proc, -, step⟩ := Option.bind_eq_some_iff.mp fired
      obtain ⟨sem, -, rfl⟩ := Option.map_eq_some_iff.mp step
      rfl
  | release name =>
      obtain ⟨proc, -, step⟩ := Option.bind_eq_some_iff.mp fired
      obtain ⟨sem, -, released⟩ := Option.bind_eq_some_iff.mp step
      obtain ⟨result, -, rfl⟩ := Option.map_eq_some_iff.mp released
      rfl
  | requestDisk request =>
      obtain ⟨proc, -, step⟩ := Option.bind_eq_some_iff.mp fired
      obtain ⟨-, rfl⟩ := request_inv step
      rfl
  | finish =>
      obtain ⟨proc, -, step⟩ := Option.bind_eq_some_iff.mp fired
      obtain ⟨-, rfl⟩ := finish_inv step
      rfl

/-- Only a disk request makes the pending list longer, by itself. -/
theorem board_pending {board after : Board} {event : BoardEvent} {request : DiskRequest}
    (fired : boardStep board event = some after) (member : request ∈ after.pending) :
    request ∈ board.pending ∨ event = .requestDisk request := by
  rw [board_pending_after fired] at member
  cases event with
  | requestDisk own =>
      rcases List.mem_append.mp member with old | new
      · exact .inl old
      · rw [List.mem_singleton.mp new]
        exact .inr rfl
  | tick track => exact .inl (List.mem_filter.mp member).1
  | create | idle | run | quantum | print | acquire | release | finish => exact .inl member

/-- A request that a step makes pending is on the track of the instruction it executes. -/
theorem step_pending {kernel after : Kernel} {event : KernelEvent} {request : DiskRequest}
    (fired : kernelStep kernel event = some after)
    (member : request ∈ after.diskScheduler.pendingRequests) :
    request ∈ kernel.diskScheduler.pendingRequests ∨
      requestedTrack event = some request.track := by
  rcases board_pending (kernel_step_board fired) member with old | requested
  · exact .inl old
  · right
    cases event with
    | execute instr =>
        obtain ⟨op, value, sem⟩ := instr
        cases op with
        | read | write =>
            rw [← BoardEvent.requestDisk.inj requested]
            rfl
        | exec | print | semP | semV => exact nomatch requested
    | processCreate | idleDispatch | quantumCompleted | processFinish | diskTick =>
        exact nomatch requested

/-! ## Inode numbers -/

/-- The two macros of a track are one linear map on 32-bit integers, and its factor is
four times an odd number. -/
theorem inode_number_eq_iff (track other : Int) :
    inodeNumber (diskBlock track) = inodeNumber (diskBlock other) ↔
      (track - other) % 2 ^ 30 = 0 := by
  have linear : ∀ track, inodeNumber (diskBlock track) =
      Int.bmod (track * 493908 + 7589) (2 ^ 32) := by
    intro track
    rw [inodeNumber, diskBlock, int32, int32, ← Int.bmod_add_bmod, Int.bmod_mul_bmod,
      Int.bmod_add_bmod]
    congr 1
    omega
  rw [linear, linear, Int.bmod_eq_bmod_iff_bmod_sub_eq_zero, ← Int.dvd_iff_bmod_eq_zero]
  constructor <;> intro divides <;> omega

theorem inode_number_on_disk {track other : Int} (onDisk : OnDisk track) (otherOn : OnDisk other)
    (same : inodeNumber (diskBlock track) = inodeNumber (diskBlock other)) : track = other := by
  have congruent := (inode_number_eq_iff track other).mp same
  unfold OnDisk diskTrackLimit at onDisk otherOn
  omega

/-! ## Runs -/

/-- Every pending request was asked for by an instruction of the run. -/
theorem pending_requested {past : List (Kernel × KernelEvent)} {kernel : Kernel}
    (trace : Trace kernelSystem past kernel) :
    ∀ request ∈ kernel.diskScheduler.pendingRequests,
      ∃ entry ∈ past, requestedTrack entry.2 = some request.track := by
  induction trace with
  | start =>
      intro request member
      simp [kernelSystem, kernelInit, diskSchedulerInit] at member
  | @next past before after event prior fired ih =>
      intro request member
      rcases step_pending fired member with old | asked
      · obtain ⟨entry, entryMember, asked⟩ := ih request old
        exact ⟨entry, List.mem_append_left _ entryMember, asked⟩
      · exact ⟨(before, event), by simp, asked⟩

/-- The tracks that are pending are operands of the `read`s and `write`s of the run, and
two tracks have one inode number exactly when they agree modulo `2 ^ 30`. So where all
these operands are on the disk, every pending request is, and no two requested tracks
share an inode number. -/
theorem requests_are_operands {past : List (Kernel × KernelEvent)} {kernel : Kernel}
    (trace : Trace kernelSystem past kernel) :
    (∀ request ∈ kernel.diskScheduler.pendingRequests,
        ∃ entry ∈ past, requestedTrack entry.2 = some request.track) ∧
      (∀ track other, inodeNumber (diskBlock track) = inodeNumber (diskBlock other) ↔
        (track - other) % 2 ^ 30 = 0) ∧
      ((∀ entry ∈ past, ∀ track ∈ requestedTrack entry.2, OnDisk track) →
        (∀ request ∈ kernel.diskScheduler.pendingRequests, OnDisk request.track) ∧
          ∀ first ∈ past, ∀ track ∈ requestedTrack first.2,
            ∀ second ∈ past, ∀ other ∈ requestedTrack second.2,
              track ≠ other → inodeNumber (diskBlock track) ≠ inodeNumber (diskBlock other)) := by
  refine ⟨pending_requested trace, inode_number_eq_iff, fun onDisk => ⟨?_, ?_⟩⟩
  · intro request member
    obtain ⟨entry, entryMember, asked⟩ := pending_requested trace request member
    exact onDisk entry entryMember request.track asked
  · intro first firstMember track asked second secondMember other otherAsked different same
    exact different (inode_number_on_disk (onDisk first firstMember track asked)
      (onDisk second secondMember other otherAsked) same)

def samplePending : List (Kernel × KernelEvent) := history kernelSystem sampleEvents kernelInit

/-- The sample's request for track 45 is on the disk. -/
theorem requests_are_operands_sample :
    sampleKernel.diskScheduler.pendingRequests.map DiskRequest.track = [45] ∧
      ∀ request ∈ sampleKernel.diskScheduler.pendingRequests, OnDisk request.track := by
  have trace : Trace kernelSystem samplePending sampleKernel :=
    trace_history sampleEvents .start rfl
  refine ⟨by decide, ((requests_are_operands trace).2.2 ?_).1⟩
  intro entry member
  have fired := history_event member
  simp only [sampleEvents, List.mem_cons, List.not_mem_nil, or_false] at fired
  rcases fired with fired | fired | fired | fired | fired | fired <;>
    simp [fired, requestedTrack, diskOperand, OnDisk, diskTrackLimit]

/-- A program that reads a track the disk does not have. -/
def farProgram : Program :=
  { sampleProgram with
    semaphores := []
    code := [⟨.read, 300, none⟩] }

def farEvents : List KernelEvent :=
  [.processCreate farProgram blankPage, .idleDispatch true, .execute ⟨.read, 300, none⟩]

def farKernel : Kernel := (run kernelSystem farEvents kernelInit).getD kernelInit

theorem far_track_is_requested :
    instrParse ⟨.exec, 0, none⟩ ['r', 'e', 'a', 'd', ' ', '3', '0', '0', '\n'] [] =
        some ⟨.read, 300, none⟩ ∧
      Reachable kernelSystem farKernel ∧
      (∃ request ∈ farKernel.diskScheduler.pendingRequests, ¬OnDisk request.track) ∧
      inodeNumber (diskBlock 0) = inodeNumber (diskBlock (2 ^ 30)) :=
  ⟨by decide, reachable_run farEvents rfl, by decide, by decide⟩

end Ribabari.RequestTracks

import Ribabari.Disk.ArmSweep

/-!
# The turnaround of a request

`disk_request` computes the turnaround of a request from the arm's position and
direction. The formula is the way the arm goes, except for a request on the arm's own
track while the arm moves down: it is served at once but charged a way to zero and back.
-/

namespace Ribabari.Turnaround

open Ribabari.ProcessRecords Ribabari.KernelState Ribabari.DiskAndFiles
open Ribabari.SweepArm Ribabari.ArmSweep

set_option autoImplicit false

/-- The node that `disk_request` appends, with the last track as a parameter. -/
def requestOn (limit : Int) (kernel : Kernel) (proc : ProcId) (track : Int) (read : Bool) :
    DiskRequest where
  process := proc
  track := track
  read := read
  turnaround := requestTime limit kernel.diskScheduler track

/-- `diskRequest` with the last track as a parameter. -/
def diskRequestOn (limit : Int) (kernel : Kernel) (proc : ProcId) (track : Int) (read : Bool) :
    Kernel :=
  let request := requestOn limit kernel proc track read
  let logged := ioDiskLog kernel (kernel.procs proc).name read
  (Kernel.setPending logged (kernel.diskScheduler.pendingRequests ++ [request])).modifyProc proc
    fun process => process.setRemaining (process.remaining - request.turnaround)

theorem disk_request_is_on (kernel : Kernel) (proc : ProcId) (track : Int) (read : Bool) :
    diskRequest kernel proc track read = diskRequestOn diskTrackLimit kernel proc track read :=
  rfl

/-- How many of the passes before pass number `tick` move the arm. -/
def trackMoves {limit : Int} (run : SweepRun limit) : Nat → Nat
  | 0 => 0
  | tick + 1 => trackMoves run tick + if run.track (tick + 1) = run.track tick then 0 else 1

theorem track_moves_eq {limit : Int} (run : SweepRun limit) (tick : Nat) :
    trackMoves run tick = (armOf (run.kernels 0).diskScheduler).moves limit tick := by
  induction tick with
  | zero => rfl
  | succ tick ih =>
      have here := run.arm_after 0 tick
      have next := run.arm_next tick
      rw [Nat.zero_add] at here
      rw [here] at next
      rw [trackMoves, ih, moves_add, Arm.moves, Arm.moves, Nat.add_zero]
      congr 2
      rw [← next, ← here]
      rfl

/-- The formula charges the way of the arm, but for one case. -/
theorem request_time_travel (limit : Int) (disk : DiskScheduler) (track : Int) :
    requestTime limit disk track =
        diskOperationTime + diskTrackMoveTime * (armOf disk).travel limit track ↔
      disk.forwardDir = true ∨ track ≠ disk.currTrack ∨ disk.currTrack = 0 := by
  unfold requestTime Arm.travel armOf diskOperationTime diskTrackMoveTime
  cases forward : disk.forwardDir with
  | true =>
      simp only [if_true, true_or, iff_true]
      split_ifs <;> omega
  | false =>
      simp only [Bool.false_eq_true, if_false, false_or]
      split_ifs <;> omega

/-- From the state the request is made in, whatever else comes in later, the request is
completed, and its turnaround is the operation time and the time of the arm's moves up
to that pass exactly when the arm moves up, stands elsewhere or is on the first track. -/
theorem turnaround_is_arm_time_iff {limit : Int} (run : SweepRun limit) (kernel : Kernel)
    (proc : ProcId) (track : Int) (read : Bool)
    (starts : run.kernels 0 = diskRequestOn limit kernel proc track read)
    (onTrack : 0 ≤ track ∧ track ≤ limit) :
    ∃ tick, requestOn limit kernel proc track read ∈ completed (run.kernels tick) ∧
      (∀ earlier < tick,
        requestOn limit kernel proc track read ∉ completed (run.kernels earlier)) ∧
      ((requestOn limit kernel proc track read).turnaround =
          diskOperationTime + diskTrackMoveTime * trackMoves run tick ↔
        kernel.diskScheduler.forwardDir = true ∨ track ≠ kernel.diskScheduler.currTrack ∨
          kernel.diskScheduler.currTrack = 0) := by
  have arm : armOf (run.kernels 0).diskScheduler = armOf kernel.diskScheduler := by
    rw [starts]
    rfl
  have inRange := run.inRange
  rw [arm] at inRange
  obtain ⟨tick, firstOn, -, moved⟩ := SweepArm.first_on_exists inRange onTrack
  have first : run.FirstOn 0 track tick := by
    have shifted := run.first_on_iff 0 tick track
    rw [Nat.zero_add, arm] at shifted
    exact shifted.mpr firstOn
  have appended : requestOn limit kernel proc track read ∈ run.appended 0 := by
    rw [← run.begins, starts]
    exact List.mem_append_right _ List.mem_cons_self
  refine ⟨tick, ?_, ?_, ?_⟩
  · rw [run.completed_eq, List.mem_flatMap]
    exact ⟨0, by simp, List.mem_filter.mpr ⟨appended, decide_eq_true first⟩⟩
  · intro earlier sooner member
    have here : track = run.track earlier := of_decide_eq_true (List.mem_filter.mp member).2
    exact first.2.2 earlier sooner (Nat.zero_le _) here.symm
  · rw [track_moves_eq, arm, moved]
    exact request_time_travel limit kernel.diskScheduler track

/-- The arm climbs from track 0 to track 5. -/
theorem turnaround_is_arm_time_iff_sample :
    ∃ tick, requestOn 200 kernelInit 1 5 true ∈
        completed ((SweepRun.ofAppends 200 (diskRequestOn 200 kernelInit 1 5 true) (by decide)
          fun _ => []).kernels tick) ∧
      (requestOn 200 kernelInit 1 5 true).turnaround =
        diskOperationTime + diskTrackMoveTime *
          trackMoves (SweepRun.ofAppends 200 (diskRequestOn 200 kernelInit 1 5 true) (by decide)
            fun _ => []) tick := by
  obtain ⟨tick, served, -, agrees⟩ := turnaround_is_arm_time_iff
    (SweepRun.ofAppends 200 (diskRequestOn 200 kernelInit 1 5 true) (by decide) fun _ => [])
    kernelInit 1 5 true rfl (by decide)
  exact ⟨tick, served, agrees.mpr (.inl rfl)⟩

/-- The arm is on track 5 and moves down. -/
def movingDown : Kernel :=
  { kernelInit with
    diskScheduler :=
      { pendingRequests := []
        forwardDir := false
        currTrack := 5 } }

/-- The first pass completes the request, before any move, but it is charged ten. -/
theorem own_track_moving_down_overcharged :
    requestOn 200 movingDown 1 5 true ∈
        completed ((SweepRun.ofAppends 200 (diskRequestOn 200 movingDown 1 5 true) (by decide)
          fun _ => []).kernels 0) ∧
      (requestOn 200 movingDown 1 5 true).turnaround =
        diskOperationTime + diskTrackMoveTime * 10 ∧
      (requestOn 200 movingDown 1 5 true).turnaround ≠
        diskOperationTime + diskTrackMoveTime *
          trackMoves (SweepRun.ofAppends 200 (diskRequestOn 200 movingDown 1 5 true) (by decide)
            fun _ => []) 0 := by
  refine ⟨by decide, by decide, ?_⟩
  change diskOperationTime + diskTrackMoveTime * 10 ≠ diskOperationTime + diskTrackMoveTime * 0
  decide

end Ribabari.Turnaround

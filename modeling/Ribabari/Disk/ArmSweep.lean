import Mathlib.Data.List.Range
import Ribabari.Foundation.SweepArm
import Ribabari.Model.DiskAndFiles

/-!
# The disk sweep

One pass of `disk()` serves the requests on the arm's track and moves the arm, with the
last track as a parameter. Between two passes the rest of the kernel may do anything
that leaves the arm alone and only appends to the pending list.
-/

namespace Ribabari.ArmSweep

open Ribabari.ProcessRecords Ribabari.KernelState Ribabari.Dispatch Ribabari.DiskAndFiles
open Ribabari.SweepArm

set_option autoImplicit false

/-- `diskTick` with the last track as a parameter. -/
def diskPass (limit : Int) (kernel : Kernel) : Kernel :=
  let resolved := rwDiskOpResolve kernel kernel.diskScheduler.currTrack
  { resolved with diskScheduler := moveArm limit resolved.diskScheduler }

theorem disk_tick_is_pass (kernel : Kernel) : diskTick kernel = diskPass diskTrackLimit kernel :=
  rfl

/-- The requests that a pass serves. -/
def completed (kernel : Kernel) : List DiskRequest :=
  kernel.diskScheduler.pendingRequests.filter fun request =>
    request.track = kernel.diskScheduler.currTrack

def armOf (disk : DiskScheduler) : Arm where
  position := disk.currTrack
  forward := disk.forwardDir

theorem arm_of_move (limit : Int) (disk : DiskScheduler) :
    armOf (moveArm limit disk) = (armOf disk).step limit := by
  unfold moveArm Arm.step armOf
  split_ifs <;> rfl

/-! ## One pass -/

/-- What `disk_log` writes for a served request. -/
def diskLogEntry (kernel : Kernel) (request : DiskRequest) : DiskLogInfo where
  procName := (kernel.procs request.process).name
  procId := request.process
  track := request.track
  isRead := request.read
  turnaround := request.turnaround

theorem unblock_set_pending (kernel : Kernel) (pending : List DiskRequest) (proc : ProcId)
    (queue : SchedulerQueueFlag) :
    scheduleUnblockProcess (Kernel.setPending kernel pending) proc queue =
      Kernel.setPending (scheduleUnblockProcess kernel proc queue) pending := by
  by_cases blocked : proc ∈ kernel.scheduler.blockedQueue
  · have same : proc ∈ (Kernel.setPending kernel pending).scheduler.blockedQueue := blocked
    rw [scheduleUnblockProcess, scheduleUnblockProcess, if_pos blocked, if_pos same]
    cases queue <;> rfl
  · have same : proc ∉ (Kernel.setPending kernel pending).scheduler.blockedQueue := blocked
    rw [scheduleUnblockProcess, scheduleUnblockProcess, if_neg blocked, if_neg same]

/-- Unlinking a node and serving a request do not touch each other. -/
theorem serve_set_pending (kernel : Kernel) (pending : List DiskRequest) (request : DiskRequest) :
    serveRequest (Kernel.setPending kernel pending) request =
      Kernel.setPending (serveRequest kernel request) pending :=
  unblock_set_pending
    (ioFsLog (diskLog kernel (diskLogEntry kernel request))
      (kernel.procs request.process).name (inodeNumber (diskBlock request.track))
      (if request.read then .read else .write)) pending request.process .lowQueue

theorem serve_disk (kernel : Kernel) (request : DiskRequest) :
    (serveRequest kernel request).diskScheduler = kernel.diskScheduler := by
  have same := unblock_elsewhere
    (ioFsLog (diskLog kernel (diskLogEntry kernel request))
      (kernel.procs request.process).name (inodeNumber (diskBlock request.track))
      (if request.read then .read else .write)) request.process .lowQueue
  simp only [elsewhere, Prod.mk.injEq] at same
  exact same.2.2.2.1

theorem serve_procs (kernel : Kernel) (request : DiskRequest) :
    (serveRequest kernel request).procs = kernel.procs :=
  unblock_procs _ request.process .lowQueue

theorem serve_log (kernel : Kernel) (request : DiskRequest) :
    (serveRequest kernel request).logs.diskLogList =
      kernel.logs.diskLogList ++ [diskLogEntry kernel request] := by
  have same := unblock_elsewhere
    (ioFsLog (diskLog kernel (diskLogEntry kernel request))
      (kernel.procs request.process).name (inodeNumber (diskBlock request.track))
      (if request.read then .read else .write)) request.process .lowQueue
  simp only [elsewhere, Prod.mk.injEq] at same
  exact congrArg Logs.diskLogList same.2.2.2.2.2.2

theorem serve_all_log (kernel : Kernel) (requests : List DiskRequest) :
    (requests.foldl serveRequest kernel).logs.diskLogList =
      kernel.logs.diskLogList ++ requests.map (diskLogEntry kernel) := by
  induction requests generalizing kernel with
  | nil => simp
  | cons request requests ih =>
      have names : diskLogEntry (serveRequest kernel request) = diskLogEntry kernel := by
        funext other
        simp only [diskLogEntry, serve_procs]
      rw [List.foldl_cons, ih, serve_log, names, List.map_cons, List.append_assoc]
      rfl

theorem serve_all_disk (kernel : Kernel) (requests : List DiskRequest) :
    (requests.foldl serveRequest kernel).diskScheduler = kernel.diskScheduler := by
  induction requests generalizing kernel with
  | nil => rfl
  | cons request requests ih => exact (ih _).trans (serve_disk kernel request)

/-- The walk over the list it unlinks from serves the matching requests in order and
leaves the others. -/
theorem resolve_from_serves (track : Int) (kernel : Kernel) (walked rest : List DiskRequest)
    (linked : kernel.diskScheduler.pendingRequests = walked ++ rest) :
    resolveFrom track kernel walked rest =
      Kernel.setPending ((rest.filter fun request => request.track = track).foldl serveRequest kernel)
        (walked ++ rest.filter fun request => ¬request.track = track) := by
  induction rest generalizing kernel walked with
  | nil =>
      rw [List.append_nil] at linked
      simp only [resolveFrom, List.filter_nil, List.foldl_nil, List.append_nil, ← linked]
      rfl
  | cons request rest ih =>
      by_cases hit : request.track = track
      · have unlinked : ∀ (requests : List DiskRequest) (other : Kernel) (pending : List DiskRequest),
            requests.foldl serveRequest (Kernel.setPending other pending) =
              Kernel.setPending (requests.foldl serveRequest other) pending := by
          intro requests
          induction requests with
          | nil => exact fun _ _ => rfl
          | cons next requests ih =>
              intro other pending
              rw [List.foldl_cons, serve_set_pending, ih, List.foldl_cons]
        rw [resolveFrom, if_pos hit, ih _ walked rfl, unlinked]
        simp [hit, Kernel.setPending]
      · rw [resolveFrom, if_neg hit, ih kernel (walked ++ [request]) (by simp [linked])]
        simp [hit]

/-- A pass logs what it completes, keeps every other request in order and steps the arm. -/
theorem pass_completes (limit : Int) (kernel : Kernel) :
    (diskPass limit kernel).logs.diskLogList =
        kernel.logs.diskLogList ++ (completed kernel).map (diskLogEntry kernel) ∧
      (diskPass limit kernel).diskScheduler.pendingRequests =
        kernel.diskScheduler.pendingRequests.filter
          (fun request => ¬request.track = kernel.diskScheduler.currTrack) ∧
      armOf (diskPass limit kernel).diskScheduler = (armOf kernel.diskScheduler).step limit := by
  have walk := resolve_from_serves kernel.diskScheduler.currTrack kernel [] _ rfl
  have disk := serve_all_disk kernel (completed kernel)
  unfold diskPass rwDiskOpResolve
  rw [walk, List.nil_append]
  refine ⟨serve_all_log kernel (completed kernel), ?_, ?_⟩
  · rw [move_arm_pending]
    rfl
  · rw [arm_of_move]
    have unmoved : armOf ((completed kernel).foldl serveRequest kernel).diskScheduler =
        armOf kernel.diskScheduler := congrArg armOf disk
    exact congrArg (Arm.step limit) unmoved

/-! ## Runs of passes -/

/-- The kernel at the start of each pass. `appended tick` are the requests that came in
before pass number `tick` and after the one before it, at first the whole pending list. -/
structure SweepRun (limit : Int) where
  kernels : Nat → Kernel
  appended : Nat → List DiskRequest
  inRange : (armOf (kernels 0).diskScheduler).InRange limit
  begins : (kernels 0).diskScheduler.pendingRequests = appended 0
  continues : ∀ tick, (kernels (tick + 1)).diskScheduler =
    { (diskPass limit (kernels tick)).diskScheduler with
      pendingRequests :=
        (diskPass limit (kernels tick)).diskScheduler.pendingRequests ++ appended (tick + 1) }

/-- Two filters that together keep what one filter keeps. -/
theorem filter_twice {Item : Type*} {first second both : Item → Prop} [DecidablePred first]
    [DecidablePred second] [DecidablePred both]
    (same : ∀ item, second item ∧ first item ↔ both item) (items : List Item) :
    (items.filter fun item => first item).filter (fun item => second item) =
      items.filter fun item => both item := by
  rw [List.filter_filter]
  apply List.filter_congr
  intro item _
  rw [← Bool.decide_and, decide_eq_decide]
  exact same item

namespace SweepRun

/-- The passes from a kernel state on, when nothing but the requests of `later` comes in. -/
def ofAppends (limit : Int) (kernel : Kernel)
    (inRange : (armOf kernel.diskScheduler).InRange limit) (later : Nat → List DiskRequest) :
    SweepRun limit where
  kernels tick := Nat.rec kernel (fun tick before =>
    Kernel.setPending (diskPass limit before)
      ((diskPass limit before).diskScheduler.pendingRequests ++ later tick)) tick
  appended
    | 0 => kernel.diskScheduler.pendingRequests
    | tick + 1 => later tick
  inRange := inRange
  begins := rfl
  continues := fun _ => rfl

variable {limit : Int} (run : SweepRun limit)

def track (tick : Nat) : Int := (run.kernels tick).diskScheduler.currTrack

def forward (tick : Nat) : Bool := (run.kernels tick).diskScheduler.forwardDir

/-- Pass number `tick` is the first, from pass number `born` on, with the arm on `track`. -/
def FirstOn (born : Nat) (track : Int) (tick : Nat) : Prop :=
  born ≤ tick ∧ run.track tick = track ∧
    ∀ between < tick, born ≤ between → run.track between ≠ track

instance (born : Nat) (track : Int) (tick : Nat) : Decidable (run.FirstOn born track tick) :=
  inferInstanceAs (Decidable (_ ∧ _ ∧ ∀ between < tick, _ → _))

theorem arm_next (tick : Nat) :
    armOf (run.kernels (tick + 1)).diskScheduler =
      (armOf (run.kernels tick).diskScheduler).step limit := by
  rw [run.continues tick]
  exact (pass_completes limit (run.kernels tick)).2.2

theorem arm_after (born ticks : Nat) :
    armOf (run.kernels (born + ticks)).diskScheduler =
      (armOf (run.kernels born).diskScheduler).after limit ticks := by
  induction ticks with
  | zero => rfl
  | succ ticks ih =>
      rw [← Nat.add_assoc, arm_next, ih, Arm.after, Arm.after, Function.iterate_succ_apply']

theorem arm_in_range (tick : Nat) : (armOf (run.kernels tick).diskScheduler).InRange limit := by
  have after := run.arm_after 0 tick
  rw [Nat.zero_add] at after
  rw [after]
  exact after_in_range run.inRange tick

theorem track_after (born ticks : Nat) :
    run.track (born + ticks) =
      ((armOf (run.kernels born).diskScheduler).after limit ticks).position :=
  congrArg Arm.position (run.arm_after born ticks)

theorem first_on_iff (born ticks : Nat) (track : Int) :
    run.FirstOn born track (born + ticks) ↔
      (armOf (run.kernels born).diskScheduler).FirstOn limit track ticks := by
  unfold SweepRun.FirstOn Arm.FirstOn
  rw [track_after]
  constructor
  · rintro ⟨-, here, before⟩
    refine ⟨here, fun earlier sooner => ?_⟩
    rw [← track_after]
    exact before (born + earlier) (by omega) (by omega)
  · rintro ⟨here, before⟩
    refine ⟨by omega, here, fun between sooner later => ?_⟩
    obtain ⟨earlier, rfl⟩ := Nat.exists_eq_add_of_le later
    rw [track_after]
    exact before earlier (by omega)

/-- A request waits from its appending to the first pass with the arm on its track. -/
theorem pending_eq (tick : Nat) :
    (run.kernels tick).diskScheduler.pendingRequests =
      (List.range (tick + 1)).flatMap fun born => (run.appended born).filter fun request =>
        decide (∀ between < tick, born ≤ between → run.track between ≠ request.track) := by
  induction tick with
  | zero => simp [run.begins]
  | succ tick ih =>
      have grown : (run.kernels (tick + 1)).diskScheduler.pendingRequests =
          (run.kernels tick).diskScheduler.pendingRequests.filter
            (fun request => ¬request.track = run.track tick) ++ run.appended (tick + 1) := by
        rw [run.continues tick]
        exact congrArg (· ++ run.appended (tick + 1))
          (pass_completes limit (run.kernels tick)).2.1
      rw [grown, ih, List.range_succ (n := tick + 1), List.flatMap_append,
        List.flatMap_singleton, List.filter_flatMap]
      congr 1
      · apply List.flatMap_congr
        intro born member
        rw [List.mem_range] at member
        refine filter_twice (fun request => ?_) _
        constructor
        · rintro ⟨now, before⟩ between sooner later
          rcases Nat.lt_succ_iff_lt_or_eq.mp sooner with earlier | rfl
          · exact before between earlier later
          · exact fun same => now same.symm
        · intro before
          exact ⟨fun same => before tick (Nat.lt_succ_self tick) (by omega) same.symm,
            fun between sooner => before between (Nat.lt_succ_of_lt sooner)⟩
      · symm
        apply List.filter_eq_self.mpr
        intro request _
        rw [decide_eq_true_eq]
        intro between sooner later
        omega

/-- What a pass completes are the requests whose first pass on their track it is. -/
theorem completed_eq (tick : Nat) :
    completed (run.kernels tick) =
      (List.range (tick + 1)).flatMap fun born => (run.appended born).filter fun request =>
        decide (run.FirstOn born request.track tick) := by
  rw [completed, pending_eq, List.filter_flatMap]
  apply List.flatMap_congr
  intro born member
  rw [List.mem_range] at member
  refine filter_twice (fun request => ?_) _
  constructor
  · rintro ⟨here, before⟩
    exact ⟨by omega, here.symm, before⟩
  · rintro ⟨-, here, before⟩
    exact ⟨here.symm, before⟩

theorem first_on_unique {born first second : Nat} {track : Int}
    (firstOn : run.FirstOn born track first) (secondOn : run.FirstOn born track second) :
    first = second := by
  obtain ⟨firstTicks, rfl⟩ := Nat.exists_eq_add_of_le firstOn.1
  obtain ⟨secondTicks, rfl⟩ := Nat.exists_eq_add_of_le secondOn.1
  have same := SweepArm.first_on_unique ((run.first_on_iff _ _ _).mp firstOn)
    ((run.first_on_iff _ _ _).mp secondOn)
  rw [same]

/-- Within two sweeps of the appending the arm starts a pass on the track. -/
theorem first_on_exists (born : Nat) {track : Int} (onTrack : 0 ≤ track ∧ track ≤ limit) :
    ∃ tick, run.FirstOn born track tick ∧ (tick : Int) < born + 2 * (limit + 1) := by
  obtain ⟨ticks, first, bound, -⟩ := SweepArm.first_on_exists (run.arm_in_range born) onTrack
  refine ⟨born + ticks, (run.first_on_iff born ticks track).mpr first, ?_⟩
  push_cast
  omega

end SweepRun

/-- The arm sweeps between zero and the limit one track a pass and turns at the ends
only. A pass logs, in order of their appending, the requests whose first pass on their
track it is, and each request on a track of the disk has exactly one such pass, within
two sweeps. -/
theorem disk_sweep {limit : Int} (run : SweepRun limit) :
    (∀ tick, 0 ≤ run.track tick ∧ run.track tick ≤ limit) ∧
      (∀ tick, run.track (tick + 1) - run.track tick ≤ 1 ∧
        run.track tick - run.track (tick + 1) ≤ 1) ∧
      (∀ tick, run.forward (tick + 1) ≠ run.forward tick →
        run.track tick = 0 ∨ run.track tick = limit) ∧
      (∀ tick, (diskPass limit (run.kernels tick)).logs.diskLogList =
        (run.kernels tick).logs.diskLogList ++
          (completed (run.kernels tick)).map (diskLogEntry (run.kernels tick))) ∧
      (∀ tick, ∀ request ∈ completed (run.kernels tick), request.track = run.track tick) ∧
      (∀ tick, completed (run.kernels tick) =
        (List.range (tick + 1)).flatMap fun born => (run.appended born).filter fun request =>
          decide (run.FirstOn born request.track tick)) ∧
      ∀ born, ∀ request ∈ run.appended born, 0 ≤ request.track → request.track ≤ limit →
        ∃ tick, run.FirstOn born request.track tick ∧
          (tick : Int) < born + 2 * (limit + 1) ∧
          ∀ other, run.FirstOn born request.track other → other = tick := by
  refine ⟨run.arm_in_range, ?_, ?_, fun tick => (pass_completes limit _).1, ?_,
    run.completed_eq, ?_⟩
  · intro tick
    have moved := step_one_track limit (armOf (run.kernels tick).diskScheduler)
    rw [← run.arm_next] at moved
    exact moved
  · intro tick turned
    have turns : ((armOf (run.kernels tick).diskScheduler).step limit).forward ≠
        (armOf (run.kernels tick).diskScheduler).forward := by
      rw [← run.arm_next]
      exact turned
    exact step_turns turns
  · intro tick request member
    simpa [SweepRun.track] using (List.mem_filter.mp member).2
  · intro born request _ lower upper
    obtain ⟨tick, first, bound⟩ := run.first_on_exists born ⟨lower, upper⟩
    exact ⟨tick, first, bound, fun other otherFirst => run.first_on_unique otherFirst first⟩

/-- Two requests are pending, and a third comes in when the arm has passed its track. -/
def sweptKernel : Kernel :=
  Kernel.setPending kernelInit [⟨1, 3, true, 5300⟩, ⟨2, 0, false, 5000⟩]

def lateRequests : Nat → List DiskRequest
  | 1 => [⟨3, 1, true, 5500⟩]
  | _ => []

def sampleSweep : SweepRun 4 := .ofAppends 4 sweptKernel (by decide) lateRequests

/-- The arm serves the third request on its way back. -/
theorem disk_sweep_sample :
    completed (sampleSweep.kernels 0) = [⟨2, 0, false, 5000⟩] ∧
      completed (sampleSweep.kernels 3) = [⟨1, 3, true, 5300⟩] ∧
      completed (sampleSweep.kernels 8) = [⟨3, 1, true, 5500⟩] ∧
      ∃ tick, sampleSweep.FirstOn 2 1 tick ∧ (tick : Int) < 2 + 2 * (4 + 1) := by
  have ⟨_, _, _, _, _, served, swept⟩ := disk_sweep sampleSweep
  refine ⟨?_, ?_, ?_, ?_⟩
  · rw [served 0]
    decide
  · rw [served 3]
    decide
  · rw [served 8]
    decide
  · obtain ⟨tick, first, bound, -⟩ := swept 2 ⟨3, 1, true, 5500⟩ (by decide) (by decide) (by decide)
    exact ⟨tick, first, bound⟩

end Ribabari.ArmSweep

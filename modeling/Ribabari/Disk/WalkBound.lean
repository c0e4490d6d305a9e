import Ribabari.Disk.ElevatorOrder
import Ribabari.Disk.NodeLives
import Ribabari.Foundation.FairRuns

/-!
# When a request is served

The walk over the pending list and the steps of the cpu thread in any order. A request is
served by the walk that is on its track and has it still ahead, or by the walk that begins
when the arm is there next, so a bounded number of walks is enough. A walk that never
ends is one behind which requests are appended for ever.
-/

namespace Ribabari.WalkBound

open Ribabari.ProcessRecords Ribabari.KernelState Ribabari.DiskAndFiles Ribabari.KernelEvents
open Ribabari.Placement Ribabari.Dispatch Ribabari.ListCursor Ribabari.DiskThreads
open Ribabari.WakeUps Ribabari.NodeLives Ribabari.SweepArm Ribabari.ArmSweep
open Ribabari.RequestTracks Ribabari.WorkLeft Ribabari.ElevatorOrder
open Ribabari.TransitionSystem Ribabari.FairRuns

set_option autoImplicit false

variable {threads after : Threads} {event : ThreadEvent} {node : NodeAddr}

/-! ## The arm between the walks -/

/-- The step in which the disk thread leaves `rw_disk_op_resolve` and moves the arm. -/
def endsWalk (threads : Threads) (event : ThreadEvent) : Bool :=
  match event, threads.disk with
  | .disk, .walking _ none => true
  | _, _ => false

def armIn (threads : Threads) : Arm := armOf threads.kernel.diskScheduler

theorem append_arm (threads : Threads) (proc : ProcId) (track : Int) (read : Bool) :
    armIn (threads.append proc track read) = armIn threads := rfl

theorem advance_arm (threads : Threads) :
    armIn threads.advance =
      if endsWalk threads .disk then (armIn threads).step diskTrackLimit else armIn threads := by
  unfold Threads.advance endsWalk
  cases stage : threads.disk with
  | resting => rfl
  | walking track cursor =>
      cases cursor with
      | none => exact arm_of_move _ _
      | some curr => rfl
  | visiting track curr next =>
      dsimp only
      unfold Threads.visit
      split
      · exact congrArg armOf (serve_disk _ _)
      · rfl
  | removing track curr next => rfl

theorem thread_arm (fired : threadStep threads event = some after) :
    armIn after =
      if endsWalk threads event then (armIn threads).step diskTrackLimit else armIn threads := by
  rcases thread_step_fires fired with ⟨inner, kernel, rfl, apart, step, rfl⟩ |
    ⟨inner, proc, track, read, rfl, -, -, rfl⟩ | ⟨proc, track, read, rfl, -, rfl⟩ |
    ⟨proc, track, read, rfl, -, rfl⟩ | ⟨rfl, rfl⟩
  · exact arm_kept step apart.2
  · exact schedule_arm _ _
  · exact append_arm threads proc track read
  · exact congrArg armOf (fs_request_disk _ _)
  · exact advance_arm threads

def walkTrack : DiskStage → Option Int
  | .resting => none
  | .walking track _ | .visiting track _ _ | .removing track _ _ => some track

/-- The walk is for the track that the arm is on. -/
structure OnArm (threads : Threads) : Prop where
  inRange : (armIn threads).InRange diskTrackLimit
  track : ∀ track ∈ walkTrack threads.disk, track = (armIn threads).position

theorem init_on_arm : OnArm threadsInit where
  inRange := ⟨by decide, by decide⟩
  track := fun _ member => nomatch member

theorem advance_on_arm (sound : OnArm threads) : OnArm threads.advance where
  inRange := by
    rw [advance_arm]
    split
    · exact step_in_range sound.inRange
    · exact sound.inRange
  track := by
    have onTrack := sound.track
    have arm := advance_arm threads
    unfold endsWalk at arm
    unfold Threads.advance at arm ⊢
    intro track member
    cases stage : threads.disk with
    | resting =>
        rw [stage] at member
        exact (Option.some.inj member).symm
    | walking there cursor =>
        rw [stage] at member onTrack
        cases cursor with
        | none => exact nomatch member
        | some curr => exact onTrack track member
    | visiting there curr next =>
        rw [stage] at onTrack
        simp only [stage] at arm member
        dsimp only
        rw [arm]
        unfold Threads.visit at member
        split at member
        · exact onTrack track member
        · exact onTrack track member
    | removing there curr next =>
        rw [stage] at member onTrack
        exact onTrack track member

theorem step_on_arm (sound : OnArm threads) (fired : threadStep threads event = some after) :
    OnArm after := by
  have arm := thread_arm fired
  have kept : endsWalk threads event = false → after.disk = threads.disk → OnArm after := by
    intro goes disk
    rw [goes, if_neg Bool.false_ne_true] at arm
    exact
      { inRange := arm ▸ sound.inRange
        track := by rw [arm, disk]; exact sound.track }
  rcases thread_step_fires fired with ⟨inner, kernel, rfl, -, -, rfl⟩ |
    ⟨inner, proc, track, read, rfl, -, -, rfl⟩ | ⟨proc, track, read, rfl, -, rfl⟩ |
    ⟨proc, track, read, rfl, -, rfl⟩ | ⟨rfl, rfl⟩
  · exact kept rfl rfl
  · exact kept rfl rfl
  · exact kept rfl rfl
  · exact kept rfl rfl
  · exact advance_on_arm sound

theorem reachable_on_arm (reached : Reachable threadSystem threads) : OnArm threads :=
  reachable_invariant OnArm reached init_on_arm fun _ _ _ _ sound fired => step_on_arm sound fired

/-! ## The walks that a node waits for -/

/-- A node that is linked is served within so many ends of a walk: by this walk, which has it
ahead, or by the one that begins when the arm comes to its track. -/
def ServedWithin (node : NodeAddr) (walks : Nat) (threads : Threads) : Prop :=
  node ∈ threads.linked →
    match walkTrack threads.disk with
    | none =>
        (armIn threads).arrival diskTrackLimit (threads.content node).track + 1 ≤ walks
    | some _ =>
        DueAhead threads [node] ∧ 1 ≤ walks ∨
          ((armIn threads).step diskTrackLimit).arrival diskTrackLimit
            (threads.content node).track + 2 ≤ walks

theorem served_within_none (within : ServedWithin node 0 threads) : node ∉ threads.linked := by
  intro linked
  have walks := within linked
  split at walks
  · exact Nat.not_succ_le_zero _ walks
  · rcases walks with ⟨-, walks⟩ | walks
    · exact Nat.not_succ_le_zero _ walks
    · exact Nat.not_succ_le_zero _ walks

/-- The ends of a walk after which a request for the track is served, wherever the walk is. -/
def walksNeeded (threads : Threads) (track : Int) : Nat :=
  match walkTrack threads.disk with
  | none => (armIn threads).arrival diskTrackLimit track + 1
  | some _ => ((armIn threads).step diskTrackLimit).arrival diskTrackLimit track + 2

theorem served_within_needed (node : NodeAddr) (threads : Threads) :
    ServedWithin node (walksNeeded threads (threads.content node).track) threads := by
  intro _
  unfold walksNeeded
  split
  · exact Nat.le_refl _
  · exact .inr (Nat.le_refl _)

/-- They are no more than a full turn of the arm takes. -/
theorem walks_needed_le (sound : OnArm threads) {track : Int} (onDisk : OnDisk track) :
    walksNeeded threads track ≤ 402 := by
  have bound : diskTrackLimit = 200 := rfl
  have rests := arrival_le sound.inRange onDisk
  have walks := arrival_le (step_in_range sound.inRange) onDisk
  unfold walksNeeded
  split <;> omega

theorem step_content (known : node < threads.nextNode)
    (fired : threadStep threads event = some after) :
    node < after.nextNode ∧ after.content node = threads.content node := by
  rcases thread_step_fires fired with ⟨inner, kernel, rfl, -, -, rfl⟩ |
    ⟨inner, proc, track, read, rfl, -, -, rfl⟩ | ⟨proc, track, read, rfl, -, rfl⟩ |
    ⟨proc, track, read, rfl, -, rfl⟩ | ⟨rfl, rfl⟩
  · exact ⟨known, rfl⟩
  · exact ⟨known, rfl⟩
  · exact ⟨Nat.lt_succ_of_lt known, Function.update_of_ne (Nat.ne_of_lt known) _ _⟩
  · exact ⟨known, rfl⟩
  · unfold Threads.advance
    split
    case h_4 =>
        unfold Threads.visit
        split
        · exact ⟨known, rfl⟩
        · exact ⟨known, rfl⟩
    all_goals exact ⟨known, rfl⟩

theorem append_within (awaited : Awaited threads) (known : node < threads.nextNode) {walks : Nat}
    (within : ServedWithin node walks threads) (proc : ProcId) (track : Int) (read : Bool) :
    ServedWithin node walks (threads.append proc track read) := by
  intro linked
  have old : node ∈ threads.linked := by
    rcases List.mem_append.mp linked with old | new
    · exact old
    · exact absurd (List.mem_singleton.mp new) (Nat.ne_of_lt known)
  have content : (threads.append proc track read).content node = threads.content node :=
    Function.update_of_ne (Nat.ne_of_lt known) _ _
  have disk : (threads.append proc track read).disk = threads.disk := rfl
  have walks := within old
  rw [content, append_arm, disk]
  cases stage : walkTrack threads.disk with
  | none =>
      rw [stage] at walks
      exact walks
  | some there =>
      rw [stage] at walks
      rcases walks with ⟨ahead, walks⟩ | walks
      · exact .inl ⟨append_due awaited ahead proc track read, walks⟩
      · exact .inr walks

/-- A walk that begins has every node of its track ahead. -/
theorem begin_within (sound : OnArm threads) (awaited : Awaited threads)
    (onDisk : OnDisk (threads.content node).track) {walks : Nat}
    (within : ServedWithin node walks threads) (rests : threads.disk = .resting) :
    ServedWithin node walks
      { threads with
        disk := .walking threads.kernel.diskScheduler.currTrack threads.linked.head? } := by
  intro linked
  have waits := within linked
  rw [rests] at waits
  change _ + 1 ≤ walks at waits
  change _ ∨ _
  by_cases here : (threads.content node).track = (armIn threads).position
  · left
    have due := due_begins awaited
    refine ⟨?_, by omega⟩
    intro other member
    rw [List.mem_singleton.mp member]
    exact due node (List.mem_filter.mpr ⟨linked, decide_eq_true here⟩)
  · right
    have nearer := arrival_step sound.inRange onDisk here
    have arm : ∀ disk, armIn { threads with disk := disk } = armIn threads := fun _ => rfl
    rw [arm]
    dsimp only
    omega

/-- A walk that goes on stays on its track and links no nodes. -/
theorem walk_goes_on (busy : threads.disk ≠ .resting) (goes : endsWalk threads .disk = false) :
    walkTrack threads.disk ≠ none ∧ walkTrack threads.advance.disk = walkTrack threads.disk ∧
      threads.advance.linked ⊆ threads.linked ∧ threads.advance.content = threads.content := by
  unfold endsWalk at goes
  unfold Threads.advance
  cases stage : threads.disk with
  | resting => exact absurd stage busy
  | walking track cursor =>
      rw [stage] at goes
      cases cursor with
      | none => exact nomatch goes
      | some curr => exact ⟨Option.some_ne_none _, rfl, List.Subset.refl _, rfl⟩
  | visiting track curr next =>
      dsimp only
      unfold Threads.visit
      split
      · exact ⟨Option.some_ne_none _, rfl, List.Subset.refl _, rfl⟩
      · exact ⟨Option.some_ne_none _, rfl, List.Subset.refl _, rfl⟩
  | removing track curr next => exact ⟨Option.some_ne_none _, rfl, List.erase_subset, rfl⟩

theorem go_on_within (awaited : Awaited threads) {walks : Nat}
    (within : ServedWithin node walks threads) (busy : threads.disk ≠ .resting)
    (goes : endsWalk threads .disk = false) : ServedWithin node walks threads.advance := by
  have arm := advance_arm threads
  rw [goes, if_neg Bool.false_ne_true] at arm
  obtain ⟨walking, same, linked, content⟩ := walk_goes_on busy goes
  obtain ⟨track, stage⟩ := Option.ne_none_iff_exists'.mp walking
  intro member
  have waits := within (linked member)
  rw [stage] at waits
  rw [same, stage, arm, content]
  rcases waits with ⟨due, waits⟩ | waits
  · exact .inl ⟨advance_due awaited due busy, waits⟩
  · exact .inr waits

/-- A walk that ends has left no node of its track behind. -/
theorem end_within {walks : Nat} (within : ServedWithin node walks threads)
    (ends : endsWalk threads .disk = true) : ServedWithin node (walks - 1) threads.advance := by
  have arm := advance_arm threads
  rw [ends, if_pos rfl] at arm
  intro member
  rw [arm]
  unfold endsWalk at ends
  unfold Threads.advance at member ⊢
  cases stage : threads.disk with
  | resting | visiting | removing =>
      rw [stage] at ends
      exact nomatch ends
  | walking track cursor =>
      simp only [stage] at ends member ⊢
      cases cursor with
      | some curr => exact nomatch ends
      | none =>
          have waits := within member
          simp only [stage, walkTrack] at waits
          change _ + 1 ≤ walks - 1
          rcases waits with ⟨due, -⟩ | waits
          · have ahead := (due node List.mem_cons_self).2
            rw [stage] at ahead
            exact nomatch ahead.2 member
          · dsimp only
            omega

theorem step_within (sound : OnArm threads) (awaited : Awaited threads)
    (known : node < threads.nextNode) (onDisk : OnDisk (threads.content node).track) {walks : Nat}
    (within : ServedWithin node walks threads) (fired : threadStep threads event = some after) :
    ServedWithin node (if endsWalk threads event then walks - 1 else walks) after := by
  have arm := thread_arm fired
  have kept : endsWalk threads event = false → after.linked = threads.linked →
      after.content = threads.content → after.disk = threads.disk →
      (DueAhead threads [node] → DueAhead after [node]) →
      ServedWithin node (if endsWalk threads event then walks - 1 else walks) after := by
    intro goes linked content disk due member
    rw [goes, if_neg Bool.false_ne_true] at arm ⊢
    have waits := within (linked ▸ member)
    rw [arm, content, disk]
    split
    case h_1 rests =>
        rw [rests] at waits
        exact waits
    case h_2 track walking =>
        rw [walking] at waits
        exact waits.imp_left fun ahead => ⟨due ahead.1, ahead.2⟩
  rcases thread_step_fires fired with ⟨inner, kernel, rfl, -, -, rfl⟩ |
    ⟨inner, proc, track, read, rfl, -, -, rfl⟩ | ⟨proc, track, read, rfl, -, rfl⟩ |
    ⟨proc, track, read, rfl, -, rfl⟩ | ⟨rfl, rfl⟩
  · exact kept rfl rfl rfl rfl id
  · exact kept rfl rfl rfl rfl id
  · exact append_within awaited known within proc track read
  · exact kept rfl rfl rfl rfl id
  · by_cases ends : endsWalk threads .disk = true
    · rw [if_pos ends]
      exact end_within within ends
    · rw [if_neg ends]
      by_cases rests : threads.disk = .resting
      · have begins := begin_within sound awaited onDisk within rests
        rw [Threads.advance, rests]
        exact begins
      · exact go_on_within awaited within rests (Bool.eq_false_iff.mpr ends)

/-! ## Every request is served -/

/-- The node numbered so is in use, and its request is for a track of the disk. -/
structure Requested (node : NodeAddr) (state : Threads × DiskLedger) : Prop where
  reached : Reachable ledgerSystem state
  known : node < state.1.nextNode
  onDisk : OnDisk (state.1.content node).track

theorem step_requested {state next : Threads × DiskLedger} (requested : Requested node state)
    (fired : ledgerSystem.step state event = some next) : Requested node next := by
  have ⟨known, content⟩ := step_content requested.known (history_step fired).1
  exact
    { reached := reachable_next requested.reached fired
      known := known
      onDisk := content ▸ requested.onDisk }

theorem served_countdown (node : NodeAddr) :
    Countdown ledgerSystem (Requested node) (fun state event => endsWalk state.1 event)
      fun walks state => ServedWithin node walks state.1 where
  kept := step_requested
  counts := by
    intro before event after walks requested within fired
    have reached := history_reachable requested.reached
    exact step_within (reachable_on_arm reached) (reachable_awaited reached) requested.known
      requested.onDisk within (history_step fired).1

theorem served_life {state : Threads × DiskLedger} (requested : Requested node state)
    (within : ServedWithin node 0 state.1) :
    state.2.events node = [.appended, .unblocked, .removed] := by
  rw [(reachable_ledger requested.reached).lives]
  exact life_removed requested.known (served_within_none within)

/-- After so many walks the node's life is over, whatever the cpu thread does meanwhile. -/
theorem served_within_walks {state final : Threads × DiskLedger} {events : List ThreadEvent}
    (reached : Reachable ledgerSystem state) (known : node < state.1.nextNode)
    (onDisk : OnDisk (state.1.content node).track)
    (result : run ledgerSystem events state = some final) :
    walksNeeded state.1 (state.1.content node).track ≤ 402 ∧
      (walksNeeded state.1 (state.1.content node).track ≤
          (history ledgerSystem events state).countP (fun step => endsWalk step.1.1 step.2) →
        final.2.events node = [.appended, .unblocked, .removed]) := by
  refine ⟨walks_needed_le (reachable_on_arm (history_reachable reached)) onDisk, ?_⟩
  intro enough
  have ⟨requested, within⟩ := (served_countdown node).run_counts events
    { reached := reached, known := known, onDisk := onDisk }
    (served_within_needed node state.1) result
  rw [Nat.sub_eq_zero_of_le enough] at within
  exact served_life requested within

/-- A request for track 2, then the disk thread alone. -/
def requestedStart : List ThreadEvent :=
  [.kernel (.processCreate sampleProgram blankPage), .kernel (.idleDispatch false),
    .kernel (.execute ⟨.read, 2, none⟩), .resume, .resume]

def requestedState : Threads × DiskLedger :=
  (run ledgerSystem requestedStart ledgerSystem.start).getD ledgerSystem.start

def servedState : Threads × DiskLedger :=
  (run ledgerSystem (List.replicate 13 .disk) requestedState).getD requestedState

theorem served_within_walks_sample :
    walksNeeded requestedState.1 2 = 3 ∧
      servedState.2.events 0 = [.appended, .unblocked, .removed] := by
  have reached : Reachable ledgerSystem requestedState := reachable_run requestedStart rfl
  have served := @served_within_walks 0 requestedState servedState (List.replicate 13 .disk)
    reached (by decide) (by decide) rfl
  exact ⟨by decide, served.2 (by decide)⟩

/-! ## A walk that never ends -/

/-- The steps that a walk has left when nothing is appended. -/
def walkLeft (threads : Threads) : Nat :=
  match threads.disk with
  | .resting => 3 * threads.linked.length + 1
  | .walking _ cursor => 3 * (onward threads.linked cursor).length
  | .visiting _ _ next => 3 * (onward threads.linked next).length + 2
  | .removing _ _ next => 3 * (onward threads.linked next).length + 1

theorem onward_head (linked : List NodeAddr) : onward linked linked.head? = linked := by
  cases linked with
  | nil => rfl
  | cons node rest => simp [onward]

theorem walk_left_drops (awaited : Awaited threads) (goes : endsWalk threads .disk = false) :
    walkLeft threads.advance < walkLeft threads := by
  have sound := awaited.cursor
  unfold endsWalk at goes
  unfold Threads.advance
  cases stage : threads.disk with
  | resting =>
      simp only [walkLeft, stage, onward_head]
      omega
  | walking track cursor =>
      rw [stage] at goes sound
      cases cursor with
      | none => exact nomatch goes
      | some curr =>
          have split := (onward_next awaited.distinct (sound curr rfl)).1
          simp only [walkLeft, stage, split, List.length_cons]
          omega
  | visiting track curr next =>
      dsimp only
      unfold Threads.visit
      split
      · simp only [walkLeft, stage]
        omega
      · simp only [walkLeft, stage]
        omega
  | removing track curr next =>
      rw [stage] at sound
      simp only [walkLeft, stage, Threads.unlink, onward_erase sound.2.1 sound.2.2]
      omega

def DiskRuns (_ : Threads × DiskLedger) (event : ThreadEvent) : Prop := event = .disk

def Appends (state : Threads × DiskLedger) (event : ThreadEvent) : Prop :=
  ∃ node, nodeEvent state.1 event = some (node, .appended)

theorem walk_left_kept (fired : threadStep threads event = some after) (other : event ≠ .disk)
    (quiet : ∀ node, nodeEvent threads event ≠ some (node, .appended)) :
    walkLeft after = walkLeft threads := by
  rcases thread_step_fires fired with ⟨inner, kernel, rfl, -, -, rfl⟩ |
    ⟨inner, proc, track, read, rfl, -, -, rfl⟩ | ⟨proc, track, read, rfl, stage, rfl⟩ |
    ⟨proc, track, read, rfl, -, rfl⟩ | ⟨rfl, rfl⟩
  · rfl
  · rfl
  · apply absurd _ (quiet threads.nextNode)
    rw [nodeEvent, stage]
  · rfl
  · exact absurd rfl other

/-- A disk thread that goes on comes to the end of its walk, unless requests are appended
for ever. -/
theorem endless_walk (run : InfiniteRun ledgerSystem) (disk : run.Recurs DiskRuns) {begin : Nat}
    (endless : ∀ later ≥ begin, endsWalk (run.states later).1 (run.events later) = false) :
    run.Recurs Appends := by
  by_contra stops
  obtain ⟨last, quiet⟩ := Filter.eventually_atTop.mp (Filter.not_frequently.mp stops)
  have drops : ∀ now ≥ max begin last, ¬False →
      ∃ later ≥ now, walkLeft (run.states later).1 < walkLeft (run.states now).1 := by
    intro now beyond _
    obtain ⟨later, after, same, runs⟩ := run.until_marked disk
      (fun state => walkLeft state.1 = walkLeft (run.states now).1) rfl (by
        intro later after same other
        rw [← same]
        exact walk_left_kept (history_step (run.fires later)).1 other fun node appended =>
          quiet later (by omega) ⟨node, appended⟩)
    have step := (history_step (run.fires later)).1
    have goes := endless later (by omega)
    rw [runs] at step goes
    have advanced : (run.states later).1.advance = (run.states (later + 1)).1 :=
      Option.some.inj step
    refine ⟨later + 1, by omega, ?_⟩
    rw [← same, ← advanced]
    exact walk_left_drops (reachable_awaited (history_reachable (run.reachable later))) goes
  obtain ⟨-, -, absurdity⟩ := run.reaches (fun state => walkLeft state.1) (fun _ => False) drops
  exact absurdity

/-- A request for a track of the disk is served, or the walk it waits for goes on for ever
over requests that are appended behind it. -/
theorem served_or_flooded (run : InfiniteRun ledgerSystem) (disk : run.Recurs DiskRuns)
    {time : Nat} (known : node < (run.states time).1.nextNode)
    (onDisk : OnDisk ((run.states time).1.content node).track) :
    (∃ later ≥ time, (run.states later).2.events node = [.appended, .unblocked, .removed]) ∨
      (run.Recurs Appends ∧
        ∃ begin, ∀ later ≥ begin, endsWalk (run.states later).1 (run.events later) = false) := by
  by_cases ends : run.Recurs fun state event => endsWalk state.1 event = true
  · left
    obtain ⟨later, after, requested, within⟩ := (served_countdown node).runs_out run ends
      { reached := run.reachable time, known := known, onDisk := onDisk }
      (served_within_needed node (run.states time).1)
    exact ⟨later, after, served_life requested within⟩
  · right
    obtain ⟨begin, endless⟩ := Filter.eventually_atTop.mp (Filter.not_frequently.mp ends)
    have never : ∀ later ≥ begin, endsWalk (run.states later).1 (run.events later) = false :=
      fun later after => Bool.eq_false_iff.mpr (endless later after)
    exact ⟨endless_walk run disk never, begin, never⟩

def requestedEvents (time : Nat) : ThreadEvent := requestedStart.getD time .disk

theorem requested_defined :
    (∀ time, (stateAfter ledgerSystem requestedEvents time).isSome) ∧
      ∀ time ≥ 5, ∃ state, stateAfter ledgerSystem requestedEvents time = some state ∧ True := by
  apply state_after_defined (fun _ => True) 5 ⟨requestedState, rfl, trivial⟩
  intro state _ time late
  have event : requestedEvents time = .disk := List.getD_eq_default _ _ late
  rw [event]
  exact ⟨_, rfl, trivial⟩

def requestedRun : InfiniteRun ledgerSystem := .ofEvents requested_defined.1

theorem served_or_flooded_sample :
    ∃ later ≥ 5, (requestedRun.states later).2.events 0 =
      [.appended, .unblocked, .removed] := by
  have late : ∀ time ≥ 5, requestedRun.events time = .disk :=
    fun time after => List.getD_eq_default _ _ after
  have runs : requestedRun.Recurs DiskRuns :=
    Filter.Eventually.frequently (Filter.eventually_atTop.mpr ⟨5, late⟩)
  have served := @served_or_flooded 0 requestedRun runs 5 (by decide) (by decide)
  apply served.resolve_right
  rintro ⟨appends, -⟩
  obtain ⟨time, after, node, appended⟩ := requestedRun.recurs_after appends 5
  rw [late time after, nodeEvent] at appended
  split at appended
  case h_1 =>
      split at appended
      · cases appended
      · cases appended
  all_goals cases appended

end Ribabari.WalkBound

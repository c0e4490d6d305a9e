import Ribabari.Abstract.BoardInvariants
import Ribabari.Disk.ArmSweep
import Ribabari.Disk.RequestTracks
import Ribabari.Model.DiskThreads

/-!
# No lost disk wake-up

The cpu thread blocks a process before it links its request, the disk thread wakes the
process before it unlinks the request. So at every point between these steps the linked
requests that are not served yet, with the request on its way to the list, are a pending
list for which the queues are accounted as if the steps were one.
-/

namespace Ribabari.WakeUps

open Ribabari.ProcessRecords Ribabari.SemaphoreTable Ribabari.KernelState Ribabari.Dispatch
open Ribabari.DiskAndFiles Ribabari.KernelEvents Ribabari.DiskThreads Ribabari.QueueBoard
open Ribabari.BoardInvariants Ribabari.QueueRefinement Ribabari.RequestTracks
open Ribabari.ListCursor Ribabari.TransitionSystem

set_option autoImplicit false

/-! ## Events apart from the disk -/

def Board.withPending (board : Board) (pending : List DiskRequest) : Board :=
  { board with pending := pending }

def Apart (event : KernelEvent) : Prop := requestedTrack event = none ∧ event ≠ .diskTick

section Apartness

variable {board after : Board} {event : BoardEvent}

/-- A board event that is not about the disk does the same under every pending list. -/
theorem step_with_pending (noTick : ∀ track, event ≠ .tick track)
    (noRequest : ∀ request, event ≠ .requestDisk request)
    (fired : boardStep board event = some after) (pending : List DiskRequest) :
    boardStep (Board.withPending board pending) event = some (Board.withPending after pending) := by
  have scheduled : ∀ event, (∀ proc, (Board.withPending board pending).runProcess proc event =
        (board.runProcess proc event).map fun after => Board.withPending after pending) →
      board.queues.scheduledProc.bind (fun proc => board.runProcess proc event) = some after →
      (Board.withPending board pending).queues.scheduledProc.bind
        (fun proc => (Board.withPending board pending).runProcess proc event) =
          some (Board.withPending after pending) := by
    intro event same fired
    obtain ⟨proc, running, step⟩ := Option.bind_eq_some_iff.mp fired
    apply Option.bind_eq_some_iff.mpr
    exact ⟨proc, running, by rw [same, step, Option.map_some]⟩
  cases event with
  | create names high =>
      obtain rfl := Option.some.inj fired
      rfl
  | idle =>
      obtain ⟨quiet, rfl⟩ := idle_inv fired
      exact if_pos quiet
  | tick track => exact absurd rfl (noTick track)
  | requestDisk request => exact absurd rfl (noRequest request)
  | run | quantum | print => exact scheduled _ (fun _ => rfl) fired
  | acquire name =>
      apply scheduled _ _ fired
      intro proc
      simp only [Board.runProcess, Option.map_map]
      rfl
  | release name =>
      apply scheduled _ _ fired
      intro proc
      simp only [Board.runProcess, Option.map_bind]
      congr 1
      funext sem
      simp only [Function.comp_apply, Board.release, Option.map_map]
      rfl
  | finish =>
      apply scheduled _ _ fired
      intro proc
      simp only [Board.runProcess]
      by_cases listed : proc ∈ board.procTable
      · rw [if_pos listed]
        exact if_pos listed
      · rw [if_neg listed]
        exact if_neg listed

theorem apart_board (kernel : Kernel) {event : KernelEvent} (apart : Apart event) :
    (∀ track, boardEvent kernel event ≠ .tick track) ∧
      ∀ request, boardEvent kernel event ≠ .requestDisk request := by
  cases event with
  | diskTick => exact absurd rfl apart.2
  | execute instr =>
      obtain ⟨op, value, sem⟩ := instr
      cases op with
      | read | write => exact absurd apart.1 (by simp [requestedTrack, diskOperand])
      | exec | print | semP | semV =>
          constructor
          · intro track same
            cases same
          · intro request same
            cases same
  | processCreate | idleDispatch | quantumCompleted | processFinish =>
      constructor
      · intro track same
        cases same
      · intro request same
        cases same

theorem apart_step {kernel after : Kernel} {event : KernelEvent} (apart : Apart event)
    (fired : kernelStep kernel event = some after) (pending : List DiskRequest) :
    boardStep (Board.withPending (boardOf kernel) pending) (boardEvent kernel event) =
      some (Board.withPending (boardOf after) pending) := by
  obtain ⟨noTick, noRequest⟩ := apart_board kernel apart
  exact step_with_pending noTick noRequest (kernel_step_board fired) pending

theorem apart_pending {kernel after : Kernel} {event : KernelEvent} (apart : Apart event)
    (fired : kernelStep kernel event = some after) :
    after.diskScheduler.pendingRequests = kernel.diskScheduler.pendingRequests := by
  have kept := apart_step apart fired kernel.diskScheduler.pendingRequests
  have same := (kernel_step_board fired).symm.trans kept
  exact congrArg Board.pending (Option.some.inj same)

/-- Only the owners of the pending requests are accounted. -/
theorem repend (accounted : Accounted board) {pending : List DiskRequest}
    (owners : pending.map DiskRequest.process = board.pending.map DiskRequest.process) :
    Accounted (Board.withPending board pending) := by
  apply moved_accounted accounted (.refl _)
  rw [owners]
  exact accounted.blocked

end Apartness

/-! ## What is still to be woken -/

/-- The linked nodes whose process has not been woken. -/
def waitingNodes (threads : Threads) : List NodeAddr :=
  match threads.disk with
  | .removing _ curr _ => threads.linked.erase curr
  | .resting | .walking .. | .visiting .. => threads.linked

/-- The request whose process is blocked already and which is not linked yet. -/
def inFlight : CpuStage → List DiskRequest
  | .requesting proc track read =>
      [{ process := proc, track := track, read := read, turnaround := 0 }]
  | .ready | .filing .. => []

def waitingRequests (threads : Threads) : List DiskRequest :=
  (waitingNodes threads).map threads.content ++ inFlight threads.cpu

def waitingBoard (threads : Threads) : Board :=
  Board.withPending (boardOf threads.kernel) (waitingRequests threads)

/-- The pointers of the walk are nodes of the list, and the saved next pointer leads
behind the current node. -/
def CursorSound (linked : List NodeAddr) : DiskStage → Prop
  | .resting => True
  | .walking _ cursor => ∀ node ∈ cursor, node ∈ linked
  | .visiting _ curr next | .removing _ curr next =>
      curr ∈ linked ∧ (∀ node ∈ next, node ∈ linked) ∧ curr ∉ onward linked next

structure Awaited (threads : Threads) : Prop where
  accounted : Accounted (waitingBoard threads)
  distinct : threads.linked.Nodup
  allocated : ∀ node ∈ threads.linked, node < threads.nextNode
  pending : threads.kernel.diskScheduler.pendingRequests = threads.linked.map threads.content
  cursor : CursorSound threads.linked threads.disk

theorem init_awaited : Awaited threadsInit where
  accounted := empty_accounted
  distinct := List.nodup_nil
  allocated := by simp [threadsInit]
  pending := rfl
  cursor := trivial

section Steps

variable {threads after : Threads}

/-- What a step of the two threads can be. -/
theorem thread_step_fires {event : ThreadEvent} (fired : threadStep threads event = some after) :
    (∃ inner kernel, event = .kernel inner ∧ Apart inner ∧
        kernelStep threads.kernel inner = some kernel ∧
        after = { threads with kernel := kernel }) ∨
      (∃ inner proc track read, event = .kernel inner ∧ threads.cpu = .ready ∧
        threads.kernel.scheduler.scheduledProc = some proc ∧
        after = { threads with
          kernel := scheduleProcess (fetched threads.kernel proc) .ioRequested
          cpu := .requesting proc track read }) ∨
      (∃ proc track read, event = .resume ∧ threads.cpu = .requesting proc track read ∧
        after = threads.append proc track read) ∨
      (∃ proc track read, event = .resume ∧ threads.cpu = .filing proc track read ∧
        after = { threads with
          kernel := fsRequest threads.kernel { proc := proc, track := track, read := read }
          cpu := .ready }) ∨
      (event = .disk ∧ after = threads.advance) := by
  have apart : ∀ {inner}, Apart inner → threads.kernelOnly inner = some after →
      ∃ other kernel, ThreadEvent.kernel inner = .kernel other ∧ Apart other ∧
        kernelStep threads.kernel other = some kernel ∧
        after = { threads with kernel := kernel } := by
    intro inner apart only
    obtain ⟨kernel, step, rfl⟩ := Option.map_eq_some_iff.mp only
    exact ⟨inner, kernel, rfl, apart, step, rfl⟩
  cases event with
  | disk => exact .inr (.inr (.inr (.inr ⟨rfl, (Option.some.inj fired).symm⟩)))
  | resume =>
      simp only [threadStep, Threads.resume] at fired
      split at fired
      case h_1 => cases fired
      case h_2 proc track read stage =>
          exact .inr (.inr (.inl ⟨proc, track, read, rfl, stage, (Option.some.inj fired).symm⟩))
      case h_3 proc track read stage =>
          exact .inr (.inr (.inr (.inl
            ⟨proc, track, read, rfl, stage, (Option.some.inj fired).symm⟩)))
  | kernel inner =>
      simp only [threadStep] at fired
      cases inner with
      | processCreate program fresh =>
          exact .inl (apart (by simp [Apart, requestedTrack]) fired)
      | diskTick => cases fired
      | idleDispatch | quantumCompleted | processFinish =>
          simp only [Threads.fireKernel] at fired
          split at fired
          case isFalse => cases fired
          case isTrue => exact .inl (apart (by simp [Apart, requestedTrack]) fired)
      | execute instr =>
          obtain ⟨op, value, sem⟩ := instr
          simp only [Threads.fireKernel] at fired
          split at fired
          case isFalse => cases fired
          case isTrue free =>
              have blocks : ∀ read, threads.block ⟨op, value, sem⟩ read = some after →
                  ∃ inner proc track read, ThreadEvent.kernel (.execute ⟨op, value, sem⟩) =
                    .kernel inner ∧ threads.cpu = .ready ∧
                    threads.kernel.scheduler.scheduledProc = some proc ∧
                    after = { threads with
                      kernel := scheduleProcess (fetched threads.kernel proc) .ioRequested
                      cpu := .requesting proc track read } := by
                intro read blocked
                obtain ⟨proc, running, rfl⟩ := Option.map_eq_some_iff.mp blocked
                exact ⟨_, proc, value, read, rfl, free, running, rfl⟩
              cases op with
              | read => exact .inr (.inl (blocks true fired))
              | write => exact .inr (.inl (blocks false fired))
              | exec | print | semP | semV =>
                  exact .inl (apart (by simp [Apart, requestedTrack, diskOperand]) fired)

/-! ### The cpu thread -/

theorem apart_awaited (awaited : Awaited threads) {event : KernelEvent} {kernel : Kernel}
    (apart : Apart event) (fired : kernelStep threads.kernel event = some kernel) :
    Awaited { threads with kernel := kernel } where
  accounted := step_accounted awaited.accounted (apart_step apart fired _)
  distinct := awaited.distinct
  allocated := awaited.allocated
  pending := (apart_pending apart fired).trans awaited.pending
  cursor := awaited.cursor

/-- Blocking the process puts it into the blocked queue before its request is linked. -/
theorem block_awaited (awaited : Awaited threads) {proc : ProcId} {track : Int} {read : Bool}
    (ready : threads.cpu = .ready) (running : threads.kernel.scheduler.scheduledProc = some proc) :
    Awaited { threads with
      kernel := scheduleProcess (fetched threads.kernel proc) .ioRequested
      cpu := .requesting proc track read } where
  accounted := by
    have blocked := request_accounted awaited.accounted
      { process := proc, track := track, read := read, turnaround := 0 } running
    have scheduled := schedule_board (fetched threads.kernel proc) .ioRequested
    rw [fetched_board] at scheduled
    have grown : waitingRequests { threads with
          kernel := scheduleProcess (fetched threads.kernel proc) .ioRequested
          cpu := .requesting proc track read } =
        waitingRequests threads ++
          [{ process := proc, track := track, read := read, turnaround := 0 }] := by
      simp [waitingRequests, waitingNodes, inFlight, ready]
    rw [waitingBoard, grown]
    dsimp only
    rw [scheduled]
    exact blocked
  distinct := awaited.distinct
  allocated := awaited.allocated
  pending := by
    have same := schedule_elsewhere (fetched threads.kernel proc) .ioRequested
    simp only [elsewhere, Prod.mk.injEq] at same
    exact (congrArg DiskScheduler.pendingRequests same.2.2.2.1).trans awaited.pending
  cursor := awaited.cursor

/-- Appending a node does not change the contents of the linked ones. -/
theorem append_content (awaited : Awaited threads) (proc : ProcId) (track : Int) (read : Bool)
    {nodes : List NodeAddr} (known : ∀ node ∈ nodes, node ∈ threads.linked) :
    nodes.map (threads.append proc track read).content = nodes.map threads.content := by
  apply List.map_congr_left
  intro node member
  apply Function.update_of_ne
  exact Nat.ne_of_lt (awaited.allocated node (known node member))

theorem append_content_new (threads : Threads) (proc : ProcId) (track : Int) (read : Bool) :
    (threads.append proc track read).content threads.nextNode =
      { process := proc
        track := track
        read := read
        turnaround := requestTime diskTrackLimit threads.kernel.diskScheduler track } :=
  Function.update_self ..

theorem append_waiting (awaited : Awaited threads) (proc : ProcId) (track : Int) (read : Bool) :
    waitingNodes (threads.append proc track read) =
      waitingNodes threads ++ [threads.nextNode] := by
  have cursor := awaited.cursor
  simp only [waitingNodes, Threads.append]
  cases stage : threads.disk with
  | resting | walking | visiting => rfl
  | removing track curr next =>
      rw [stage] at cursor
      exact List.erase_append_left _ cursor.1

theorem waiting_linked {node : NodeAddr} (member : node ∈ waitingNodes threads) :
    node ∈ threads.linked := by
  unfold waitingNodes at member
  split at member
  · exact List.mem_of_mem_erase member
  all_goals exact member

/-- A cursor stays sound when nodes are appended behind it. -/
theorem append_cursor {linked : List NodeAddr} {stage : DiskStage} {new : NodeAddr}
    (sound : CursorSound linked stage) (fresh : new ∉ linked) :
    CursorSound (linked ++ [new]) stage := by
  cases stage with
  | resting => trivial
  | walking track cursor => exact fun node member => List.mem_append_left _ (sound node member)
  | visiting track curr next | removing track curr next =>
      obtain ⟨here, known, passed⟩ := sound
      refine ⟨List.mem_append_left _ here,
        fun node member => List.mem_append_left _ (known node member), ?_⟩
      rw [onward_append known, List.mem_append, not_or]
      refine ⟨passed, fun later => ?_⟩
      split at later
      · exact nomatch later
      · exact fresh (List.mem_singleton.mp later ▸ here)

theorem append_awaited (awaited : Awaited threads) {proc : ProcId} {track : Int} {read : Bool}
    (stage : threads.cpu = .requesting proc track read) :
    Awaited (threads.append proc track read) where
  accounted := by
    have board : boardOf (threads.append proc track read).kernel =
        Board.withPending (boardOf threads.kernel)
          (threads.append proc track read).kernel.diskScheduler.pendingRequests := rfl
    rw [waitingBoard, board]
    apply repend awaited.accounted
    have old := append_content awaited proc track read fun _ => waiting_linked
    have new := append_content_new threads proc track read
    have settled : inFlight (threads.append proc track read).cpu = [] := rfl
    simp only [waitingRequests, append_waiting awaited, List.map_append, old, settled,
      List.map_cons, List.map_nil, new]
    simp [waitingBoard, Board.withPending, waitingRequests, stage, inFlight]
  distinct := by
    apply List.nodup_append.mpr
    refine ⟨awaited.distinct, List.nodup_singleton _, fun node member last lastMember => ?_⟩
    rw [List.mem_singleton.mp lastMember]
    exact Nat.ne_of_lt (awaited.allocated node member)
  allocated := by
    intro node member
    rcases List.mem_append.mp member with old | new
    · exact Nat.lt_succ_of_lt (awaited.allocated node old)
    · rw [List.mem_singleton.mp new]
      exact Nat.lt_succ_self _
  pending := by
    have old := append_content awaited proc track read fun _ => id
    have new := append_content_new threads proc track read
    change threads.kernel.diskScheduler.pendingRequests ++ _ =
      (threads.linked ++ [threads.nextNode]).map (threads.append proc track read).content
    rw [List.map_append, old, List.map_cons, List.map_nil, new, awaited.pending]
  cursor := by
    apply append_cursor awaited.cursor
    exact fun member => Nat.lt_irrefl _ (awaited.allocated _ member)

theorem file_awaited (awaited : Awaited threads) {proc : ProcId} {track : Int} {read : Bool}
    (stage : threads.cpu = .filing proc track read) (request : FsOpRequest) :
    Awaited { threads with kernel := fsRequest threads.kernel request, cpu := .ready } where
  accounted := by
    have board := fs_request_board threads.kernel request
    have same : waitingRequests { threads with
        kernel := fsRequest threads.kernel request, cpu := .ready } = waitingRequests threads := by
      simp [waitingRequests, waitingNodes, stage, inFlight]
    rw [waitingBoard, same]
    dsimp only
    rw [board]
    exact awaited.accounted
  distinct := awaited.distinct
  allocated := awaited.allocated
  pending := (congrArg Board.pending (fs_request_board threads.kernel request)).trans awaited.pending
  cursor := awaited.cursor

/-! ### The disk thread -/

theorem disk_rests_awaited (awaited : Awaited threads) {stage : DiskStage} {kernel : Kernel}
    (board : boardOf kernel = boardOf threads.kernel)
    (waiting : waitingNodes threads = threads.linked)
    (keeps : waitingNodes { threads with kernel := kernel, disk := stage } = threads.linked)
    (sound : CursorSound threads.linked stage) :
    Awaited { threads with kernel := kernel, disk := stage } where
  accounted := by
    have accounted := awaited.accounted
    rw [waitingBoard, waitingRequests, waiting] at accounted
    rw [waitingBoard, waitingRequests, keeps]
    dsimp only
    rw [board]
    exact accounted
  distinct := awaited.distinct
  allocated := awaited.allocated
  pending := (congrArg Board.pending board).trans awaited.pending
  cursor := sound

/-- The process of a waiting request is blocked. -/
theorem waiting_blocked (awaited : Awaited threads) {request : DiskRequest}
    (member : request ∈ waitingRequests threads) :
    request.process ∈ threads.kernel.scheduler.blockedQueue := by
  apply awaited.accounted.blocked.mem_iff.mpr
  exact List.mem_append_right _ (List.mem_map_of_mem member)

/-- Waking the process of the current node takes this node, and no other, from those
that wait. -/
theorem serve_awaited (awaited : Awaited threads) {track : Int} {curr : NodeAddr}
    {next : Option NodeAddr} (stage : threads.disk = .visiting track curr next) :
    Awaited { threads with
      kernel := serveRequest threads.kernel (threads.content curr)
      disk := .removing track curr next } := by
  have cursor := awaited.cursor
  rw [stage] at cursor
  have waiting : waitingNodes threads = threads.linked := by rw [waitingNodes, stage]
  have accounted := awaited.accounted
  have split : threads.linked.Perm (curr :: threads.linked.erase curr) :=
    List.perm_cons_erase cursor.1
  refine
    { accounted := ?_
      distinct := awaited.distinct
      allocated := awaited.allocated
      pending := ?_
      cursor := cursor }
  · have board := serve_board threads.kernel (threads.content curr)
    rw [waitingBoard]
    dsimp only
    rw [board]
    have owners : (waitingRequests threads).Perm
        (threads.content curr ::
          ((threads.linked.erase curr).map threads.content ++ inFlight threads.cpu)) := by
      rw [waitingRequests, waiting]
      exact (split.map threads.content).append_right _
    have blocked := accounted.blocked.trans
      ((owners.map DiskRequest.process).append_left _)
    have woken := (blocked.trans List.perm_middle).erase (threads.content curr).process
    rw [List.erase_cons_head, ← unblock_blocked _ .lowQueue] at woken
    exact moved_accounted accounted (places_unblock _ _ _) woken
  · exact (congrArg DiskScheduler.pendingRequests (ArmSweep.serve_disk _ _)).trans awaited.pending

theorem unlink_awaited (awaited : Awaited threads) {track : Int} {curr : NodeAddr}
    {next : Option NodeAddr} (stage : threads.disk = .removing track curr next) :
    Awaited (threads.unlink track curr next) := by
  have cursor := awaited.cursor
  rw [stage] at cursor
  obtain ⟨-, known, passed⟩ := cursor
  have waiting : waitingNodes threads = threads.linked.erase curr := by rw [waitingNodes, stage]
  refine
    { accounted := ?_
      distinct := awaited.distinct.erase curr
      allocated := fun node member => awaited.allocated node (List.mem_of_mem_erase member)
      pending := rfl
      cursor := ?_ }
  · have accounted := awaited.accounted
    rw [waitingBoard, waitingRequests, waiting] at accounted
    exact accounted
  · intro node member
    refine (List.mem_erase_of_ne ?_).mpr (known node member)
    rintro rfl
    apply passed
    obtain ⟨behind, -⟩ := onward_next awaited.distinct (known node member)
    rw [Option.mem_def.mp member, behind]
    exact List.mem_cons_self

theorem advance_awaited (awaited : Awaited threads) : Awaited threads.advance := by
  have cursor := awaited.cursor
  unfold Threads.advance
  split
  case h_1 stage =>
      apply disk_rests_awaited awaited rfl (by rw [waitingNodes, stage]) rfl
      exact fun node member => List.mem_of_mem_head? member
  case h_2 track curr stage =>
      rw [stage] at cursor
      have here := cursor curr rfl
      obtain ⟨-, passed, known⟩ := onward_next awaited.distinct here
      exact disk_rests_awaited awaited rfl (by rw [waitingNodes, stage]) rfl ⟨here, known, passed⟩
  case h_3 track stage =>
      refine disk_rests_awaited awaited ?_ (by rw [waitingNodes, stage]) rfl trivial
      simp only [boardOf, move_arm_pending]
  case h_4 track curr next stage =>
      unfold Threads.visit
      split
      · exact serve_awaited awaited stage
      · rw [stage] at cursor
        exact disk_rests_awaited awaited rfl (by rw [waitingNodes, stage]) rfl cursor.2.1
  case h_5 track curr next stage => exact unlink_awaited awaited stage

theorem step_awaited (awaited : Awaited threads) {event : ThreadEvent}
    (fired : threadStep threads event = some after) : Awaited after := by
  rcases thread_step_fires fired with ⟨inner, kernel, -, apart, step, rfl⟩ |
    ⟨-, proc, track, read, -, ready, running, rfl⟩ | ⟨proc, track, read, -, stage, rfl⟩ |
    ⟨proc, track, read, -, stage, rfl⟩ | ⟨-, rfl⟩
  · exact apart_awaited awaited apart step
  · exact block_awaited awaited ready running
  · exact append_awaited awaited stage
  · exact file_awaited awaited stage _
  · exact advance_awaited awaited

end Steps

theorem reachable_awaited {threads : Threads} (reached : Reachable threadSystem threads) :
    Awaited threads :=
  reachable_invariant Awaited reached init_awaited
    fun _ _ _ _ awaited fired => step_awaited awaited fired

end Ribabari.WakeUps

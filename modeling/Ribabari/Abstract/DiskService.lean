import Ribabari.Disk.WalkBound

/-!
# The disk, one request at a time

What the disk is for, while the cpu thread goes on between its steps: a process that asks
for a track is blocked and its request is pending, at any moment one of the requests on the
arm's track may be served, which wakes its process, and between two services the arm may
move. The two threads do nothing else, whatever the order of their steps.
-/

namespace Ribabari.DiskService

open Ribabari.ProcessRecords Ribabari.KernelState Ribabari.DiskAndFiles Ribabari.KernelEvents
open Ribabari.Dispatch Ribabari.Placement Ribabari.DiskThreads Ribabari.QueueBoard
open Ribabari.QueueRefinement Ribabari.BoardInvariants Ribabari.RequestTracks
open Ribabari.WakeUps Ribabari.SweepArm Ribabari.ArmSweep Ribabari.WalkBound
open Ribabari.TransitionSystem

set_option autoImplicit false

/-! ## The service -/

structure Service where
  board : Board
  arm : Arm

inductive ServiceEvent where
  | board (event : BoardEvent)
  | serve (request : DiskRequest)
  | move

def serviceStep (service : Service) : ServiceEvent → Option Service
  | .board (.tick _) => none
  | .board event =>
      (boardStep service.board event).map fun board => { service with board := board }
  | .serve request =>
      if request ∈ service.board.pending ∧ request.track = service.arm.position then some
        { service with
          board :=
            { service.board with
              queues := Queues.unblock .lowQueue request.process service.board.queues
              pending := service.board.pending.erase request } }
      else none
  | .move => some { service with arm := service.arm.step diskTrackLimit }

def serviceSystem : System Service ServiceEvent where
  start :=
    { board := emptyBoard
      arm := { position := 0, forward := true } }
  step := serviceStep

/-! ## The threads -/

/-- A request without its turnaround, which is not known before it is appended. -/
def plain (request : DiskRequest) : DiskRequest := { request with turnaround := 0 }

def serviceOf (threads : Threads) : Service where
  board := Board.withPending (boardOf threads.kernel) ((waitingRequests threads).map plain)
  arm := armIn threads

def plainEvent : BoardEvent → BoardEvent
  | .requestDisk request => .requestDisk (plain request)
  | event => event

/-- A process asks when it is blocked, and its request is served when it is woken. -/
def serviceEvent (threads : Threads) : ThreadEvent → Option ServiceEvent
  | .kernel event => some (.board (plainEvent (boardEvent threads.kernel event)))
  | .resume => none
  | .disk =>
      match threads.disk with
      | .visiting track curr _ =>
          if (threads.content curr).track = track then
            some (.serve (plain (threads.content curr)))
          else none
      | .walking _ none => some .move
      | .resting | .walking _ (some _) | .removing .. => none

variable {threads after : Threads}

theorem apart_service {event : KernelEvent} {kernel : Kernel} (apart : Apart event)
    (fired : kernelStep threads.kernel event = some kernel) :
    serviceStep (serviceOf threads) (.board (plainEvent (boardEvent threads.kernel event))) =
      some (serviceOf { threads with kernel := kernel }) := by
  obtain ⟨noTick, noRequest⟩ := apart_board threads.kernel apart
  have arm : armIn { threads with kernel := kernel } = armIn threads :=
    ElevatorOrder.arm_kept fired apart.2
  have step := apart_step apart fired ((waitingRequests threads).map plain)
  have service : serviceOf { threads with kernel := kernel } =
      { serviceOf threads with
        board := Board.withPending (boardOf kernel) ((waitingRequests threads).map plain) } := by
    rw [serviceOf, arm]
    rfl
  rw [service]
  cases image : boardEvent threads.kernel event with
  | tick track => exact absurd image (noTick track)
  | requestDisk request => exact absurd image (noRequest request)
  | create | idle | run | acquire | release | print | quantum | finish =>
      rw [image] at step
      simp only [plainEvent, serviceStep, serviceOf, step, Option.map_some]

/-- A disk instruction asks at the point where its process is blocked. -/
theorem block_service {instr : Instr} {read : Bool} (ready : threads.cpu = .ready)
    (blocked : threads.block instr read = some after) :
    serviceStep (serviceOf threads)
        (.board (.requestDisk
          { process := threads.kernel.scheduler.scheduledProc.getD 0
            track := instr.value
            read := read
            turnaround := 0 })) =
      some (serviceOf after) := by
  obtain ⟨proc, running, rfl⟩ := Option.map_eq_some_iff.mp blocked
  have scheduled : (serviceOf threads).board.queues.scheduledProc = some proc := running
  have board := schedule_board (fetched threads.kernel proc) .ioRequested
  rw [fetched_board] at board
  have service : serviceOf { threads with
        kernel := scheduleProcess (fetched threads.kernel proc) .ioRequested
        cpu := .requesting proc instr.value read } =
      { serviceOf threads with
        board :=
          { (serviceOf threads).board with
            queues := Queues.schedule (serviceOf threads).board.queues .ioRequested
            pending := (serviceOf threads).board.pending ++
              [{ process := proc, track := instr.value, read := read, turnaround := 0 }] } } := by
    have arm : armOf (scheduleProcess (fetched threads.kernel proc) .ioRequested).diskScheduler =
        armOf threads.kernel.diskScheduler := WorkLeft.schedule_arm _ _
    have queues : (fetched threads.kernel proc).scheduler = threads.kernel.scheduler := rfl
    rw [queues] at board
    simp only [serviceOf, armIn, arm, board]
    simp [Board.withPending, Board.withQueues, boardOf, waitingRequests, waitingNodes, inFlight,
      ready, plain]
  rw [service, running, Option.getD_some]
  simp only [serviceStep, boardStep, scheduled, Option.bind_some, Board.runProcess, if_true,
    Option.map_some]

theorem kernel_service {event : KernelEvent} (fired : threads.fireKernel event = some after) :
    serviceStep (serviceOf threads) (.board (plainEvent (boardEvent threads.kernel event))) =
      some (serviceOf after) := by
  have apart : ∀ {event}, Apart event → threads.kernelOnly event = some after →
      serviceStep (serviceOf threads) (.board (plainEvent (boardEvent threads.kernel event))) =
        some (serviceOf after) := by
    intro event apart only
    obtain ⟨kernel, step, rfl⟩ := Option.map_eq_some_iff.mp only
    exact apart_service apart step
  cases event with
  | diskTick => exact nomatch fired
  | processCreate program fresh => exact apart (by simp [Apart, requestedTrack]) fired
  | idleDispatch | quantumCompleted | processFinish =>
      obtain ⟨-, fired⟩ := Option.ite_none_right_eq_some.mp fired
      exact apart (by simp [Apart, requestedTrack]) fired
  | execute instr =>
      obtain ⟨op, value, sem⟩ := instr
      obtain ⟨ready, fired⟩ := Option.ite_none_right_eq_some.mp fired
      cases op with
      | read | write => exact block_service ready fired
      | exec | print | semP | semV =>
          exact apart (by simp [Apart, requestedTrack, diskOperand]) fired

/-- Appending gives the pending request its node. -/
theorem append_service (awaited : Awaited threads) {proc : ProcId} {track : Int} {read : Bool}
    (stage : threads.cpu = .requesting proc track read) :
    serviceOf (threads.append proc track read) = serviceOf threads := by
  have old := append_content awaited proc track read fun _ => waiting_linked
  have new := append_content_new threads proc track read
  have settled : inFlight (threads.append proc track read).cpu = [] := rfl
  have requests : (waitingRequests (threads.append proc track read)).map plain =
      (waitingRequests threads).map plain := by
    rw [waitingRequests, settled, append_waiting awaited, List.append_nil, List.map_append, old,
      List.map_singleton, new, waitingRequests, stage, inFlight, List.map_append, List.map_append]
    rfl
  rw [serviceOf, requests]
  rfl

theorem file_service {proc : ProcId} {track : Int} {read : Bool}
    (stage : threads.cpu = .filing proc track read) (request : FsOpRequest) :
    serviceOf { threads with kernel := fsRequest threads.kernel request, cpu := .ready } =
      serviceOf threads := by
  have board := fs_request_board threads.kernel request
  have arm := WorkLeft.fs_request_disk threads.kernel request
  simp only [serviceOf, armIn, board, arm, waitingRequests, waitingNodes, inFlight, stage]

theorem resume_quiet (awaited : Awaited threads) (fired : threads.resume = some after) :
    serviceOf after = serviceOf threads := by
  unfold Threads.resume at fired
  split at fired
  case h_1 => exact nomatch fired
  case h_2 proc track read stage =>
      obtain rfl := Option.some.inj fired
      exact append_service awaited stage
  case h_3 proc track read stage =>
      obtain rfl := Option.some.inj fired
      exact file_service stage _

/-- What is taken out of a list is taken out of its images, if these are different. -/
theorem map_erase_of_nodup {Node Request Owner : Type*} [DecidableEq Node] [DecidableEq Request]
    {content : Node → Request} {owner : Request → Owner} {nodes : List Node} {node : Node}
    (distinct : ((nodes.map content).map owner).Nodup) (here : node ∈ nodes) :
    (nodes.erase node).map content = (nodes.map content).erase (content node) := by
  obtain ⟨before, rest, rfl⟩ := List.append_of_mem here
  have apart : content node ∉ before.map content := by
    rw [List.map_append, List.map_append] at distinct
    intro member
    exact (List.nodup_append.mp distinct).2.2 _ (List.mem_map_of_mem member) _
      List.mem_cons_self rfl
  have first : node ∉ before := fun member => apart (List.mem_map_of_mem member)
  rw [List.erase_append_right _ first, List.erase_cons_head, List.map_append, List.map_append,
    List.map_cons, List.erase_append_right _ apart, List.erase_cons_head]

/-- The node that the walk visits is pending until its process is woken. -/
theorem serve_service (awaited : Awaited threads) (sound : OnArm threads) {track : Int}
    {curr : NodeAddr} {next : Option NodeAddr} (stage : threads.disk = .visiting track curr next)
    (hit : (threads.content curr).track = track) :
    serviceStep (serviceOf threads) (.serve (plain (threads.content curr))) =
      some (serviceOf
        { threads with
          kernel := serveRequest threads.kernel (threads.content curr)
          disk := .removing track curr next }) := by
  have cursor := awaited.cursor
  rw [stage] at cursor
  have waiting : waitingNodes threads = threads.linked := by rw [waitingNodes, stage]
  have pending : (serviceOf threads).board.pending =
      threads.linked.map (plain ∘ threads.content) ++ (inFlight threads.cpu).map plain := by
    simp only [serviceOf, Board.withPending, waitingRequests, waiting, List.map_append,
      List.map_map]
  have member : plain (threads.content curr) ∈ threads.linked.map (plain ∘ threads.content) :=
    List.mem_map_of_mem cursor.1
  have owners : ((threads.linked.map (plain ∘ threads.content)).map
      DiskRequest.process).Nodup := by
    have distinct := awaited.accounted.waiting_nodup
    rw [BoardInvariants.waiting, waitingBoard] at distinct
    have requests := (List.nodup_append.mp distinct).2.1
    change ((waitingRequests threads).map DiskRequest.process).Nodup at requests
    rw [waitingRequests, waiting, List.map_append, List.map_map] at requests
    rw [List.map_map]
    exact (List.nodup_append.mp requests).1
  have erased := map_erase_of_nodup owners cursor.1
  have onTrack : (plain (threads.content curr)).track = (serviceOf threads).arm.position := by
    have walk := sound.track track (by rw [stage]; rfl)
    exact hit.trans walk
  have service : serviceOf
        { threads with
          kernel := serveRequest threads.kernel (threads.content curr)
          disk := .removing track curr next } =
      { serviceOf threads with
        board :=
          { (serviceOf threads).board with
            queues := Queues.unblock .lowQueue (threads.content curr).process
              (serviceOf threads).board.queues
            pending := (serviceOf threads).board.pending.erase
              (plain (threads.content curr)) } } := by
    have board := serve_board threads.kernel (threads.content curr)
    have arm := serve_disk threads.kernel (threads.content curr)
    rw [pending, List.erase_append_left _ member]
    simp only [serviceOf, armIn, board, arm, waitingRequests, waitingNodes]
    simp only [Function.comp_apply] at erased
    simp [Board.withPending, Board.withQueues, boardOf, erased]
  rw [service]
  simp only [serviceStep]
  rw [if_pos ⟨pending ▸ List.mem_append_left _ member, onTrack⟩]
  rfl

/-- Where the disk thread neither serves nor ends its walk, the service does not notice. -/
theorem advance_quiet (quiet : serviceEvent threads .disk = none) :
    serviceOf threads.advance = serviceOf threads := by
  unfold serviceEvent at quiet
  unfold Threads.advance
  cases stage : threads.disk with
  | resting => simp only [serviceOf, armIn, waitingRequests, waitingNodes, stage]
  | walking track cursor =>
      simp only [stage] at quiet
      cases cursor with
      | none => exact absurd quiet (Option.some_ne_none _)
      | some curr => simp only [serviceOf, armIn, waitingRequests, waitingNodes, stage]
  | visiting track curr next =>
      simp only [stage] at quiet
      have passed : (threads.content curr).track ≠ track :=
        fun hit => by simp [hit] at quiet
      simp only [Threads.visit, passed, if_false, serviceOf, armIn, waitingRequests, waitingNodes,
        stage]
  | removing track curr next =>
      simp only [Threads.unlink, serviceOf, armIn, waitingRequests, waitingNodes, stage]
      rfl

theorem advance_service (awaited : Awaited threads) (sound : OnArm threads)
    {event : ServiceEvent} (image : serviceEvent threads .disk = some event) :
    serviceStep (serviceOf threads) event = some (serviceOf threads.advance) := by
  unfold serviceEvent at image
  unfold Threads.advance
  cases stage : threads.disk with
  | resting | removing =>
      rw [stage] at image
      exact absurd image.symm (Option.some_ne_none _)
  | walking track cursor =>
      simp only [stage] at image
      cases cursor with
      | some curr => exact absurd image.symm (Option.some_ne_none _)
      | none =>
          obtain rfl := Option.some.inj image
          have arm := arm_of_move diskTrackLimit threads.kernel.diskScheduler
          simp only [serviceStep, serviceOf, armIn, arm, waitingRequests, waitingNodes, stage,
            Board.withPending, boardOf]
  | visiting track curr next =>
      simp only [stage] at image
      obtain ⟨hit, same⟩ := Option.ite_none_right_eq_some.mp image
      obtain rfl := Option.some.inj same
      simp only [Threads.visit, hit, if_true]
      exact serve_service awaited sound stage hit

/-- The two threads, in any order of their steps, are the service. -/
def threadsServe : Simulation threadSystem serviceSystem where
  view := serviceOf
  image := serviceEvent
  start := rfl
  stutter := by
    intro before event after reached fired image
    have awaited := reachable_awaited reached
    cases event with
    | kernel event => exact nomatch image
    | disk =>
        obtain rfl := Option.some.inj fired
        exact advance_quiet image
    | resume => exact resume_quiet awaited fired
  fires := by
    intro before event after abstractEvent reached fired image
    cases event with
    | resume => exact nomatch image
    | kernel event =>
        obtain rfl := Option.some.inj image
        exact kernel_service fired
    | disk =>
        obtain rfl := Option.some.inj fired
        exact advance_service (reachable_awaited reached) (reachable_on_arm reached) image

theorem threads_refine_service {past : List (Threads × ThreadEvent)}
    (trace : Trace threadSystem past threads) :
    Trace serviceSystem (threadsServe.project past) (serviceOf threads) :=
  threadsServe.trace trace

/-- A process that asks again for the track it was just served on, while its first node is
still linked, has one request pending. -/
def reentered : Threads :=
  (run threadSystem NodeLives.reentryEvents threadsInit).getD threadsInit

theorem threads_refine_service_reentry :
    reentered.kernel.diskScheduler.pendingRequests.length = 2 ∧
      (serviceOf reentered).board.pending = [⟨1, 0, true, 0⟩] ∧
      Trace serviceSystem
        (threadsServe.project (history threadSystem NodeLives.reentryEvents threadsInit))
        (serviceOf reentered) := by
  have ran : run threadSystem NodeLives.reentryEvents threadSystem.start = some reentered := rfl
  have trace : Trace threadSystem (history threadSystem NodeLives.reentryEvents threadsInit)
      reentered := trace_history NodeLives.reentryEvents .start ran
  exact ⟨by decide, by decide, threads_refine_service trace⟩

end Ribabari.DiskService

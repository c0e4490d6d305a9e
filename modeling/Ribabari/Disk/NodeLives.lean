import Ribabari.Disk.WakeUps

/-!
# The life of a request node

A ledger beside the two threads keeps what happened to each node. Every step writes the
lives on, so a node is woken and unlinked once whatever the other thread does, and what
is due when a tick begins is ahead of the walk until it is unlinked.
-/

namespace Ribabari.NodeLives

open Ribabari.ProcessRecords Ribabari.KernelState Ribabari.Dispatch Ribabari.DiskAndFiles
open Ribabari.KernelEvents Ribabari.DiskThreads Ribabari.ListCursor Ribabari.QueueBoard
open Ribabari.BoardInvariants Ribabari.QueueRefinement Ribabari.RequestTracks
open Ribabari.Placement Ribabari.WakeUps Ribabari.TransitionSystem

set_option autoImplicit false

/-! ## The life of a node -/

inductive NodeEvent where
  | appended
  | unblocked
  | removed
  deriving DecidableEq, Repr

/-- What happened to each node so far, and the linked nodes that were on the arm's track
when the last tick began. -/
structure DiskLedger where
  events : NodeAddr → List NodeEvent
  due : List NodeAddr

def emptyLedger : DiskLedger where
  events := fun _ => []
  due := []

/-- What a step does to a node. -/
def nodeEvent (threads : Threads) : ThreadEvent → Option (NodeAddr × NodeEvent)
  | .kernel _ => none
  | .resume =>
      match threads.cpu with
      | .requesting .. => some (threads.nextNode, .appended)
      | .ready | .filing .. => none
  | .disk =>
      match threads.disk with
      | .visiting track curr _ =>
          if (threads.content curr).track = track then some (curr, .unblocked) else none
      | .removing _ curr _ => some (curr, .removed)
      | .resting | .walking .. => none

def dueNodes (threads : Threads) : List NodeAddr :=
  threads.linked.filter fun node =>
    (threads.content node).track = threads.kernel.diskScheduler.currTrack

def DiskLedger.record (ledger : DiskLedger) (threads : Threads) (event : ThreadEvent) :
    DiskLedger where
  events := fun node =>
    ledger.events node ++
      ((nodeEvent threads event).filter fun entry => entry.1 = node).toList.map Prod.snd
  due :=
    match event, threads.disk with
    | .disk, .resting => dueNodes threads
    | _, _ => ledger.due

def ledgerSystem : System (Threads × DiskLedger) ThreadEvent :=
  withHistory threadSystem emptyLedger DiskLedger.record

/-- A node is appended, its process is woken and it is unlinked, in this order. -/
def lifeOf (threads : Threads) (node : NodeAddr) : List NodeEvent :=
  if threads.nextNode ≤ node then []
  else if node ∈ waitingNodes threads then [.appended]
  else if node ∈ threads.linked then [.appended, .unblocked]
  else [.appended, .unblocked, .removed]

section Lives

variable {threads after : Threads} {node : NodeAddr}

theorem life_waiting (awaited : Awaited threads) (waits : node ∈ waitingNodes threads) :
    lifeOf threads node = [.appended] := by
  have known := awaited.allocated node (waiting_linked waits)
  rw [lifeOf, if_neg (Nat.not_le.mpr known), if_pos waits]

theorem life_woken (awaited : Awaited threads) (linked : node ∈ threads.linked)
    (woken : node ∉ waitingNodes threads) : lifeOf threads node = [.appended, .unblocked] := by
  have known := awaited.allocated node linked
  rw [lifeOf, if_neg (Nat.not_le.mpr known), if_neg woken, if_pos linked]

theorem life_removed (known : node < threads.nextNode) (unlinked : node ∉ threads.linked) :
    lifeOf threads node = [.appended, .unblocked, .removed] := by
  rw [lifeOf, if_neg (Nat.not_le.mpr known), if_neg fun waits => unlinked (waiting_linked waits),
    if_neg unlinked]

theorem life_kept (next : after.nextNode = threads.nextNode)
    (waiting : node ∈ waitingNodes after ↔ node ∈ waitingNodes threads)
    (linked : node ∈ after.linked ↔ node ∈ threads.linked) :
    lifeOf after node = lifeOf threads node := by
  simp only [lifeOf, next, waiting, linked]

theorem append_life (awaited : Awaited threads) (proc : ProcId) (track : Int) (read : Bool)
    (node : NodeAddr) :
    lifeOf (threads.append proc track read) node =
      lifeOf threads node ++ if threads.nextNode = node then [.appended] else [] := by
  have next : (threads.append proc track read).nextNode = threads.nextNode + 1 := rfl
  have linked : (threads.append proc track read).linked = threads.linked ++ [threads.nextNode] :=
    rfl
  have waiting := append_waiting awaited proc track read
  by_cases new : threads.nextNode = node
  · subst new
    have before : lifeOf threads threads.nextNode = [] := if_pos (Nat.le_refl _)
    have known : ¬threads.nextNode + 1 ≤ threads.nextNode := Nat.not_succ_le_self _
    rw [before, if_pos rfl, lifeOf, next, if_neg known, waiting, if_pos (by simp)]
    rfl
  · rw [if_neg new, List.append_nil]
    have other : node ≠ threads.nextNode := fun same => new same.symm
    have bound : threads.nextNode + 1 ≤ node ↔ threads.nextNode ≤ node :=
      ⟨Nat.le_of_succ_le, fun later => Nat.lt_of_le_of_ne later new⟩
    simp only [lifeOf, next, waiting, linked, bound, List.mem_append, List.mem_singleton, other,
      or_false]

theorem serve_life (awaited : Awaited threads) {track : Int} {curr : NodeAddr}
    {next : Option NodeAddr} {kernel : Kernel} (stage : threads.disk = .visiting track curr next)
    (node : NodeAddr) :
    lifeOf { threads with kernel := kernel, disk := .removing track curr next } node =
      lifeOf threads node ++ if curr = node then [.unblocked] else [] := by
  have cursor := awaited.cursor
  rw [stage] at cursor
  have waiting : waitingNodes threads = threads.linked := by rw [waitingNodes, stage]
  by_cases here : curr = node
  · subst here
    have known := awaited.allocated curr cursor.1
    have gone : curr ∉ threads.linked.erase curr := awaited.distinct.not_mem_erase
    rw [life_waiting awaited (waiting ▸ cursor.1), if_pos rfl, lifeOf,
      if_neg (Nat.not_le.mpr known), waitingNodes, if_neg gone, if_pos cursor.1]
    rfl
  · rw [if_neg here, List.append_nil]
    apply life_kept
    · rfl
    · rw [waiting]
      exact List.mem_erase_of_ne fun same => here same.symm
    · rfl

theorem unlink_life (awaited : Awaited threads) {track : Int} {curr : NodeAddr}
    {next : Option NodeAddr} (stage : threads.disk = .removing track curr next)
    (node : NodeAddr) :
    lifeOf (threads.unlink track curr next) node =
      lifeOf threads node ++ if curr = node then [.removed] else [] := by
  have cursor := awaited.cursor
  rw [stage] at cursor
  have waiting : waitingNodes threads = threads.linked.erase curr := by rw [waitingNodes, stage]
  have gone : curr ∉ threads.linked.erase curr := awaited.distinct.not_mem_erase
  by_cases here : curr = node
  · subst here
    have known := awaited.allocated curr cursor.1
    rw [life_woken awaited cursor.1 (waiting ▸ gone), if_pos rfl]
    exact life_removed known gone
  · rw [if_neg here, List.append_nil]
    apply life_kept
    · rfl
    · rw [waiting]
      rfl
    · exact List.mem_erase_of_ne fun same => here same.symm

/-- A step between the nodes adds nothing to a life. -/
theorem rests_life {stage : DiskStage} {kernel : Kernel}
    (waiting : waitingNodes threads = threads.linked)
    (keeps : waitingNodes { threads with kernel := kernel, disk := stage } = threads.linked) :
    lifeOf { threads with kernel := kernel, disk := stage } node = lifeOf threads node ++ [] := by
  rw [List.append_nil]
  apply life_kept
  · rfl
  · rw [waiting, keeps]
  · rfl

/-- Each step writes the life of every node on. -/
theorem step_life (awaited : Awaited threads) {event : ThreadEvent}
    (fired : threadStep threads event = some after) (node : NodeAddr) :
    lifeOf after node = lifeOf threads node ++
      ((nodeEvent threads event).filter fun entry => entry.1 = node).toList.map Prod.snd := by
  rcases thread_step_fires fired with ⟨inner, kernel, rfl, -, -, rfl⟩ |
    ⟨inner, proc, track, read, rfl, -, -, rfl⟩ | ⟨proc, track, read, rfl, stage, rfl⟩ |
    ⟨proc, track, read, rfl, stage, rfl⟩ | ⟨rfl, rfl⟩
  · exact (List.append_nil _).symm
  · exact (List.append_nil _).symm
  · rw [append_life awaited, nodeEvent, stage]
    by_cases new : threads.nextNode = node <;> simp [new, Option.filter]
  · rw [nodeEvent, stage]
    exact (List.append_nil _).symm
  · unfold Threads.advance nodeEvent
    cases stage : threads.disk with
    | resting =>
        exact rests_life (by rw [waitingNodes, stage]) rfl
    | walking track cursor =>
        cases cursor with
        | none => exact rests_life (by rw [waitingNodes, stage]) rfl
        | some curr => exact rests_life (by rw [waitingNodes, stage]) rfl
    | visiting track curr next =>
        dsimp only
        unfold Threads.visit
        split
        · rw [serve_life awaited stage]
          by_cases here : curr = node <;> simp [here, Option.filter]
        · exact rests_life (by rw [waitingNodes, stage]) rfl
    | removing track curr next =>
        dsimp only
        rw [unlink_life awaited stage]
        by_cases here : curr = node <;> simp [here, Option.filter]

end Lives

/-! ## The nodes that are due -/

/-- The due nodes that are still linked lie ahead of the walk. -/
def DueAhead (threads : Threads) (due : List NodeAddr) : Prop :=
  ∀ node ∈ due, node < threads.nextNode ∧
    match threads.disk with
    | .resting => node ∉ threads.linked
    | .walking track cursor =>
        (threads.content node).track = track ∧
          (node ∈ threads.linked → node ∈ onward threads.linked cursor)
    | .visiting track curr next | .removing track curr next =>
        (threads.content node).track = track ∧
          (node ∈ threads.linked → node = curr ∨ node ∈ onward threads.linked next)

section Due

variable {threads after : Threads} {due : List NodeAddr}

theorem due_begins (awaited : Awaited threads) :
    DueAhead
      { threads with
        disk := .walking threads.kernel.diskScheduler.currTrack threads.linked.head? }
      (dueNodes threads) := by
  intro node member
  obtain ⟨linked, onTrack⟩ := List.mem_filter.mp member
  refine ⟨awaited.allocated node linked, of_decide_eq_true onTrack, fun _ => ?_⟩
  change node ∈ onward threads.linked threads.linked.head?
  cases nodes : threads.linked with
  | nil => simp [nodes] at linked
  | cons first rest =>
      rw [List.head?_cons]
      rw [nodes] at linked
      simpa [onward] using linked

theorem append_due (awaited : Awaited threads) (ahead : DueAhead threads due) (proc : ProcId)
    (track : Int) (read : Bool) : DueAhead (threads.append proc track read) due := by
  have sound := awaited.cursor
  intro node member
  obtain ⟨known, ahead⟩ := ahead node member
  have content : (threads.append proc track read).content node = threads.content node :=
    Function.update_of_ne (Nat.ne_of_lt known) _ _
  have old : node ∈ threads.linked ++ [threads.nextNode] → node ∈ threads.linked := by
    intro linked
    rcases List.mem_append.mp linked with old | new
    · exact old
    · exact absurd (List.mem_singleton.mp new) (Nat.ne_of_lt known)
  refine ⟨Nat.lt_succ_of_lt known, ?_⟩
  have stays : (threads.append proc track read).disk = threads.disk := rfl
  have linked : (threads.append proc track read).linked = threads.linked ++ [threads.nextNode] :=
    rfl
  rw [content, stays, linked]
  cases stage : threads.disk with
  | resting =>
      rw [stage] at ahead
      exact fun linked => ahead (old linked)
  | walking track cursor =>
      simp only [stage] at ahead sound ⊢
      refine ⟨ahead.1, fun linked => ?_⟩
      rw [onward_append sound]
      exact List.mem_append_left _ (ahead.2 (old linked))
  | visiting track curr next | removing track curr next =>
      simp only [stage] at ahead sound ⊢
      refine ⟨ahead.1, fun linked => ?_⟩
      rw [onward_append sound.2.1]
      rcases ahead.2 (old linked) with here | later
      · exact .inl here
      · exact .inr (List.mem_append_left _ later)

/-- A tick that goes on does not leave a due node behind. -/
theorem advance_due (awaited : Awaited threads) (ahead : DueAhead threads due)
    (busy : threads.disk ≠ .resting) : DueAhead threads.advance due := by
  have sound := awaited.cursor
  intro node member
  obtain ⟨known, ahead⟩ := ahead node member
  unfold Threads.advance
  cases stage : threads.disk with
  | resting => exact absurd stage busy
  | walking track cursor =>
      rw [stage] at ahead
      cases cursor with
      | none => exact ⟨known, fun linked => nomatch ahead.2 linked⟩
      | some curr =>
          refine ⟨known, ahead.1, fun linked => ?_⟩
          rw [stage] at sound
          have split := (onward_next awaited.distinct (sound curr rfl)).1
          have later := ahead.2 linked
          rw [split] at later
          exact List.mem_cons.mp later
  | visiting track curr next =>
      rw [stage] at ahead
      dsimp only
      unfold Threads.visit
      split
      case isTrue => exact ⟨known, ahead⟩
      case isFalse elsewhere =>
          refine ⟨known, ahead.1, fun linked => ?_⟩
          rcases ahead.2 linked with rfl | later
          · exact absurd ahead.1 elsewhere
          · exact later
  | removing track curr next =>
      simp only [stage] at ahead sound
      refine ⟨known, ahead.1, fun linked => ?_⟩
      change node ∈ onward (threads.linked.erase curr) next
      rw [onward_erase sound.2.1 sound.2.2]
      rcases ahead.2 (List.mem_of_mem_erase linked) with rfl | later
      · exact absurd linked awaited.distinct.not_mem_erase
      · exact later

theorem step_due (awaited : Awaited threads) {ledger : DiskLedger} {event : ThreadEvent}
    (ahead : DueAhead threads ledger.due) (fired : threadStep threads event = some after) :
    DueAhead after (ledger.record threads event).due := by
  rcases thread_step_fires fired with ⟨inner, kernel, rfl, -, -, rfl⟩ |
    ⟨inner, proc, track, read, rfl, -, -, rfl⟩ | ⟨proc, track, read, rfl, -, rfl⟩ |
    ⟨proc, track, read, rfl, -, rfl⟩ | ⟨rfl, rfl⟩
  · exact ahead
  · exact ahead
  · exact append_due awaited ahead proc track read
  · exact ahead
  · cases stage : threads.disk with
    | resting =>
        have begins := due_begins awaited
        simpa only [DiskLedger.record, Threads.advance, stage] using begins
    | walking | visiting | removing =>
        have goes := advance_due awaited ahead (by rw [stage]; exact fun same => nomatch same)
        simpa only [DiskLedger.record, stage] using goes

end Due

/-! ## The ledger -/

structure LedgerSound (state : Threads × DiskLedger) : Prop where
  lives : ∀ node, state.2.events node = lifeOf state.1 node
  ahead : DueAhead state.1 state.2.due

theorem reachable_ledger {state : Threads × DiskLedger} (reached : Reachable ledgerSystem state) :
    LedgerSound state := by
  apply reachable_invariant LedgerSound reached
  · exact
      { lives := fun _ => rfl
        ahead := fun node member => nomatch member }
  · intro before event after reachedBefore sound fired
    have awaited := reachable_awaited (history_reachable reachedBefore)
    obtain ⟨step, recorded⟩ := history_step fired
    refine
      { lives := fun node => ?_
        ahead := ?_ }
    · rw [step_life awaited step, recorded, ← sound.lives]
      rfl
    · rw [recorded]
      exact step_due awaited sound.ahead step

/-! ## The steps together are the events -/

section Undisturbed

variable {threads : Threads}

/-- The three steps of a disk request, one after the other, are its instruction. -/
theorem request_alone {instr : Instr} {track : Int} (operand : diskOperand instr = some track)
    (ready : threads.cpu = .ready) :
    (run threadSystem [.kernel (.execute instr), .resume, .resume] threads).map
        (fun after => (after.kernel, after.cpu, after.disk)) =
      (kernelStep threads.kernel (.execute instr)).map
        fun kernel => (kernel, .ready, threads.disk) := by
  obtain ⟨kernel, linked, content, nextNode, cpu, disk⟩ := threads
  obtain rfl : cpu = .ready := ready
  obtain ⟨op, value, sem⟩ := instr
  cases op with
  | exec | print | semP | semV => exact nomatch operand
  | read | write =>
      cases running : kernel.scheduler.scheduledProc with
      | none =>
          simp [run, threadSystem, threadStep, Threads.fireKernel, Threads.block, kernelStep,
            running]
      | some proc =>
          simp [run, threadSystem, threadStep, Threads.fireKernel, Threads.block, Threads.resume,
            Threads.append, kernelStep, running, eval, sysCall, diskCall]

/-- The walk of an undisturbed disk thread is `rw_disk_op_resolve`. -/
theorem walk_alone (threads : Threads) {track : Int} (before after : List NodeAddr)
    (linked : threads.linked = before ++ after) (distinct : threads.linked.Nodup)
    (pending : threads.kernel.diskScheduler.pendingRequests =
      threads.linked.map threads.content)
    (stage : threads.disk = .walking track after.head?) :
    ∃ steps left, Threads.advance^[steps] threads =
      { threads with
        kernel := resolveFrom track threads.kernel (before.map threads.content)
          (after.map threads.content)
        linked := left
        disk := .walking track none } := by
  induction after generalizing threads before with
  | nil => exact ⟨0, threads.linked, by rw [List.head?_nil] at stage; rw [← stage]; rfl⟩
  | cons node rest ih =>
      have first : node ∉ before := by
        rw [linked] at distinct
        intro member
        exact (List.nodup_append.mp distinct).2.2 node member node List.mem_cons_self rfl
      have visits : threads.advance =
          { threads with disk := .visiting track node rest.head? } := by
        rw [Threads.advance, stage]
        dsimp only [List.head?_cons]
        rw [linked, next_of_split first]
      by_cases hit : (threads.content node).track = track
      · have unlinked : threads.linked.erase node = before ++ rest := by
          rw [linked, List.erase_append_right _ first, List.erase_cons_head]
        have served : Threads.advance^[3] threads =
            { threads with
              kernel := Kernel.setPending (serveRequest threads.kernel (threads.content node))
                ((before ++ rest).map threads.content)
              linked := before ++ rest
              disk := .walking track rest.head? } := by
          rw [Function.iterate_succ_apply, visits, Function.iterate_succ_apply,
            Function.iterate_one]
          simp only [Threads.advance, Threads.visit, hit, if_true, Threads.unlink, unlinked]
        obtain ⟨steps, left, walked⟩ := ih (Threads.advance^[3] threads) before
          (by rw [served]) (by
            rw [served, ← unlinked]
            exact distinct.erase node) (by rw [served]; rfl) (by rw [served])
        refine ⟨steps + 3, left, ?_⟩
        rw [Function.iterate_add_apply, walked, served]
        simp only [List.map_cons, resolveFrom, hit, if_true, List.map_append]
      · have passed : Threads.advance^[2] threads =
            { threads with disk := .walking track rest.head? } := by
          rw [Function.iterate_succ_apply, visits, Function.iterate_one]
          simp only [Threads.advance, Threads.visit, hit, if_false]
        obtain ⟨steps, left, walked⟩ := ih (Threads.advance^[2] threads)
          (before ++ [node]) (by rw [passed]; simp [linked])
          (by rw [passed]; exact distinct) (by rw [passed]; exact pending) (by rw [passed])
        refine ⟨steps + 2, left, ?_⟩
        rw [Function.iterate_add_apply, walked, passed]
        simp only [List.map_cons, resolveFrom, hit, if_false, List.map_append, List.map_nil]

/-- A tick that nobody disturbs is `diskTick`. -/
theorem tick_alone (awaited : Awaited threads) (rests : threads.disk = .resting) :
    ∃ steps left, Threads.advance^[steps] threads =
      { threads with kernel := diskTick threads.kernel, linked := left } := by
  have begins : threads.advance =
      { threads with
        disk := .walking threads.kernel.diskScheduler.currTrack threads.linked.head? } := by
    rw [Threads.advance, rests]
  obtain ⟨steps, left, walked⟩ := walk_alone threads.advance [] threads.linked
    (by rw [begins]; rfl) (by rw [begins]; exact awaited.distinct)
    (by rw [begins]; exact awaited.pending) (by rw [begins])
  refine ⟨steps + 1 + 1, left, ?_⟩
  rw [Function.iterate_succ_apply', Function.iterate_succ_apply, walked, begins]
  obtain ⟨kernel, linked, content, nextNode, cpu, disk⟩ := threads
  obtain rfl : disk = .resting := rests
  have pending : kernel.diskScheduler.pendingRequests = linked.map content := awaited.pending
  simp only [Threads.advance, diskTick, rwDiskOpResolve, List.map_nil, pending]

theorem apart_alone {event : KernelEvent} {kernel : Kernel} (apart : Apart event)
    (ready : threads.cpu = .ready) (fired : kernelStep threads.kernel event = some kernel) :
    threadStep threads (.kernel event) = some { threads with kernel := kernel } := by
  have only : threads.kernelOnly event = some { threads with kernel := kernel } := by
    rw [Threads.kernelOnly, fired, Option.map_some]
  cases event with
  | diskTick => exact absurd rfl apart.2
  | processCreate program fresh => exact only
  | idleDispatch | quantumCompleted | processFinish => exact (if_pos ready).trans only
  | execute instr =>
      obtain ⟨op, value, sem⟩ := instr
      cases op with
      | read | write => exact absurd apart.1 (by simp [requestedTrack, diskOperand])
      | exec | print | semP | semV => exact (if_pos ready).trans only

theorem advance_reachable (reached : Reachable threadSystem threads) (steps : Nat) :
    Reachable threadSystem (Threads.advance^[steps] threads) := by
  induction steps with
  | zero => exact reached
  | succ steps ih =>
      obtain ⟨past, trace⟩ := ih
      rw [Function.iterate_succ_apply']
      have step : threadSystem.step (Threads.advance^[steps] threads) .disk =
          some (Threads.advance^[steps] threads).advance := rfl
      exact ⟨_, trace.next step⟩

/-- Every run of whole kernel events is an interleaving of the two threads. -/
theorem kernel_reached_by_threads {kernel : Kernel} (reached : Reachable kernelSystem kernel) :
    ∃ threads, Reachable threadSystem threads ∧ threads.kernel = kernel ∧
      threads.cpu = .ready ∧ threads.disk = .resting := by
  obtain ⟨past, trace⟩ := reached
  induction trace with
  | start => exact ⟨threadsInit, ⟨[], .start⟩, rfl, rfl, rfl⟩
  | @next past before after event prior fired ih =>
      obtain ⟨threads, reached, rfl, ready, rests⟩ := ih
      cases operand : requestedTrack event with
      | some track =>
          cases event with
          | execute instr =>
              have alone := request_alone operand ready
              rw [show kernelStep threads.kernel (.execute instr) = some after from fired,
                Option.map_some] at alone
              obtain ⟨final, ran, same⟩ := Option.map_eq_some_iff.mp alone
              simp only [Prod.mk.injEq] at same
              obtain ⟨past, trace⟩ := reached
              exact ⟨final, ⟨_, trace_history _ trace ran⟩, same.1, same.2.1,
                same.2.2.trans rests⟩
          | processCreate | idleDispatch | quantumCompleted | processFinish | diskTick =>
              exact nomatch operand
      | none =>
          by_cases ticks : event = .diskTick
          · subst ticks
            obtain ⟨steps, left, walked⟩ := tick_alone (reachable_awaited reached) rests
            refine ⟨_, advance_reachable reached steps, ?_⟩
            rw [walked]
            exact ⟨Option.some.inj fired, ready, rests⟩
          · have step : threadSystem.step threads (.kernel event) =
                some { threads with kernel := after } :=
              apart_alone ⟨operand, ticks⟩ ready fired
            obtain ⟨past, trace⟩ := reached
            exact ⟨_, ⟨_, trace.next step⟩, rfl, ready, rests⟩

end Undisturbed

/-! ## No lost wake-up -/

/-- Under every interleaving of the two threads an unblock finds its process in the
blocked queue, a node is woken and unlinked once and in this order, no due node outlives
the tick, and nobody whose request still waits is ready or scheduled. -/
theorem no_lost_wake_up {threads : Threads} {ledger : DiskLedger}
    (reached : Reachable ledgerSystem (threads, ledger)) :
    (∀ event node, nodeEvent threads event = some (node, .unblocked) →
        (threads.content node).process ∈ threads.kernel.scheduler.blockedQueue) ∧
      (∀ node, ledger.events node = lifeOf threads node) ∧
      (threads.disk = .resting → ∀ node ∈ ledger.due,
        ledger.events node = [.appended, .unblocked, .removed]) ∧
      ∀ request ∈ waitingRequests threads,
        request.process ∉ threads.kernel.scheduler.highQueue ∧
          request.process ∉ threads.kernel.scheduler.lowQueue ∧
          threads.kernel.scheduler.scheduledProc ≠ some request.process := by
  have awaited := reachable_awaited (history_reachable reached)
  have sound := reachable_ledger reached
  refine ⟨?_, sound.lives, ?_, ?_⟩
  · intro event node unblocked
    apply waiting_blocked awaited
    apply List.mem_append_left
    apply List.mem_map_of_mem
    cases event with
    | kernel inner => exact nomatch unblocked
    | resume =>
        simp only [nodeEvent] at unblocked
        split at unblocked
        · exact nomatch Option.some.inj unblocked
        · exact nomatch unblocked
        · exact nomatch unblocked
    | disk =>
        have cursor := awaited.cursor
        simp only [nodeEvent] at unblocked
        cases stage : threads.disk with
        | visiting track curr next =>
            simp only [stage] at unblocked cursor
            split at unblocked
            · rw [← (Prod.mk.inj (Option.some.inj unblocked)).1, waitingNodes, stage]
              exact cursor.1
            · exact nomatch unblocked
        | removing => simp [stage] at unblocked
        | resting | walking => simp [stage] at unblocked
  · intro rests node member
    obtain ⟨known, gone⟩ := sound.ahead node member
    simp only [rests] at gone
    rw [sound.lives]
    exact life_removed known gone
  · intro request member
    have blocked := waiting_blocked awaited member
    have distinct := awaited.accounted.places_nodup
    simp only [Queues.places, List.nodup_append] at distinct
    obtain ⟨⟨⟨-, -, apart⟩, -, lowApart⟩, -, blockedApart⟩ := distinct
    refine ⟨fun ready => ?_, fun ready => ?_, fun running => ?_⟩
    · exact blockedApart _ (by simp [waitingBoard, Board.withPending, boardOf, ready]) _ blocked rfl
    · exact blockedApart _ (by simp [waitingBoard, Board.withPending, boardOf, ready]) _ blocked rfl
    · exact awaited.accounted.scheduled_not_blocked running blocked

/-! ### A process that comes back to its own track -/

/-- The process is woken, dispatched and blocked again for the same track before its
first node is unlinked. -/
def reentryEvents : List ThreadEvent :=
  [.kernel (.processCreate sampleProgram blankPage), .kernel (.idleDispatch false),
    .kernel (.execute ⟨.read, 0, none⟩), .resume, .resume, .disk, .disk, .disk,
    .kernel (.idleDispatch false), .kernel (.execute ⟨.read, 0, none⟩), .resume]

def reentryState : Threads × DiskLedger :=
  (run ledgerSystem reentryEvents ledgerSystem.start).getD ledgerSystem.start

theorem no_lost_wake_up_reentry :
    Reachable ledgerSystem (reentryState.1, reentryState.2) ∧
      reentryState.1.disk = .removing 0 0 none ∧ reentryState.1.linked = [0, 1] ∧
      reentryState.2.events 0 = [.appended, .unblocked] ∧
      reentryState.2.events 1 = [.appended] ∧
      ∀ request ∈ waitingRequests reentryState.1,
        request.process ∉ reentryState.1.kernel.scheduler.highQueue ∧
          request.process ∉ reentryState.1.kernel.scheduler.lowQueue ∧
          reentryState.1.kernel.scheduler.scheduledProc ≠ some request.process := by
  have reached : Reachable ledgerSystem (reentryState.1, reentryState.2) :=
    reachable_run reentryEvents rfl
  exact ⟨reached, by decide, by decide, by decide, by decide, (no_lost_wake_up reached).2.2.2⟩

end Ribabari.NodeLives

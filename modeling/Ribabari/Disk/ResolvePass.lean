import Ribabari.Disk.ArmSweep
import Ribabari.Disk.RequestTracks
import Ribabari.Model.LinkedList

/-!
# A pass over the linked requests

`rw_disk_op_resolve` unlinks the nodes of the list it walks. It reads the next node
before it unlinks the current one, and unlinking writes the neighbours of a node only, so
the walk visits every node that was linked at its start and ends.
-/

namespace Ribabari.ResolvePass

open Ribabari.ProcessRecords Ribabari.KernelState Ribabari.Dispatch Ribabari.DiskAndFiles
open Ribabari.KernelEvents Ribabari.QueueBoard Ribabari.BoardInvariants
open Ribabari.QueueRefinement Ribabari.Placement Ribabari.ArmSweep Ribabari.RequestTracks
open Ribabari.LinkedList Ribabari.TransitionSystem

set_option autoImplicit false

/-- `rw_disk_op_resolve` from the node `curr` on, undefined where the fuel runs out. -/
def resolveNodes (track : Int) :
    Nat → Kernel → StoredList DiskRequest → Option Address →
      Option (Kernel × StoredList DiskRequest)
  | 0, _, _, _ => none
  | _ + 1, kernel, nodes, none => some (kernel, nodes)
  | fuel + 1, kernel, nodes, some curr =>
      let next := (nodes.heap curr).next
      let request := (nodes.heap curr).content
      if request.track = track then
        resolveNodes track fuel (serveRequest kernel request) (nodes.remove curr) next
      else resolveNodes track fuel kernel nodes next

/-- What a kernel event does to the nodes of `pending_requests`. The walk has a unit of
fuel for every node and one for the null pointer. -/
def recordRequests (nodes : StoredList DiskRequest) (kernel : Kernel) :
    KernelEvent → StoredList DiskRequest
  | .execute instr =>
      let proc := kernel.scheduler.scheduledProc.getD 0
      match instr.op with
      | .read => nodes.add (requestOf kernel proc instr.value true)
      | .write => nodes.add (requestOf kernel proc instr.value false)
      | .exec | .print | .semP | .semV => nodes
  | .diskTick =>
      ((resolveNodes kernel.diskScheduler.currTrack
        (kernel.diskScheduler.pendingRequests.length + 1) kernel nodes nodes.list.head).map
          Prod.snd).getD nodes
  | _ => nodes

def blankRequest : DiskRequest where
  process := 0
  track := 0
  read := false
  turnaround := 0

/-- The kernel with the nodes of its pending list. -/
def linkedKernel : System (Kernel × StoredList DiskRequest) KernelEvent :=
  withHistory kernelSystem (StoredList.init blankRequest) recordRequests

/-! ## The walk -/

section Walk

variable {nodes : StoredList DiskRequest} {before after : List Address}
  {walked rest : List DiskRequest}

/-- By induction on the nodes ahead: the walk serves the matching requests in order and
leaves the others linked behind those it has passed. -/
theorem resolve_nodes_from (track : Int) (kernel : Kernel)
    (stores : Stores nodes (before ++ after) (walked ++ rest))
    (passed : walked.length = before.length) {fuel : Nat} (enough : rest.length < fuel) :
    ∃ left nodes', Stores nodes' left (walked ++ rest.filter fun request => ¬request.track = track) ∧
      resolveNodes track fuel kernel nodes after.head? =
        some ((rest.filter fun request => request.track = track).foldl serveRequest kernel,
          nodes') := by
  induction rest generalizing kernel nodes before after walked fuel with
  | nil =>
      obtain ⟨fuel, rfl⟩ := Nat.exists_eq_succ_of_ne_zero (Nat.ne_of_gt enough)
      have lengths := stores_length stores
      simp only [List.length_append, List.length_nil, passed] at lengths
      obtain rfl := List.eq_nil_of_length_eq_zero (by omega : after.length = 0)
      exact ⟨before ++ [], nodes, stores, rfl⟩
  | cons request rest ih =>
      obtain ⟨fuel, rfl⟩ :=
        Nat.exists_eq_succ_of_ne_zero (Nat.ne_of_gt (Nat.zero_lt_of_lt enough))
      have enough := Nat.lt_of_succ_lt_succ enough
      cases after with
      | nil =>
          have lengths := stores_length stores
          simp only [List.length_append, List.length_nil, List.length_cons, passed] at lengths
          omega
      | cons curr after =>
          have next : (nodes.heap curr).next = after.head? := stores.holds.1.linked.next_at
          have content : (nodes.heap curr).content = request := by
            have contents := stores.holds.2
            rw [List.map_append, List.map_cons] at contents
            have split := List.append_inj contents (by rw [List.length_map, passed])
            exact (List.cons.inj split.2).1
          rw [List.head?_cons, resolveNodes, next, content]
          by_cases hit : request.track = track
          · rw [if_pos hit]
            obtain ⟨left, nodes', kept, walk⟩ :=
              ih (serveRequest kernel request) (remove_stores stores passed) passed enough
            refine ⟨left, nodes', ?_, ?_⟩
            · simpa [hit] using kept
            · simpa [hit] using walk
          · rw [if_neg hit]
            rw [List.append_cons, List.append_cons walked] at stores
            obtain ⟨left, nodes', kept, walk⟩ := ih kernel stores (by simp [passed]) enough
            refine ⟨left, nodes', ?_, ?_⟩
            · simpa [hit] using kept
            · simpa [hit] using walk

/-- The walk over the whole list ends, and leaves the requests on other tracks. -/
theorem resolve_nodes (track : Int) (kernel : Kernel) {linked : List Address}
    {pending : List DiskRequest} (stores : Stores nodes linked pending) {fuel : Nat}
    (enough : pending.length < fuel) :
    ∃ left nodes', Stores nodes' left (pending.filter fun request => ¬request.track = track) ∧
      resolveNodes track fuel kernel nodes nodes.list.head =
        some ((pending.filter fun request => request.track = track).foldl serveRequest kernel,
          nodes') := by
  have whole : Stores nodes ([] ++ linked) ([] ++ pending) := stores
  rw [stores.holds.1.head]
  exact resolve_nodes_from track kernel whole rfl enough

end Walk

/-! ## Runs -/

/-- In every reachable state the linked list holds the pending requests. -/
theorem reachable_linked {state : Kernel × StoredList DiskRequest}
    (reached : Reachable linkedKernel state) :
    ∃ linked, Stores state.2 linked state.1.diskScheduler.pendingRequests := by
  apply reachable_invariant
    (fun state => ∃ linked, Stores state.2 linked state.1.diskScheduler.pendingRequests) reached
  · exact ⟨[], init_stores blankRequest⟩
  · intro state event after _ holds fired
    obtain ⟨linked, stores⟩ := holds
    obtain ⟨step, record⟩ := history_step fired
    have pending : after.1.diskScheduler.pendingRequests =
        pendingAfter state.1.diskScheduler.pendingRequests (boardEvent state.1 event) :=
      board_pending_after (kernel_step_board step)
    rw [pending, record]
    cases event with
    | execute instr =>
        obtain ⟨op, value, sem⟩ := instr
        cases op with
        | read | write => exact ⟨_, add_stores stores _⟩
        | exec | print | semP | semV => exact ⟨linked, stores⟩
    | diskTick =>
        obtain ⟨left, nodes, kept, walk⟩ := resolve_nodes state.1.diskScheduler.currTrack state.1
          stores (Nat.lt_succ_self _)
        simp only [recordRequests, walk, Option.map_some, Option.getD_some]
        exact ⟨left, kept⟩
    | processCreate | idleDispatch | quantumCompleted | processFinish => exact ⟨linked, stores⟩

/-! ## What serving does -/

section Serving

variable (kernel : Kernel) (requests : List DiskRequest)

theorem serve_counts (request : DiskRequest) :
    (serveRequest kernel request).logs.rReqCount =
        kernel.logs.rReqCount + (if request.read then 1 else 0) ∧
      (serveRequest kernel request).logs.wReqCount =
        kernel.logs.wReqCount + (if request.read then 0 else 1) := by
  have same := unblock_elsewhere
    (ioFsLog (diskLog kernel (diskLogEntry kernel request))
      (kernel.procs request.process).name (inodeNumber (diskBlock request.track))
      (if request.read then .read else .write)) request.process .lowQueue
  simp only [elsewhere, Prod.mk.injEq] at same
  have reads := congrArg Logs.rReqCount same.2.2.2.2.2.2
  have writes := congrArg Logs.wReqCount same.2.2.2.2.2.2
  constructor
  · apply reads.trans
    cases kind : request.read <;> simp [ioFsLog, diskLog, diskLogEntry, Kernel.log, kind]
  · apply writes.trans
    cases kind : request.read <;> simp [ioFsLog, diskLog, diskLogEntry, Kernel.log, kind]

theorem serve_all_counts :
    (requests.foldl serveRequest kernel).logs.rReqCount =
        kernel.logs.rReqCount + requests.countP (fun request => request.read) ∧
      (requests.foldl serveRequest kernel).logs.wReqCount =
        kernel.logs.wReqCount + requests.countP (fun request => !request.read) := by
  induction requests generalizing kernel with
  | nil => exact ⟨rfl, rfl⟩
  | cons request requests ih =>
      obtain ⟨reads, writes⟩ := ih (serveRequest kernel request)
      obtain ⟨read, write⟩ := serve_counts kernel request
      rw [List.foldl_cons, reads, writes, read, write, List.countP_cons, List.countP_cons]
      cases request.read <;> simp <;> omega

theorem serve_all_queues :
    (requests.foldl serveRequest kernel).scheduler =
      (requests.map DiskRequest.process).foldl
        (fun queues proc => Queues.unblock .lowQueue proc queues) kernel.scheduler := by
  induction requests generalizing kernel with
  | nil => rfl
  | cons request requests ih =>
      rw [List.foldl_cons, ih, serve_queues]
      rfl

end Serving

/-- Waking distinct blocked processes one after the other moves them to the low queue in
their order and leaves the other queues alone. -/
theorem unblock_each (queues : Scheduler) {woken : List ProcId} (distinct : woken.Nodup)
    (asleep : ∀ proc ∈ woken, proc ∈ queues.blockedQueue) :
    woken.foldl (fun queues proc => Queues.unblock .lowQueue proc queues) queues =
      { queues with
        blockedQueue := queues.blockedQueue.diff woken
        lowQueue := queues.lowQueue ++ woken } := by
  induction woken generalizing queues with
  | nil => simp
  | cons proc woken ih =>
      have step : Queues.unblock .lowQueue proc queues =
          { queues with
            blockedQueue := queues.blockedQueue.erase proc
            lowQueue := queues.lowQueue ++ [proc] } :=
        if_pos (asleep proc List.mem_cons_self)
      obtain ⟨apart, distinct⟩ := List.nodup_cons.mp distinct
      rw [List.foldl_cons, step, ih _ distinct]
      · simp [List.diff_cons]
      · intro other member
        have differs : other ≠ proc := fun same => apart (same ▸ member)
        exact (List.mem_erase_of_ne differs).mpr (asleep other (List.mem_cons_of_mem _ member))

/-- The owners of the requests on a track are distinct and blocked. -/
theorem owners_blocked {kernel : Kernel} (reached : Reachable kernelSystem kernel) (track : Int) :
    let owners := (kernel.diskScheduler.pendingRequests.filter fun request =>
      request.track = track).map DiskRequest.process
    owners.Nodup ∧ ∀ owner ∈ owners, owner ∈ kernel.scheduler.blockedQueue := by
  intro owners
  have accounted : Accounted (boardOf kernel) :=
    reachable_accounted (kernelRefinesBoard.reachable reached)
  have part : owners.Sublist (waiting (boardOf kernel)) :=
    (List.filter_sublist.map DiskRequest.process).trans (List.sublist_append_right _ _)
  exact ⟨part.nodup accounted.waiting_nodup,
    fun owner member => accounted.blocked.mem_iff.mpr (part.subset member)⟩

/-- A pass for a track ends with exactly the requests on other tracks linked, in their
order and counted. It moves the owners of the served requests, which are distinct and
blocked, to the tail of the low queue in request order, counts the reads and the writes,
and changes no other place. -/
theorem resolve_pass {kernel : Kernel} {nodes : StoredList DiskRequest}
    (reached : Reachable linkedKernel (kernel, nodes)) (track : Int) {fuel : Nat}
    (enough : kernel.diskScheduler.pendingRequests.length < fuel) :
    let pending := kernel.diskScheduler.pendingRequests
    let served := pending.filter fun request => request.track = track
    let kept := pending.filter fun request => ¬request.track = track
    let owners := served.map DiskRequest.process
    ∃ after nodes' linked,
      resolveNodes track fuel kernel nodes nodes.list.head = some (after, nodes') ∧
      Stores nodes' linked kept ∧ nodes'.list.size = kept.length ∧
      rwDiskOpResolve kernel track = Kernel.setPending after kept ∧
      owners.Nodup ∧ (∀ owner ∈ owners, owner ∈ kernel.scheduler.blockedQueue) ∧
      after.scheduler =
        { kernel.scheduler with
          blockedQueue := kernel.scheduler.blockedQueue.filter fun proc => proc ∉ owners
          lowQueue := kernel.scheduler.lowQueue ++ owners } ∧
      after.logs.rReqCount =
        kernel.logs.rReqCount + served.countP (fun request => request.read) ∧
      after.logs.wReqCount =
        kernel.logs.wReqCount + served.countP (fun request => !request.read) := by
  intro pending served kept owners
  obtain ⟨linked, stores⟩ := reachable_linked reached
  obtain ⟨left, nodes', links, walk⟩ := resolve_nodes track kernel stores enough
  have kernelReached : Reachable kernelSystem kernel := history_reachable reached
  obtain ⟨distinct, asleep⟩ := owners_blocked kernelReached track
  obtain ⟨reads, writes⟩ := serve_all_counts kernel served
  have sleepers : kernel.scheduler.blockedQueue.Nodup := by
    have accounted : Accounted (boardOf kernel) :=
      reachable_accounted (kernelRefinesBoard.reachable kernelReached)
    exact accounted.blocked.nodup_iff.mpr accounted.waiting_nodup
  refine ⟨served.foldl serveRequest kernel, nodes', left, walk, links, stores_size links,
    resolve_from_serves track kernel [] pending rfl, distinct, asleep, ?_, reads, writes⟩
  rw [serve_all_queues, unblock_each _ distinct asleep, sleepers.sdiff_eq_filter]

/-- Every reachable kernel comes with the nodes of its pending list. -/
theorem every_kernel_linked {kernel : Kernel} (reached : Reachable kernelSystem kernel) :
    ∃ nodes, Reachable linkedKernel (kernel, nodes) :=
  reachable_with_history _ _ reached

def linkedSample : Kernel × StoredList DiskRequest :=
  (run linkedKernel sampleEvents linkedKernel.start).getD linkedKernel.start

/-- The first process waits for track 45. -/
theorem resolve_pass_sample :
    ∃ after nodes, resolveNodes 45 2 linkedSample.1 linkedSample.2 linkedSample.2.list.head =
        some (after, nodes) ∧
      nodes.list.size = 0 ∧ after.scheduler.lowQueue = [1] ∧
      after.scheduler.blockedQueue = [2] := by
  have reached : Reachable linkedKernel (linkedSample.1, linkedSample.2) :=
    reachable_run sampleEvents rfl
  have enough : linkedSample.1.diskScheduler.pendingRequests.length < 2 := by decide
  obtain ⟨after, nodes, linked, walk, -, size, -, -, -, queues, -⟩ := resolve_pass reached 45 enough
  have low := congrArg Scheduler.lowQueue queues
  have blocked := congrArg Scheduler.blockedQueue queues
  exact ⟨after, nodes, walk, size, low, blocked⟩

end Ribabari.ResolvePass

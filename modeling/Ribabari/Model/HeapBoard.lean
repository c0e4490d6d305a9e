import Ribabari.Abstract.QueueBoard
import Ribabari.Model.ListFamily

/-!
# The kernel's lists on the heap

`sched.c`, the semaphores' waiter lists, the process table and the disk's pending requests
on the linked lists of `list.c`. The kernel's model speaks of sequences. Here the same calls
allocate nodes, follow pointers and compare contents, and what they decide is read off the
heap. A call is undefined where the source dereferences the null pointer or takes a request
for a process, or where it would follow a ring of nodes for ever.
-/

namespace Ribabari.HeapBoard

open Ribabari.FirstMatch Ribabari.LinkedList Ribabari.ListFamily Ribabari.ProcessRecords
open Ribabari.KernelState Ribabari.Dispatch Ribabari.QueueBoard

set_option autoImplicit false

/-- What the `void *` of a node points to. -/
inductive Content where
  | process (proc : ProcId)
  | request (request : DiskRequest)
  deriving DecidableEq, Repr

inductive ListKey where
  | procTable
  | highQueue
  | lowQueue
  | blockedQueue
  | waiters (name : CString)
  | pendingRequests
  deriving DecidableEq, Repr

/-- The semaphore table keeps a name and a counter, the waiters are under a key. -/
structure NodeBoard where
  nextProcId : ProcId
  scheduledProc : Option ProcId
  lists : Family ListKey Content
  semTable : List (CString × Int)

def nodeBoardInit : NodeBoard where
  nextProcId := 1
  scheduledProc := none
  lists := Family.start (.process 0)
  semTable := []

/-- `proc_cmp` with the process that is searched. -/
def procCmp (proc : ProcId) : Content → Bool
  | .process other => other == proc
  | .request _ => false

/-- The cast of a content to `process_t *`. -/
def Content.toProcess : Content → Option ProcId
  | .process proc => some proc
  | .request _ => none

def queueKey : SchedulerQueueFlag → ListKey
  | .highQueue => .highQueue
  | .lowQueue => .lowQueue

namespace NodeBoard

/-- `list_search` for a process and `list_remove_node` of what it returns. The flag says
whether it returned a node. -/
def unlist (board : NodeBoard) (key : ListKey) (proc : ProcId) : Option (Bool × NodeBoard) :=
  (board.lists.search (procCmp proc) key).map fun found =>
    match found with
    | none => (false, board)
    | some node => (true, { board with lists := board.lists.remove key node })

/-- `list_remove_head` of a list of processes, and the process of the node. -/
def takeProcess (board : NodeBoard) (key : ListKey) : Option (ProcId × NodeBoard) :=
  (board.lists.take key).bind fun taken =>
    taken.1.toProcess.map fun proc => (proc, { board with lists := taken.2 })

/-! ## The scheduler -/

/-- The first half of `schedule_process`. -/
def takeNext (board : NodeBoard) : Option (Option ProcId × NodeBoard) :=
  if board.lists.isEmpty .highQueue = false then
    (board.takeProcess .highQueue).map fun taken => (some taken.1, taken.2)
  else if board.lists.isEmpty .lowQueue = false then
    (board.takeProcess .lowQueue).map fun taken => (some taken.1, taken.2)
  else some (none, board)

/-- The middle of `schedule_process`. -/
def parkCurrent (board : NodeBoard) (curr : Option ProcId) (flag : SchedulerFlag) : NodeBoard :=
  match curr, flag with
  | none, _ => board
  | some _, .none => board
  | some proc, .quantumCompleted =>
      { board with lists := board.lists.add .highQueue (.process proc) }
  | some proc, _ => { board with lists := board.lists.add .blockedQueue (.process proc) }

def scheduleProcess (board : NodeBoard) (flag : SchedulerFlag) : Option NodeBoard :=
  board.takeNext.map fun taken =>
    { parkCurrent taken.2 board.scheduledProc flag with scheduledProc := taken.1 }

def scheduleUnblockProcess (board : NodeBoard) (proc : ProcId) (queue : SchedulerQueueFlag) :
    Option NodeBoard :=
  (board.unlist .blockedQueue proc).map fun found =>
    if found.1 then
      { found.2 with lists := found.2.lists.add (queueKey queue) (.process proc) }
    else board

/-! ## Semaphores -/

def semaphoreRegister (board : NodeBoard) (name : CString) : NodeBoard :=
  if board.semTable.any fun sem => sem.1 == name then board
  else
    { board with
      semTable := board.semTable ++ [(name, 1)]
      lists := board.lists.init (.waiters name) }

def counter (board : NodeBoard) (name : CString) : Option (CString × Int) :=
  board.semTable.find? fun sem => sem.1 == name

def storeCounter (board : NodeBoard) (name : CString) (S : Int) : NodeBoard :=
  { board with
    semTable := updateFirst (fun sem => sem.1 == name) (fun _ => (name, S)) board.semTable }

/-- `semaphore_P` of the process `proc`, with `sleep` as its callback. -/
def semaphoreP (board : NodeBoard) (proc : ProcId) (name : CString) : Option NodeBoard :=
  (board.counter name).bind fun sem =>
    let lowered := board.storeCounter name (sem.2 - 1)
    if sem.2 - 1 < 0 then
      scheduleProcess { lowered with lists := lowered.lists.add (.waiters name) (.process proc) }
        .semaphoreBlocked
    else some lowered

/-- `semaphore_V`, with `wakeup` as its callback. -/
def semaphoreV (board : NodeBoard) (name : CString) : Option NodeBoard :=
  (board.counter name).bind fun sem =>
    let raised := board.storeCounter name (sem.2 + 1)
    if sem.2 + 1 ≤ 0 then
      (raised.takeProcess (.waiters name)).bind fun taken =>
        scheduleUnblockProcess taken.2 taken.1 .highQueue
    else some raised

/-! ## Processes -/

/-- The lists a load touches: the waiters of new semaphores, the process table and the
queue of the priority. -/
def processCreate (board : NodeBoard) (names : List CString) (high : Bool) : NodeBoard :=
  let registered := names.foldl semaphoreRegister board
  let listed := registered.lists.add .procTable (.process board.nextProcId)
  { registered with
    nextProcId := board.nextProcId + 1
    lists := listed.add (if high then .highQueue else .lowQueue) (.process board.nextProcId) }

/-- The searches that end `process_finish`. -/
def leaveQueues (board : NodeBoard) (proc : ProcId) : Option NodeBoard :=
  (board.unlist .highQueue proc).bind fun high =>
    if high.1 then some high.2
    else (board.unlist .lowQueue proc).bind fun low =>
      if low.1 then some low.2
      else (board.unlist .blockedQueue proc).map Prod.snd

/-- `process_finish` of the process in the cpu. A process that is not in the table makes
`list_remove_node` follow the null pointer. -/
def processFinish (board : NodeBoard) (proc : ProcId) : Option NodeBoard :=
  (board.unlist .procTable proc).bind fun listed =>
    if listed.1 then (scheduleProcess listed.2 .none).bind fun dispatched =>
      leaveQueues dispatched proc
    else none

/-! ## The disk -/

/-- `rw_disk_op_resolve` from the node `curr` on. The next node is read before the process of
the request is woken and its node unlinked. -/
def resolveFrom (track : Int) : Nat → Option Address → NodeBoard → Option NodeBoard
  | 0, _, _ => none
  | _ + 1, none, board => some board
  | fuel + 1, some curr, board =>
      let next := (board.lists.heap curr).next
      match (board.lists.heap curr).content with
      | .process _ => none
      | .request request =>
          if request.track = track then
            (board.scheduleUnblockProcess request.process .lowQueue).bind fun woken =>
              resolveFrom track fuel next
                { woken with lists := woken.lists.remove .pendingRequests curr }
          else resolveFrom track fuel next board

/-- The walk from the head, with fuel for every node that was ever allocated. -/
def resolve (board : NodeBoard) (track : Int) : Option NodeBoard :=
  resolveFrom track (board.lists.fresh + 1) (board.lists.lists .pendingRequests).head board

def runProcess (board : NodeBoard) (proc : ProcId) : BoardEvent → Option NodeBoard
  | .run => some board
  | .acquire name => board.semaphoreP proc name
  | .release name => board.semaphoreV name
  | .requestDisk request =>
      if request.process = proc then
        (board.scheduleProcess .ioRequested).map fun blocked =>
          { blocked with lists := blocked.lists.add .pendingRequests (.request request) }
      else none
  | .print =>
      (board.scheduleProcess .ioRequested).bind fun blocked =>
        scheduleUnblockProcess blocked proc .lowQueue
  | .quantum => board.scheduleProcess .quantumCompleted
  | .finish => board.processFinish proc
  | _ => none

end NodeBoard

/-- The events of the board, on the heap. -/
def nodeStep (board : NodeBoard) : BoardEvent → Option NodeBoard
  | .create names high => some (board.processCreate names high)
  | .idle => if board.scheduledProc = none then board.scheduleProcess .none else none
  | .tick track => board.resolve track
  | event => board.scheduledProc.bind fun proc => board.runProcess proc event

def nodeSystem : TransitionSystem.System NodeBoard BoardEvent where
  start := nodeBoardInit
  step := nodeStep

end Ribabari.HeapBoard

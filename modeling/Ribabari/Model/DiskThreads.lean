import Ribabari.Foundation.ListCursor
import Ribabari.Model.KernelEvents

/-!
# The cpu thread against the disk thread

A disk request and a disk tick cut into the steps between which the other thread may
run. The walk over the pending list holds pointers to nodes across these steps, so the
nodes have addresses here: every `list_add` allocates a new one, and the list keeps no
address of a node it has unlinked.
-/

namespace Ribabari.DiskThreads

open Ribabari.ProcessRecords Ribabari.KernelState Ribabari.Dispatch Ribabari.DiskAndFiles
open Ribabari.KernelEvents Ribabari.ListCursor Ribabari.TransitionSystem

set_option autoImplicit false

abbrev NodeAddr := Nat

/-- Where a disk request of the cpu thread stands: `requesting` between
`schedule_process` and `disk_request`, `filing` between `disk_request` and `FS_REQUEST`. -/
inductive CpuStage where
  | ready
  | requesting (proc : ProcId) (track : Int) (read : Bool)
  | filing (proc : ProcId) (track : Int) (read : Bool)
  deriving DecidableEq, Repr

/-- Where the disk thread stands in `rw_disk_op_resolve(track)`: `walking` before the
node `curr_node`, `visiting` it with `next_node` saved, `removing` between the interrupt
and `list_remove_node`. -/
inductive DiskStage where
  | resting
  | walking (track : Int) (curr : Option NodeAddr)
  | visiting (track : Int) (curr : NodeAddr) (next : Option NodeAddr)
  | removing (track : Int) (curr : NodeAddr) (next : Option NodeAddr)
  deriving DecidableEq, Repr

/-- `linked` are the nodes of `pending_requests` from head to tail. -/
structure Threads where
  kernel : Kernel
  linked : List NodeAddr
  content : NodeAddr → DiskRequest
  nextNode : NodeAddr
  cpu : CpuStage
  disk : DiskStage

inductive ThreadEvent where
  | kernel (event : KernelEvent)
  | resume
  | disk

def Threads.kernelOnly (threads : Threads) (event : KernelEvent) : Option Threads :=
  (kernelStep threads.kernel event).map fun kernel => { threads with kernel := kernel }

/-- The first part of `DISK_READ_REQUEST` and `DISK_WRITE_REQUEST`. -/
def Threads.block (threads : Threads) (instr : Instr) (read : Bool) : Option Threads :=
  threads.kernel.scheduler.scheduledProc.map fun proc =>
    { threads with
      kernel := scheduleProcess (fetched threads.kernel proc) .ioRequested
      cpu := .requesting proc instr.value read }

/-- A step that is not inside a disk request. Loads come from a thread of their own. -/
def Threads.fireKernel (threads : Threads) : KernelEvent → Option Threads
  | .processCreate program fresh => threads.kernelOnly (.processCreate program fresh)
  | .diskTick => none
  | .execute instr =>
      if threads.cpu = .ready then
        match instr.op with
        | .read => threads.block instr true
        | .write => threads.block instr false
        | .exec | .print | .semP | .semV => threads.kernelOnly (.execute instr)
      else none
  | event => if threads.cpu = .ready then threads.kernelOnly event else none

def Threads.append (threads : Threads) (proc : ProcId) (track : Int) (read : Bool) : Threads :=
  { threads with
    kernel := diskRequest threads.kernel proc track read
    linked := threads.linked ++ [threads.nextNode]
    content := Function.update threads.content threads.nextNode
      { process := proc
        track := track
        read := read
        turnaround := requestTime diskTrackLimit threads.kernel.diskScheduler track }
    nextNode := threads.nextNode + 1
    cpu := .filing proc track read }

def Threads.resume (threads : Threads) : Option Threads :=
  match threads.cpu with
  | .ready => none
  | .requesting proc track read => some (threads.append proc track read)
  | .filing proc track read => some
      { threads with
        kernel := fsRequest threads.kernel { proc := proc, track := track, read := read }
        cpu := .ready }

/-- The node is served when it is on the track, and passed over else. -/
def Threads.visit (threads : Threads) (track : Int) (curr : NodeAddr) (next : Option NodeAddr) :
    Threads :=
  if (threads.content curr).track = track then
    { threads with
      kernel := serveRequest threads.kernel (threads.content curr)
      disk := .removing track curr next }
  else { threads with disk := .walking track next }

def Threads.unlink (threads : Threads) (track : Int) (curr : NodeAddr) (next : Option NodeAddr) :
    Threads :=
  { threads with
    kernel := Kernel.setPending threads.kernel
      ((threads.linked.erase curr).map threads.content)
    linked := threads.linked.erase curr
    disk := .walking track next }

/-- The next step of the disk thread, which reads `node->next` before the node: the first
begins the walk on the arm's track, the last moves the arm. -/
def Threads.advance (threads : Threads) : Threads :=
  match threads.disk with
  | .resting =>
      { threads with
        disk := .walking threads.kernel.diskScheduler.currTrack threads.linked.head? }
  | .walking track (some curr) =>
      { threads with disk := .visiting track curr (nextOf threads.linked curr) }
  | .walking _ none =>
      { threads with
        kernel :=
          { threads.kernel with
            diskScheduler := moveArm diskTrackLimit threads.kernel.diskScheduler }
        disk := .resting }
  | .visiting track curr next => threads.visit track curr next
  | .removing track curr next => threads.unlink track curr next

def threadStep (threads : Threads) : ThreadEvent → Option Threads
  | .kernel event => threads.fireKernel event
  | .resume => threads.resume
  | .disk => some threads.advance

def threadsInit : Threads where
  kernel := kernelInit
  linked := []
  content := fun _ => { process := 0, track := 0, read := false, turnaround := 0 }
  nextNode := 0
  cpu := .ready
  disk := .resting

def threadSystem : System Threads ThreadEvent where
  start := threadsInit
  step := threadStep

end Ribabari.DiskThreads

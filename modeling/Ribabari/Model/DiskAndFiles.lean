import Ribabari.Foundation.CLibrary
import Ribabari.Model.Dispatch

/-!
# Disk requests and the open-file table

`disk.c` and `file.c`. One disk tick serves the requests on the arm's track and
then moves the arm. Block and inode numbers are computed in 32-bit integers;
sizes and times of an inode are not modelled, since nothing reads them.
-/

namespace Ribabari.DiskAndFiles

open Ribabari.FirstMatch Ribabari.CLibrary Ribabari.ProcessRecords Ribabari.KernelState
open Ribabari.Dispatch

set_option autoImplicit false

/-! ## Disk -/

def diskBlock (track : Int) : Int := int32 (track * 521 + 8)

def inodeNumber (block : Int) : Int := int32 (block * 948 + 5)

def diskTrackLimit : Int := 200

def diskOperationTime : Int := 5000

def diskTrackMoveTime : Int := 100

/-- The turnaround of `disk_request`, with the last track as a parameter. -/
def requestTime (limit : Int) (disk : DiskScheduler) (track : Int) : Int :=
  if disk.forwardDir then
    if track ≥ disk.currTrack then
      diskOperationTime + (track - disk.currTrack) * diskTrackMoveTime
    else
      diskOperationTime + ((limit - disk.currTrack) + (limit - track)) * diskTrackMoveTime
  else
    if track < disk.currTrack then
      diskOperationTime + (disk.currTrack - track) * diskTrackMoveTime
    else diskOperationTime + (disk.currTrack + track) * diskTrackMoveTime

def Kernel.setPending (kernel : Kernel) (pending : List DiskRequest) : Kernel :=
  { kernel with diskScheduler := { kernel.diskScheduler with pendingRequests := pending } }

def diskRequest (kernel : Kernel) (proc : ProcId) (track : Int) (read : Bool) : Kernel :=
  let time := requestTime diskTrackLimit kernel.diskScheduler track
  let request : DiskRequest :=
    { process := proc, track := track, read := read, turnaround := time }
  let logged := ioDiskLog kernel (kernel.procs proc).name read
  (Kernel.setPending logged (kernel.diskScheduler.pendingRequests ++ [request])).modifyProc proc
    fun process => process.setRemaining (process.remaining - time)

/-- The body of the walk for a request on the arm's track, up to the unlinking
of its node. -/
def serveRequest (kernel : Kernel) (request : DiskRequest) : Kernel :=
  let name := (kernel.procs request.process).name
  let logged := diskLog kernel
    { procName := name
      procId := request.process
      track := request.track
      isRead := request.read
      turnaround := request.turnaround }
  let logged := ioFsLog logged name (inodeNumber (diskBlock request.track))
    (if request.read then .read else .write)
  interruptControl logged (.diskFinish request.process)

/-- The walk of `rw_disk_op_resolve`. `walked` are the nodes before the current
one that stay linked, so the list is `walked ++ request :: rest` at a node and
removing the node leaves `walked ++ rest`. -/
def resolveFrom (track : Int) (kernel : Kernel) (walked : List DiskRequest) :
    List DiskRequest → Kernel
  | [] => kernel
  | request :: rest =>
      if request.track = track then
        resolveFrom track (Kernel.setPending (serveRequest kernel request) (walked ++ rest))
          walked rest
      else resolveFrom track kernel (walked ++ [request]) rest

def rwDiskOpResolve (kernel : Kernel) (track : Int) : Kernel :=
  resolveFrom track kernel [] kernel.diskScheduler.pendingRequests

def moveArm (limit : Int) (disk : DiskScheduler) : DiskScheduler :=
  if disk.forwardDir then
    if disk.currTrack = limit then { disk with forwardDir := false }
    else { disk with currTrack := disk.currTrack + 1 }
  else
    if disk.currTrack = 0 then { disk with forwardDir := true }
    else { disk with currTrack := disk.currTrack - 1 }

/-- One pass of `disk()` whose elapsed test holds. -/
def diskTick (kernel : Kernel) : Kernel :=
  let resolved := rwDiskOpResolve kernel kernel.diskScheduler.currTrack
  { resolved with diskScheduler := moveArm diskTrackLimit resolved.diskScheduler }

theorem move_arm_pending (limit : Int) (disk : DiskScheduler) :
    (moveArm limit disk).pendingRequests = disk.pendingRequests := by
  unfold moveArm
  split_ifs <;> rfl

/-! ## Open files -/

def findInode (fileTable : List Inode) (inumber : Int) : Option Inode :=
  fileTable.find? fun inode => inode.id == inumber

def inodeCreate (id : Int) : Inode where
  id := id
  oCount := 0

def fsOpenRequest (kernel : Kernel) (owner : CString) (inumber : Int) : Kernel :=
  ioFsLog { kernel with fileTable := kernel.fileTable ++ [inodeCreate inumber] }
    owner inumber .fOpen

def Inode.opened (inode : Inode) : Inode := { inode with oCount := inode.oCount + 1 }

def Inode.closed (inode : Inode) : Inode := { inode with oCount := inode.oCount - 1 }

/-- The part that `fs_read_request` and `fs_write_request` share up to the access
times: open the inode when it is not active, then count the process once. -/
def fsOpenFor (kernel : Kernel) (proc : ProcId) (inumber : Int) : Kernel :=
  let active :=
    match findInode kernel.fileTable inumber with
    | none => fsOpenRequest kernel (kernel.procs proc).name inumber
    | some _ => kernel
  if hasOpenedFile (active.procs proc) inumber then active
  else
    { active with fileTable :=
        updateFirst (fun inode => inode.id == inumber) Inode.opened active.fileTable }.modifyProc
      proc fun process => { process with oFiles := process.oFiles ++ [inumber] }

def fsReadRequest (kernel : Kernel) (proc : ProcId) (block : Int) : Kernel :=
  fsOpenFor kernel proc (inodeNumber block)

def fsWriteRequest (kernel : Kernel) (proc : ProcId) (block : Int) : Kernel :=
  fsOpenFor kernel proc (inodeNumber block)

def fsCloseRequest (kernel : Kernel) (proc : ProcId) (inumber : Int) : Kernel :=
  match findInode kernel.fileTable inumber with
  | none => kernel
  | some inode =>
      if inode.oCount - 1 = 0 then
        ioFsLog
          { kernel with fileTable := kernel.fileTable.eraseP fun other => other.id == inumber }
          (kernel.procs proc).name inumber .fClose
      else
        { kernel with fileTable :=
            updateFirst (fun other => other.id == inumber) Inode.closed kernel.fileTable }

section Writes

variable (kernel : Kernel) (proc : ProcId) (inumber : Int)

/-- Opening a file writes the file table and the logs, and the first time it lists the
file in the process. -/
theorem open_for_writes :
    ∃ fileTable logs,
      fsOpenFor kernel proc inumber = { kernel with fileTable := fileTable, logs := logs } ∨
        fsOpenFor kernel proc inumber =
          { kernel with fileTable := fileTable, logs := logs }.modifyProc proc
            fun process => { process with oFiles := process.oFiles ++ [inumber] } := by
  unfold fsOpenFor
  cases findInode kernel.fileTable inumber <;> dsimp only <;> split
  · exact ⟨_, _, .inl rfl⟩
  · exact ⟨_, _, .inr rfl⟩
  · exact ⟨_, _, .inl rfl⟩
  · exact ⟨_, _, .inr rfl⟩

theorem close_writes :
    ∃ fileTable logs,
      fsCloseRequest kernel proc inumber = { kernel with fileTable := fileTable, logs := logs } := by
  unfold fsCloseRequest
  split
  · exact ⟨_, _, rfl⟩
  · split <;> exact ⟨_, _, rfl⟩

end Writes

end Ribabari.DiskAndFiles

import Mathlib.Data.List.Nodup
import Ribabari.Kernel.ProgramLedger
import Ribabari.Memory.PagedCode

/-!
# Loaded code stays where it was loaded

With segment ids unique among live processes, the segment table is the process
table read through the segment ids, and every segment holds the code array its
process was loaded with. Loads append, finishes remove, and the swap pass and the
used bits touch no code.
-/

namespace Ribabari.CodeMemory

open Ribabari.FirstMatch Ribabari.ProcessRecords Ribabari.SegmentMemory Ribabari.KernelState
open Ribabari.KernelEvents Ribabari.PagedCode Ribabari.ProgramLedger Ribabari.Placement
open Ribabari.TransitionSystem

set_option autoImplicit false

/-- A program is loaded under a segment id that no live process uses. -/
def FreshSegment (kernel : Kernel) : KernelEvent → Prop
  | .processCreate program _ =>
      ∀ proc ∈ kernel.procTable, (kernel.procs proc).segId ≠ program.segId
  | _ => True

instance (kernel : Kernel) (event : KernelEvent) : Decidable (FreshSegment kernel event) :=
  match event with
  | .processCreate program _ => inferInstanceAs (Decidable
      (∀ proc ∈ kernel.procTable, (kernel.procs proc).segId ≠ program.segId))
  | .idleDispatch _ | .execute _ | .quantumCompleted | .processFinish | .diskTick =>
      inferInstanceAs (Decidable True)

def segIds (kernel : Kernel) : List Int :=
  kernel.procTable.map fun proc => (kernel.procs proc).segId

/-- The segment holds the code array, one instruction a cell. -/
def Holds (seg : Segment) (code : List Instr) : Prop :=
  ∀ pc < code.length, Segment.cell seg pc = code[pc]?

structure CodeStored (kernel : Kernel) (ledger : Ledger) : Prop where
  ids : (kernel.segTable.segList.map Segment.id).Perm (segIds kernel)
  distinct : (segIds kernel).Nodup
  stored : ∀ proc ∈ kernel.procTable, ∃ seg ∈ kernel.segTable.segList,
    seg.id = (kernel.procs proc).segId ∧ Holds seg (ledger.loaded proc)

variable {kernel after : Kernel} {ledger : Ledger}

/-! ## Contents -/

theorem ids_of_contents {segs other : List Segment}
    (same : segs.map Segment.content = other.map Segment.content) :
    segs.map Segment.id = other.map Segment.id := by
  have ids := congrArg (List.map fun content => content.1) same
  simpa [Segment.content, Function.comp_def] using ids

/-- A segment is found again, under the same id and with the same code, wherever
the contents of the table are the same. -/
theorem mem_of_contents {segs other : List Segment} {seg : Segment} {code : List Instr}
    (same : segs.map Segment.content = other.map Segment.content) (member : seg ∈ other)
    (holds : Holds seg code) : ∃ kept ∈ segs, kept.id = seg.id ∧ Holds kept code := by
  have listed : Segment.content seg ∈ segs.map Segment.content :=
    same ▸ List.mem_map_of_mem member
  obtain ⟨kept, keptMember, content⟩ := List.mem_map.mp listed
  refine ⟨kept, keptMember, congrArg Prod.fst content, fun pc inRange => ?_⟩
  rw [cell_of_content content]
  exact holds pc inRange

theorem ids_of_code (contents : after.segTable.segList.map Segment.content =
      kernel.segTable.segList.map Segment.content)
    (listed : after.procTable = kernel.procTable)
    (records : ∀ proc, (after.procs proc).segId = (kernel.procs proc).segId) :
    segIds after = segIds kernel ∧
      after.segTable.segList.map Segment.id = kernel.segTable.segList.map Segment.id := by
  constructor
  · simp only [segIds, listed, records]
  · exact ids_of_contents contents

theorem stored_of_contents (stored : CodeStored kernel ledger)
    (contents : after.segTable.segList.map Segment.content =
      kernel.segTable.segList.map Segment.content)
    (listed : after.procTable = kernel.procTable)
    (records : ∀ proc, (after.procs proc).segId = (kernel.procs proc).segId) :
    CodeStored after ledger := by
  obtain ⟨ids, segments⟩ := ids_of_code contents listed records
  refine
    { ids := ?_
      distinct := ids ▸ stored.distinct
      stored := ?_ }
  · rw [ids, segments]
    exact stored.ids
  · intro proc member
    obtain ⟨seg, segMember, id, holds⟩ := stored.stored proc (listed ▸ member)
    obtain ⟨kept, keptMember, keptId, keptHolds⟩ := mem_of_contents contents segMember holds
    exact ⟨kept, keptMember, (keptId.trans id).trans (records proc).symm, keptHolds⟩

/-! ## The ids of the segments -/

/-- A load appends the segment of the program to what the swap pass leaves of the others. -/
theorem create_contents (kernel : Kernel) (program : Program) (fresh : Nat → Page) :
    (processCreate kernel program fresh).segTable.segList.map Segment.content =
      (kernel.segTable.segList ++ [segmentPopulate (segmentCreate
        { proc := newProcess program, code := program.code, counted := rfl } fresh)
        program.code]).map Segment.content := by
  rw [(create_code kernel program fresh).segments, load_content, List.map_append]
  rfl

theorem create_ids (numbered : ∀ proc ∈ kernel.procTable, proc < kernel.nextProcId)
    (program : Program) (fresh : Nat → Page) :
    segIds (processCreate kernel program fresh) = segIds kernel ++ [program.segId] ∧
      (processCreate kernel program fresh).segTable.segList.map Segment.id =
        kernel.segTable.segList.map Segment.id ++ [program.segId] := by
  have code := create_code kernel program fresh
  constructor
  · simp only [segIds, code.listed, List.map_append, List.map_singleton, code.own.1]
    congr 1
    apply List.map_congr_left
    intro proc member
    exact (code.others proc (Nat.ne_of_lt (numbered proc member))).1
  · rw [code.segments]
    exact load_ids _ fresh kernel.segTable

theorem free_ids {table freed : SegmentTable} {sid : Int} (frees : segmentFree table sid = some freed) :
    freed.segList = table.segList.eraseP (fun seg => seg.id == sid) ∧
      freed.segList.map Segment.id = (table.segList.map Segment.id).erase sid := by
  obtain ⟨seg, -, rfl⟩ := free_inv frees
  refine ⟨rfl, ?_⟩
  rw [List.erase_eq_eraseP', List.eraseP_map]
  rfl

/-- A finish takes the segment id of its process out of both tables. -/
theorem finish_ids {proc : ProcId} (running : kernel.scheduler.scheduledProc = some proc)
    (finished : processFinish kernel proc = some after) :
    (segIds kernel).Perm ((kernel.procs proc).segId :: segIds after) ∧
      after.segTable.segList =
        kernel.segTable.segList.eraseP (fun seg => seg.id == (kernel.procs proc).segId) ∧
      after.segTable.segList.map Segment.id =
        (kernel.segTable.segList.map Segment.id).erase (kernel.procs proc).segId := by
  have code := finish_code running finished
  obtain ⟨unlinked, erased⟩ := free_ids code.segments
  refine ⟨?_, unlinked, erased⟩
  have listed := (List.perm_cons_erase code.member).map fun other => (kernel.procs other).segId
  simpa [segIds, code.listed, code.segId] using listed

theorem step_ids {event : KernelEvent} (reached : Reachable kernelSystem kernel)
    (ids : (kernel.segTable.segList.map Segment.id).Perm (segIds kernel))
    (fired : kernelStep kernel event = some after) :
    (after.segTable.segList.map Segment.id).Perm (segIds after) := by
  cases event with
  | processCreate program fresh =>
      obtain rfl := Option.some.inj fired
      obtain ⟨listed, segments⟩ := create_ids (kernel_accounted reached).numbered program fresh
      rw [listed, segments]
      exact ids.append_right _
  | processFinish =>
      obtain ⟨proc, running, finished⟩ := finish_fires fired
      obtain ⟨listed, -, segments⟩ := finish_ids running finished
      rw [segments]
      simpa using (ids.trans listed).erase (kernel.procs proc).segId
  | execute instr =>
      obtain ⟨proc, running, code⟩ := execute_code fired
      have kept := ids_of_code (by rw [code.segments, mark_used_content]) code.listed code.segId
      rw [kept.1, kept.2]
      exact ids
  | idleDispatch | quantumCompleted | diskTick =>
      have code := spared_code fired rfl
      have kept := ids_of_code (by rw [code.segments]) code.listed code.segId
      rw [kept.1, kept.2]
      exact ids

/-- Whether or not the ids are unique, there is one segment for each listed process. -/
theorem reachable_ids (reached : Reachable kernelSystem kernel) :
    (kernel.segTable.segList.map Segment.id).Perm (segIds kernel) :=
  reachable_invariant (fun kernel => (kernel.segTable.segList.map Segment.id).Perm (segIds kernel))
    reached (.refl _) fun _ _ _ reachedBefore ids fired => step_ids reachedBefore ids fired

/-! ## Steps -/

theorem create_stored (stored : CodeStored kernel ledger)
    (numbered : ∀ proc ∈ kernel.procTable, proc < kernel.nextProcId) (program : Program)
    (fresh : Nat → Page)
    (unique : ∀ proc ∈ kernel.procTable, (kernel.procs proc).segId ≠ program.segId) :
    CodeStored (processCreate kernel program fresh)
      (ledger.record kernel (.processCreate program fresh)) := by
  have code := create_code kernel program fresh
  obtain ⟨ids, segments⟩ := create_ids numbered program fresh
  have contents := create_contents kernel program fresh
  refine
    { ids := ?_
      distinct := ?_
      stored := ?_ }
  · rw [ids, segments]
    exact stored.ids.append_right _
  · rw [ids, List.nodup_append]
    refine ⟨stored.distinct, List.nodup_singleton _, ?_⟩
    intro id member last same
    obtain ⟨proc, listed, rfl⟩ := List.mem_map.mp member
    exact fun equal => unique proc listed (equal.trans (List.mem_singleton.mp same))
  · intro proc member
    rw [code.listed] at member
    rcases List.mem_append.mp member with listed | last
    · have other : proc ≠ kernel.nextProcId := Nat.ne_of_lt (numbered proc listed)
      obtain ⟨seg, segMember, id, holds⟩ := stored.stored proc listed
      obtain ⟨kept, keptMember, keptId, keptHolds⟩ :=
        mem_of_contents contents (List.mem_append_left _ segMember) holds
      refine ⟨kept, keptMember, (keptId.trans id).trans (code.others proc other).1.symm, ?_⟩
      simpa [Ledger.record, other] using keptHolds
    · obtain rfl := List.mem_singleton.mp last
      obtain ⟨kept, keptMember, keptId, keptHolds⟩ :=
        mem_of_contents contents (List.mem_append_right _ (List.mem_singleton_self _))
          fun pc inRange => cell_populate _ fresh inRange
      refine ⟨kept, keptMember, ?_, by simpa [Ledger.record] using keptHolds⟩
      rw [keptId, code.own.1]
      exact (populate_header _ _).1

theorem finish_stored (stored : CodeStored kernel ledger) (distinct : kernel.procTable.Nodup)
    {proc : ProcId} (running : kernel.scheduler.scheduledProc = some proc)
    (finished : processFinish kernel proc = some after) : CodeStored after ledger := by
  have code := finish_code running finished
  obtain ⟨around, unlinked, erased⟩ := finish_ids running finished
  refine
    { ids := ?_
      distinct := ((List.nodup_cons.mp (around.nodup_iff.mp stored.distinct)).2)
      stored := ?_ }
  · rw [erased]
    simpa using (stored.ids.trans around).erase (kernel.procs proc).segId
  · intro other otherMember
    rw [code.listed, distinct.mem_erase_iff] at otherMember
    obtain ⟨different, listed⟩ := otherMember
    obtain ⟨seg, segMember, id, holds⟩ := stored.stored other listed
    have apart : (kernel.procs other).segId ≠ (kernel.procs proc).segId := fun same =>
      different (List.inj_on_of_nodup_map stored.distinct listed code.member same)
    refine ⟨seg, ?_, id.trans (code.segId other).symm, holds⟩
    rw [unlinked, List.mem_eraseP_of_neg (by simpa [id] using apart)]
    exact segMember

theorem step_stored {event : KernelEvent} (reached : Reachable kernelSystem kernel)
    (stored : CodeStored kernel ledger) (unique : FreshSegment kernel event)
    (fired : kernelStep kernel event = some after) :
    CodeStored after (ledger.record kernel event) := by
  have accounted := kernel_accounted reached
  cases event with
  | processCreate program fresh =>
      obtain rfl := Option.some.inj fired
      exact create_stored stored accounted.numbered program fresh unique
  | execute instr =>
      obtain ⟨proc, running, code⟩ := execute_code fired
      have recorded : (ledger.record kernel (.execute instr)).loaded = ledger.loaded := by
        simp [Ledger.record, running]
      have kept : CodeStored after ledger := stored_of_contents stored
        (by rw [code.segments, mark_used_content]) code.listed code.segId
      exact
        { ids := kept.ids
          distinct := kept.distinct
          stored := recorded ▸ kept.stored }
  | processFinish =>
      obtain ⟨proc, running, finished⟩ := finish_fires fired
      exact finish_stored stored accounted.distinct running finished
  | idleDispatch | quantumCompleted | diskTick =>
      have code := spared_code fired rfl
      exact stored_of_contents stored (by rw [code.segments]) code.listed code.segId

theorem empty_stored : CodeStored kernelInit Ledger.empty where
  ids := .refl _
  distinct := List.nodup_nil
  stored := by simp [kernelInit]

theorem trace_stored {past : List ((Kernel × Ledger) × KernelEvent)} {state : Kernel × Ledger}
    (trace : Trace recordedSystem past state)
    (unique : ∀ entry ∈ past, FreshSegment entry.1.1 entry.2) :
    ∀ seen ∈ visited past state, CodeStored seen.1 seen.2 := by
  refine trace_visited_invariant (fun state event => FreshSegment state.1 event)
    (fun state => CodeStored state.1 state.2) trace unique empty_stored ?_
  intro before event after reached stored allowed fired
  obtain ⟨step, record⟩ := history_step fired
  rw [record]
  exact step_stored (history_reachable reached) stored allowed step

/-- The segment found for a live process holds its code. -/
theorem stored_find (stored : CodeStored kernel ledger) {proc : ProcId}
    (member : proc ∈ kernel.procTable) :
    ∃ seg, segmentFind kernel.segTable (kernel.procs proc).segId = some seg ∧
      Holds seg (ledger.loaded proc) := by
  obtain ⟨seg, segMember, id, holds⟩ := stored.stored proc member
  have distinct := stored.ids.nodup_iff.mpr stored.distinct
  have found := find_key distinct segMember
  exact ⟨seg, by rw [segmentFind, ← id]; exact found, holds⟩

/-- With unique segment ids, every instruction of every live process is found in
memory at the address of its index, after any run; and the segment table has
exactly one segment for each live process. -/
theorem live_code_is_in_memory {past : List ((Kernel × Ledger) × KernelEvent)}
    {kernel : Kernel} {ledger : Ledger} (trace : Trace recordedSystem past (kernel, ledger))
    (unique : ∀ entry ∈ past, FreshSegment entry.1.1 entry.2) :
    (∀ proc ∈ kernel.procTable, ∀ pc < (kernel.procs proc).codeLen, ∃ seg page,
        segmentFind kernel.segTable (kernel.procs proc).segId = some seg ∧
        pageNumber pc < seg.pageCount ∧ seg.pageTable[pageNumber pc]? = some page ∧
        (ledger.loaded proc)[pc]? = some (page.code (pageOffset pc))) ∧
      (kernel.segTable.segList.map Segment.id).Perm (segIds kernel) ∧ (segIds kernel).Nodup := by
  have stored : CodeStored kernel ledger :=
    trace_stored trace unique (kernel, ledger) (last_visited _ _)
  have ledgered : Ledgered kernel ledger := reachable_ledgered ⟨past, trace⟩
  refine ⟨?_, stored.ids, stored.distinct⟩
  intro proc member pc inRange
  obtain ⟨seg, found, holds⟩ := stored_find stored member
  have numbered := (kernel_accounted (history_reachable ⟨past, trace⟩)).numbered proc member
  rw [ledgered.length proc numbered] at inRange
  have cell := holds pc inRange
  rw [List.getElem?_eq_getElem inRange] at cell ⊢
  obtain ⟨page, present, code⟩ := Option.map_eq_some_iff.mp cell
  refine ⟨seg, page, found, ?_, present, congrArg some code.symm⟩
  rw [← seg.allocated]
  exact (List.getElem?_eq_some_iff.mp present).1

theorem live_code_is_in_memory_sample :
    ∃ seg page, segmentFind sampleRecord.1.segTable 2 = some seg ∧
      pageNumber 1 < seg.pageCount ∧ seg.pageTable[pageNumber 1]? = some page ∧
      some ⟨.read, 45, none⟩ = some (page.code (pageOffset 1)) :=
  (live_code_is_in_memory sample_trace (by decide)).1 2 (by decide) 1 (by decide)

/-- So an in-range fetch of the cpu reads the process's own instruction. -/
theorem fetch_is_own_instruction (stored : CodeStored kernel ledger) {proc : ProcId}
    (member : proc ∈ kernel.procTable) {pc : Nat} (inRange : pc < (ledger.loaded proc).length) :
    fetchInstr kernel.segTable (kernel.procs proc).segId pc = (ledger.loaded proc)[pc]? := by
  obtain ⟨seg, found, holds⟩ := stored_find stored member
  rw [fetch_eq_cell, found]
  exact holds pc inRange

end Ribabari.CodeMemory

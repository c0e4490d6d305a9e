import Ribabari.Kernel.CodeMemory
import Ribabari.Memory.UsedPages
import Ribabari.Model.LifecycleThreads

/-!
# The tables between the steps of a creation or a finish

At every point of every interleaving there is one segment for each process between
`mem_req_load` and `segment_free`, and a creation that is not listed yet has touched none
of its pages. Which step comes next does not matter, so each step has its own lemma.
-/

namespace Ribabari.LifecycleTables

open Ribabari.ProcessRecords Ribabari.SegmentMemory Ribabari.KernelState Ribabari.Dispatch
open Ribabari.DiskAndFiles Ribabari.KernelEvents Ribabari.LifecycleThreads Ribabari.QueueBoard
open Ribabari.RecordFrame Ribabari.ProgramLedger Ribabari.CodeMemory Ribabari.PagedCode
open Ribabari.UsedPages

set_option autoImplicit false

def segIdOf (kernel : Kernel) (proc : ProcId) : Int := (kernel.procs proc).segId

/-- The process that `process_finish` has unlisted and whose segment it has not freed. -/
def unfreed : CpuWork → List ProcId
  | .interrupting proc => [proc]
  | .closing proc _ => [proc]
  | .running | .leaving _ => []

/-- The processes between `mem_req_load` and `segment_free`. -/
def owners (state : Lifecycle) : List ProcId :=
  state.kernel.procTable ++ state.loaded ++ unfreed state.cpu

/-- The processes that hold a segment id, those still to be loaded included. -/
def holders (state : Lifecycle) : List ProcId := owners state ++ state.parsed.map Creation.proc

/-- A program is read under a segment id that nobody holds. -/
def FreshId (state : Lifecycle) : LifecycleEvent → Prop
  | .parse program => ∀ proc ∈ holders state, segIdOf state.kernel proc ≠ program.segId
  | _ => True

instance (state : Lifecycle) (event : LifecycleEvent) : Decidable (FreshId state event) :=
  match event with
  | .parse program => inferInstanceAs (Decidable
      (∀ proc ∈ holders state, segIdOf state.kernel proc ≠ program.segId))
  | .load _ _ | .list _ | .queue _ | .kernel _ | .finish | .resume | .refresh =>
      inferInstanceAs (Decidable True)

/-- The tables of segments and processes. -/
structure Owned (state : Lifecycle) : Prop where
  unique : ((holders state).map (segIdOf state.kernel)).Nodup
  segments : (state.kernel.segTable.segList.map Segment.id).Perm
    ((owners state).map (segIdOf state.kernel))
  numbered : ∀ proc ∈ holders state, proc < state.kernel.nextProcId
  recorded : ∀ creation ∈ state.parsed,
    segIdOf state.kernel creation.proc = creation.program.segId
  untouched : ∀ proc ∈ state.loaded, ∀ seg ∈ state.kernel.segTable.segList,
    seg.id = segIdOf state.kernel proc → ¬Touched seg

/-- The queues and the cpu. -/
structure Seated (state : Lifecycle) : Prop where
  once : (Queues.places state.kernel.scheduler ++ state.listed).Nodup
  placed : ∀ proc ∈ Queues.places state.kernel.scheduler,
    proc ∈ state.kernel.procTable ∨ state.cpu = .interrupting proc
  listed : ∀ proc ∈ state.listed, proc ∈ state.kernel.procTable
  interrupted : ∀ proc, state.cpu = .interrupting proc →
    state.kernel.scheduler.scheduledProc = some proc

variable {state after : Lifecycle} {proc : ProcId}

theorem owner_unique (owned : Owned state) {other : ProcId} (member : proc ∈ holders state)
    (otherMember : other ∈ holders state)
    (same : segIdOf state.kernel proc = segIdOf state.kernel other) : proc = other :=
  List.inj_on_of_nodup_map owned.unique member otherMember same

/-- Nobody stands at two points of a creation or a finish. -/
theorem holders_apart (owned : Owned state) :
    List.Disjoint state.kernel.procTable state.loaded ∧
      List.Disjoint (state.kernel.procTable ++ state.loaded) (unfreed state.cpu) ∧
      List.Disjoint (owners state) (state.parsed.map Creation.proc) := by
  have distinct : (holders state).Nodup := owned.unique.of_map _
  rw [holders, List.nodup_append'] at distinct
  obtain ⟨loaded, -, parsed⟩ := distinct
  rw [owners, List.nodup_append', List.nodup_append'] at loaded
  exact ⟨loaded.1.2.2, loaded.2.2, parsed⟩

/-! ## The tables -/

/-- A step that creates and frees no segment, and reads no program. -/
theorem owned_moved (owned : Owned state) (moved : (owners after).Perm (owners state))
    (parsed : after.parsed = state.parsed)
    (next : after.kernel.nextProcId = state.kernel.nextProcId)
    (ids : ∀ proc, segIdOf after.kernel proc = segIdOf state.kernel proc)
    (segments : after.kernel.segTable.segList.map Segment.id =
      state.kernel.segTable.segList.map Segment.id)
    (untouched : ∀ proc ∈ after.loaded, ∀ seg ∈ after.kernel.segTable.segList,
      seg.id = segIdOf state.kernel proc → ¬Touched seg) : Owned after := by
  have same : segIdOf after.kernel = segIdOf state.kernel := funext ids
  have held : (holders after).Perm (holders state) := by
    rw [holders, holders, parsed]
    exact moved.append_right _
  exact
    { unique := by
        rw [same]
        exact (held.map _).nodup_iff.mpr owned.unique
      segments := by
        rw [same, segments]
        exact owned.segments.trans (moved.map _).symm
      numbered := by
        intro proc member
        rw [next]
        exact owned.numbered proc (held.mem_iff.mp member)
      recorded := by
        rw [same, parsed]
        exact owned.recorded
      untouched := by
        rw [same]
        exact untouched }

theorem owned_of_code (owned : Owned state) (code : SameCode state.kernel after.kernel)
    (parsed : after.parsed = state.parsed) (loaded : after.loaded = state.loaded)
    (cpu : unfreed after.cpu = unfreed state.cpu) : Owned after := by
  apply owned_moved owned _ parsed code.next code.segId (by rw [code.segments])
  · rw [loaded, code.segments]
    exact owned.untouched
  · rw [owners, owners, code.listed, loaded, cpu]

theorem parse_holders (state : Lifecycle) (program : Program) :
    holders (state.parse program) = holders state ++ [state.kernel.nextProcId] := by
  simp [holders, owners, Lifecycle.parse, registerProgram]

theorem parse_new_id (state : Lifecycle) (program : Program) :
    segIdOf (state.parse program).kernel state.kernel.nextProcId = program.segId := by
  simp [segIdOf, Lifecycle.parse, registerProgram, newProcess]

theorem parse_old_id (owned : Owned state) (program : Program) (member : proc ∈ holders state) :
    segIdOf (state.parse program).kernel proc = segIdOf state.kernel proc := by
  have other := Nat.ne_of_lt (owned.numbered proc member)
  simp [segIdOf, Lifecycle.parse, registerProgram, other]

theorem parse_owned (owned : Owned state) {program : Program}
    (fresh : FreshId state (.parse program)) : Owned (state.parse program) := by
  have held := parse_holders state program
  have new := parse_new_id state program
  have old : ∀ proc ∈ holders state,
      segIdOf (state.parse program).kernel proc = segIdOf state.kernel proc :=
    fun _ => parse_old_id owned program
  have owner : ∀ proc ∈ owners state, proc ∈ holders state := fun _ => List.mem_append_left _
  exact
    { unique := by
        rw [held, List.map_append, List.map_singleton, List.map_congr_left old, new,
          List.nodup_append']
        refine ⟨owned.unique, List.nodup_singleton _, ?_⟩
        rw [List.disjoint_singleton]
        intro used
        obtain ⟨proc, member, same⟩ := List.mem_map.mp used
        exact fresh proc member same
      segments := by
        have ids := List.map_congr_left fun proc member => old proc (owner proc member)
        change (state.kernel.segTable.segList.map Segment.id).Perm
          ((owners state).map (segIdOf (state.parse program).kernel))
        rw [ids]
        exact owned.segments
      numbered := by
        intro proc member
        rw [held] at member
        change proc < state.kernel.nextProcId + 1
        rcases List.mem_append.mp member with earlier | last
        · exact Nat.lt_succ_of_lt (owned.numbered proc earlier)
        · rw [List.mem_singleton.mp last]
          exact Nat.lt_succ_self _
      recorded := by
        intro creation member
        rcases List.mem_append.mp member with earlier | last
        · have held : creation.proc ∈ holders state :=
            List.mem_append_right _ (List.mem_map_of_mem earlier)
          exact (old creation.proc held).trans (owned.recorded creation earlier)
        · rw [List.mem_singleton.mp last]
          exact new
      untouched := by
        intro proc member seg inTable same
        have held : proc ∈ holders state := by
          apply owner
          simp only [owners, List.mem_append]
          exact .inl (.inr member)
        exact owned.untouched proc member seg inTable (same.trans (old proc held)) }

theorem load_owners (state : Lifecycle) (creation : Creation) (fresh : Nat → Page) :
    (owners (state.load creation fresh)).Perm (owners state ++ [creation.proc]) := by
  apply List.perm_iff_count.mpr
  intro other
  simp only [owners, Lifecycle.load, List.count_append]
  omega

theorem load_holders {creation : Creation} (fresh : Nat → Page)
    (member : creation ∈ state.parsed) :
    (holders (state.load creation fresh)).Perm (holders state) := by
  have owner := load_owners state creation fresh
  have parsed := (List.perm_cons_erase member).map Creation.proc
  apply List.perm_iff_count.mpr
  intro other
  have owns := owner.count_eq other
  have waits := parsed.count_eq other
  simp only [holders, Lifecycle.load, List.count_append, List.map_cons, List.count_cons,
    List.count_nil] at owns waits ⊢
  omega

/-- The id of a creation is in no segment before its load. -/
theorem parsed_apart (owned : Owned state) {creation : Creation} {seg : Segment}
    (member : creation ∈ state.parsed) (inTable : seg ∈ state.kernel.segTable.segList) :
    seg.id ≠ segIdOf state.kernel creation.proc := by
  intro same
  have owner : seg.id ∈ (owners state).map (segIdOf state.kernel) :=
    owned.segments.mem_iff.mp (List.mem_map_of_mem inTable)
  obtain ⟨earlier, earlierMember, earlierId⟩ := List.mem_map.mp owner
  have waiting : creation.proc ∈ state.parsed.map Creation.proc := List.mem_map_of_mem member
  have equal : earlier = creation.proc :=
    owner_unique owned (List.mem_append_left _ earlierMember) (List.mem_append_right _ waiting)
      (earlierId.trans same)
  exact (holders_apart owned).2.2 earlierMember (equal ▸ waiting)

/-- The swap pass touches nothing, and the new segment is under an id of its own. -/
theorem load_owned (owned : Owned state) {creation : Creation} (fresh : Nat → Page)
    (member : creation ∈ state.parsed) : Owned (state.load creation fresh) := by
  have held := load_holders fresh member
  have id : segIdOf state.kernel creation.proc = creation.program.segId :=
    owned.recorded creation member
  exact
    { unique := (held.map _).nodup_iff.mpr owned.unique
      segments := by
        have ids := load_ids creation.request fresh state.kernel.segTable
        have added := ((load_owners state creation fresh).map (segIdOf state.kernel)).symm
        rw [List.map_append, List.map_singleton, id] at added
        change (List.map Segment.id
          (memReqLoad creation.request fresh state.kernel.segTable).segList).Perm _
        rw [ids]
        exact (owned.segments.append_right _).trans added
      numbered := fun other otherMember => owned.numbered other (held.mem_iff.mp otherMember)
      recorded := fun other otherMember => owned.recorded other (List.mem_of_mem_erase otherMember)
      untouched := by
        intro other loaded seg inTable same touched
        rcases load_touched inTable with ⟨old, oldMember, oldId, grew⟩ | ⟨-, clear⟩
        · rcases List.mem_append.mp loaded with before | new
          · exact owned.untouched other before old oldMember (oldId.trans same) (grew touched)
          · rw [List.mem_singleton.mp new] at same
            exact parsed_apart owned member oldMember (oldId.trans same)
        · exact clear touched }

theorem list_owned (owned : Owned state) (member : proc ∈ state.loaded) :
    Owned (state.list proc) := by
  refine owned_moved owned ?_ rfl rfl (fun _ => rfl) rfl
    fun other loaded => owned.untouched other (List.mem_of_mem_erase loaded)
  · have loaded := List.perm_cons_erase member
    apply List.perm_iff_count.mpr
    intro other
    have count := loaded.count_eq other
    simp only [owners, Lifecycle.list, List.count_append, List.count_cons, List.count_nil] at count ⊢
    omega

theorem queue_code (kernel : Kernel) (proc : ProcId) :
    SameCode kernel (queueProcess kernel proc) := by
  have image := modify_proc_image kernel proc (·.setState .ready)
    (fun process => image_set_state process .ready)
  have ready : recordView (kernel.modifyProc proc (·.setState .ready)) = recordView kernel :=
    view_of_frame rfl image
  apply same_code
  unfold queueProcess
  dsimp only
  split <;> exact code_of_records ready

theorem queue_owned (owned : Owned state) (proc : ProcId) : Owned (state.queue proc) :=
  owned_of_code owned (queue_code _ _) rfl rfl rfl

/-! ## The kernel -/

/-- An instruction is fetched from the segment of a listed process. -/
theorem kernel_owned (owned : Owned state) (seated : Seated state) {event : KernelEvent}
    (fired : state.fireKernel event = some after) : Owned after := by
  obtain ⟨⟨kernel, step, rfl⟩, enrols, drops, cpu⟩ := kernel_inv fired
  cases event with
  | processCreate program fresh => exact absurd rfl (enrols program fresh)
  | processFinish => exact absurd rfl drops
  | idleDispatch | quantumCompleted | diskTick =>
      exact owned_of_code owned (spared_code step rfl) rfl rfl rfl
  | execute instr =>
      have running : state.cpu = .running := cpu.resolve_left KernelEvent.noConfusion
      obtain ⟨proc, scheduled, code⟩ := execute_code step
      have listed : proc ∈ state.kernel.procTable := by
        have place := seated.placed proc (by simp [Queues.places, scheduled])
        exact place.resolve_right (by simp [running])
      refine owned_moved owned ?_ rfl code.next code.segId ?_ ?_
      · simp only [owners]
        rw [code.listed]
      · change kernel.segTable.segList.map Segment.id = _
        rw [code.segments]
        exact ids_of_contents (mark_used_content _ _ _)
      · intro other loaded seg member id touched
        change seg ∈ kernel.segTable.segList at member
        rw [code.segments] at member
        rcases mark_touched member with old | marked
        · exact owned.untouched other loaded seg old id touched
        · -- The marked segment belongs to a listed process, not to a creation.
          have held : proc ∈ holders state := by simp [holders, owners, listed]
          have otherHeld : other ∈ holders state := by
            simp only [holders, owners, List.mem_append]
            exact .inl (.inl (.inr loaded))
          have same : proc = other := owner_unique owned held otherHeld (marked.symm.trans id)
          exact (holders_apart owned).1 listed (same ▸ loaded)

/-! ## The finish -/

theorem finish_owned (owned : Owned state) (fired : state.finish = some after) : Owned after := by
  obtain ⟨proc, running, -, listed, rfl⟩ := unlist_inv fired
  refine owned_moved owned ?_ rfl rfl (fun _ => rfl) rfl owned.untouched
  have unlisted := List.perm_cons_erase listed
  apply List.perm_iff_count.mpr
  intro other
  have count := unlisted.count_eq other
  simp only [owners, running, unfreed, List.count_append, List.count_cons, List.count_nil]
    at count ⊢
  omega

theorem free_owned (owned : Owned state) {segTable : SegmentTable} {files : List Int}
    (closing : state.cpu = .closing proc files)
    (freed : segmentFree state.kernel.segTable (segIdOf state.kernel proc) = some segTable) :
    Owned { state with
      kernel := { state.kernel with segTable := segTable }
      cpu := .leaving proc } := by
  obtain ⟨unlinked, erased⟩ := free_ids freed
  let after : Lifecycle :=
    { state with
      kernel := { state.kernel with segTable := segTable }
      cpu := .leaving proc }
  have owner : (owners state).Perm (proc :: owners after) := by
    apply List.perm_iff_count.mpr
    intro other
    simp only [owners, after, closing, unfreed, List.count_append, List.count_cons, List.count_nil]
    omega
  have held : (holders state).Perm (proc :: holders after) := owner.append_right _
  exact
    { unique := (List.nodup_cons.mp ((held.map _).nodup_iff.mp owned.unique)).2
      segments := by
        change (segTable.segList.map Segment.id).Perm _
        rw [erased]
        have rest := (owned.segments.trans (owner.map _)).erase (segIdOf state.kernel proc)
        rw [List.map_cons, List.erase_cons_head] at rest
        exact rest
      numbered := fun other member =>
        owned.numbered other (held.mem_iff.mpr (List.mem_cons_of_mem _ member))
      recorded := owned.recorded
      untouched := by
        intro other loaded seg inTable
        change seg ∈ segTable.segList at inTable
        rw [unlinked] at inTable
        exact owned.untouched other loaded seg (List.mem_of_mem_eraseP inTable) }

theorem close_code (kernel : Kernel) (proc : ProcId) (inumber : Int) :
    SameCode kernel (fsCloseRequest kernel proc inumber) := by
  apply same_code
  obtain ⟨fileTable, logs, closed⟩ := close_writes kernel proc inumber
  rw [closed]
  rfl

theorem leave_code (kernel : Kernel) (proc : ProcId) :
    SameCode kernel (leaveQueues kernel proc) := by
  apply same_code
  unfold leaveQueues
  split_ifs <;> rfl

theorem resume_owned (owned : Owned state) (fired : state.resume = some after) : Owned after := by
  rcases resume_inv fired with ⟨proc, kernel, interrupting, interrupted, rfl⟩ |
    ⟨proc, inumber, files, closing, rfl⟩ | ⟨proc, segTable, closing, freed, rfl⟩ |
    ⟨proc, leaving, rfl⟩
  · obtain ⟨current, -, rfl⟩ := Option.map_eq_some_iff.mp interrupted
    refine owned_of_code owned (same_code ?_) rfl rfl (by rw [interrupting]; rfl)
    change codeView (if current = proc then _ else _) = _
    split
    · exact code_of_records (schedule_records _ _)
    · rfl
  · exact owned_of_code owned (close_code _ _ _) rfl rfl (by rw [closing]; rfl)
  · exact free_owned owned closing freed
  · exact owned_of_code owned (leave_code _ _) rfl rfl (by rw [leaving]; rfl)

theorem step_owned (owned : Owned state) (seated : Seated state) {event : LifecycleEvent}
    (fresh : FreshId state event) (fired : lifecycleStep state event = some after) :
    Owned after := by
  cases event with
  | parse program =>
      obtain rfl := Option.some.inj fired
      exact parse_owned owned fresh
  | load creation pages =>
      obtain ⟨parsed, rfl⟩ := load_inv fired
      exact load_owned owned pages parsed
  | list proc =>
      obtain ⟨loaded, rfl⟩ := list_inv fired
      exact list_owned owned loaded
  | queue proc =>
      obtain ⟨-, rfl⟩ := queue_inv fired
      exact queue_owned owned proc
  | kernel event => exact kernel_owned owned seated fired
  | finish => exact finish_owned owned fired
  | resume => exact resume_owned owned fired
  | refresh =>
      obtain rfl := Option.some.inj fired
      exact owned

end Ribabari.LifecycleTables

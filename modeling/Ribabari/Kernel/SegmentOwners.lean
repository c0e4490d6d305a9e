import Ribabari.Kernel.LifecycleTables

/-!
# Whom the memory view looks up

The queues hold listed processes only, but for the one that `process_finish` has just
unlisted. So instructions touch the pages of listed processes, and the view misses the
owner of a touched segment when, and only when, a finish has unlisted the owner and not yet
freed the segment.
-/

namespace Ribabari.SegmentOwners

open Ribabari.ProcessRecords Ribabari.SegmentMemory Ribabari.KernelState Ribabari.Dispatch
open Ribabari.DiskAndFiles Ribabari.KernelEvents Ribabari.LifecycleThreads
open Ribabari.QueueBoard Ribabari.QueueRefinement Ribabari.BoardInvariants Ribabari.Placement
open Ribabari.RecordFrame Ribabari.ProgramLedger Ribabari.UsedPages Ribabari.LifecycleTables
open Ribabari.TransitionSystem

set_option autoImplicit false

/-- A finish stands between the removal from the process table and `segment_free`, and a
page of its segment is used. -/
def Orphaned (state : Lifecycle) : Prop :=
  ∃ proc ∈ unfreed state.cpu, ∃ seg ∈ state.kernel.segTable.segList,
    seg.id = segIdOf state.kernel proc ∧ Touched seg

instance (state : Lifecycle) : Decidable (Orphaned state) :=
  inferInstanceAs (Decidable (∃ proc ∈ unfreed state.cpu, _))

variable {state after : Lifecycle} {proc : ProcId}

/-! ## The memory view -/

theorem page_in_use_iff (seg : Segment) : pageInUse seg = true ↔ Touched seg := by
  simp [pageInUse, Touched]

theorem get_process_sid_iff (kernel : Kernel) (sid : Int) :
    (getProcessSid kernel sid).isSome = true ↔ ∃ proc ∈ kernel.procTable, segIdOf kernel proc = sid := by
  simp [getProcessSid, segIdOf]

/-- A refresh in this state finds every owner it looks up, or there is an orphan. -/
theorem owners_found_iff (owned : Owned state) :
    OwnersFound state.kernel ↔ ¬Orphaned state := by
  constructor
  · rintro found ⟨proc, finishing, seg, member, id, touched⟩
    have owner := found seg member ((page_in_use_iff seg).mpr touched)
    obtain ⟨other, listed, same⟩ := (get_process_sid_iff _ _).mp owner
    have held : proc ∈ holders state := by simp [holders, owners, finishing]
    have otherHeld : other ∈ holders state := by simp [holders, owners, listed]
    obtain rfl := owner_unique owned otherHeld held (same.trans id)
    exact (holders_apart owned).2.1 (List.mem_append_left _ listed) finishing
  · intro none seg member used
    have touched := (page_in_use_iff seg).mp used
    have id : seg.id ∈ (owners state).map (segIdOf state.kernel) :=
      owned.segments.mem_iff.mp (List.mem_map_of_mem member)
    obtain ⟨proc, owner, same⟩ := List.mem_map.mp id
    apply (get_process_sid_iff _ _).mpr
    simp only [owners, List.mem_append] at owner
    rcases owner with (listed | loaded) | finishing
    · exact ⟨proc, listed, same⟩
    · exact absurd touched (owned.untouched proc loaded seg member same.symm)
    · exact absurd ⟨proc, finishing, seg, member, same.symm, touched⟩ none

/-! ## The queues -/

/-- A step that is not seen by the queues. -/
theorem seated_frame (seated : Seated state)
    (queues : after.kernel.scheduler = state.kernel.scheduler)
    (table : after.kernel.procTable = state.kernel.procTable)
    (listed : after.listed = state.listed)
    (cpu : ∀ proc, after.cpu = .interrupting proc ↔ state.cpu = .interrupting proc) :
    Seated after where
  once := by
    rw [queues, listed]
    exact seated.once
  placed := by
    intro proc member
    rw [queues] at member
    rw [table, cpu]
    exact seated.placed proc member
  listed := by
    rw [listed, table]
    exact seated.listed
  interrupted := by
    intro proc interrupting
    rw [queues]
    exact seated.interrupted proc ((cpu proc).mp interrupting)

theorem list_seated (owned : Owned state) (seated : Seated state) (member : proc ∈ state.loaded) :
    Seated (state.list proc) := by
  obtain ⟨loaded, finishing, -⟩ := holders_apart owned
  have absent : proc ∉ state.kernel.procTable := fun listed => loaded listed member
  have fresh : proc ∉ Queues.places state.kernel.scheduler ++ state.listed := by
    intro placed
    rcases List.mem_append.mp placed with queued | listed
    · rcases seated.placed proc queued with listed | interrupting
      · exact absent listed
      · exact finishing (List.mem_append_right _ member) (by simp [interrupting, unfreed])
    · exact absent (seated.listed proc listed)
  exact
    { once := by
        change (Queues.places state.kernel.scheduler ++ (state.listed ++ [proc])).Nodup
        rw [← List.append_assoc, List.nodup_append']
        exact ⟨seated.once, List.nodup_singleton _, List.disjoint_singleton.mpr fresh⟩
      placed := by
        intro other placed
        exact (seated.placed other placed).imp_left (List.mem_append_left _)
      listed := by
        intro other listed
        rcases List.mem_append.mp listed with earlier | last
        · exact List.mem_append_left _ (seated.listed other earlier)
        · exact List.mem_append_right _ last
      interrupted := seated.interrupted }

theorem queue_places (kernel : Kernel) (proc : ProcId) :
    (queueProcess kernel proc).scheduler =
        Queues.enroll kernel.scheduler proc ((kernel.procs proc).priority = 1) ∧
      (queueProcess kernel proc).procTable = kernel.procTable := by
  by_cases high : (kernel.procs proc).priority = 1 <;>
    simp [queueProcess, Queues.enroll, high]

theorem queue_seated (seated : Seated state) (member : proc ∈ state.listed) :
    Seated (state.queue proc) := by
  obtain ⟨queues, table⟩ := queue_places state.kernel proc
  have places := places_enroll state.kernel.scheduler proc
    ((state.kernel.procs proc).priority = 1)
  exact
    { once := by
        change (Queues.places (queueProcess state.kernel proc).scheduler ++
          state.listed.erase proc).Nodup
        rw [queues]
        have moved := (places.append_right (state.listed.erase proc)).trans
          (by rw [List.append_assoc, List.singleton_append])
        have whole := (List.perm_cons_erase member).symm.append_left
          (Queues.places state.kernel.scheduler)
        exact (moved.trans whole).nodup_iff.mpr seated.once
      placed := by
        intro other placed
        change other ∈ Queues.places (queueProcess state.kernel proc).scheduler at placed
        change other ∈ (queueProcess state.kernel proc).procTable ∨ _
        rw [queues] at placed
        rw [table]
        rcases List.mem_append.mp (places.mem_iff.mp placed) with before | new
        · exact seated.placed other before
        · rw [List.mem_singleton.mp new]
          exact .inl (seated.listed proc member)
      listed := by
        intro other listed
        change other ∈ (queueProcess state.kernel proc).procTable
        rw [table]
        exact seated.listed other (List.mem_of_mem_erase listed)
      interrupted := by
        intro other interrupting
        change (queueProcess state.kernel proc).scheduler.scheduledProc = some other
        rw [queues, enroll_scheduled]
        exact seated.interrupted other interrupting }

/-- What the queues see of an event between two steps of a creation or a finish. -/
theorem inner_places {kernel after : Kernel} {event : KernelEvent}
    (step : kernelStep kernel event = some after)
    (enrols : ∀ program fresh, event ≠ .processCreate program fresh)
    (drops : event ≠ .processFinish) :
    (Queues.places after.scheduler).Perm (Queues.places kernel.scheduler) ∧
      after.procTable = kernel.procTable := by
  have board := kernel_step_board step
  cases event with
  | processCreate program fresh => exact absurd rfl (enrols program fresh)
  | processFinish => exact absurd rfl drops
  | idleDispatch | quantumCompleted | diskTick =>
      have places := step_places (fun _ _ => BoardEvent.noConfusion) BoardEvent.noConfusion board
      exact ⟨places, (spared_code step rfl).listed⟩
  | execute instr =>
      obtain ⟨proc, -, code⟩ := execute_code step
      refine ⟨step_places ?_ ?_ board, code.listed⟩
      all_goals
        rcases instr with ⟨op, value, name⟩
        cases op <;> simp [boardEvent, instrEvent]

theorem kernel_seated (seated : Seated state) {event : KernelEvent}
    (fired : state.fireKernel event = some after) : Seated after := by
  obtain ⟨⟨kernel, step, rfl⟩, enrols, drops, cpu⟩ := kernel_inv fired
  obtain ⟨places, table⟩ := inner_places step enrols drops
  exact
    { once := (places.append_right _).nodup_iff.mpr seated.once
      placed := by
        intro other placed
        change other ∈ kernel.procTable ∨ _
        rw [table]
        exact seated.placed other (places.mem_iff.mp placed)
      listed := by
        intro other listed
        change other ∈ kernel.procTable
        rw [table]
        exact seated.listed other listed
      interrupted := by
        intro other interrupting
        rcases cpu with rfl | running
        · obtain rfl := Option.some.inj step
          exact (disk_tick_scheduled _).trans (seated.interrupted other interrupting)
        · exact absurd (running.symm.trans interrupting) CpuWork.noConfusion }

theorem finish_seated (seated : Seated state) (fired : state.finish = some after) :
    Seated after := by
  obtain ⟨proc, running, scheduled, listed, rfl⟩ := unlist_inv fired
  have place : proc ∈ Queues.places state.kernel.scheduler := by simp [Queues.places, scheduled]
  exact
    { once := seated.once
      placed := by
        intro other placed
        by_cases same : other = proc
        · exact .inr (same ▸ rfl)
        · have before := (seated.placed other placed).resolve_right (by simp [running])
          exact .inl ((List.mem_erase_of_ne same).mpr before)
      listed := by
        intro other member
        have apart : other ≠ proc := by
          rintro rfl
          exact (List.nodup_append'.mp seated.once).2.2 place member
        exact (List.mem_erase_of_ne apart).mpr (seated.listed other member)
      interrupted := by
        intro other interrupting
        obtain rfl := CpuWork.interrupting.inj interrupting
        exact scheduled }

/-- The dispatch takes the finishing process out of its only place. -/
theorem interrupt_seated (seated : Seated state) {kernel : Kernel} {files : List Int}
    (interrupting : state.cpu = .interrupting proc)
    (interrupted : interruptCurrent state.kernel proc = some kernel) :
    Seated { state with
      kernel := kernel
      cpu := .closing proc files } := by
  have scheduled := seated.interrupted proc interrupting
  obtain rfl : kernel = scheduleProcess state.kernel .none := by
    simpa [interruptCurrent, scheduled] using interrupted.symm
  have dropped := places_schedule_dropped state.kernel.scheduler scheduled
  rw [← schedule_queues] at dropped
  have table : (scheduleProcess state.kernel .none).procTable = state.kernel.procTable :=
    (same_code (code_of_records (schedule_records _ _))).listed
  have once := (dropped.append_right state.listed).nodup_iff.mpr seated.once
  obtain ⟨gone, rest⟩ := List.nodup_cons.mp once
  exact
    { once := rest
      placed := by
        intro other placed
        change other ∈ (scheduleProcess state.kernel .none).procTable ∨ _
        rw [table]
        have before := seated.placed other (dropped.mem_iff.mp (List.mem_cons_of_mem _ placed))
        left
        apply before.resolve_right
        intro same
        obtain rfl := CpuWork.interrupting.inj (interrupting.symm.trans same)
        exact gone (List.mem_append_left _ placed)
      listed := by
        intro other member
        change other ∈ (scheduleProcess state.kernel .none).procTable
        rw [table]
        exact seated.listed other member
      interrupted := fun _ same => CpuWork.noConfusion same }

theorem leave_seated (seated : Seated state) (leaving : state.cpu = .leaving proc) :
    Seated { state with
      kernel := leaveQueues state.kernel proc
      cpu := .running } := by
  have table : (leaveQueues state.kernel proc).procTable = state.kernel.procTable :=
    (leave_code _ _).listed
  have fewer := places_leave state.kernel.scheduler proc
  rw [← leave_queues_queues] at fewer
  exact
    { once := seated.once.sublist (fewer.append_right _)
      placed := by
        intro other placed
        change other ∈ (leaveQueues state.kernel proc).procTable ∨ _
        rw [table]
        exact .inl ((seated.placed other (fewer.mem placed)).resolve_right (by simp [leaving]))
      listed := by
        intro other member
        change other ∈ (leaveQueues state.kernel proc).procTable
        rw [table]
        exact seated.listed other member
      interrupted := fun _ same => CpuWork.noConfusion same }

theorem resume_seated (seated : Seated state) (fired : state.resume = some after) :
    Seated after := by
  rcases resume_inv fired with ⟨proc, kernel, interrupting, interrupted, rfl⟩ |
    ⟨proc, inumber, files, closing, rfl⟩ | ⟨proc, segTable, closing, -, rfl⟩ |
    ⟨proc, leaving, rfl⟩
  · exact interrupt_seated seated interrupting interrupted
  · obtain ⟨fileTable, logs, closed⟩ := close_writes state.kernel proc inumber
    have queues := congrArg Kernel.scheduler closed
    have table := congrArg Kernel.procTable closed
    exact seated_frame seated queues table rfl (by simp [closing])
  · exact seated_frame seated rfl rfl rfl (by simp [closing])
  · exact leave_seated seated leaving

theorem step_seated (owned : Owned state) (seated : Seated state) {event : LifecycleEvent}
    (fired : lifecycleStep state event = some after) : Seated after := by
  cases event with
  | parse program =>
      obtain rfl := Option.some.inj fired
      exact seated_frame seated rfl rfl rfl fun _ => .rfl
  | load creation pages =>
      obtain ⟨-, rfl⟩ := load_inv fired
      exact seated_frame seated rfl rfl rfl fun _ => .rfl
  | list proc =>
      obtain ⟨loaded, rfl⟩ := list_inv fired
      exact list_seated owned seated loaded
  | queue proc =>
      obtain ⟨listed, rfl⟩ := queue_inv fired
      exact queue_seated seated listed
  | kernel event => exact kernel_seated seated fired
  | finish => exact finish_seated seated fired
  | resume => exact resume_seated seated fired
  | refresh =>
      obtain rfl := Option.some.inj fired
      exact seated

/-! ## Runs -/

theorem start_owned : Owned lifecycleSystem.start where
  unique := List.nodup_nil
  segments := .refl _
  numbered := fun _ member => nomatch member
  recorded := fun _ member => nomatch member
  untouched := fun _ member => nomatch member

theorem start_seated : Seated lifecycleSystem.start where
  once := List.nodup_nil
  placed := fun _ member => nomatch member
  listed := fun _ member => nomatch member
  interrupted := fun _ interrupting => nomatch interrupting

/-- With unique ids both invariants hold at every point of an interleaving. -/
theorem trace_owned {past : List (Lifecycle × LifecycleEvent)}
    (trace : Trace lifecycleSystem past state)
    (fresh : ∀ entry ∈ past, FreshId entry.1 entry.2) :
    ∀ seen ∈ visited past state, Owned seen ∧ Seated seen := by
  apply trace_visited_invariant FreshId (fun state => Owned state ∧ Seated state) trace fresh
    ⟨start_owned, start_seated⟩
  rintro before event after - ⟨owned, seated⟩ allowed fired
  exact ⟨step_owned owned seated allowed fired, step_seated owned seated fired⟩

/-- Whatever runs in between, a finish that has begun goes on: the segment is found. -/
theorem finish_goes_on {past : List (Lifecycle × LifecycleEvent)}
    (trace : Trace lifecycleSystem past state)
    (fresh : ∀ entry ∈ past, FreshId entry.1 entry.2) (begun : state.cpu ≠ .running) :
    ∃ after, state.resume = some after := by
  obtain ⟨owned, seated⟩ := trace_owned trace fresh state (last_visited past state)
  unfold Lifecycle.resume
  cases cpu : state.cpu with
  | running => exact absurd cpu begun
  | interrupting proc => simp [interruptCurrent, seated.interrupted proc cpu]
  | leaving proc => exact ⟨_, rfl⟩
  | closing proc files =>
      cases files with
      | cons inumber files => exact ⟨_, rfl⟩
      | nil =>
          have owner : proc ∈ owners state := by simp [owners, cpu, unfreed]
          have id := owned.segments.mem_iff.mpr (List.mem_map_of_mem owner)
          obtain ⟨seg, found⟩ : ∃ seg,
              segmentFind state.kernel.segTable (state.kernel.procs proc).segId = some seg :=
            find_listed id
          simp [segmentFree, found]

/-- Of a run with unique ids: its refreshes find every owner they look up exactly when none
of them falls between the removal of a finishing process from the process table and the
removal of its segment, while a page of the segment is used. -/
theorem refreshes_find_owners {past : List (Lifecycle × LifecycleEvent)}
    (trace : Trace lifecycleSystem past state)
    (fresh : ∀ entry ∈ past, FreshId entry.1 entry.2) :
    (∀ entry ∈ past, entry.2 = .refresh → OwnersFound entry.1.kernel) ↔
      ∀ entry ∈ past, entry.2 = .refresh → ¬Orphaned entry.1 := by
  have each : ∀ entry ∈ past, (OwnersFound entry.1.kernel ↔ ¬Orphaned entry.1) := by
    intro entry member
    have owned := (trace_owned trace fresh entry.1 (mem_visited member state)).1
    exact owners_found_iff owned
  constructor
  · intro found entry member refresh
    exact (each entry member).mp (found entry member refresh)
  · intro free entry member refresh
    exact (each entry member).mpr (free entry member refresh)

def onceProgram : Program :=
  { sampleProgram with
    semaphores := []
    code := [⟨.exec, 5, none⟩] }

/-- A process of one instruction is created and executes it. -/
def executedEvents : List LifecycleEvent :=
  createSteps 1 onceProgram blankPage ++
    [.kernel (.idleDispatch true), .kernel (.execute ⟨.exec, 5, none⟩)]

def executed : Lifecycle :=
  (run lifecycleSystem executedEvents lifecycleSystem.start).getD lifecycleSystem.start

def executedPast : List (Lifecycle × LifecycleEvent) :=
  history lifecycleSystem executedEvents lifecycleSystem.start

theorem executed_trace : Trace lifecycleSystem executedPast executed :=
  trace_history executedEvents .start rfl

theorem refreshes_find_owners_sample :
    OwnersFound executed.kernel ∧ ∃ seg ∈ executed.kernel.segTable.segList, Touched seg := by
  have trace : Trace lifecycleSystem (executedPast ++ [(executed, .refresh)]) executed :=
    executed_trace.next rfl
  have fresh : ∀ entry ∈ executedPast ++ [(executed, .refresh)], FreshId entry.1 entry.2 := by decide
  have free : ∀ entry ∈ executedPast ++ [(executed, .refresh)], ¬Orphaned entry.1 := by decide
  have found := (refreshes_find_owners trace fresh).mpr fun entry member _ => free entry member
  exact ⟨found (executed, .refresh) (by simp) rfl, by decide⟩

/-- The process begins to finish. -/
def unlisted : Lifecycle := executed.finish.getD executed

/-- The view is refreshed behind the removal from the process table. -/
theorem refresh_misses_owner :
    ¬∀ (past : List (Lifecycle × LifecycleEvent)) (state : Lifecycle),
      Trace lifecycleSystem past state → (∀ entry ∈ past, FreshId entry.1 entry.2) →
        ∀ entry ∈ past, entry.2 = .refresh → OwnersFound entry.1.kernel := by
  intro claimed
  have trace : Trace lifecycleSystem
      (executedPast ++ [(executed, .finish)] ++ [(unlisted, .refresh)]) unlisted :=
    (executed_trace.next rfl).next rfl
  have found := claimed _ _ trace (by decide) (unlisted, .refresh) (by simp) rfl
  exact absurd found (by decide)

end Ribabari.SegmentOwners

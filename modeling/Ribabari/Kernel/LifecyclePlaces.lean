import Ribabari.Kernel.SegmentOwners

/-!
# Processes between the steps of a creation or a finish

Creations and finishes in separate steps, in any order with each other and with the cpu
and the disk. A process is in the hands of the loader, or in the process table, or in the
hands of the cpu thread that finishes it; in the table it has one place, or still has to be
queued; and the blocked queue is those who wait for a semaphore or the disk, at any step.
-/

namespace Ribabari.LifecyclePlaces

open Ribabari.ProcessRecords Ribabari.SemaphoreTable Ribabari.SegmentMemory
open Ribabari.KernelState Ribabari.Dispatch Ribabari.DiskAndFiles Ribabari.KernelEvents
open Ribabari.QueueBoard Ribabari.BoardInvariants Ribabari.QueueRefinement
open Ribabari.Placement Ribabari.ProgramLedger Ribabari.LifecycleThreads Ribabari.SegmentOwners
open Ribabari.TransitionSystem

set_option autoImplicit false

/-! ## The board between the steps -/

def Board.withTable (board : Board) (procTable : List ProcId) : Board :=
  { board with procTable := procTable }

/-- An event that neither creates nor finishes a process does the same under every table. -/
theorem step_with_table {board after : Board} {event : BoardEvent}
    (enrols : ∀ names high, event ≠ .create names high) (drops : event ≠ .finish)
    (fired : boardStep board event = some after) (procTable : List ProcId) :
    boardStep (Board.withTable board procTable) event =
      some (Board.withTable after procTable) := by
  have scheduled : ∀ event, (∀ proc, (Board.withTable board procTable).runProcess proc event =
        (board.runProcess proc event).map fun after => Board.withTable after procTable) →
      board.queues.scheduledProc.bind (fun proc => board.runProcess proc event) = some after →
      (Board.withTable board procTable).queues.scheduledProc.bind
        (fun proc => (Board.withTable board procTable).runProcess proc event) =
          some (Board.withTable after procTable) := by
    intro event same fired
    obtain ⟨proc, running, step⟩ := Option.bind_eq_some_iff.mp fired
    apply Option.bind_eq_some_iff.mpr
    exact ⟨proc, running, by rw [same, step, Option.map_some]⟩
  cases event with
  | create names high => exact absurd rfl (enrols names high)
  | finish => exact absurd rfl drops
  | idle =>
      obtain ⟨quiet, rfl⟩ := idle_inv fired
      exact if_pos quiet
  | tick track =>
      obtain rfl := Option.some.inj fired
      rfl
  | run | quantum | print => exact scheduled _ (fun _ => rfl) fired
  | requestDisk request =>
      apply scheduled _ _ fired
      intro proc
      simp only [Board.runProcess]
      split
      · rfl
      · rfl
  | acquire name =>
      apply scheduled _ _ fired
      intro proc
      simp only [Board.runProcess, Option.map_map]
      rfl
  | release name =>
      apply scheduled _ _ fired
      intro proc
      simp only [Board.runProcess, Option.map_bind]
      congr 1
      funext sem
      simp only [Function.comp_apply, Board.release, Option.map_map]
      rfl

/-! ## Where a process can be -/

/-- The process that is being finished. -/
def dying : CpuWork → List ProcId
  | .running => []
  | .interrupting proc | .closing proc _ | .leaving proc => [proc]

/-- It keeps its place until it is interrupted. -/
def interrupted : CpuWork → List ProcId
  | .interrupting proc => [proc]
  | .running | .closing _ _ | .leaving _ => []

def known (state : Lifecycle) : List ProcId :=
  state.kernel.procTable ++ dying state.cpu ++ state.loaded ++ state.parsed.map Creation.proc

structure Settled (state : Lifecycle) : Prop where
  placed : (Queues.places state.kernel.scheduler ++ state.listed).Perm
    (state.kernel.procTable ++ interrupted state.cpu)
  blocked : state.kernel.scheduler.blockedQueue.Perm (sleepers state.kernel)
  distinct : (known state).Nodup
  numbered : ∀ proc ∈ known state, proc < state.kernel.nextProcId
  running : ∀ proc, state.cpu = .interrupting proc →
    state.kernel.scheduler.scheduledProc = some proc

variable {state after : Lifecycle} {proc : ProcId}

theorem start_settled : Settled lifecycleSystem.start where
  placed := .refl _
  blocked := .refl _
  distinct := List.nodup_nil
  numbered := fun _ member => nomatch member
  running := fun _ same => CpuWork.noConfusion same

/-- The process table is apart from both hands. -/
theorem table_apart (settled : Settled state) :
    state.kernel.procTable.Nodup ∧ ∀ proc ∈ state.kernel.procTable,
      proc ∉ dying state.cpu ++ (state.loaded ++ state.parsed.map Creation.proc) := by
  have distinct := settled.distinct
  rw [known, List.append_assoc, List.append_assoc] at distinct
  obtain ⟨table, -, apart⟩ := List.nodup_append.mp distinct
  exact ⟨table, fun proc listed hand => apart proc listed proc hand rfl⟩

/-- A step that the queues do not see, and that brings in nobody. -/
theorem settled_frame (settled : Settled state)
    (board : boardOf after.kernel = boardOf state.kernel)
    (listed : after.listed = state.listed)
    (interrupts : interrupted after.cpu = interrupted state.cpu)
    (distinct : (known after).Nodup) (subset : known after ⊆ known state) : Settled after := by
  simp only [boardOf, Board.mk.injEq] at board
  obtain ⟨table, next, queues, semaphores, pending⟩ := board
  exact
    { placed := by
        rw [queues, listed, table, interrupts]
        exact settled.placed
      blocked := by
        rw [queues, sleepers, semaphores, pending]
        exact settled.blocked
      distinct := distinct
      numbered := by
        intro proc member
        rw [next]
        exact settled.numbered proc (subset member)
      running := by
        intro proc interrupting
        have same : interrupted state.cpu = [proc] := by rw [← interrupts, interrupting]; rfl
        rw [queues]
        cases work : state.cpu with
        | interrupting other =>
            rw [work] at same
            rw [settled.running other work, List.singleton_inj.mp same]
        | running | closing | leaving =>
            rw [work] at same
            exact absurd same.symm (List.cons_ne_nil _ _) }

/-! ## Creations -/

theorem parse_settled (settled : Settled state) (program : Program) :
    Settled (state.parse program) := by
  have grown : known (state.parse program) = known state ++ [state.kernel.nextProcId] := by
    simp only [known, Lifecycle.parse, registerProgram, List.map_append, List.map_cons,
      List.map_nil, List.append_assoc]
  exact
    { placed := settled.placed
      blocked := by
        change state.kernel.scheduler.blockedQueue.Perm
          ((program.semaphores.foldl semaphoreRegister state.kernel.semTable).flatMap
            Semaphore.waiters ++ _)
        rw [register_waiters]
        exact settled.blocked
      distinct := by
        rw [grown]
        apply List.nodup_append.mpr
        refine ⟨settled.distinct, List.nodup_singleton _, ?_⟩
        intro proc member new isNew
        rw [List.mem_singleton.mp isNew]
        exact Nat.ne_of_lt (settled.numbered proc member)
      numbered := by
        rw [grown]
        intro proc member
        rcases List.mem_append.mp member with old | new
        · exact Nat.lt_succ_of_lt (settled.numbered proc old)
        · rw [List.mem_singleton.mp new]
          exact Nat.lt_succ_self _
      running := settled.running }

theorem load_known {creation : Creation} (fresh : Nat → Page) (member : creation ∈ state.parsed) :
    (known (state.load creation fresh)).Perm (known state) := by
  have moved := (List.perm_cons_erase member).map Creation.proc
  change (state.kernel.procTable ++ dying state.cpu ++ (state.loaded ++ [creation.proc]) ++
    (state.parsed.erase creation).map Creation.proc).Perm _
  rw [known, ← List.append_assoc, List.append_assoc _ [creation.proc]]
  exact moved.symm.append_left _

theorem load_settled (settled : Settled state) {creation : Creation} (fresh : Nat → Page)
    (member : creation ∈ state.parsed) : Settled (state.load creation fresh) := by
  have moved := load_known fresh member
  exact settled_frame settled rfl rfl rfl (moved.nodup_iff.mpr settled.distinct) moved.subset

theorem list_settled (settled : Settled state) (member : proc ∈ state.loaded) :
    Settled (state.list proc) := by
  have moved : (known (state.list proc)).Perm (known state) := by
    apply List.perm_iff_count.mpr
    intro other
    have split := (List.perm_cons_erase member).count_eq other
    rw [List.count_cons] at split
    simp only [known, Lifecycle.list, List.count_append, List.count_singleton, split]
    omega
  exact
    { placed := by
        change (Queues.places state.kernel.scheduler ++ (state.listed ++ [proc])).Perm
          (state.kernel.procTable ++ [proc] ++ interrupted state.cpu)
        rw [← List.append_assoc, List.append_assoc state.kernel.procTable]
        have same := settled.placed.append_right [proc]
        rw [List.append_assoc state.kernel.procTable] at same
        exact same.trans (List.perm_append_comm.append_left _)
      blocked := settled.blocked
      distinct := moved.nodup_iff.mpr settled.distinct
      numbered := fun other known => settled.numbered other (moved.subset known)
      running := settled.running }

theorem queue_settled (settled : Settled state) (member : proc ∈ state.listed) :
    Settled (state.queue proc) := by
  obtain ⟨queues, table⟩ := queue_places state.kernel proc
  have rest : sleepers (queueProcess state.kernel proc) = sleepers state.kernel ∧
      (queueProcess state.kernel proc).nextProcId = state.kernel.nextProcId := by
    unfold queueProcess
    split
    · exact ⟨rfl, rfl⟩
    · exact ⟨rfl, rfl⟩
  have same : known (state.queue proc) = known state := by
    simp only [known, Lifecycle.queue, table]
  exact
    { placed := by
        change (Queues.places (queueProcess state.kernel proc).scheduler ++
          state.listed.erase proc).Perm ((queueProcess state.kernel proc).procTable ++ _)
        rw [queues, table]
        have places := places_enroll state.kernel.scheduler proc
          ((state.kernel.procs proc).priority = 1)
        have moved := (places.append_right (state.listed.erase proc)).trans
          (by rw [List.append_assoc, List.singleton_append])
        have whole := (List.perm_cons_erase member).symm.append_left
          (Queues.places state.kernel.scheduler)
        exact (moved.trans whole).trans settled.placed
      blocked := by
        change (queueProcess state.kernel proc).scheduler.blockedQueue.Perm
          (sleepers (queueProcess state.kernel proc))
        rw [queues, enroll_blocked, rest.1]
        exact settled.blocked
      distinct := same ▸ settled.distinct
      numbered := by
        rw [same]
        intro other member
        exact Nat.lt_of_lt_of_eq (settled.numbered other member) rest.2.symm
      running := by
        intro other interrupting
        change (queueProcess state.kernel proc).scheduler.scheduledProc = some other
        rw [queues, enroll_scheduled]
        exact settled.running other interrupting }

/-! ## The cpu and the disk -/

theorem inner_event {kernel : Kernel} {event : KernelEvent}
    (enrols : ∀ program fresh, event ≠ .processCreate program fresh)
    (drops : event ≠ .processFinish) :
    (∀ names high, boardEvent kernel event ≠ .create names high) ∧
      boardEvent kernel event ≠ .finish := by
  cases event with
  | processCreate program fresh => exact absurd rfl (enrols program fresh)
  | processFinish => exact absurd rfl drops
  | idleDispatch | quantumCompleted | diskTick =>
      exact ⟨fun _ _ => BoardEvent.noConfusion, BoardEvent.noConfusion⟩
  | execute instr =>
      rcases instr with ⟨op, value, name⟩
      cases op <;> simp [boardEvent, instrEvent]

theorem inner_next {kernel after : Kernel} {event : KernelEvent}
    (step : kernelStep kernel event = some after)
    (enrols : ∀ program fresh, event ≠ .processCreate program fresh)
    (drops : event ≠ .processFinish) : after.nextProcId = kernel.nextProcId := by
  cases event with
  | processCreate program fresh => exact absurd rfl (enrols program fresh)
  | processFinish => exact absurd rfl drops
  | idleDispatch | quantumCompleted | diskTick => exact (spared_code step rfl).next
  | execute instr =>
      obtain ⟨proc, -, code⟩ := execute_code step
      exact code.next

theorem interrupted_dying (work : CpuWork) : (interrupted work).Sublist (dying work) := by
  cases work with
  | running => exact .refl _
  | interrupting proc => exact .refl _
  | closing proc files => exact List.nil_sublist _
  | leaving proc => exact List.nil_sublist _

/-- Whoever has a place is known, and has no other. -/
theorem places_known (settled : Settled state) :
    (Queues.places state.kernel.scheduler).Nodup ∧
      Queues.places state.kernel.scheduler ⊆ known state := by
  have within : (state.kernel.procTable ++ interrupted state.cpu).Sublist (known state) := by
    have dies := (interrupted_dying state.cpu).append_left state.kernel.procTable
    have rest := List.sublist_append_left
      (state.kernel.procTable ++ dying state.cpu) (state.loaded ++ state.parsed.map Creation.proc)
    rw [← List.append_assoc] at rest
    exact dies.trans rest
  have once := settled.placed.nodup_iff.mpr (settled.distinct.sublist within)
  refine ⟨(List.nodup_append.mp once).1, ?_⟩
  intro proc placed
  exact within.subset (settled.placed.subset (List.mem_append_left _ placed))

theorem board_accounted (settled : Settled state) :
    Accounted (Board.withTable (boardOf state.kernel) (Queues.places state.kernel.scheduler)) where
  distinct := (places_known settled).1
  numbered := fun proc placed => settled.numbered proc ((places_known settled).2 placed)
  placed := .refl _
  blocked := settled.blocked

theorem kernel_settled (settled : Settled state) {event : KernelEvent}
    (fired : state.fireKernel event = some after) : Settled after := by
  obtain ⟨⟨kernel, step, rfl⟩, enrols, drops, cpu⟩ := kernel_inv fired
  obtain ⟨places, table⟩ := inner_places step enrols drops
  have ⟨noCreate, noFinish⟩ : (∀ names high, boardEvent state.kernel event ≠ .create names high) ∧
      boardEvent state.kernel event ≠ .finish := inner_event enrols drops
  have next := inner_next step enrols drops
  have same : known { state with kernel := kernel } = known state := by
    simp only [known, table]
  exact
    { placed := by
        dsimp only
        rw [table]
        exact (places.append_right _).trans settled.placed
      blocked := by
        have moved := step_with_table noCreate noFinish (kernel_step_board step)
          (Queues.places state.kernel.scheduler)
        exact (step_accounted (board_accounted settled) moved).blocked
      distinct := same ▸ settled.distinct
      numbered := by
        rw [same]
        intro proc member
        exact Nat.lt_of_lt_of_eq (settled.numbered proc member) next.symm
      running := by
        intro proc interrupting
        rcases cpu with rfl | running
        · obtain rfl := Option.some.inj step
          exact (disk_tick_scheduled _).trans (settled.running proc interrupting)
        · exact absurd (running.symm.trans interrupting) CpuWork.noConfusion }

/-! ## Finishes -/

theorem finish_settled (settled : Settled state) (fired : state.finish = some after) :
    Settled after := by
  obtain ⟨proc, running, scheduled, listed, rfl⟩ := unlist_inv fired
  have split := List.perm_cons_erase listed
  have moved : (state.kernel.procTable.erase proc ++ [proc]).Perm state.kernel.procTable :=
    List.perm_append_comm.trans split.symm
  have same : (known { state with
      kernel := { state.kernel with procTable := state.kernel.procTable.erase proc }
      cpu := .interrupting proc }).Perm (known state) := by
    simp only [known, running, dying, List.append_nil]
    exact (moved.append_right _).append_right _
  exact
    { placed := by
        have placed := settled.placed
        rw [running, interrupted, List.append_nil] at placed
        exact placed.trans moved.symm
      blocked := settled.blocked
      distinct := same.nodup_iff.mpr settled.distinct
      numbered := fun other member => settled.numbered other (same.subset member)
      running := by
        intro other interrupting
        obtain rfl := CpuWork.interrupting.inj interrupting
        exact scheduled }

/-- The dispatch takes the finishing process out of its place. -/
theorem interrupt_settled (settled : Settled state) {kernel : Kernel} {files : List Int}
    (interrupting : state.cpu = .interrupting proc)
    (dispatched : interruptCurrent state.kernel proc = some kernel) :
    Settled { state with
      kernel := kernel
      cpu := .closing proc files } := by
  have scheduled := settled.running proc interrupting
  obtain rfl : kernel = scheduleProcess state.kernel .none := by
    simpa [interruptCurrent, scheduled] using dispatched.symm
  have dropped := places_schedule_dropped state.kernel.scheduler scheduled
  have board := schedule_board state.kernel .none
  simp only [boardOf, Board.withQueues, Board.mk.injEq] at board
  obtain ⟨table, next, queues, semaphores, pending⟩ := board
  have same : known { state with
      kernel := scheduleProcess state.kernel .none
      cpu := .closing proc files } = known state := by
    simp only [known, table, interrupting, dying]
  exact
    { placed := by
        dsimp only
        rw [queues, table, interrupted, List.append_nil]
        have placed := settled.placed
        rw [interrupting, interrupted] at placed
        have whole := (dropped.append_right state.listed).trans
          (placed.trans List.perm_append_comm)
        exact (List.perm_cons proc).mp whole
      blocked := by
        dsimp only
        rw [queues, schedule_blocked, if_neg (by decide), List.append_nil, sleepers, semaphores,
          pending]
        exact settled.blocked
      distinct := same ▸ settled.distinct
      numbered := by
        rw [same]
        intro other member
        exact Nat.lt_of_lt_of_eq (settled.numbered other member) next.symm
      running := fun _ same => CpuWork.noConfusion same }

/-- The search that ends the finish finds nothing, whatever was queued meanwhile. -/
theorem leave_nothing (settled : Settled state) (leaving : state.cpu = .leaving proc) :
    boardOf (leaveQueues state.kernel proc) = boardOf state.kernel := by
  have absent : proc ∉ Queues.places state.kernel.scheduler := by
    intro placed
    have listed := settled.placed.subset (List.mem_append_left state.listed placed)
    rw [leaving, interrupted, List.append_nil] at listed
    apply (table_apart settled).2 proc listed
    rw [leaving]
    exact List.mem_cons_self
  rw [leave_queues_board, leave_absent _ absent]
  rfl

theorem resume_settled (settled : Settled state) (fired : state.resume = some after) :
    Settled after := by
  have kept : ∀ (kernel : Kernel) (cpu : CpuWork), boardOf kernel = boardOf state.kernel →
      dying cpu = dying state.cpu → interrupted cpu = interrupted state.cpu →
      Settled { state with
        kernel := kernel
        cpu := cpu } := by
    intro kernel cpu board dies interrupts
    have table : kernel.procTable = state.kernel.procTable := congrArg Board.procTable board
    have same : known { state with
        kernel := kernel
        cpu := cpu } = known state := by simp only [known, table, dies]
    exact settled_frame settled board rfl interrupts (same ▸ settled.distinct)
      (same ▸ List.Subset.refl _)
  rcases resume_inv fired with ⟨proc, kernel, interrupting, dispatched, rfl⟩ |
    ⟨proc, inumber, files, closing, rfl⟩ | ⟨proc, segTable, closing, -, rfl⟩ |
    ⟨proc, leaving, rfl⟩
  · exact interrupt_settled settled interrupting dispatched
  · have board : boardOf (fsCloseRequest state.kernel proc inumber) = boardOf state.kernel :=
      close_files_board state.kernel proc [inumber]
    exact kept _ _ board (by rw [closing]; rfl) (by rw [closing]; rfl)
  · exact kept _ _ rfl (by rw [closing]; rfl) (by rw [closing]; rfl)
  · have board := leave_nothing settled leaving
    have table : (leaveQueues state.kernel proc).procTable = state.kernel.procTable :=
      congrArg Board.procTable board
    have fewer : (known { state with
        kernel := leaveQueues state.kernel proc
        cpu := .running }).Sublist (known state) := by
      simp only [known, leaving, dying, table, List.append_nil]
      exact ((List.sublist_append_left _ _).append_right _).append_right _
    exact settled_frame settled board rfl (by rw [leaving]; rfl) (settled.distinct.sublist fewer)
      fewer.subset

theorem step_settled (settled : Settled state) {event : LifecycleEvent}
    (fired : lifecycleStep state event = some after) : Settled after := by
  cases event with
  | parse program =>
      obtain rfl := Option.some.inj fired
      exact parse_settled settled program
  | load creation fresh =>
      obtain ⟨parsed, rfl⟩ := load_inv fired
      exact load_settled settled fresh parsed
  | list proc =>
      obtain ⟨loaded, rfl⟩ := list_inv fired
      exact list_settled settled loaded
  | queue proc =>
      obtain ⟨listed, rfl⟩ := queue_inv fired
      exact queue_settled settled listed
  | kernel event => exact kernel_settled settled fired
  | finish => exact finish_settled settled fired
  | resume => exact resume_settled settled fired
  | refresh =>
      obtain rfl := Option.some.inj fired
      exact settled

theorem reachable_settled (reached : Reachable lifecycleSystem state) : Settled state :=
  reachable_invariant Settled reached start_settled
    fun _ _ _ _ settled fired => step_settled settled fired

/-- At any step of the threads nobody is in two hands or in two places, nobody in the process
table is without a place unless still to be queued, and whoever is blocked waits for
something. -/
theorem everyone_is_somewhere (reached : Reachable lifecycleSystem state) :
    (known state).Nodup ∧
      (Queues.places state.kernel.scheduler ++ state.listed).Perm
        (state.kernel.procTable ++ interrupted state.cpu) ∧
      state.kernel.scheduler.blockedQueue.Perm (sleepers state.kernel) := by
  have settled := reachable_settled reached
  exact ⟨settled.distinct, settled.placed, settled.blocked⟩

/-- Between the creations and finishes the queues are as if each had been one step. -/
theorem quiet_accounted {kernel : Kernel} (reached : Reachable lifecycleSystem (quiet kernel)) :
    Accounted (boardOf kernel) := by
  have settled := reachable_settled reached
  have same : known (quiet kernel) = kernel.procTable := by simp [known, quiet, dying]
  have placed : (Queues.places kernel.scheduler).Perm kernel.procTable := by
    simpa [quiet, interrupted] using settled.placed
  have distinct := settled.distinct
  have numbered := settled.numbered
  rw [same] at distinct numbered
  exact
    { distinct := distinct
      numbered := numbered
      placed := placed
      blocked := settled.blocked }

/-- A second process is loaded while the first one is being finished. -/
def overlappingEvents : List LifecycleEvent :=
  let creation : Creation := ⟨2, { onceProgram with segId := 2 }⟩
  executedEvents ++
    [.finish, .parse creation.program, .resume, .load creation blankPage, .resume, .list 2]

def overlapping : Lifecycle :=
  (run lifecycleSystem overlappingEvents lifecycleSystem.start).getD lifecycleSystem.start

theorem everyone_is_somewhere_overlapping :
    overlapping.cpu = .leaving 1 ∧ overlapping.listed = [2] ∧
      (Queues.places overlapping.kernel.scheduler ++ overlapping.listed).Perm
        (overlapping.kernel.procTable ++ interrupted overlapping.cpu) := by
  have reached : Reachable lifecycleSystem overlapping := reachable_run overlappingEvents rfl
  exact ⟨by decide, by decide, (everyone_is_somewhere reached).2.1⟩

end Ribabari.LifecyclePlaces

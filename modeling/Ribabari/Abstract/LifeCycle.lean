import Ribabari.Abstract.BoardInvariants

/-!
# The life of a process

A process is created into one of the ready queues, is dispatched, and leaves the CPU
because its quantum is over, because it blocks, or because it is finished. A blocked one is
woken into one of the ready queues. An event moves several processes at once; the moves of
one process, in the order of the run, are a path through these states.
-/

namespace Ribabari.LifeCycle

open Ribabari.ProcessRecords Ribabari.SemaphoreTable Ribabari.KernelState Ribabari.Dispatch
open Ribabari.QueueBoard Ribabari.BoardInvariants Ribabari.TransitionSystem

set_option autoImplicit false

inductive Life where
  | unborn
  | ready (queue : SchedulerQueueFlag)
  | running
  | blocked
  | gone
  deriving DecidableEq, Repr

inductive Move where
  | create (queue : SchedulerQueueFlag)
  | dispatch
  | preempt
  | block
  | wake (queue : SchedulerQueueFlag)
  | finish
  deriving DecidableEq, Repr

def lifeStep : Life → Move → Option Life
  | .unborn, .create queue => some (.ready queue)
  | .ready _, .dispatch => some .running
  | .running, .preempt => some (.ready .highQueue)
  | .running, .block => some .blocked
  | .running, .finish => some .gone
  | .blocked, .wake queue => some (.ready queue)
  | _, _ => none

def lifeSystem : System Life Move where
  start := .unborn
  step := lifeStep

/-! ## Where a process is -/

def lifeIn (queues : Scheduler) (outside : Life) (proc : ProcId) : Life :=
  if queues.scheduledProc = some proc then .running
  else if proc ∈ queues.highQueue then .ready .highQueue
  else if proc ∈ queues.lowQueue then .ready .lowQueue
  else if proc ∈ queues.blockedQueue then .blocked
  else outside

def lifeOf (board : Board) (proc : ProcId) : Life :=
  lifeIn board.queues (if board.nextProcId ≤ proc then .unborn else .gone) proc

inductive Lives (queues : Scheduler) (proc : ProcId) : Life → Prop where
  | running (scheduled : queues.scheduledProc = some proc) : Lives queues proc .running
  | high (member : proc ∈ queues.highQueue) : Lives queues proc (.ready .highQueue)
  | low (member : proc ∈ queues.lowQueue) : Lives queues proc (.ready .lowQueue)
  | blocked (member : proc ∈ queues.blockedQueue) : Lives queues proc .blocked

/-! ## What an event moves -/

/-- How `schedule_process` moves the process that it takes off the CPU. -/
def parkMove : SchedulerFlag → Move
  | .none => .finish
  | .quantumCompleted => .preempt
  | .ioRequested => .block
  | .semaphoreBlocked => .block

def scheduleMoves (queues : Scheduler) (flag : SchedulerFlag) : List (ProcId × Move) :=
  queues.scheduledProc.toList.map (fun proc => (proc, parkMove flag)) ++
    (Queues.next queues).toList.map fun proc => (proc, .dispatch)

def boardMoves (board : Board) : BoardEvent → List (ProcId × Move)
  | .create _ high => [(board.nextProcId, .create (if high then .highQueue else .lowQueue))]
  | .idle => scheduleMoves board.queues .none
  | .run => []
  | .acquire name =>
      if (semaphoreFind board.semTable name).any fun sem => sem.S - 1 < 0 then
        scheduleMoves board.queues .semaphoreBlocked
      else []
  | .release name =>
      (semaphoreFind board.semTable name).elim [] fun sem =>
        if sem.S + 1 ≤ 0 then (sem.waiters.take 1).map fun woken => (woken, .wake .highQueue)
        else []
  | .requestDisk _ => scheduleMoves board.queues .ioRequested
  | .print => scheduleMoves board.queues .ioRequested ++
      board.queues.scheduledProc.toList.map fun proc => (proc, .wake .lowQueue)
  | .quantum => scheduleMoves board.queues .quantumCompleted
  | .finish => scheduleMoves board.queues .none
  | .tick track => (board.pending.filter fun request => request.track = track).map fun request =>
      (request.process, .wake .lowQueue)

/-- The moves of one process. -/
def movesOf (proc : ProcId) (moves : List (ProcId × Move)) : List Move :=
  (moves.filter fun move => move.1 = proc).map Prod.snd

theorem moves_of_append (proc : ProcId) (first second : List (ProcId × Move)) :
    movesOf proc (first ++ second) = movesOf proc first ++ movesOf proc second := by
  rw [movesOf, List.filter_append, List.map_append]
  rfl

/-- One process moved, in one way. -/
theorem moves_of_option (proc : ProcId) (mover : Option ProcId) (move : Move) :
    movesOf proc (mover.toList.map fun other => (other, move)) =
      if mover = some proc then [move] else [] := by
  cases mover with
  | none => rfl
  | some other =>
      by_cases same : other = proc
      · simp [movesOf, same]
      · simp [movesOf, same]

section Queues

variable {queues : Scheduler} {proc : ProcId} {life : Life}

theorem lives_placed (lives : Lives queues proc life) : proc ∈ Queues.places queues := by
  unfold Queues.places
  cases lives with
  | running scheduled => simp [scheduled]
  | high member => simp [member]
  | low member => simp [member]
  | blocked member => simp [member]

theorem placed_lives (placed : proc ∈ Queues.places queues) : ∃ life, Lives queues proc life := by
  simp only [Queues.places, List.mem_append, Option.mem_toList] at placed
  rcases placed with ((scheduled | high) | low) | blocked
  · exact ⟨_, .running scheduled⟩
  · exact ⟨_, .high high⟩
  · exact ⟨_, .low low⟩
  · exact ⟨_, .blocked blocked⟩

/-- A process has one place only. -/
theorem lives_unique (distinct : (Queues.places queues).Nodup) {other : Life}
    (first : Lives queues proc life) (second : Lives queues proc other) : life = other := by
  simp only [Queues.places, List.nodup_append, List.mem_append,
    Option.mem_toList] at distinct
  cases first <;> cases second <;> grind

theorem life_in_eq (distinct : (Queues.places queues).Nodup) (outside : Life)
    (lives : Lives queues proc life) : lifeIn queues outside proc = life := by
  unfold lifeIn
  split_ifs with scheduled high low blocked
  · exact lives_unique distinct (.running scheduled) lives
  · exact lives_unique distinct (.high high) lives
  · exact lives_unique distinct (.low low) lives
  · exact lives_unique distinct (.blocked blocked) lives
  · cases lives with
    | running member => exact absurd member scheduled
    | high member => exact absurd member high
    | low member => exact absurd member low
    | blocked member => exact absurd member blocked

theorem life_in_outside (outside : Life) (absent : proc ∉ Queues.places queues) :
    lifeIn queues outside proc = outside := by
  unfold lifeIn
  split_ifs with scheduled high low blocked
  · exact absurd (lives_placed (.running scheduled)) absent
  · exact absurd (lives_placed (.high high)) absent
  · exact absurd (lives_placed (.low low)) absent
  · exact absurd (lives_placed (.blocked blocked)) absent
  · rfl

/-! ## The queues -/

theorem next_lives (next : Queues.next queues = some proc) :
    ∃ queue, Lives queues proc (.ready queue) := by
  unfold Queues.next at next
  cases high : queues.highQueue with
  | cons head rest =>
      rw [high] at next
      obtain rfl := Option.some.inj next
      exact ⟨.highQueue, .high (by rw [high]; exact List.mem_cons_self)⟩
  | nil =>
      rw [high] at next
      exact ⟨.lowQueue, .low (List.mem_of_mem_head? next)⟩

/-- What `schedule_process` does not take off the CPU and does not dispatch stays. -/
theorem schedule_stays (flag : SchedulerFlag) (off : queues.scheduledProc ≠ some proc)
    (waits : Queues.next queues ≠ some proc) (lives : Lives queues proc life) :
    Lives (Queues.schedule queues flag) proc life := by
  have popped : (proc ∈ queues.highQueue → proc ∈ (Queues.pop queues).highQueue) ∧
      (proc ∈ queues.lowQueue → proc ∈ (Queues.pop queues).lowQueue) ∧
      (Queues.pop queues).blockedQueue = queues.blockedQueue := by
    unfold Queues.pop
    unfold Queues.next at waits
    cases high : queues.highQueue with
    | cons head rest =>
        rw [high] at waits
        have other : proc ≠ head := fun same => waits (congrArg some same.symm)
        simp [other]
    | nil =>
        rw [high] at waits
        cases low : queues.lowQueue with
        | nil => simp
        | cons head rest =>
            rw [low] at waits
            have other : proc ≠ head := fun same => waits (congrArg some same.symm)
            simp [other]
  obtain ⟨keepsHigh, keepsLow, keepsBlocked⟩ := popped
  cases lives with
  | running scheduled => exact absurd scheduled off
  | high member =>
      apply Lives.high
      cases flag <;> simp [Queues.schedule, Queues.park, keepsHigh member]
  | low member =>
      apply Lives.low
      cases flag <;> simp [Queues.schedule, Queues.park, keepsLow member]
  | blocked member =>
      apply Lives.blocked
      cases flag <;> simp [Queues.schedule, Queues.park, keepsBlocked, member]

theorem schedule_parks {flag : SchedulerFlag} (scheduled : queues.scheduledProc = some proc)
    (parked : flag ≠ .none) : ∃ after, lifeStep .running (parkMove flag) = some after ∧
      Lives (Queues.schedule queues flag) proc after := by
  cases flag with
  | none => exact absurd rfl parked
  | quantumCompleted =>
      exact ⟨_, rfl, .high (by simp [Queues.schedule, Queues.park, scheduled])⟩
  | ioRequested | semaphoreBlocked =>
      exact ⟨_, rfl, .blocked (by simp [Queues.schedule, Queues.park, scheduled])⟩

theorem schedule_placed {flag : SchedulerFlag} (distinct : (Queues.places queues).Nodup)
    (placed : proc ∈ Queues.places (Queues.schedule queues flag)) :
    proc ∈ Queues.places queues ∧ (flag = .none → queues.scheduledProc ≠ some proc) := by
  by_cases parked : flag ≠ .none ∨ queues.scheduledProc = none
  · have perm := places_schedule queues parked
    constructor
    · exact perm.subset placed
    · rintro rfl
      rcases parked with other | idle
      · exact absurd rfl other
      · rw [idle]
        exact (Option.some_ne_none proc).symm
  · push Not at parked
    obtain ⟨rfl, busy⟩ := parked
    obtain ⟨running, scheduled⟩ := Option.ne_none_iff_exists'.mp busy
    have perm := places_schedule_dropped queues scheduled
    constructor
    · exact perm.subset (List.mem_cons_of_mem _ placed)
    · intro _ same
      have own := Option.some.inj (scheduled.symm.trans same)
      have once := perm.nodup_iff.mpr distinct
      rw [own] at once
      exact (List.nodup_cons.mp once).1 placed

/-- The moves of `schedule_process`. A process that nothing parks must be gone. -/
theorem schedule_life (distinct : (Queues.places queues).Nodup) (flag : SchedulerFlag)
    {outside : Life} (drops : flag = .none → queues.scheduledProc = some proc → outside = .gone) :
    run lifeSystem (movesOf proc (scheduleMoves queues flag)) (lifeIn queues outside proc) =
      some (lifeIn (Queues.schedule queues flag) outside proc) := by
  have after : (Queues.places (Queues.schedule queues flag)).Nodup := by
    by_cases parked : flag ≠ .none ∨ queues.scheduledProc = none
    · exact (places_schedule queues parked).nodup_iff.mpr distinct
    · push Not at parked
      obtain ⟨rfl, busy⟩ := parked
      obtain ⟨running, scheduled⟩ := Option.ne_none_iff_exists'.mp busy
      have perm := places_schedule_dropped queues scheduled
      exact (List.nodup_cons.mp (perm.nodup_iff.mpr distinct)).2
  rw [scheduleMoves, moves_of_append, moves_of_option, moves_of_option]
  by_cases scheduled : queues.scheduledProc = some proc
  · have waits : Queues.next queues ≠ some proc := by
      intro next
      obtain ⟨queue, ready⟩ := next_lives next
      exact nomatch lives_unique distinct (.running scheduled) ready
    rw [if_pos scheduled, if_neg waits, life_in_eq distinct outside (.running scheduled)]
    change run lifeSystem [parkMove flag] .running = _
    rw [run_single]
    by_cases none : flag = .none
    · have absent : proc ∉ Queues.places (Queues.schedule queues flag) := fun placed =>
        (schedule_placed distinct placed).2 none scheduled
      rw [life_in_outside outside absent, drops none scheduled, none]
      rfl
    · obtain ⟨life, parked, lives⟩ := schedule_parks scheduled none
      rw [life_in_eq after outside lives]
      exact parked
  · rw [if_neg scheduled, List.nil_append]
    by_cases next : Queues.next queues = some proc
    · obtain ⟨queue, ready⟩ := next_lives next
      rw [if_pos next, life_in_eq distinct outside ready,
        life_in_eq after outside (.running next)]
      rfl
    · rw [if_neg next]
      by_cases placed : proc ∈ Queues.places queues
      · obtain ⟨life, lives⟩ := placed_lives placed
        rw [life_in_eq distinct outside lives,
          life_in_eq after outside (schedule_stays flag scheduled next lives)]
        rfl
      · have absent : proc ∉ Queues.places (Queues.schedule queues flag) := fun member =>
          placed (schedule_placed distinct member).1
        rw [life_in_outside outside placed, life_in_outside outside absent]
        rfl

/-- `schedule_unblock_process` wakes a blocked process. -/
theorem unblock_life (proc : ProcId) (distinct : (Queues.places queues).Nodup) (outside : Life)
    (queue : SchedulerQueueFlag) {woken : ProcId} (blocked : woken ∈ queues.blockedQueue) :
    run lifeSystem (movesOf proc [(woken, .wake queue)]) (lifeIn queues outside proc) =
      some (lifeIn (Queues.unblock queue woken queues) outside proc) := by
  have perm := places_unblock queues queue woken
  have after := perm.nodup_iff.mpr distinct
  by_cases own : woken = proc
  · subst own
    have lives : Lives (Queues.unblock queue woken queues) woken (.ready queue) := by
      unfold Queues.unblock
      rw [if_pos blocked]
      cases queue with
      | highQueue => exact .high (List.mem_append_right _ List.mem_cons_self)
      | lowQueue => exact .low (List.mem_append_right _ List.mem_cons_self)
    rw [life_in_eq distinct outside (.blocked blocked), life_in_eq after outside lives]
    simp [movesOf, run, lifeSystem, lifeStep]
  · have none : movesOf proc [(woken, Move.wake queue)] = [] := by simp [movesOf, own]
    rw [none]
    by_cases placed : proc ∈ Queues.places queues
    · obtain ⟨life, lives⟩ := placed_lives placed
      have stays : Lives (Queues.unblock queue woken queues) proc life := by
        have other : proc ≠ woken := fun same => own same.symm
        unfold Queues.unblock
        rw [if_pos blocked]
        cases lives with
        | running scheduled => cases queue <;> exact .running scheduled
        | high member =>
            cases queue with
            | highQueue => exact .high (List.mem_append_left _ member)
            | lowQueue => exact .high member
        | low member =>
            cases queue with
            | highQueue => exact .low member
            | lowQueue => exact .low (List.mem_append_left _ member)
        | blocked member =>
            have left := (List.mem_erase_of_ne other).mpr member
            cases queue <;> exact .blocked left
      rw [life_in_eq distinct outside lives, life_in_eq after outside stays]
      rfl
    · rw [life_in_outside outside placed,
        life_in_outside outside fun member => placed (perm.subset member)]
      rfl

/-- A pass of the disk wakes one process after the other. -/
theorem wake_all_life (proc : ProcId) (distinct : (Queues.places queues).Nodup) (outside : Life)
    {woken : List ProcId} (once : woken.Nodup) (blocked : ∀ other ∈ woken,
      other ∈ queues.blockedQueue) :
    run lifeSystem (movesOf proc (woken.map fun other => (other, .wake .lowQueue)))
        (lifeIn queues outside proc) =
      some (lifeIn (woken.foldl (fun queues other => Queues.unblock .lowQueue other queues) queues)
        outside proc) := by
  induction woken generalizing queues with
  | nil => rfl
  | cons head woken ih =>
      obtain ⟨fresh, rest⟩ := List.nodup_cons.mp once
      have first := unblock_life proc distinct outside .lowQueue
        (blocked head List.mem_cons_self)
      have still : ∀ other ∈ woken,
          other ∈ (Queues.unblock .lowQueue head queues).blockedQueue := by
        intro other member
        rw [unblock_blocked]
        apply (List.mem_erase_of_ne _).mpr (blocked other (List.mem_cons_of_mem _ member))
        rintro rfl
        exact fresh member
      have places := (places_unblock queues .lowQueue head).nodup_iff.mpr distinct
      rw [List.map_cons, List.foldl_cons, ← List.singleton_append, moves_of_append, run_append,
        first, Option.bind_some]
      exact ih places rest still

/-- A process that has no place is put into a ready queue. -/
theorem enroll_life {new : ProcId} (distinct : (Queues.places queues).Nodup)
    (fresh : new ∉ Queues.places queues) (high : Bool) (outside : Life) :
    lifeIn (Queues.enroll queues new high) outside proc =
      if proc = new then .ready (if high then .highQueue else .lowQueue)
      else lifeIn queues outside proc := by
  have perm := places_enroll queues new high
  have after : (Queues.places (Queues.enroll queues new high)).Nodup := by
    apply perm.nodup_iff.mpr
    apply distinct.append (List.nodup_singleton new)
    exact List.disjoint_singleton.mpr fresh
  by_cases own : proc = new
  · rw [if_pos own, own]
    apply life_in_eq after
    unfold Queues.enroll
    cases high with
    | true => exact .high (List.mem_append_right _ List.mem_cons_self)
    | false => exact .low (List.mem_append_right _ List.mem_cons_self)
  · rw [if_neg own]
    by_cases placed : proc ∈ Queues.places queues
    · obtain ⟨life, lives⟩ := placed_lives placed
      rw [life_in_eq distinct outside lives]
      apply life_in_eq after
      unfold Queues.enroll
      cases high with
      | true =>
          cases lives with
          | running scheduled => exact .running scheduled
          | high member => exact .high (List.mem_append_left _ member)
          | low member => exact .low member
          | blocked member => exact .blocked member
      | false =>
          cases lives with
          | running scheduled => exact .running scheduled
          | high member => exact .high member
          | low member => exact .low (List.mem_append_left _ member)
          | blocked member => exact .blocked member
    · rw [life_in_outside outside placed]
      apply life_in_outside
      intro member
      rcases List.mem_append.mp (perm.subset member) with old | same
      · exact placed old
      · exact own (List.mem_singleton.mp same)

end Queues

/-! ## The board -/

section Steps

variable {board after : Board} {proc : ProcId}

/-- Who has a place has a number that has been given away. -/
theorem placed_numbered (accounted : Accounted board)
    (placed : proc ∈ Queues.places board.queues) : ¬board.nextProcId ≤ proc :=
  Nat.not_le_of_lt (accounted.numbered proc (accounted.placed.subset placed))

theorem schedule_board_life (accounted : Accounted board) (flag : SchedulerFlag) :
    run lifeSystem (movesOf proc (scheduleMoves board.queues flag)) (lifeOf board proc) =
      some (lifeIn (Queues.schedule board.queues flag)
        (if board.nextProcId ≤ proc then .unborn else .gone) proc) := by
  apply schedule_life accounted.places_nodup
  intro _ scheduled
  exact if_neg (placed_numbered accounted (lives_placed (.running scheduled)))

theorem print_life (accounted : Accounted board) {printer : ProcId}
    (running : board.queues.scheduledProc = some printer) :
    run lifeSystem (movesOf proc (boardMoves board .print)) (lifeOf board proc) =
      some (lifeIn (Queues.unblock .lowQueue printer (Queues.schedule board.queues .ioRequested))
        (if board.nextProcId ≤ proc then .unborn else .gone) proc) := by
  have parked : SchedulerFlag.ioRequested ≠ .none ∨ board.queues.scheduledProc = none :=
    .inl (by decide)
  have distinct := (places_schedule board.queues parked).nodup_iff.mpr accounted.places_nodup
  have blocked : printer ∈ (Queues.schedule board.queues .ioRequested).blockedQueue := by
    rw [schedule_blocked, running]
    simp
  rw [boardMoves, moves_of_append, run_append, schedule_board_life accounted, Option.bind_some,
    running]
  exact unblock_life _ distinct _ .lowQueue blocked

theorem acquire_life (accounted : Accounted board) {name : CString} {sem : Semaphore}
    (found : semaphoreFind board.semTable name = some sem) (taker : ProcId) :
    run lifeSystem (movesOf proc (boardMoves board (.acquire name))) (lifeOf board proc) =
      some (lifeOf (board.acquire taker sem) proc) := by
  rw [boardMoves, found, Option.any_some]
  by_cases short : sem.S - 1 < 0
  · rw [if_pos (decide_eq_true short), schedule_board_life accounted]
    simp [lifeOf, Board.acquire, semaphoreP, short]
  · rw [if_neg (by simpa using short)]
    simp [lifeOf, Board.acquire, semaphoreP, short, movesOf, run]

theorem release_life (accounted : Accounted board) {name : CString} {sem : Semaphore}
    (found : semaphoreFind board.semTable name = some sem)
    (released : board.release sem = some after) :
    run lifeSystem (movesOf proc (boardMoves board (.release name))) (lifeOf board proc) =
      some (lifeOf after proc) := by
  rw [boardMoves, found, Option.elim_some]
  by_cases asleep : sem.S + 1 ≤ 0
  · cases waiters : sem.waiters with
    | nil => simp [Board.release, semaphoreV, asleep, waiters] at released
    | cons woken rest =>
        simp only [Board.release, semaphoreV, asleep, if_true, waiters, Option.map_some,
          Option.some.injEq] at released
        have waits : woken ∈ waiting board := by
          apply List.mem_append_left
          exact List.mem_flatMap.mpr
            ⟨sem, List.mem_of_find?_eq_some found, by rw [waiters]; exact List.mem_cons_self⟩
        rw [if_pos asleep, ← released]
        exact unblock_life _ accounted.places_nodup _ .highQueue
          (accounted.blocked.mem_iff.mpr waits)
  · simp only [Board.release, semaphoreV, asleep, if_false, Option.map_some,
      Option.some.injEq] at released
    rw [if_neg asleep, ← released]
    rfl

theorem tick_life (accounted : Accounted board) (track : Int) :
    run lifeSystem (movesOf proc (boardMoves board (.tick track))) (lifeOf board proc) =
      some (lifeOf (board.tick track) proc) := by
  have part : ((board.pending.filter fun request => request.track = track).map
      DiskRequest.process).Sublist (waiting board) :=
    (List.filter_sublist.map _).trans (List.sublist_append_right _ _)
  have woken := wake_all_life proc accounted.places_nodup
    (if board.nextProcId ≤ proc then .unborn else .gone)
    (part.nodup accounted.waiting_nodup)
    fun other member => accounted.blocked.mem_iff.mpr (part.subset member)
  rw [List.map_map, List.foldl_map] at woken
  exact woken

theorem create_life (accounted : Accounted board) (names : List CString) (high : Bool) :
    run lifeSystem (movesOf proc (boardMoves board (.create names high))) (lifeOf board proc) =
      some (lifeOf (board.create names high) proc) := by
  have fresh : board.nextProcId ∉ Queues.places board.queues := fun placed =>
    placed_numbered accounted placed (Nat.le_refl _)
  rw [boardMoves, lifeOf, lifeOf, Board.create, enroll_life accounted.places_nodup fresh]
  by_cases own : proc = board.nextProcId
  · rw [if_pos own, own, life_in_outside _ fresh, if_pos (Nat.le_refl _)]
    simp [movesOf, run, lifeSystem, lifeStep]
  · have other : ¬board.nextProcId = proc := fun same => own same.symm
    have later : board.nextProcId + 1 ≤ proc ↔ board.nextProcId ≤ proc := by
      rw [Nat.succ_le_iff, Nat.le_iff_lt_or_eq]
      exact ⟨.inl, fun either => either.resolve_right other⟩
    rw [if_neg own]
    simp [movesOf, other, later, run]

theorem run_process_life (accounted : Accounted board) {runner : ProcId}
    (running : board.queues.scheduledProc = some runner) {event : BoardEvent}
    (fired : board.runProcess runner event = some after) :
    run lifeSystem (movesOf proc (boardMoves board event)) (lifeOf board proc) =
      some (lifeOf after proc) := by
  cases event with
  | run =>
      obtain rfl := Option.some.inj fired
      rfl
  | acquire name =>
      obtain ⟨sem, found, rfl⟩ := Option.map_eq_some_iff.mp fired
      exact acquire_life accounted found runner
  | release name =>
      obtain ⟨sem, found, released⟩ := Option.bind_eq_some_iff.mp fired
      exact release_life accounted found released
  | requestDisk request =>
      obtain ⟨-, rfl⟩ := request_inv fired
      exact schedule_board_life accounted .ioRequested
  | print =>
      obtain rfl := Option.some.inj fired
      exact print_life accounted running
  | quantum =>
      obtain rfl := Option.some.inj fired
      exact schedule_board_life accounted .quantumCompleted
  | finish =>
      obtain ⟨-, rfl⟩ := finish_inv fired
      have same := finish_queues accounted running
      rw [lifeOf, lifeOf, same]
      exact schedule_board_life accounted .none
  | create | idle | tick => simp [Board.runProcess] at fired

/-- A step of the board takes every process along its own moves. -/
theorem step_life (accounted : Accounted board) {event : BoardEvent}
    (fired : boardStep board event = some after) :
    run lifeSystem (movesOf proc (boardMoves board event)) (lifeOf board proc) =
      some (lifeOf after proc) := by
  have scheduled : board.queues.scheduledProc.bind
      (fun runner => board.runProcess runner event) = some after →
      run lifeSystem (movesOf proc (boardMoves board event)) (lifeOf board proc) =
        some (lifeOf after proc) := by
    intro ran
    obtain ⟨runner, running, ran⟩ := Option.bind_eq_some_iff.mp ran
    exact run_process_life accounted running ran
  cases event with
  | create names high =>
      obtain rfl := Option.some.inj fired
      exact create_life accounted names high
  | idle =>
      obtain ⟨-, rfl⟩ := idle_inv fired
      exact schedule_board_life accounted .none
  | tick track =>
      obtain rfl := Option.some.inj fired
      exact tick_life accounted track
  | run | acquire | release | requestDisk | print | quantum | finish => exact scheduled fired

end Steps

end Ribabari.LifeCycle

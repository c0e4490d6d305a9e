import Mathlib.Data.List.Perm.Basic
import Mathlib.Data.List.Count
import Ribabari.Abstract.QueueBoard

/-!
# Where the board keeps its processes

Two multisets carry the whole argument. The places of the queues are the process
table, and the blocked queue is what somebody can still wake: the waiters of the
semaphores and the owners of the pending requests. Each event changes both sides
of each equation in the same way.
-/

namespace Ribabari.BoardInvariants

open Ribabari.FirstMatch Ribabari.ProcessRecords Ribabari.SemaphoreTable
open Ribabari.KernelState Ribabari.Dispatch Ribabari.QueueBoard Ribabari.TransitionSystem

set_option autoImplicit false

/-! ## One dispatch -/

variable (queues : Scheduler)

/-- A dispatch that parks the current process moves nobody out of the queues. -/
theorem places_schedule {flag : SchedulerFlag}
    (parked : flag ≠ .none ∨ queues.scheduledProc = none) :
    (Queues.places (Queues.schedule queues flag)).Perm (Queues.places queues) := by
  rcases queues with ⟨curr, high, low, blocked, highQuantum, lowQuantum⟩
  apply List.perm_iff_count.mpr
  intro proc
  cases high <;> cases low <;> cases curr <;> cases flag <;>
    simp [Queues.places, Queues.schedule, Queues.next, Queues.pop, Queues.park,
      List.count_cons] at parked ⊢ <;> omega

/-- A dispatch without a flag drops the process that was running. -/
theorem places_schedule_dropped {proc : ProcId} (running : queues.scheduledProc = some proc) :
    (proc :: Queues.places (Queues.schedule queues .none)).Perm (Queues.places queues) := by
  rcases queues with ⟨curr, high, low, blocked, highQuantum, lowQuantum⟩
  obtain rfl : curr = some proc := running
  apply List.perm_iff_count.mpr
  intro other
  cases high <;> cases low <;>
    simp [Queues.places, Queues.schedule, Queues.next, Queues.pop, Queues.park,
      List.count_cons]

theorem schedule_blocked (flag : SchedulerFlag) :
    (Queues.schedule queues flag).blockedQueue =
      queues.blockedQueue ++
        (if flag = .ioRequested ∨ flag = .semaphoreBlocked then queues.scheduledProc.toList
        else []) := by
  have popped : (Queues.pop queues).blockedQueue = queues.blockedQueue := by
    unfold Queues.pop
    split <;> rfl
  cases flag <;> simp [Queues.schedule, Queues.park, popped]

theorem places_unblock (queue : SchedulerQueueFlag) (proc : ProcId) :
    (Queues.places (Queues.unblock queue proc queues)).Perm (Queues.places queues) := by
  by_cases blocked : proc ∈ queues.blockedQueue
  · apply List.perm_iff_count.mpr
    intro other
    have present := List.count_pos_iff.mpr blocked
    cases queue <;>
      · simp only [Queues.unblock, blocked, if_true, Queues.places, List.count_append,
          List.count_erase, List.count_singleton]
        by_cases same : proc = other
        · subst same
          simp only [beq_self_eq_true, if_true]
          omega
        · simp [same]
  · simp [Queues.unblock, blocked]

theorem unblock_blocked (queue : SchedulerQueueFlag) (proc : ProcId) :
    (Queues.unblock queue proc queues).blockedQueue = queues.blockedQueue.erase proc := by
  unfold Queues.unblock
  split
  · cases queue <;> rfl
  · exact (List.erase_of_not_mem ‹_›).symm

theorem places_enroll (proc : ProcId) (high : Bool) :
    (Queues.places (Queues.enroll queues proc high)).Perm (Queues.places queues ++ [proc]) := by
  apply List.perm_iff_count.mpr
  intro other
  cases high <;> simp [Queues.places, Queues.enroll, List.count_cons, Nat.add_assoc]

@[simp] theorem enroll_blocked (proc : ProcId) (high : Bool) :
    (Queues.enroll queues proc high).blockedQueue = queues.blockedQueue := by
  cases high <;> rfl

@[simp] theorem enroll_scheduled (proc : ProcId) (high : Bool) :
    (Queues.enroll queues proc high).scheduledProc = queues.scheduledProc := by
  cases high <;> rfl

/-- A ready process after an enrolment was ready before or is the new one. -/
theorem enroll_ready {proc other : ProcId} {high : Bool}
    (ready : other ∈ (Queues.enroll queues proc high).highQueue ∨
      other ∈ (Queues.enroll queues proc high).lowQueue) :
    (other ∈ queues.highQueue ∨ other ∈ queues.lowQueue) ∨ other = proc := by
  cases high <;> simp [Queues.enroll] at ready <;> tauto

@[simp] theorem unblock_scheduled (queue : SchedulerQueueFlag) (proc : ProcId) :
    (Queues.unblock queue proc queues).scheduledProc = queues.scheduledProc := by
  unfold Queues.unblock
  split
  · cases queue <;> rfl
  · rfl

/-- The search empties at most one place. -/
theorem places_leave (proc : ProcId) :
    List.Sublist (Queues.places (Queues.leave proc queues)) (Queues.places queues) := by
  unfold Queues.leave Queues.places
  split_ifs
  · apply List.Sublist.append_right
    apply List.Sublist.append_right
    exact List.Sublist.append_left List.erase_sublist _
  · apply List.Sublist.append_right
    exact List.Sublist.append_left List.erase_sublist _
  · exact List.Sublist.append_left List.erase_sublist _
  · exact List.Sublist.refl _

theorem leave_absent {proc : ProcId} (absent : proc ∉ Queues.places queues) :
    Queues.leave proc queues = queues := by
  simp only [Queues.places, List.mem_append, not_or] at absent
  rw [Queues.leave, if_neg absent.1.1.2, if_neg absent.1.2, if_neg absent.2]

/-- Waking a list of distinct blocked processes takes exactly these out of the
blocked queue and appends them to the low queue in their order. -/
theorem unblock_all (woken others : List ProcId)
    (blocked : queues.blockedQueue.Perm (woken ++ others)) :
    let after := woken.foldl (fun queues proc => Queues.unblock .lowQueue proc queues) queues
    after.blockedQueue.Perm others ∧ after.lowQueue = queues.lowQueue ++ woken ∧
      after.highQueue = queues.highQueue := by
  induction woken generalizing queues with
  | nil => exact ⟨blocked, by simp, rfl⟩
  | cons proc woken ih =>
      have member : proc ∈ queues.blockedQueue := blocked.mem_iff.mpr (by simp)
      have step : Queues.unblock .lowQueue proc queues =
          { queues with
            blockedQueue := queues.blockedQueue.erase proc
            lowQueue := queues.lowQueue ++ [proc] } := by
        simp [Queues.unblock, member]
      have remaining : (Queues.unblock .lowQueue proc queues).blockedQueue.Perm
          (woken ++ others) := by
        rw [unblock_blocked]
        simpa using blocked.erase proc
      obtain ⟨left, low, high⟩ := ih _ remaining
      refine ⟨left, ?_, high.trans ?_⟩
      · rw [List.foldl_cons, low, step]
        simp
      · rw [step]

/-! ## The invariants -/

/-- Everybody whom a semaphore or the disk still has to wake. -/
def waiting (board : Board) : List ProcId :=
  board.semTable.flatMap Semaphore.waiters ++ board.pending.map DiskRequest.process

structure Accounted (board : Board) : Prop where
  distinct : board.procTable.Nodup
  numbered : ∀ proc ∈ board.procTable, proc < board.nextProcId
  placed : (Queues.places board.queues).Perm board.procTable
  blocked : board.queues.blockedQueue.Perm (waiting board)

theorem empty_accounted : Accounted emptyBoard where
  distinct := List.nodup_nil
  numbered := by simp [emptyBoard]
  placed := .refl _
  blocked := .refl _

namespace Accounted

variable {board : Board}

theorem places_nodup (accounted : Accounted board) : (Queues.places board.queues).Nodup :=
  accounted.placed.nodup_iff.mpr accounted.distinct

theorem scheduled_not_blocked (accounted : Accounted board) {proc : ProcId}
    (running : board.queues.scheduledProc = some proc) : proc ∉ board.queues.blockedQueue := by
  have distinct := accounted.places_nodup
  simp only [Queues.places, running, Option.toList_some, List.nodup_append] at distinct
  intro member
  exact distinct.2.2 proc (by simp) proc member rfl

theorem waiting_nodup (accounted : Accounted board) : (waiting board).Nodup := by
  have distinct := accounted.places_nodup
  simp only [Queues.places, List.nodup_append] at distinct
  exact accounted.blocked.nodup_iff.mp distinct.2.1

theorem waiting_listed (accounted : Accounted board) {proc : ProcId}
    (member : proc ∈ waiting board) : proc ∈ board.procTable := by
  apply accounted.placed.mem_iff.mp
  simp only [Queues.places, List.mem_append]
  exact .inr (accounted.blocked.mem_iff.mpr member)

end Accounted

theorem register_waiters (table : List Semaphore) (names : List CString) :
    (names.foldl semaphoreRegister table).flatMap Semaphore.waiters =
      table.flatMap Semaphore.waiters := by
  induction names generalizing table with
  | nil => rfl
  | cons name names ih =>
      rw [List.foldl_cons, ih]
      rcases register_prefix table name with same | ⟨-, appended⟩
      · rw [same]
      · simp [appended, semaphoreInit]

/-- Storing through a found pointer exchanges the waiters of that entry only. -/
theorem store_waiters {table : List Semaphore} {name : CString} {sem : Semaphore}
    (found : semaphoreFind table name = some sem) (stored : Semaphore)
    (same : stored.name = sem.name) :
    ∃ others, (table.flatMap Semaphore.waiters).Perm (sem.waiters ++ others) ∧
      ((storeSemaphore table stored).flatMap Semaphore.waiters).Perm
        (stored.waiters ++ others) := by
  obtain ⟨before, after, split, changed⟩ := store_split found same
  refine ⟨before.flatMap Semaphore.waiters ++ after.flatMap Semaphore.waiters, ?_, ?_⟩
  · rw [split, List.flatMap_append, List.flatMap_cons]
    exact List.perm_append_comm_assoc _ _ _
  · rw [changed, List.flatMap_append, List.flatMap_cons]
    exact List.perm_append_comm_assoc _ _ _

/-! ## The steps -/

section Steps

variable {board after : Board}

theorem create_accounted (accounted : Accounted board) (names : List CString) (high : Bool) :
    Accounted (board.create names high) where
  distinct := by
    have fresh : board.nextProcId ∉ board.procTable :=
      fun member => Nat.lt_irrefl _ (accounted.numbered _ member)
    exact List.nodup_append.mpr ⟨accounted.distinct, List.nodup_singleton _, by
      intro proc member other last
      rw [List.mem_singleton] at last
      rw [last]
      exact fun same => fresh (same ▸ member)⟩
  numbered := by
    intro proc member
    simp only [Board.create, List.mem_append, List.mem_singleton] at member ⊢
    rcases member with listed | rfl
    · exact Nat.lt_succ_of_lt (accounted.numbered proc listed)
    · exact Nat.lt_succ_self _
  placed := (places_enroll _ _ _).trans (accounted.placed.append_right _)
  blocked := by
    simpa [Board.create, waiting, register_waiters] using accounted.blocked

/-- A step that neither lists nor unlists a process and queues the current one. -/
theorem moved_accounted (accounted : Accounted board) {queues : Scheduler}
    {semTable : List Semaphore} {pending : List DiskRequest}
    (places : (Queues.places queues).Perm (Queues.places board.queues))
    (blocked : queues.blockedQueue.Perm
      (semTable.flatMap Semaphore.waiters ++ pending.map DiskRequest.process)) :
    Accounted { board with queues := queues, semTable := semTable, pending := pending } where
  distinct := accounted.distinct
  numbered := accounted.numbered
  placed := places.trans accounted.placed
  blocked := blocked

theorem acquire_accounted (accounted : Accounted board) {proc : ProcId} {name : CString}
    {sem : Semaphore} (running : board.queues.scheduledProc = some proc)
    (found : semaphoreFind board.semTable name = some sem) :
    Accounted (board.acquire proc sem) := by
  have before := accounted.blocked
  unfold waiting at before
  by_cases short : sem.S - 1 < 0
  · have shape : board.acquire proc sem =
        { board with
          queues := Queues.schedule board.queues .semaphoreBlocked
          semTable := storeSemaphore board.semTable
            { sem with S := sem.S - 1, waiters := sem.waiters ++ [proc] }
          pending := board.pending } := by
      simp [Board.acquire, semaphoreP, short]
    rw [shape]
    apply moved_accounted accounted (places_schedule _ (.inl (by decide)))
    obtain ⟨others, old, new⟩ := store_waiters found
      { sem with S := sem.S - 1, waiters := sem.waiters ++ [proc] } rfl
    rw [schedule_blocked, if_pos (.inr rfl), running, Option.toList_some]
    apply List.perm_iff_count.mpr
    intro other
    have total := before.count_eq other
    have oldCount := old.count_eq other
    have newCount := new.count_eq other
    simp only [List.count_append] at total oldCount newCount ⊢
    omega
  · have shape : board.acquire proc sem =
        { board with
          queues := board.queues
          semTable := storeSemaphore board.semTable { sem with S := sem.S - 1 }
          pending := board.pending } := by
      simp [Board.acquire, semaphoreP, short]
    rw [shape]
    obtain ⟨others, old, new⟩ := store_waiters found
      { sem with S := sem.S - 1 } rfl
    exact moved_accounted accounted (.refl _)
      (before.trans ((old.trans new.symm).append_right _))

theorem release_accounted (accounted : Accounted board) {name : CString} {sem : Semaphore}
    (found : semaphoreFind board.semTable name = some sem)
    (released : board.release sem = some after) : Accounted after := by
  have before := accounted.blocked
  unfold waiting at before
  by_cases asleep : sem.S + 1 ≤ 0
  · cases waiters : sem.waiters with
    | nil => simp [Board.release, semaphoreV, asleep, waiters] at released
    | cons woken rest =>
        simp only [Board.release, semaphoreV, asleep, if_true, waiters, Option.map_some,
          Option.some.injEq] at released
        rw [← released]
        apply moved_accounted accounted (places_unblock _ _ _)
        obtain ⟨others, old, new⟩ := store_waiters found
          { sem with S := sem.S + 1, waiters := rest } rfl
        have member : woken ∈ board.queues.blockedQueue := by
          apply before.mem_iff.mpr
          exact List.mem_append_left _ (old.mem_iff.mpr (by simp [waiters]))
        rw [unblock_blocked]
        apply List.perm_iff_count.mpr
        intro other
        have present := List.count_pos_iff.mpr member
        have total := before.count_eq other
        have oldCount := old.count_eq other
        have newCount := new.count_eq other
        simp only [waiters, List.count_append, List.count_cons, List.count_erase]
          at total oldCount newCount ⊢
        by_cases same : woken = other
        · subst same
          simp only [beq_self_eq_true, if_true] at oldCount ⊢
          omega
        · simp only [beq_iff_eq, same, if_false] at oldCount ⊢
          omega
  · simp only [Board.release, semaphoreV, asleep, if_false, Option.map_some,
      Option.some.injEq] at released
    rw [← released]
    obtain ⟨others, old, new⟩ := store_waiters found
      { sem with S := sem.S + 1 } rfl
    exact moved_accounted accounted (.refl _)
      (before.trans ((old.trans new.symm).append_right _))

theorem request_accounted (accounted : Accounted board) (request : DiskRequest)
    (running : board.queues.scheduledProc = some request.process) :
    Accounted
      { board with
        queues := Queues.schedule board.queues .ioRequested
        pending := board.pending ++ [request] } := by
  apply moved_accounted accounted (places_schedule _ (.inl (by decide)))
  rw [schedule_blocked, if_pos (.inl rfl), running, Option.toList_some]
  simpa [waiting] using accounted.blocked.append_right [request.process]

theorem print_accounted (accounted : Accounted board) {proc : ProcId}
    (running : board.queues.scheduledProc = some proc) :
    Accounted
      { board with
        queues := Queues.unblock .lowQueue proc (Queues.schedule board.queues .ioRequested) } := by
  refine moved_accounted accounted
    ((places_unblock _ _ _).trans (places_schedule _ (.inl (by decide)))) ?_
  rw [unblock_blocked, schedule_blocked, if_pos (.inl rfl), running, Option.toList_some,
    List.erase_append_right _ (accounted.scheduled_not_blocked running)]
  simpa [waiting] using accounted.blocked

theorem quantum_accounted (accounted : Accounted board) :
    Accounted { board with queues := Queues.schedule board.queues .quantumCompleted } := by
  apply moved_accounted accounted (places_schedule _ (.inl (by decide)))
  rw [schedule_blocked, if_neg (by decide), List.append_nil]
  exact accounted.blocked

theorem idle_accounted (accounted : Accounted board)
    (idle : board.queues.scheduledProc = none) :
    Accounted { board with queues := Queues.schedule board.queues .none } := by
  apply moved_accounted accounted (places_schedule _ (.inr idle))
  rw [schedule_blocked, if_neg (by decide), List.append_nil]
  exact accounted.blocked

/-- After the dispatch that drops it, the finished process is in no queue, so the
search that follows finds nothing to remove. -/
theorem finish_queues (accounted : Accounted board) {proc : ProcId}
    (running : board.queues.scheduledProc = some proc) :
    (board.finish proc).queues = Queues.schedule board.queues .none := by
  apply leave_absent
  have dropped := places_schedule_dropped board.queues running
  have distinct := dropped.nodup_iff.mpr accounted.places_nodup
  exact (List.nodup_cons.mp distinct).1

theorem finish_accounted (accounted : Accounted board) {proc : ProcId}
    (running : board.queues.scheduledProc = some proc) :
    Accounted (board.finish proc) := by
  have queues := finish_queues accounted running
  refine
    { distinct := accounted.distinct.erase proc
      numbered := fun other member => accounted.numbered other (List.mem_of_mem_erase member)
      placed := ?_
      blocked := ?_ }
  · rw [queues]
    have dropped := (places_schedule_dropped board.queues running).trans accounted.placed
    simpa [Board.finish] using dropped.erase proc
  · rw [queues, schedule_blocked, if_neg (by decide), List.append_nil]
    exact accounted.blocked

/-- What one tick does to the queues of an accounted board. -/
theorem tick_queues (accounted : Accounted board) (track : Int) :
    let served := (board.pending.filter fun request => request.track = track).map
      DiskRequest.process
    (board.tick track).queues.blockedQueue.Perm (waiting (board.tick track)) ∧
      (board.tick track).queues.lowQueue = board.queues.lowQueue ++ served ∧
      (board.tick track).queues.highQueue = board.queues.highQueue := by
  intro served
  have parts := List.filter_append_perm (fun request : DiskRequest => request.track = track)
    board.pending
  simp only [← decide_not] at parts
  have blocked : board.queues.blockedQueue.Perm
      (served ++ waiting (board.tick track)) := by
    apply accounted.blocked.trans
    have owners := parts.map DiskRequest.process
    apply List.perm_iff_count.mpr
    intro proc
    have split := owners.count_eq proc
    simp only [waiting, Board.tick, served, List.map_append, List.count_append] at split ⊢
    omega
  have woken := unblock_all board.queues served _ blocked
  rw [List.foldl_map] at woken
  exact woken

/-- The rest by induction on the served requests, whoever is blocked. -/
theorem tick_moves (board : Board) (track : Int) :
    (board.tick track).queues.scheduledProc = board.queues.scheduledProc ∧
      (Queues.places (board.tick track).queues).Perm (Queues.places board.queues) := by
  have served : ∀ (requests : List DiskRequest) (queues : Scheduler),
      (requests.foldl (fun queues request => Queues.unblock .lowQueue request.process queues)
          queues).scheduledProc = queues.scheduledProc ∧
        (Queues.places (requests.foldl
          (fun queues request => Queues.unblock .lowQueue request.process queues) queues)).Perm
            (Queues.places queues) := by
    intro requests
    induction requests with
    | nil => exact fun queues => ⟨rfl, .refl _⟩
    | cons request requests ih =>
        intro queues
        obtain ⟨scheduled, places⟩ := ih (Queues.unblock .lowQueue request.process queues)
        rw [unblock_scheduled] at scheduled
        exact ⟨scheduled, places.trans (places_unblock _ _ _)⟩
  exact served _ _

theorem tick_accounted (accounted : Accounted board) (track : Int) :
    Accounted (board.tick track) := by
  exact
    { distinct := accounted.distinct
      numbered := accounted.numbered
      placed := (tick_moves board track).2.trans accounted.placed
      blocked := (tick_queues accounted track).1 }

theorem run_process_accounted (accounted : Accounted board) {proc : ProcId}
    (running : board.queues.scheduledProc = some proc) {event : BoardEvent}
    (fired : board.runProcess proc event = some after) : Accounted after := by
  cases event with
  | run =>
      obtain rfl := Option.some.inj fired
      exact accounted
  | acquire name =>
      obtain ⟨sem, found, rfl⟩ := Option.map_eq_some_iff.mp fired
      exact acquire_accounted accounted running found
  | release name =>
      obtain ⟨sem, found, released⟩ := Option.bind_eq_some_iff.mp fired
      exact release_accounted accounted found released
  | requestDisk request =>
      obtain ⟨own, rfl⟩ := request_inv fired
      exact request_accounted accounted _ (own ▸ running)
  | print =>
      obtain rfl := Option.some.inj fired
      exact print_accounted accounted running
  | quantum =>
      obtain rfl := Option.some.inj fired
      exact quantum_accounted accounted
  | finish =>
      obtain ⟨-, rfl⟩ := finish_inv fired
      exact finish_accounted accounted running
  | create | idle | tick => simp [Board.runProcess] at fired

theorem step_accounted (accounted : Accounted board) {event : BoardEvent}
    (fired : boardStep board event = some after) : Accounted after := by
  have scheduled : ∀ event, board.queues.scheduledProc.bind
      (fun proc => board.runProcess proc event) = some after → Accounted after := by
    intro event fired
    obtain ⟨proc, running, fired⟩ := Option.bind_eq_some_iff.mp fired
    exact run_process_accounted accounted running fired
  cases event with
  | create names high =>
      obtain rfl := Option.some.inj fired
      exact create_accounted accounted names high
  | idle =>
      obtain ⟨idle, rfl⟩ := idle_inv fired
      exact idle_accounted accounted idle
  | tick track =>
      obtain rfl := Option.some.inj fired
      exact tick_accounted accounted track
  | run | acquire | release | requestDisk | print | quantum | finish => exact scheduled _ fired

end Steps

theorem acquire_places (board : Board) (proc : ProcId) (sem : Semaphore) :
    (Queues.places (board.acquire proc sem).queues).Perm (Queues.places board.queues) := by
  unfold Board.acquire semaphoreP
  dsimp only
  split
  · exact places_schedule _ (.inl (by decide))
  · exact .refl _

theorem release_places {board after : Board} {sem : Semaphore}
    (released : board.release sem = some after) :
    (Queues.places after.queues).Perm (Queues.places board.queues) := by
  obtain ⟨⟨stored, queues⟩, freed, rfl⟩ := Option.map_eq_some_iff.mp released
  unfold semaphoreV at freed
  split at freed
  · split at freed
    · simp at freed
    · cases freed
      exact places_unblock _ _ _
  · cases freed
    exact .refl _

/-- Whatever the board looks like, only loads and finishes change who has a place. -/
theorem step_places {board after : Board} {event : BoardEvent}
    (enrols : ∀ names high, event ≠ .create names high) (drops : event ≠ .finish)
    (fired : boardStep board event = some after) :
    (Queues.places after.queues).Perm (Queues.places board.queues) := by
  have parked : ∀ {flag : SchedulerFlag}, flag ≠ .none →
      (Queues.places (Queues.schedule board.queues flag)).Perm (Queues.places board.queues) :=
    fun given => places_schedule _ (.inl given)
  cases event with
  | create names high => exact absurd rfl (enrols names high)
  | finish => exact absurd rfl drops
  | idle =>
      obtain ⟨idle, rfl⟩ := idle_inv fired
      exact places_schedule _ (.inr idle)
  | tick track =>
      obtain rfl := Option.some.inj fired
      exact (tick_moves board track).2
  | run =>
      obtain ⟨proc, -, fired⟩ := Option.bind_eq_some_iff.mp fired
      obtain rfl := Option.some.inj fired
      exact .refl _
  | acquire name =>
      obtain ⟨proc, -, fired⟩ := Option.bind_eq_some_iff.mp fired
      obtain ⟨sem, -, rfl⟩ := Option.map_eq_some_iff.mp fired
      exact acquire_places board proc sem
  | release name =>
      obtain ⟨proc, -, fired⟩ := Option.bind_eq_some_iff.mp fired
      obtain ⟨sem, -, released⟩ := Option.bind_eq_some_iff.mp fired
      exact release_places released
  | requestDisk request =>
      obtain ⟨proc, -, fired⟩ := Option.bind_eq_some_iff.mp fired
      obtain ⟨-, rfl⟩ := request_inv fired
      exact parked (by decide)
  | print =>
      obtain ⟨proc, -, fired⟩ := Option.bind_eq_some_iff.mp fired
      obtain rfl := Option.some.inj fired
      exact (places_unblock _ _ _).trans (parked (by decide))
  | quantum =>
      obtain ⟨proc, -, fired⟩ := Option.bind_eq_some_iff.mp fired
      obtain rfl := Option.some.inj fired
      exact parked (by decide)

theorem reachable_accounted {board : Board} (reached : Reachable boardSystem board) :
    Accounted board :=
  reachable_invariant Accounted reached empty_accounted
    fun _ _ _ _ accounted fired => step_accounted accounted fired

end Ribabari.BoardInvariants

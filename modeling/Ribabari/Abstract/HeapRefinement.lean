import Ribabari.Kernel.Placement
import Ribabari.Model.HeapBoard

/-!
# The heap refines the sequences

Event by event, the linked lists on the heap hold the sequences of the board: a call is
defined on the heap exactly when it is defined on the sequences, no search or walk runs for
ever, and the nodes of two lists never overlap. A pending request keeps its node until the
walk that serves it.
-/

namespace Ribabari.HeapRefinement

open Ribabari.FirstMatch Ribabari.LinkedList Ribabari.ListFamily Ribabari.ProcessRecords
open Ribabari.SemaphoreTable
open Ribabari.KernelState Ribabari.Dispatch Ribabari.KernelEvents Ribabari.QueueBoard
open Ribabari.QueueRefinement Ribabari.HeapBoard Ribabari.Placement Ribabari.TransitionSystem

set_option autoImplicit false

/-- The sequence under each key. -/
def listsOf (board : Board) : ListKey → List Content
  | .procTable => board.procTable.map .process
  | .highQueue => board.queues.highQueue.map .process
  | .lowQueue => board.queues.lowQueue.map .process
  | .blockedQueue => board.queues.blockedQueue.map .process
  | .waiters name =>
      ((semaphoreFind board.semTable name).elim [] Semaphore.waiters).map .process
  | .pendingRequests => board.pending.map .request

/-- The board is in the nodes, and the pending requests are in the linked ones. -/
structure Mirrors (nodes : NodeBoard) (board : Board) (linked : List Address) : Prop where
  nextProcId : nodes.nextProcId = board.nextProcId
  scheduledProc : nodes.scheduledProc = board.queues.scheduledProc
  semTable : nodes.semTable = board.semTable.map fun sem => (sem.name, sem.S)
  lists : Represents nodes.lists (listsOf board) .pendingRequests linked

def Mirrored (nodes : NodeBoard) (board : Board) : Prop := ∃ linked, Mirrors nodes board linked

theorem init_mirrors : Mirrors nodeBoardInit emptyBoard [] where
  nextProcId := rfl
  scheduledProc := rfl
  semTable := rfl
  lists := by
    have empty : listsOf emptyBoard = fun _ => [] := by
      funext key
      cases key <;> rfl
    rw [empty]
    exact start_represents _ _

/-! ## One sequence changes -/

section Updates

variable (board : Board) (items : List ProcId)

theorem lists_high :
    listsOf { board with queues := { board.queues with highQueue := items } } =
      Function.update (listsOf board) .highQueue (items.map .process) := by
  funext key
  cases key <;> rfl

theorem lists_low :
    listsOf { board with queues := { board.queues with lowQueue := items } } =
      Function.update (listsOf board) .lowQueue (items.map .process) := by
  funext key
  cases key <;> rfl

theorem lists_blocked :
    listsOf { board with queues := { board.queues with blockedQueue := items } } =
      Function.update (listsOf board) .blockedQueue (items.map .process) := by
  funext key
  cases key <;> rfl

theorem lists_table :
    listsOf { board with procTable := items } =
      Function.update (listsOf board) .procTable (items.map .process) := by
  funext key
  cases key <;> rfl

theorem lists_pending (requests : List DiskRequest) :
    listsOf { board with pending := requests } =
      Function.update (listsOf board) .pendingRequests (requests.map .request) := by
  funext key
  cases key <;> rfl

theorem lists_scheduled (queues : Scheduler) (scheduled : Option ProcId) :
    listsOf { board with queues := { queues with scheduledProc := scheduled } } =
      listsOf { board with queues := queues } := by
  funext key
  cases key <;> rfl

theorem waiters_elsewhere (name : CString) : ListKey.waiters name ≠ .pendingRequests :=
  ListKey.noConfusion

/-- Writing a semaphore changes its waiters and no others. -/
theorem lists_store {name : CString} {sem stored : Semaphore}
    (found : semaphoreFind board.semTable name = some sem) (same : stored.name = name) :
    listsOf { board with semTable := storeSemaphore board.semTable stored } =
      Function.update (listsOf board) (.waiters name) (stored.waiters.map .process) := by
  have named := find_name found
  subst named
  funext key
  cases key with
  | procTable | highQueue | lowQueue | blockedQueue | pendingRequests => rfl
  | waiters other =>
      by_cases here : other = sem.name
      · subst here
        rw [Function.update_self]
        simp only [listsOf, find_store_same found same, Option.elim_some]
      · rw [Function.update_of_ne fun equal => here (ListKey.waiters.inj equal)]
        simp only [listsOf, find_store_other fun equal => here (equal.trans same)]

end Updates

section Calls

variable {nodes : NodeBoard} {board : Board} {linked : List Address}

/-- New lists for new queues. -/
theorem mirrors_queues (mirrors : Mirrors nodes board linked) {lists : Family ListKey Content}
    {queues : Scheduler}
    (represents : Represents lists (listsOf { board with queues := queues }) .pendingRequests
      linked)
    (same : queues.scheduledProc = board.queues.scheduledProc) :
    Mirrors { nodes with lists := lists } { board with queues := queues } linked where
  nextProcId := mirrors.nextProcId
  scheduledProc := mirrors.scheduledProc.trans same.symm
  semTable := mirrors.semTable
  lists := represents

section Lists

variable {contents : ListKey → List Content} {items : List ProcId}

theorem unlist_absent (represents : Represents nodes.lists contents .pendingRequests linked)
    (key : ListKey) (listed : contents key = items.map .process) {proc : ProcId} (absent : proc ∉ items) :
    nodes.unlist key proc = some (false, nodes) := by
  have missing : ∀ item ∈ contents key, procCmp proc item = false := by
    intro item member
    rw [listed] at member
    obtain ⟨other, inside, rfl⟩ := List.mem_map.mp member
    exact beq_false_of_ne fun same => absent (same ▸ inside)
  rw [NodeBoard.unlist, search_none represents missing]
  rfl

theorem unlist_present (represents : Represents nodes.lists contents .pendingRequests linked)
    (key : ListKey) (elsewhere : key ≠ .pendingRequests) (listed : contents key = items.map .process)
    {proc : ProcId} (present : proc ∈ items) :
    ∃ lists, nodes.unlist key proc = some (true, { nodes with lists := lists }) ∧
      Represents lists (Function.update contents key ((items.erase proc).map .process))
        .pendingRequests linked := by
  have matched : procCmp proc (.process proc) = true := beq_self_eq_true proc
  have inside : Content.process proc ∈ contents key := by
    rw [listed]
    exact List.mem_map_of_mem present
  have erased : (contents key).eraseP (procCmp proc) = (items.erase proc).map .process := by
    rw [listed, List.eraseP_map, List.erase_eq_eraseP']
    rfl
  obtain ⟨node, found, removed⟩ := search_remove represents elsewhere ⟨_, inside, matched⟩
  refine ⟨nodes.lists.remove key node, ?_, erased ▸ removed⟩
  rw [NodeBoard.unlist, found]
  rfl

theorem take_process (represents : Represents nodes.lists contents .pendingRequests linked)
    {key : ListKey} (elsewhere : key ≠ .pendingRequests) {proc : ProcId}
    (listed : contents key = (proc :: items).map .process) :
    ∃ lists, nodes.takeProcess key = some (proc, { nodes with lists := lists }) ∧
      Represents lists (Function.update contents key (items.map .process)) .pendingRequests
        linked := by
  obtain ⟨taken, takes, rest⟩ := take_head represents elsewhere listed
  exact ⟨taken, by rw [NodeBoard.takeProcess, takes]; rfl, rest⟩

theorem not_empty (represents : Represents nodes.lists contents .pendingRequests linked)
    {key : ListKey} {proc : ProcId} (listed : contents key = (proc :: items).map .process) :
    nodes.lists.isEmpty key = false := by
  rw [Bool.eq_false_iff, ne_eq, empty_iff represents, listed]
  exact List.cons_ne_nil _ _

end Lists

/-! ## The scheduler -/

theorem pop_high {queues : Scheduler} {proc : ProcId} {rest : List ProcId}
    (high : queues.highQueue = proc :: rest) :
    Queues.next queues = some proc ∧ Queues.pop queues = { queues with highQueue := rest } := by
  simp [Queues.next, Queues.pop, high]

theorem pop_low {queues : Scheduler} (high : queues.highQueue = []) :
    Queues.next queues = queues.lowQueue.head? ∧
      Queues.pop queues = { queues with lowQueue := queues.lowQueue.tail } := by
  simp [Queues.next, Queues.pop, high]

theorem take_next_mirrors (mirrors : Mirrors nodes board linked) :
    ∃ taken, nodes.takeNext = some (Queues.next board.queues, taken) ∧
      Mirrors taken { board with queues := Queues.pop board.queues } linked := by
  have lists := mirrors.lists
  unfold NodeBoard.takeNext
  cases high : board.queues.highQueue with
  | cons proc rest =>
      obtain ⟨next, pop⟩ := pop_high high
      have listed : listsOf board .highQueue = (proc :: rest).map .process :=
        congrArg (List.map Content.process) high
      obtain ⟨taken, takes, represents⟩ := take_process lists (by decide) listed
      rw [if_pos (not_empty lists listed), takes, next, pop]
      refine ⟨_, rfl, mirrors_queues mirrors ?_ rfl⟩
      rw [lists_high]
      exact represents
  | nil =>
      obtain ⟨next, pop⟩ := pop_low high
      have bare : listsOf board .highQueue = [] := congrArg (List.map Content.process) high
      have empty := (empty_iff lists .highQueue).mpr bare
      rw [if_neg (by simp [empty]), next, pop]
      cases low : board.queues.lowQueue with
      | cons proc rest =>
          have listed : listsOf board .lowQueue = (proc :: rest).map .process :=
            congrArg (List.map Content.process) low
          obtain ⟨taken, takes, represents⟩ := take_process lists (by decide) listed
          rw [if_pos (not_empty lists listed), takes]
          refine ⟨_, rfl, mirrors_queues mirrors ?_ rfl⟩
          rw [lists_low]
          exact represents
      | nil =>
          have none : listsOf board .lowQueue = [] := congrArg (List.map Content.process) low
          have idle := (empty_iff lists .lowQueue).mpr none
          rw [if_neg (by simp [idle])]
          refine ⟨nodes, rfl, mirrors_queues mirrors ?_ rfl⟩
          rw [List.tail_nil, lists_low, List.map_nil, ← none, Function.update_eq_self]
          exact lists

theorem add_high (mirrors : Mirrors nodes board linked) (proc : ProcId) :
    Mirrors { nodes with lists := nodes.lists.add .highQueue (.process proc) }
      { board with queues :=
        { board.queues with highQueue := board.queues.highQueue ++ [proc] } } linked := by
  refine mirrors_queues mirrors ?_ rfl
  rw [lists_high, List.map_append]
  exact add_represents mirrors.lists (by decide) _

theorem add_low (mirrors : Mirrors nodes board linked) (proc : ProcId) :
    Mirrors { nodes with lists := nodes.lists.add .lowQueue (.process proc) }
      { board with queues :=
        { board.queues with lowQueue := board.queues.lowQueue ++ [proc] } } linked := by
  refine mirrors_queues mirrors ?_ rfl
  rw [lists_low, List.map_append]
  exact add_represents mirrors.lists (by decide) _

theorem add_blocked (mirrors : Mirrors nodes board linked) (proc : ProcId) :
    Mirrors { nodes with lists := nodes.lists.add .blockedQueue (.process proc) }
      { board with queues :=
        { board.queues with blockedQueue := board.queues.blockedQueue ++ [proc] } } linked := by
  refine mirrors_queues mirrors ?_ rfl
  rw [lists_blocked, List.map_append]
  exact add_represents mirrors.lists (by decide) _

theorem park_mirrors (mirrors : Mirrors nodes board linked) (curr : Option ProcId)
    (flag : SchedulerFlag) :
    Mirrors (nodes.parkCurrent curr flag)
      { board with queues := Queues.park board.queues curr flag } linked := by
  cases curr with
  | none => cases flag <;> simpa [NodeBoard.parkCurrent, Queues.park] using mirrors
  | some proc =>
      cases flag with
      | none => exact mirrors
      | quantumCompleted => exact add_high mirrors proc
      | ioRequested => exact add_blocked mirrors proc
      | semaphoreBlocked => exact add_blocked mirrors proc

theorem schedule_mirrors (mirrors : Mirrors nodes board linked) (flag : SchedulerFlag) :
    ∃ after, nodes.scheduleProcess flag = some after ∧
      Mirrors after { board with queues := Queues.schedule board.queues flag } linked := by
  obtain ⟨taken, takes, popped⟩ := take_next_mirrors mirrors
  have parked := park_mirrors popped nodes.scheduledProc flag
  refine ⟨_, by rw [NodeBoard.scheduleProcess, takes]; rfl, ?_⟩
  rw [mirrors.scheduledProc] at parked ⊢
  exact
    { nextProcId := parked.nextProcId
      scheduledProc := rfl
      semTable := parked.semTable
      lists := by
        rw [Queues.schedule, lists_scheduled]
        exact parked.lists }

theorem unblock_mirrors (mirrors : Mirrors nodes board linked) (proc : ProcId)
    (queue : SchedulerQueueFlag) :
    ∃ after, nodes.scheduleUnblockProcess proc queue = some after ∧
      Mirrors after { board with queues := Queues.unblock queue proc board.queues } linked := by
  have lists := mirrors.lists
  unfold NodeBoard.scheduleUnblockProcess Queues.unblock
  by_cases blocked : proc ∈ board.queues.blockedQueue
  · obtain ⟨removed, found, represents⟩ :=
      unlist_present lists .blockedQueue (by decide) rfl blocked
    rw [found, if_pos blocked]
    refine ⟨_, rfl, ?_⟩
    have without : Mirrors { nodes with lists := removed }
        { board with queues :=
          { board.queues with blockedQueue := board.queues.blockedQueue.erase proc } }
        linked := by
      refine mirrors_queues mirrors ?_ rfl
      rw [lists_blocked]
      exact represents
    cases queue with
    | highQueue => exact add_high without proc
    | lowQueue => exact add_low without proc
  · rw [unlist_absent lists .blockedQueue rfl blocked, if_neg blocked]
    exact ⟨nodes, rfl, mirrors⟩

/-- The search of one queue. -/
theorem leave_mirrors (mirrors : Mirrors nodes board linked) (proc : ProcId) :
    ∃ after, nodes.leaveQueues proc = some after ∧
      Mirrors after { board with queues := Queues.leave proc board.queues } linked := by
  have lists := mirrors.lists
  unfold NodeBoard.leaveQueues Queues.leave
  by_cases high : proc ∈ board.queues.highQueue
  · obtain ⟨removed, found, represents⟩ := unlist_present lists .highQueue (by decide) rfl high
    rw [found, if_pos high]
    refine ⟨_, rfl, mirrors_queues mirrors ?_ rfl⟩
    rw [lists_high]
    exact represents
  · rw [unlist_absent lists .highQueue rfl high, if_neg high]
    by_cases low : proc ∈ board.queues.lowQueue
    · obtain ⟨removed, found, represents⟩ := unlist_present lists .lowQueue (by decide) rfl low
      simp only [Option.bind_some, found, if_pos low]
      refine ⟨_, rfl, mirrors_queues mirrors ?_ rfl⟩
      rw [lists_low]
      exact represents
    · simp only [Option.bind_some, unlist_absent lists .lowQueue rfl low, if_neg low]
      by_cases blocked : proc ∈ board.queues.blockedQueue
      · obtain ⟨removed, found, represents⟩ :=
          unlist_present lists .blockedQueue (by decide) rfl blocked
        rw [found, if_pos blocked]
        refine ⟨_, rfl, mirrors_queues mirrors ?_ rfl⟩
        rw [lists_blocked]
        exact represents
      · rw [unlist_absent lists .blockedQueue rfl blocked, if_neg blocked]
        exact ⟨nodes, rfl, mirrors⟩

/-! ## Semaphores -/

theorem counter_mirrors (mirrors : Mirrors nodes board linked) (name : CString) :
    nodes.counter name =
      (semaphoreFind board.semTable name).map fun sem => (sem.name, sem.S) := by
  rw [NodeBoard.counter, mirrors.semTable, List.find?_map]
  rfl

theorem map_store (table : List Semaphore) (stored : Semaphore) :
    (storeSemaphore table stored).map (fun sem => (sem.name, sem.S)) =
      updateFirst (fun sem => sem.1 == stored.name) (fun _ => (stored.name, stored.S))
        (table.map fun sem => (sem.name, sem.S)) := by
  induction table with
  | nil => rfl
  | cons sem rest ih =>
      rw [storeSemaphore] at ih
      rw [storeSemaphore, updateFirst, List.map_cons, updateFirst]
      split
      · rfl
      · rw [List.map_cons, ih]

/-- A semaphore is written through. -/
theorem store_mirrors (mirrors : Mirrors nodes board linked) {name : CString} {sem stored : Semaphore}
    (found : semaphoreFind board.semTable name = some sem) (same : stored.name = name)
    {lists : Family ListKey Content}
    (represents : Represents lists
      (Function.update (listsOf board) (.waiters name) (stored.waiters.map .process))
      .pendingRequests linked) :
    Mirrors { nodes.storeCounter name stored.S with lists := lists }
      { board with semTable := storeSemaphore board.semTable stored } linked where
  nextProcId := mirrors.nextProcId
  scheduledProc := mirrors.scheduledProc
  semTable := by
    rw [map_store, ← mirrors.semTable, same]
    rfl
  lists := by
    rw [lists_store board found same]
    exact represents

theorem register_mirrors (mirrors : Mirrors nodes board linked) (name : CString) :
    Mirrors (nodes.semaphoreRegister name)
      { board with semTable := SemaphoreTable.semaphoreRegister board.semTable name } linked := by
  have known : (nodes.semTable.any fun sem => sem.1 == name) =
      board.semTable.any fun sem => sem.name == name := by
    rw [mirrors.semTable, List.any_map]
    rfl
  unfold NodeBoard.semaphoreRegister SemaphoreTable.semaphoreRegister
  rw [known]
  split
  case isTrue => exact mirrors
  case isFalse absent =>
      have missing : semaphoreFind board.semTable name = none := by
        rw [semaphoreFind, List.find?_eq_none]
        intro sem member named
        exact absent (List.any_eq_true.mpr ⟨sem, member, named⟩)
      have cleared := init_represents mirrors.lists (waiters_elsewhere name)
      refine ⟨mirrors.nextProcId, mirrors.scheduledProc, ?_, ?_⟩
      · rw [List.map_append, ← mirrors.semTable]
        rfl
      · have same : listsOf
            { board with semTable := board.semTable ++ [semaphoreInit name 1] } =
              Function.update (listsOf board) (.waiters name) [] := by
          funext key
          cases key with
          | procTable | highQueue | lowQueue | blockedQueue | pendingRequests => rfl
          | waiters other =>
              by_cases here : other = name
              · subst here
                rw [Function.update_self]
                simp only [listsOf, semaphoreFind, List.find?_append] at missing ⊢
                rw [missing]
                simp [semaphoreInit]
              · rw [Function.update_of_ne fun equal => here (ListKey.waiters.inj equal)]
                have skipped :
                    [semaphoreInit name 1].find? (fun sem => sem.name == other) = none := by
                  simp [semaphoreInit, Ne.symm here]
                simp only [listsOf, semaphoreFind, List.find?_append, skipped, Option.or_none]
        rw [same]
        exact cleared

theorem register_all_mirrors (mirrors : Mirrors nodes board linked) (names : List CString) :
    Mirrors (names.foldl NodeBoard.semaphoreRegister nodes)
      { board with semTable := names.foldl SemaphoreTable.semaphoreRegister board.semTable }
      linked := by
  induction names generalizing nodes board with
  | nil => exact mirrors
  | cons name names ih => exact ih (register_mirrors mirrors name)

/-! ## The events -/

theorem create_mirrors (mirrors : Mirrors nodes board linked) (names : List CString)
    (high : Bool) : Mirrors (nodes.processCreate names high) (board.create names high) linked := by
  have registered := register_all_mirrors mirrors names
  have same := lists_table
    { board with semTable := names.foldl SemaphoreTable.semaphoreRegister board.semTable }
    (board.procTable ++ [board.nextProcId])
  rw [List.map_append] at same
  have listed : Represents _ _ _ linked :=
    add_represents registered.lists (by decide : ListKey.procTable ≠ .pendingRequests)
      (.process board.nextProcId)
  have table : Mirrors
      { names.foldl NodeBoard.semaphoreRegister nodes with
        nextProcId := board.nextProcId + 1
        lists := (names.foldl NodeBoard.semaphoreRegister nodes).lists.add .procTable
          (.process board.nextProcId) }
      { board with
        procTable := board.procTable ++ [board.nextProcId]
        nextProcId := board.nextProcId + 1
        semTable := names.foldl SemaphoreTable.semaphoreRegister board.semTable } linked :=
    { nextProcId := rfl
      scheduledProc := registered.scheduledProc
      semTable := registered.semTable
      lists := same ▸ listed }
  unfold NodeBoard.processCreate
  rw [mirrors.nextProcId]
  cases high with
  | true => exact add_high table board.nextProcId
  | false => exact add_low table board.nextProcId

theorem waiters_listed {name : CString} {sem : Semaphore}
    (found : semaphoreFind board.semTable name = some sem) :
    listsOf board (.waiters name) = sem.waiters.map .process := by
  simp only [listsOf, found, Option.elim_some]

/-- A counter is written and its waiters are left alone. -/
theorem count_mirrors (mirrors : Mirrors nodes board linked) {name : CString} {sem : Semaphore}
    (found : semaphoreFind board.semTable name = some sem) (S : Int) :
    Mirrors (nodes.storeCounter name S)
      { board with semTable := storeSemaphore board.semTable { sem with S := S } } linked := by
  have same : Function.update (listsOf board) (.waiters name) (sem.waiters.map .process) =
      listsOf board := by
    rw [← waiters_listed found, Function.update_eq_self]
  have represents : Represents nodes.lists
      (Function.update (listsOf board) (.waiters name) (sem.waiters.map .process))
      .pendingRequests linked := by
    rw [same]
    exact mirrors.lists
  have named : sem.name = name := find_name found
  have stored : ({ sem with S := S } : Semaphore).name = name := named
  exact store_mirrors mirrors found stored represents

theorem acquire_mirrors (mirrors : Mirrors nodes board linked) (proc : ProcId) (name : CString) :
    Option.Rel Mirrored (nodes.semaphoreP proc name)
      ((semaphoreFind board.semTable name).map (board.acquire proc)) := by
  unfold NodeBoard.semaphoreP
  rw [counter_mirrors mirrors]
  cases found : semaphoreFind board.semTable name with
  | none => exact .none
  | some sem =>
      simp only [Option.map_some, Option.bind_some]
      unfold Board.acquire SemaphoreTable.semaphoreP
      split
      case isFalse => exact .some ⟨linked, count_mirrors mirrors found (sem.S - 1)⟩
      case isTrue =>
          have added := add_represents mirrors.lists (waiters_elsewhere name) (.process proc)
          rw [waiters_listed found, ← List.map_singleton, ← List.map_append] at added
          have named : sem.name = name := find_name found
          have stored : ({ sem with
              S := sem.S - 1
              waiters := sem.waiters ++ [proc] } : Semaphore).name = name := named
          obtain ⟨after, dispatched, result⟩ :=
            schedule_mirrors (store_mirrors mirrors found stored added) .semaphoreBlocked
          have same : NodeBoard.scheduleProcess
              { nodes.storeCounter name (sem.S - 1) with
                lists := nodes.lists.add (.waiters name) (.process proc) } .semaphoreBlocked =
                some after := dispatched
          exact same ▸ .some ⟨linked, result⟩

theorem release_mirrors (mirrors : Mirrors nodes board linked) (name : CString) :
    Option.Rel Mirrored (nodes.semaphoreV name)
      ((semaphoreFind board.semTable name).bind board.release) := by
  unfold NodeBoard.semaphoreV
  rw [counter_mirrors mirrors]
  cases found : semaphoreFind board.semTable name with
  | none => exact .none
  | some sem =>
      simp only [Option.map_some, Option.bind_some]
      unfold Board.release SemaphoreTable.semaphoreV
      split
      case isFalse => exact .some ⟨linked, count_mirrors mirrors found (sem.S + 1)⟩
      case isTrue =>
          have listed := waiters_listed found
          have lists : Represents (nodes.storeCounter name (sem.S + 1)).lists (listsOf board)
              .pendingRequests linked := mirrors.lists
          cases waiting : sem.waiters with
          | nil =>
              rw [waiting] at listed
              rw [NodeBoard.takeProcess, take_empty lists listed]
              exact .none
          | cons woken rest =>
              rw [waiting] at listed
              obtain ⟨taken, first, represents⟩ :=
                take_process lists (waiters_elsewhere name) listed
              have named : sem.name = name := find_name found
              have stored : ({ sem with
                  S := sem.S + 1
                  waiters := rest } : Semaphore).name = name := named
              obtain ⟨after, dispatched, result⟩ :=
                unblock_mirrors (store_mirrors mirrors found stored represents) woken .highQueue
              rw [first, Option.bind_some]
              have same : NodeBoard.scheduleUnblockProcess
                  { nodes.storeCounter name (sem.S + 1) with lists := taken } woken .highQueue =
                    some after := dispatched
              rw [same]
              exact .some ⟨linked, result⟩

theorem finish_mirrors (mirrors : Mirrors nodes board linked) (proc : ProcId) :
    Option.Rel Mirrored (nodes.processFinish proc)
      (if proc ∈ board.procTable then some (board.finish proc) else none) := by
  unfold NodeBoard.processFinish
  by_cases listed : proc ∈ board.procTable
  · obtain ⟨removed, found, represents⟩ :=
      unlist_present mirrors.lists .procTable (by decide) rfl listed
    have unlisted : Mirrors { nodes with lists := removed }
        { board with procTable := board.procTable.erase proc } linked :=
      { nextProcId := mirrors.nextProcId
        scheduledProc := mirrors.scheduledProc
        semTable := mirrors.semTable
        lists := (lists_table board _).symm ▸ represents }
    obtain ⟨dispatched, schedules, result⟩ := schedule_mirrors unlisted .none
    obtain ⟨after, leaves, last⟩ := leave_mirrors result proc
    simp only [found, Option.bind_some, if_true, if_pos listed]
    rw [schedules, Option.bind_some, leaves]
    exact .some ⟨linked, last⟩
  · rw [unlist_absent mirrors.lists .procTable rfl listed, if_neg listed]
    exact .none

/-! ## The walk over the pending requests -/

theorem mirrors_pending (mirrors : Mirrors nodes board linked)
    {lists : Family ListKey Content} {requests : List DiskRequest} {left : List Address}
    (represents : Represents lists
      (Function.update (listsOf board) .pendingRequests (requests.map .request))
      .pendingRequests left) :
    Mirrors { nodes with lists := lists } { board with pending := requests } left where
  nextProcId := mirrors.nextProcId
  scheduledProc := mirrors.scheduledProc
  semTable := mirrors.semTable
  lists := (lists_pending board requests).symm ▸ represents

theorem request_mirrors (mirrors : Mirrors nodes board linked) (request : DiskRequest) :
    Mirrors { nodes with lists := nodes.lists.add .pendingRequests (.request request) }
      { board with pending := board.pending ++ [request] } (linked ++ [nodes.lists.fresh]) := by
  apply mirrors_pending mirrors
  rw [List.map_append]
  exact add_at_spot mirrors.lists _

/-- By induction on the requests ahead: a wake-up leaves their nodes linked as they are, and
unlinking a node leaves those behind it linked. -/
theorem resolve_from_mirrors (track : Int) {before ahead : List Address}
    (mirrors : Mirrors nodes board (before ++ ahead)) {kept requests : List DiskRequest}
    (pending : board.pending = kept ++ requests) (passed : kept.length = before.length)
    {fuel : Nat} (enough : ahead.length < fuel) :
    ∃ after left, NodeBoard.resolveFrom track fuel ahead.head? nodes = some after ∧
      Mirrors after
        { board with
          queues := (requests.filter fun request => request.track = track).foldl
            (fun queues request => Queues.unblock .lowQueue request.process queues) board.queues
          pending := kept ++ requests.filter fun request => ¬request.track = track } left := by
  have lengths := (represents_length mirrors.lists).1
  rw [show listsOf board .pendingRequests = board.pending.map .request from rfl, List.length_map,
    pending, List.length_append, List.length_append, passed] at lengths
  obtain ⟨fuel, rfl⟩ := Nat.exists_eq_succ_of_ne_zero (Nat.ne_of_gt (Nat.zero_lt_of_lt enough))
  induction requests generalizing nodes board before ahead kept fuel with
  | nil =>
      obtain rfl : ahead = [] := List.eq_nil_of_length_eq_zero (Nat.add_left_cancel lengths)
      refine ⟨nodes, before ++ [], rfl, ?_⟩
      rw [List.filter_nil, List.filter_nil, ← pending]
      exact mirrors
  | cons request requests ih =>
      cases ahead with
      | nil => simp at lengths
      | cons node ahead =>
          have split : listsOf board .pendingRequests =
              kept.map .request ++ .request request :: requests.map .request := by
            rw [← List.map_cons, ← List.map_append, ← pending]
            rfl
          have aligned : (kept.map Content.request).length = before.length := by
            rw [List.length_map, passed]
          obtain ⟨content, next⟩ := node_ahead mirrors.lists split aligned
          simp only [List.length_cons] at enough lengths
          have shorter : before.length + ahead.length = before.length + requests.length := by
            omega
          obtain ⟨fuel, rfl⟩ := Nat.exists_eq_succ_of_ne_zero
            (Nat.ne_of_gt (Nat.zero_lt_of_lt (Nat.lt_of_succ_lt_succ enough)))
          simp only [List.head?_cons, NodeBoard.resolveFrom, content, next]
          by_cases hit : request.track = track
          · obtain ⟨woken, unblocks, result⟩ :=
              unblock_mirrors mirrors request.process .lowQueue
            have unlinked := remove_at_spot result.lists split aligned
            rw [← List.map_append] at unlinked
            rw [if_pos hit, unblocks, Option.bind_some, List.filter_cons_of_pos (by simpa using hit),
              List.filter_cons_of_neg (by simpa using hit), List.foldl_cons]
            exact ih (mirrors_pending result unlinked) rfl passed shorter fuel
              (Nat.lt_of_succ_lt_succ enough)
          · rw [List.append_cons] at mirrors pending
            rw [if_neg hit, List.filter_cons_of_neg (by simpa using hit),
              List.filter_cons_of_pos (by simpa using hit), List.append_cons kept]
            exact ih mirrors pending (by simp [passed]) (by simpa using shorter) fuel
              (Nat.lt_of_succ_lt_succ enough)

theorem tick_mirrors (mirrors : Mirrors nodes board linked) (track : Int) :
    Option.Rel Mirrored (nodeStep nodes (.tick track)) (some (board.tick track)) := by
  have walk : Mirrors nodes board ([] ++ linked) := mirrors
  obtain ⟨after, left, resolved, result⟩ := resolve_from_mirrors track walk
    (List.nil_append board.pending).symm rfl (represents_length mirrors.lists).2
  have step : nodeStep nodes (.tick track) = some after := by
    rw [nodeStep, NodeBoard.resolve, represents_head mirrors.lists]
    exact resolved
  rw [step]
  exact .some ⟨left, result⟩

theorem run_process_mirrors (mirrors : Mirrors nodes board linked) (proc : ProcId)
    (event : BoardEvent) :
    Option.Rel Mirrored (nodes.runProcess proc event) (board.runProcess proc event) := by
  cases event with
  | create | idle | tick => exact .none
  | run => exact .some ⟨linked, mirrors⟩
  | acquire name => exact acquire_mirrors mirrors proc name
  | release name => exact release_mirrors mirrors name
  | finish => exact finish_mirrors mirrors proc
  | quantum =>
      obtain ⟨after, dispatched, result⟩ := schedule_mirrors mirrors .quantumCompleted
      rw [NodeBoard.runProcess, dispatched]
      exact .some ⟨linked, result⟩
  | print =>
      obtain ⟨blocked, dispatched, parked⟩ := schedule_mirrors mirrors .ioRequested
      obtain ⟨after, wakes, result⟩ := unblock_mirrors parked proc .lowQueue
      rw [NodeBoard.runProcess, dispatched, Option.bind_some, wakes]
      exact .some ⟨linked, result⟩
  | requestDisk request =>
      by_cases own : request.process = proc
      case neg =>
          simp only [NodeBoard.runProcess, Board.runProcess, if_neg own]
          exact .none
      case pos =>
          simp only [NodeBoard.runProcess, Board.runProcess, if_pos own]
          obtain ⟨blocked, dispatched, parked⟩ := schedule_mirrors mirrors .ioRequested
          rw [dispatched]
          exact .some ⟨_, request_mirrors parked request⟩

theorem step_mirrors (mirrored : Mirrored nodes board) (event : BoardEvent) :
    Option.Rel Mirrored (nodeStep nodes event) (boardStep board event) := by
  obtain ⟨linked, mirrors⟩ := mirrored
  have running : ∀ event : BoardEvent, Option.Rel Mirrored
      (nodes.scheduledProc.bind fun proc => nodes.runProcess proc event)
      (board.queues.scheduledProc.bind fun proc => board.runProcess proc event) := by
    intro event
    rw [mirrors.scheduledProc]
    cases board.queues.scheduledProc with
    | none => exact .none
    | some proc => exact run_process_mirrors mirrors proc event
  cases event with
  | create names high => exact .some ⟨linked, create_mirrors mirrors names high⟩
  | tick track => exact tick_mirrors mirrors track
  | idle =>
      by_cases free : board.queues.scheduledProc = none
      case neg =>
          simp only [nodeStep, boardStep, mirrors.scheduledProc, if_neg free]
          exact .none
      case pos =>
          simp only [nodeStep, boardStep, mirrors.scheduledProc, if_pos free]
          obtain ⟨after, dispatched, result⟩ := schedule_mirrors mirrors .none
          rw [dispatched]
          exact .some ⟨linked, result⟩
  | run | acquire | release | requestDisk | print | quantum | finish => exact running _

end Calls

/-- Any events, in any order, are defined on the heap exactly when they are on the
sequences, and leave the sequences in the lists. -/
theorem run_mirrors (events : List BoardEvent) {nodes : NodeBoard} {board : Board}
    (mirrored : Mirrored nodes board) :
    Option.Rel Mirrored (run nodeSystem events nodes) (run boardSystem events board) := by
  induction events generalizing nodes board with
  | nil => exact .some mirrored
  | cons event events ih =>
      have step := step_mirrors mirrored event
      rw [run, run]
      change Option.Rel Mirrored ((nodeStep nodes event).bind (run nodeSystem events))
        ((boardStep board event).bind (run boardSystem events))
      generalize nodeStep nodes event = heapAfter at step
      generalize boardStep board event = boardAfter at step
      cases step with
      | none => exact .none
      | some next => exact ih next

/-- From the empty lists, whatever happens in whatever order, the heap neither fails where
the sequences do not nor goes on where they fail. -/
theorem heap_lists_refine (events : List BoardEvent) :
    Option.Rel Mirrored (run nodeSystem events nodeBoardInit)
      (run boardSystem events emptyBoard) :=
  run_mirrors events ⟨[], init_mirrors⟩

/-- Every run of the kernel runs on the linked lists, and they hold its queues, its process
table, its waiters and its pending requests. -/
theorem kernel_lists_on_heap {past : List (Kernel × KernelEvent)} {kernel : Kernel}
    (trace : Trace kernelSystem past kernel) :
    ∃ nodes, run nodeSystem (past.map fun entry => boardEvent entry.1 entry.2) nodeBoardInit =
        some nodes ∧
      Mirrored nodes (boardOf kernel) := by
  induction trace with
  | start => exact ⟨nodeBoardInit, rfl, [], init_mirrors⟩
  | @next past before after event prior fired ih =>
      obtain ⟨nodes, ran, mirrored⟩ := ih
      have step := step_mirrors mirrored (boardEvent before event)
      rw [kernel_step_board fired] at step
      rw [List.map_append, run_append, ran, Option.bind_some, List.map_singleton, run_single]
      cases stepped : nodeStep nodes (boardEvent before event) with
      | none =>
          rw [stepped] at step
          exact nomatch step
      | some next =>
          rw [stepped] at step
          cases step with
          | some result => exact ⟨next, stepped, result⟩

theorem kernel_lists_on_heap_sample :
    ∃ nodes, run nodeSystem ((history kernelSystem sampleEvents kernelInit).map fun entry =>
        boardEvent entry.1 entry.2) nodeBoardInit = some nodes ∧
      Mirrored nodes (boardOf sampleKernel) :=
  kernel_lists_on_heap (trace_history sampleEvents .start rfl)

end Ribabari.HeapRefinement

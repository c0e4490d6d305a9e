import Ribabari.Foundation.CountingSemaphore
import Ribabari.Kernel.ProgramLedger

/-!
# What the semaphores owe

Over any run, the counter of a semaphore is one less the acquisitions evaluated by
all processes plus the releases, its queue has as many processes as the counter is
below zero, and each of them evaluated its `P` last. Nothing is assumed about the
programs: bracketing and ordering come in later.
-/

namespace Ribabari.SemaphoreAccounts

open Ribabari.FirstMatch Ribabari.ProcessRecords Ribabari.SemaphoreTable
open Ribabari.KernelState Ribabari.KernelEvents Ribabari.ProgramLedger
open Ribabari.QueueBoard Ribabari.QueueRefinement Ribabari.BoardInvariants Ribabari.Placement
open Ribabari.CountingSemaphore Ribabari.TransitionSystem

set_option autoImplicit false

def isAcquire (name : CString) (instr : Instr) : Bool :=
  instr.op = .semP ∧ instr.sem = some name

def isRelease (name : CString) (instr : Instr) : Bool :=
  instr.op = .semV ∧ instr.sem = some name

/-- The `P`s less the `V`s on a semaphore. -/
def balance (name : CString) (code : List Instr) : Int :=
  code.countP (isAcquire name) - code.countP (isRelease name)

def waiters (kernel : Kernel) (name : CString) : List ProcId :=
  (semaphoreFind kernel.semTable name).elim [] Semaphore.waiters

@[simp] theorem balance_nil (name : CString) : balance name [] = 0 := rfl

theorem balance_append (name : CString) (code rest : List Instr) :
    balance name (code ++ rest) = balance name code + balance name rest := by
  simp only [balance, List.countP_append]
  omega

theorem acquire_named {name : CString} {instr : Instr} (acquires : isAcquire name instr = true) :
    instr.sem = some name := by
  simp only [isAcquire, decide_eq_true_eq] at acquires
  exact acquires.2

theorem release_named {name : CString} {instr : Instr} (releases : isRelease name instr = true) :
    instr.sem = some name := by
  simp only [isRelease, decide_eq_true_eq] at releases
  exact releases.2

theorem acquire_not_release {name : CString} {instr : Instr}
    (acquires : isAcquire name instr = true) : isRelease name instr = false := by
  simp only [isAcquire, decide_eq_true_eq] at acquires
  simp [isRelease, acquires.1]

theorem balance_acquire {name : CString} {instr : Instr}
    (acquires : isAcquire name instr = true) : balance name [instr] = 1 := by
  simp [balance, acquires, acquire_not_release acquires]

theorem balance_release {name : CString} {instr : Instr}
    (releases : isRelease name instr = true) : balance name [instr] = -1 := by
  have other : isAcquire name instr = false := by
    by_contra acquires
    rw [acquire_not_release (by simpa using acquires)] at releases
    exact Bool.false_ne_true releases
  simp [balance, releases, other]

theorem balance_other {name : CString} {instr : Instr} (acquires : isAcquire name instr = false)
    (releases : isRelease name instr = false) : balance name [instr] = 0 := by
  simp [balance, acquires, releases]

variable {kernel after : Kernel} {ledger : Ledger}

/-! ## The semaphore table along a step -/

theorem semaphore_p_stored {World : Type*} (sem : Semaphore) (proc : ProcId)
    (sleep : World → World) (world : World) :
    (semaphoreP sem proc sleep world).1 =
      { sem with
        S := sem.S - 1
        waiters := if sem.S - 1 < 0 then sem.waiters ++ [proc] else sem.waiters } := by
  unfold semaphoreP
  split
  case isTrue => rfl
  case isFalse => rfl

theorem semaphore_v_stored {World : Type*} {sem stored : Semaphore}
    {wakeup : ProcId → World → World} {world woken : World}
    (released : semaphoreV sem wakeup world = some (stored, woken)) :
    stored =
      { sem with
        S := sem.S + 1
        waiters := if sem.S + 1 ≤ 0 then sem.waiters.tail else sem.waiters } := by
  unfold semaphoreV at released
  split at released
  case isTrue asleep =>
      split at released
      case h_1 => simp at released
      case h_2 proc rest waiting =>
          rw [← (Prod.mk.inj (Option.some.inj released)).1]
          simp [asleep, waiting]
  case isFalse awake =>
      rw [← (Prod.mk.inj (Option.some.inj released)).1]
      simp [awake]

/-- Only loads and the two semaphore instructions write the table. -/
def sparesSemaphores : BoardEvent → Bool
  | .create _ _ | .acquire _ | .release _ => false
  | .idle | .tick _ | .run | .print | .quantum | .requestDisk _ | .finish => true

theorem board_semaphores {board next : Board} {event : BoardEvent}
    (fired : boardStep board event = some next) (spares : sparesSemaphores event = true) :
    next.semTable = board.semTable := by
  cases event with
  | create | acquire | release => exact nomatch spares
  | idle => rw [(idle_inv fired).2]
  | tick track => rw [← Option.some.inj fired, Board.tick]
  | run | print | quantum =>
      obtain ⟨proc, -, fired⟩ := Option.bind_eq_some_iff.mp fired
      rw [← Option.some.inj fired]
  | requestDisk request =>
      obtain ⟨proc, -, fired⟩ := Option.bind_eq_some_iff.mp fired
      rw [(request_inv fired).2]
  | finish =>
      obtain ⟨proc, -, fired⟩ := Option.bind_eq_some_iff.mp fired
      rw [(finish_inv fired).2, Board.finish]

/-- What an instruction of the scheduled process does to the table. -/
theorem execute_semaphores {instr : Instr} {proc : ProcId}
    (running : kernel.scheduler.scheduledProc = some proc)
    (fired : kernelStep kernel (.execute instr) = some after) :
    ((∀ name, isAcquire name instr = false ∧ isRelease name instr = false) ∧
        after.semTable = kernel.semTable) ∨
      (∃ name sem, isAcquire name instr = true ∧
        semaphoreFind kernel.semTable name = some sem ∧
        after.semTable = storeSemaphore kernel.semTable
          { sem with
            S := sem.S - 1
            waiters := if sem.S - 1 < 0 then sem.waiters ++ [proc] else sem.waiters }) ∨
      ∃ name sem, isRelease name instr = true ∧
        semaphoreFind kernel.semTable name = some sem ∧
        after.semTable = storeSemaphore kernel.semTable
          { sem with
            S := sem.S + 1
            waiters := if sem.S + 1 ≤ 0 then sem.waiters.tail else sem.waiters } := by
  have step := kernel_step_board fired
  simp only [kernelStep, running] at fired
  rcases instr with ⟨op, value, text⟩
  simp only [boardEvent, running, Option.getD_some] at step
  have scheduled : (boardOf kernel).queues.scheduledProc = some proc := running
  cases op with
  | semP =>
      cases text with
      | none => simp [eval, instrSemaphore, sysCall] at fired
      | some name =>
          simp only [instrEvent, Option.getD_some, boardStep, scheduled, Option.bind_some,
            Board.runProcess] at step
          obtain ⟨sem, found, board⟩ := Option.map_eq_some_iff.mp step
          have table := congrArg Board.semTable board
          simp only [Board.acquire, semaphore_p_stored] at table
          exact .inr (.inl ⟨name, sem, by simp [isAcquire], found, table.symm⟩)
  | semV =>
      cases text with
      | none => simp [eval, instrSemaphore, sysCall] at fired
      | some name =>
          simp only [instrEvent, Option.getD_some, boardStep, scheduled, Option.bind_some,
            Board.runProcess] at step
          obtain ⟨sem, found, board⟩ := Option.bind_eq_some_iff.mp step
          obtain ⟨⟨stored, queues⟩, released, board⟩ := Option.map_eq_some_iff.mp board
          have table := congrArg Board.semTable board
          rw [semaphore_v_stored released] at table
          exact .inr (.inr ⟨name, sem, by simp [isRelease], found, table.symm⟩)
  | exec | read | write | print =>
      have table := board_semaphores step rfl
      exact .inl ⟨fun name => by simp [isAcquire, isRelease], table⟩

/-! ## The accounts -/

structure SemaphoresBalanced (kernel : Kernel) (ledger : Ledger) : Prop where
  names : (kernel.semTable.map Semaphore.name).Nodup
  balanced : ∀ {name sem}, semaphoreFind kernel.semTable name = some sem →
    Balanced (Finset.range kernel.nextProcId) 1 sem.S sem.waiters
      (fun proc => balance name (ledger.evaluated proc))
  asked : ∀ {name sem}, semaphoreFind kernel.semTable name = some sem → ∀ proc ∈ sem.waiters,
    ∃ earlier instr, ledger.evaluated proc = earlier ++ [instr] ∧ isAcquire name instr = true
  unregistered : ∀ {name}, semaphoreFind kernel.semTable name = none →
    ∀ proc, balance name (ledger.evaluated proc) = 0

theorem balanced_of_tables (accounts : SemaphoresBalanced kernel ledger)
    (table : after.semTable = kernel.semTable) (next : after.nextProcId = kernel.nextProcId) :
    SemaphoresBalanced after ledger where
  names := table ▸ accounts.names
  balanced := fun found => next ▸ accounts.balanced (table ▸ found)
  asked := fun found => accounts.asked (table ▸ found)
  unregistered := fun missing => accounts.unregistered (table ▸ missing)

theorem create_balanced (accounts : SemaphoresBalanced kernel ledger)
    (ledgered : Ledgered kernel ledger) (program : Program) (fresh : Nat → SegmentMemory.Page) :
    SemaphoresBalanced (processCreate kernel program fresh)
      (ledger.record kernel (.processCreate program fresh)) := by
  have table : (processCreate kernel program fresh).semTable =
      program.semaphores.foldl semaphoreRegister kernel.semTable :=
    congrArg Board.semTable (create_board kernel program fresh)
  have next : (processCreate kernel program fresh).nextProcId = kernel.nextProcId + 1 :=
    congrArg Board.nextProcId (create_board kernel program fresh)
  have unused : ∀ name, ∀ proc ∈ Finset.range (kernel.nextProcId + 1),
      proc ∉ Finset.range kernel.nextProcId → balance name (ledger.evaluated proc) = 0 := by
    intro name proc _ beyond
    rw [Finset.mem_range, Nat.not_lt] at beyond
    rw [(ledgered.unused proc beyond).2, balance_nil]
  refine
    { names := table ▸ registered_names _ accounts.names
      balanced := ?_
      asked := ?_
      unregistered := fun missing =>
        accounts.unregistered (registered_find_none (table ▸ missing)) }
  · intro name sem found
    rw [next]
    rcases find_registered (table ▸ found) with old | ⟨missing, rfl⟩
    · exact (accounts.balanced old).widen
        (Finset.range_mono (Nat.le_succ _)) (unused name)
    · exact Balanced.initial _ (by decide) fun proc _ => accounts.unregistered missing proc
  · intro name sem found
    rcases find_registered (table ▸ found) with old | ⟨missing, rfl⟩
    · exact accounts.asked old
    · intro proc member
      exact absurd member List.not_mem_nil

section Execute

variable {proc : ProcId} {instr : Instr}

theorem recorded_evaluated (running : kernel.scheduler.scheduledProc = some proc)
    (other : ProcId) :
    (ledger.record kernel (.execute instr)).evaluated other =
      if other = proc then ledger.evaluated proc ++ [instr] else ledger.evaluated other := by
  simp only [Ledger.record, running, Function.update_apply]

/-- The scheduled process waits on no semaphore. -/
theorem running_awake (accounted : Accounted (boardOf kernel))
    (running : kernel.scheduler.scheduledProc = some proc) {name : CString} {sem : Semaphore}
    (found : semaphoreFind kernel.semTable name = some sem) : proc ∉ sem.waiters := by
  intro waits
  refine accounted.scheduled_not_blocked running (accounted.blocked.mem_iff.mpr ?_)
  exact List.mem_append_left _
    (List.mem_flatMap.mpr ⟨sem, List.mem_of_find?_eq_some found, waits⟩)

/-- A semaphore that the instruction does not name keeps its account. -/
theorem untouched_balanced (ledger : Ledger)
    (running : kernel.scheduler.scheduledProc = some proc) {name : CString}
    (acquires : isAcquire name instr = false) (releases : isRelease name instr = false)
    (other : ProcId) :
    balance name ((ledger.record kernel (.execute instr)).evaluated other) =
      balance name (ledger.evaluated other) := by
  rw [recorded_evaluated running]
  split
  case isTrue same => rw [same, balance_append, balance_other acquires releases, add_zero]
  case isFalse => rfl

theorem still_asked (accounts : SemaphoresBalanced kernel ledger)
    (accounted : Accounted (boardOf kernel))
    (running : kernel.scheduler.scheduledProc = some proc) {name : CString} {sem : Semaphore}
    (found : semaphoreFind kernel.semTable name = some sem) {other : ProcId}
    (waits : other ∈ sem.waiters) :
    ∃ earlier last, (ledger.record kernel (.execute instr)).evaluated other = earlier ++ [last] ∧
      isAcquire name last = true := by
  have different : other ≠ proc := by
    rintro rfl
    exact running_awake accounted running found waits
  rw [recorded_evaluated running, if_neg different]
  exact accounts.asked found other waits

theorem names_differ {name other : CString} (named : instr.sem = some name)
    (different : other ≠ name) :
    isAcquire other instr = false ∧ isRelease other instr = false := by
  simp [isAcquire, isRelease, named, different.symm]

/-- Storing the new account of the semaphore that the instruction names. -/
theorem stored_balanced (accounts : SemaphoresBalanced kernel ledger)
    (accounted : Accounted (boardOf kernel))
    (running : kernel.scheduler.scheduledProc = some proc)
    (next : after.nextProcId = kernel.nextProcId) {name : CString} {sem stored : Semaphore}
    (named : instr.sem = some name) (found : semaphoreFind kernel.semTable name = some sem)
    (table : after.semTable = storeSemaphore kernel.semTable stored)
    (same : stored.name = sem.name)
    (balanced : Balanced (Finset.range kernel.nextProcId) 1 stored.S stored.waiters
      (fun other => balance name ((ledger.record kernel (.execute instr)).evaluated other)))
    (asked : ∀ other ∈ stored.waiters, ∃ earlier last,
      (ledger.record kernel (.execute instr)).evaluated other = earlier ++ [last] ∧
        isAcquire name last = true) :
    SemaphoresBalanced after (ledger.record kernel (.execute instr)) := by
  have semName : sem.name = name := find_name found
  have here : semaphoreFind after.semTable name = some stored := by
    rw [table, ← semName]
    exact find_store_same (by rw [semName]; exact found) same
  have elsewhere : ∀ other, other ≠ name →
      semaphoreFind after.semTable other = semaphoreFind kernel.semTable other := by
    intro other different
    rw [table]
    exact find_store_other (by rw [same, semName]; exact different)
  refine
    { names := by
        rw [table, store_names]
        exact accounts.names
      balanced := ?_
      asked := ?_
      unregistered := ?_ }
  · intro other otherSem otherFound
    rw [next]
    by_cases this : other = name
    · subst this
      obtain rfl : stored = otherSem := Option.some.inj (here.symm.trans otherFound)
      exact balanced
    · rw [elsewhere other this] at otherFound
      obtain ⟨acquires, releases⟩ := names_differ named this
      exact (accounts.balanced otherFound).congr fun proc _ =>
        untouched_balanced ledger running acquires releases proc
  · intro other otherSem otherFound
    by_cases this : other = name
    · subst this
      obtain rfl : stored = otherSem := Option.some.inj (here.symm.trans otherFound)
      exact asked
    · rw [elsewhere other this] at otherFound
      exact fun waiter waits => still_asked accounts accounted running otherFound waits
  · intro other missing waiter
    by_cases this : other = name
    · subst this
      rw [here] at missing
      exact absurd missing (Option.some_ne_none _)
    · rw [elsewhere other this] at missing
      obtain ⟨acquires, releases⟩ := names_differ named this
      rw [untouched_balanced ledger running acquires releases]
      exact accounts.unregistered missing waiter

theorem execute_balanced (accounts : SemaphoresBalanced kernel ledger)
    (accounted : Accounted (boardOf kernel))
    (running : kernel.scheduler.scheduledProc = some proc)
    (numbered : proc < kernel.nextProcId)
    (fired : kernelStep kernel (.execute instr) = some after) :
    SemaphoresBalanced after (ledger.record kernel (.execute instr)) := by
  have next : after.nextProcId = kernel.nextProcId := by
    obtain ⟨scheduled, -, code⟩ := execute_code fired
    exact code.next
  have member : proc ∈ Finset.range kernel.nextProcId := Finset.mem_range.mpr numbered
  have own : (ledger.record kernel (.execute instr)).evaluated proc =
      ledger.evaluated proc ++ [instr] := by
    rw [recorded_evaluated running, if_pos rfl]
  have others : ∀ name other, other ≠ proc →
      balance name ((ledger.record kernel (.execute instr)).evaluated other) =
        balance name (ledger.evaluated other) := by
    intro name other different
    rw [recorded_evaluated running, if_neg different]
  rcases execute_semaphores running fired with
    ⟨neither, table⟩ | ⟨name, sem, acquires, found, table⟩ | ⟨name, sem, releases, found, table⟩
  · have same := fun name other => untouched_balanced ledger running
      (neither name).1 (neither name).2 other
    exact
      { names := table ▸ accounts.names
        balanced := fun {name _} found => next ▸
          (accounts.balanced (table ▸ found)).congr fun other _ => same name other
        asked := fun found other waits =>
          still_asked accounts accounted running (table ▸ found) waits
        unregistered := fun {name} missing other =>
          (same name other).trans (accounts.unregistered (table ▸ missing) other) }
  · have awake := running_awake accounted running found
    refine stored_balanced accounts accounted running next (acquire_named acquires) found table
      rfl ?_ ?_
    · exact (accounts.balanced found).acquire member awake
        (by rw [own, balance_append, balance_acquire acquires]) (others name)
    · intro other waits
      by_cases same : other = proc
      · exact ⟨_, _, same ▸ own, acquires⟩
      · apply still_asked accounts accounted running found
        dsimp only at waits
        split at waits
        · exact (List.mem_append.mp waits).resolve_right (by simpa using same)
        · exact waits
  · refine stored_balanced accounts accounted running next (release_named releases) found table
      rfl ?_ ?_
    · exact (accounts.balanced found).release member
        (by rw [own, balance_append, balance_release releases]; rfl) (others name)
    · intro other waits
      apply still_asked accounts accounted running found
      dsimp only at waits
      split at waits
      · exact List.mem_of_mem_tail waits
      · exact waits

end Execute

theorem step_balanced {event : KernelEvent} (reached : Reachable kernelSystem kernel)
    (ledgered : Ledgered kernel ledger) (accounts : SemaphoresBalanced kernel ledger)
    (fired : kernelStep kernel event = some after) :
    SemaphoresBalanced after (ledger.record kernel event) := by
  cases event with
  | processCreate program fresh =>
      obtain rfl := Option.some.inj fired
      exact create_balanced accounts ledgered program fresh
  | execute instr =>
      obtain ⟨proc, running, -⟩ := execute_code fired
      exact execute_balanced accounts (kernel_accounted reached) running
        (scheduled_numbered reached running).2 fired
  | processFinish =>
      have table := board_semaphores (kernel_step_board fired) rfl
      obtain ⟨proc, running, finished⟩ := finish_fires fired
      exact balanced_of_tables accounts table (finish_code running finished).next
  | idleDispatch | quantumCompleted | diskTick =>
      have table := board_semaphores (kernel_step_board fired) rfl
      exact balanced_of_tables accounts table (spared_code fired rfl).next

theorem empty_balanced : SemaphoresBalanced kernelInit Ledger.empty where
  names := List.nodup_nil
  balanced := fun found => by simp [kernelInit, semaphoreFind] at found
  asked := fun found => by simp [kernelInit, semaphoreFind] at found
  unregistered := fun _ _ => rfl

/-- In every reachable state every semaphore's account is balanced. -/
theorem reachable_balanced {state : Kernel × Ledger} (reached : Reachable recordedSystem state) :
    SemaphoresBalanced state.1 state.2 := by
  refine reachable_invariant (fun state => SemaphoresBalanced state.1 state.2) reached
    empty_balanced ?_
  intro before event after reachedBefore accounts fired
  obtain ⟨step, record⟩ := history_step fired
  rw [record]
  exact step_balanced (history_reachable reachedBefore) (reachable_ledgered reachedBefore)
    accounts step

end Ribabari.SemaphoreAccounts

import Ribabari.Kernel.SemaphoreAccounts

/-!
# Mutual exclusion

A program that brackets its critical sections has taken the semaphore at most once
at any time. With one permit the balanced account then leaves room for one process
outside the queue, also when a release hands the section over.
-/

namespace Ribabari.MutualExclusion

open Ribabari.ProcessRecords Ribabari.SemaphoreTable Ribabari.KernelState
open Ribabari.KernelEvents Ribabari.ProgramLedger Ribabari.SemaphoreAccounts
open Ribabari.CountingSemaphore Ribabari.Placement Ribabari.TransitionSystem

set_option autoImplicit false

/-- The `P`s and `V`s on the semaphore strictly alternate, beginning with a `V`
exactly when the section is already `entered`. -/
def alternates (name : CString) : Bool → List Instr → Bool
  | _, [] => true
  | entered, instr :: rest =>
      if isAcquire name instr then !entered && alternates name true rest
      else if isRelease name instr then entered && alternates name false rest
      else alternates name entered rest

/-- Well bracketed: strictly alternating, beginning with a `P`. -/
def Bracketed (name : CString) (code : List Instr) : Prop := alternates name false code = true

instance (name : CString) (code : List Instr) : Decidable (Bracketed name code) :=
  inferInstanceAs (Decidable (_ = true))

/-- The process has evaluated one more `P` than `V` and does not wait. -/
def Inside (name : CString) (state : Kernel × Ledger) (proc : ProcId) : Prop :=
  balance name (state.2.evaluated proc) = 1 ∧ proc ∉ waiters state.1 name

theorem alternates_balance {name : CString} {entered : Bool} {code done : List Instr}
    (bracketed : alternates name entered code = true) (part : done <+: code) :
    0 ≤ entered.toNat + balance name done ∧ entered.toNat + balance name done ≤ 1 := by
  induction code generalizing entered done with
  | nil =>
      obtain rfl := List.prefix_nil.mp part
      cases entered <;> simp
  | cons instr rest ih =>
      rcases List.prefix_cons_iff.mp part with rfl | ⟨tail, rfl, inner⟩
      · cases entered <;> simp
      · have split : balance name (instr :: tail) = balance name [instr] + balance name tail :=
          balance_append name [instr] tail
        rw [alternates] at bracketed
        by_cases acquires : isAcquire name instr = true
        · rw [if_pos acquires, Bool.and_eq_true, Bool.not_eq_true'] at bracketed
          obtain ⟨rfl, bracketed⟩ := bracketed
          have bounds := ih bracketed inner
          rw [split, balance_acquire acquires]
          simp only [Bool.toNat_true, Bool.toNat_false] at bounds ⊢
          omega
        · rw [if_neg acquires] at bracketed
          by_cases releases : isRelease name instr = true
          · rw [if_pos releases, Bool.and_eq_true] at bracketed
            obtain ⟨rfl, bracketed⟩ := bracketed
            have bounds := ih bracketed inner
            rw [split, balance_release releases]
            simp only [Bool.toNat_true, Bool.toNat_false] at bounds ⊢
            omega
          · rw [if_neg releases] at bracketed
            rw [split, balance_other (by simpa using acquires) (by simpa using releases),
              zero_add]
            exact ih bracketed inner

theorem bracketed_balance {name : CString} {code done : List Instr}
    (bracketed : Bracketed name code) (part : done <+: code) :
    0 ≤ balance name done ∧ balance name done ≤ 1 := by
  simpa using alternates_balance bracketed part

/-- Somebody who waits has asked for the semaphore and does not have it. -/
theorem waiter_balance {name : CString} {code evaluated earlier : List Instr} {last : Instr}
    (bounds : ∀ done, done <+: code → 0 ≤ balance name done ∧ balance name done ≤ 1)
    (part : evaluated <+: code) (shape : evaluated = earlier ++ [last])
    (acquires : isAcquire name last = true) : balance name evaluated = 1 := by
  have whole := bounds evaluated part
  have before := bounds earlier ((shape ▸ List.prefix_append earlier [last]).trans part)
  rw [shape, balance_append, balance_acquire acquires] at whole ⊢
  omega

section Runs

variable {name : CString} {past : List ((Kernel × Ledger) × KernelEvent)}
  {state : Kernel × Ledger}

theorem waiters_asked (trace : Trace recordedSystem past state)
    (bounds : ∀ proc done, done <+: state.2.loaded proc →
      0 ≤ balance name done ∧ balance name done ≤ 1)
    (follows : ∀ proc, state.2.evaluated proc <+: state.2.loaded proc) {sem : Semaphore}
    (found : semaphoreFind state.1.semTable name = some sem) :
    ∀ proc ∈ sem.waiters, balance name (state.2.evaluated proc) = 1 := by
  intro proc waits
  obtain ⟨earlier, last, shape, acquires⟩ :=
    (reachable_balanced ⟨past, trace⟩).asked found proc waits
  exact waiter_balance (bounds proc) (follows proc) shape acquires

theorem holder_numbered (trace : Trace recordedSystem past state) {proc : ProcId}
    (holds : 0 < balance name (state.2.evaluated proc)) :
    proc ∈ Finset.range state.1.nextProcId := by
  rw [Finset.mem_range]
  by_contra beyond
  have unused := (reachable_ledgered ⟨past, trace⟩).unused proc (Nat.not_lt.mp beyond)
  rw [unused.2, balance_nil] at holds
  exact Int.lt_irrefl 0 holds

theorem loaded_bounds (trace : Trace recordedSystem past state)
    (bracketed : ∀ entry ∈ past, Loads (Bracketed name) entry.2) (proc : ProcId)
    (done : List Instr) (part : done <+: state.2.loaded proc) :
    0 ≤ balance name done ∧ balance name done ≤ 1 :=
  bracketed_balance (loaded_ok (Bracketed name) rfl trace bracketed proc) part

theorem inside_unique (trace : Trace recordedSystem past state)
    (bracketed : ∀ entry ∈ past, Loads (Bracketed name) entry.2)
    (inRange : ∀ entry ∈ past, FetchInRange entry.1 entry.2) {first second : ProcId}
    (firstInside : Inside name state first) (secondInside : Inside name state second) :
    first = second := by
  have follows := evaluated_prefix trace inRange
  have bounds := loaded_bounds trace bracketed
  have accounts := reachable_balanced ⟨past, trace⟩
  obtain ⟨firstHolds, firstAwake⟩ := firstInside
  obtain ⟨secondHolds, secondAwake⟩ := secondInside
  have firstListed := holder_numbered trace (firstHolds ▸ Int.one_pos)
  have secondListed := holder_numbered trace (secondHolds ▸ Int.one_pos)
  cases found : semaphoreFind state.1.semTable name with
  | none =>
      rw [accounts.unregistered found first] at firstHolds
      exact absurd firstHolds (by decide)
  | some sem =>
      simp only [waiters, found, Option.elim_some] at firstAwake secondAwake
      exact (accounts.balanced found).holder_unique (waiters_asked trace bounds follows found)
        (fun proc _ => (bounds proc _ (follows proc)).1) firstListed secondListed
        firstAwake secondAwake firstHolds secondHolds

theorem waited_for_inside (trace : Trace recordedSystem past state)
    (bracketed : ∀ entry ∈ past, Loads (Bracketed name) entry.2)
    (inRange : ∀ entry ∈ past, FetchInRange entry.1 entry.2)
    (waiting : waiters state.1 name ≠ []) : ∃ proc, Inside name state proc := by
  have follows := evaluated_prefix trace inRange
  have bounds := loaded_bounds trace bracketed
  cases found : semaphoreFind state.1.semTable name with
  | none => simp [waiters, found] at waiting
  | some sem =>
      have queue : waiters state.1 name = sem.waiters := by simp [waiters, found]
      obtain ⟨proc, -, awake, holds⟩ :=
        ((reachable_balanced ⟨past, trace⟩).balanced found).exists_holder
          (waiters_asked trace bounds follows found) (by decide) (queue ▸ waiting)
      have upper := (bounds proc _ (follows proc)).2
      exact ⟨proc, by omega, queue ▸ awake⟩

/-- At most one process, live or finished, is inside the critical section, and
exactly one while somebody waits, when every loaded program is well bracketed for the
semaphore and the fetches stay in range. -/
theorem critical_section_is_exclusive (name : CString) (trace : Trace recordedSystem past state)
    (bracketed : ∀ entry ∈ past, Loads (Bracketed name) entry.2)
    (inRange : ∀ entry ∈ past, FetchInRange entry.1 entry.2) :
    (∀ first second, Inside name state first → Inside name state second → first = second) ∧
      (waiters state.1 name ≠ [] → ∃! proc, Inside name state proc) := by
  constructor
  · intro first second firstInside secondInside
    exact inside_unique trace bracketed inRange firstInside secondInside
  · intro waiting
    obtain ⟨proc, inside⟩ := waited_for_inside trace bracketed inRange waiting
    exact ⟨proc, inside, fun other otherInside =>
      inside_unique trace bracketed inRange otherInside inside⟩

end Runs

/-- The first process holds the semaphore while it waits for the disk, the second
waits for the first. -/
theorem critical_section_is_exclusive_sample : ∃! proc, Inside ['s'] sampleRecord proc :=
  (critical_section_is_exclusive ['s'] sample_trace (by decide) (by decide)).2 (by decide)

end Ribabari.MutualExclusion

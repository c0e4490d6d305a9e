import Ribabari.Foundation.TransitionSystem
import Ribabari.Model.SemaphoreTable

/-!
# The order of grants

One semaphore under any sequence of calls. A process is granted when its P returns
without the callback `sleep` or when it is handed to the callback `wakeup`. The granted
processes followed by the waiters are the callers of P in call order, and the counter
says where the list is cut: it is decremented before it is tested for `< 0` and
incremented before it is tested for `<= 0`, which is the same cut seen from both sides.
-/

namespace Ribabari.GrantOrder

open Ribabari.ProcessRecords Ribabari.SemaphoreTable Ribabari.TransitionSystem

set_option autoImplicit false

inductive SemaphoreCall where
  | P (proc : ProcId)
  | V
  deriving DecidableEq, Repr

/-- The semaphore and the processes granted so far. -/
structure GrantState where
  sem : Semaphore
  granted : List ProcId
  deriving DecidableEq, Repr

/-- The callbacks act on the list of grants: `sleep` grants nothing. -/
def grantStep (state : GrantState) : SemaphoreCall → Option GrantState
  | .P proc =>
      let result := semaphoreP state.sem proc id state.granted
      some
        { sem := result.1
          granted := if result.2.2 then result.2.1 else result.2.1 ++ [proc] }
  | .V =>
      (semaphoreV state.sem (fun proc granted => granted ++ [proc]) state.granted).map
        fun result => { sem := result.1, granted := result.2 }

def grantSystem (name : CString) : System GrantState SemaphoreCall where
  start := { sem := semaphoreInit name 1, granted := [] }
  step := grantStep

/-- The callers of P in call order. -/
def callers (calls : List SemaphoreCall) : List ProcId :=
  calls.filterMap fun call =>
    match call with
    | .P proc => some proc
    | .V => none

def releases (calls : List SemaphoreCall) : Nat := calls.count .V

/-- The cut of the callers into granted and waiting ones. -/
structure Granted (state : GrantState) (asked : List ProcId) (released : Nat) : Prop where
  value : state.sem.S = 1 - asked.length + released
  split : state.granted ++ state.sem.waiters = asked
  queued : (state.sem.waiters.length : Int) = max 0 (-state.sem.S)

section Steps

variable {state : GrantState} {asked : List ProcId} {released : Nat}

/-- The caller is granted at once exactly when nobody waits after its call. -/
theorem p_granted (granted : Granted state asked released) (proc : ProcId) :
    ∃ after, grantStep state (.P proc) = some after ∧ Granted after (asked ++ [proc]) released := by
  have value := granted.value
  have queued := granted.queued
  refine ⟨_, rfl, ?_⟩
  by_cases short : state.sem.S - 1 < 0
  · constructor
    · simp only [semaphoreP, short, if_true, List.length_append, List.length_singleton]
      omega
    · simp only [semaphoreP, short, if_true, id]
      rw [← List.append_assoc, granted.split]
    · simp only [semaphoreP, short, if_true, List.length_append, List.length_singleton]
      omega
  · have nobody : state.sem.waiters = [] := by
      apply List.eq_nil_of_length_eq_zero
      omega
    have split := granted.split
    rw [nobody, List.append_nil] at split
    constructor
    · simp only [semaphoreP, short, if_false, List.length_append, List.length_singleton]
      omega
    · simp only [semaphoreP, short, if_false, Bool.false_eq_true, nobody, split, List.append_nil]
    · simp only [semaphoreP, short, if_false]
      omega

/-- A release that finds a negative counter hands its unit to the head of the list,
which is there. -/
theorem v_granted (granted : Granted state asked released) :
    ∃ after, grantStep state .V = some after ∧ Granted after asked (released + 1) := by
  have value := granted.value
  have queued := granted.queued
  by_cases asleep : state.sem.S + 1 ≤ 0
  · cases waiters : state.sem.waiters with
    | nil =>
        rw [waiters, List.length_nil] at queued
        omega
    | cons proc rest =>
        have split := granted.split
        rw [waiters] at split queued
        rw [List.length_cons] at queued
        refine ⟨{ sem := { state.sem with S := state.sem.S + 1, waiters := rest }
                  granted := state.granted ++ [proc] }, ?_, ?_⟩
        · simp only [grantStep, semaphoreV, asleep, if_true, waiters, Option.map_some]
        · constructor
          · push_cast
            omega
          · rw [← split, List.append_assoc, List.singleton_append]
          · dsimp only
            omega
  · refine ⟨{ state with sem := { state.sem with S := state.sem.S + 1 } }, ?_, ?_⟩
    · simp only [grantStep, semaphoreV, asleep, if_false, Option.map_some]
    · constructor
      · push_cast
        omega
      · exact granted.split
      · dsimp only
        omega

theorem run_granted (name : CString) (granted : Granted state asked released)
    (calls : List SemaphoreCall) :
    ∃ after, run (grantSystem name) calls state = some after ∧
      Granted after (asked ++ callers calls) (released + releases calls) := by
  induction calls generalizing state asked released with
  | nil => exact ⟨state, rfl, by simpa [callers, releases] using granted⟩
  | cons call calls ih =>
      cases call with
      | P proc =>
          obtain ⟨next, fired, grantedNext⟩ := p_granted granted proc
          obtain ⟨after, ran, grantedAfter⟩ := ih grantedNext
          refine ⟨after, ?_, ?_⟩
          · rw [run, show (grantSystem name).step state (.P proc) = some next from fired,
              Option.bind_some, ran]
          · simpa [callers, releases] using grantedAfter
      | V =>
          obtain ⟨next, fired, grantedNext⟩ := v_granted granted
          obtain ⟨after, ran, grantedAfter⟩ := ih grantedNext
          refine ⟨after, ?_, ?_⟩
          · rw [run, show (grantSystem name).step state .V = some next from fired,
              Option.bind_some, ran]
          · have count : released + releases (.V :: calls) = released + 1 + releases calls := by
              rw [releases, List.count_cons_self, ← releases]
              omega
            rw [count]
            exact grantedAfter

end Steps

theorem start_granted (name : CString) : Granted (grantSystem name).start [] 0 where
  value := rfl
  split := rfl
  queued := rfl

/-- After any calls the counter is one less the P calls plus the V calls, the waiters are
the last callers of P and the granted ones the first, both in call order, and the numbers
of both follow from the numbers of calls. No call is ever undefined. -/
theorem grants_in_call_order (name : CString) (calls : List SemaphoreCall) :
    ∃ state, run (grantSystem name) calls (grantSystem name).start = some state ∧
      state.sem.S = 1 - (callers calls).length + releases calls ∧
      state.granted = (callers calls).take (min (callers calls).length (1 + releases calls)) ∧
      state.sem.waiters = (callers calls).drop (min (callers calls).length (1 + releases calls)) ∧
      (state.sem.waiters.length : Int) =
        max 0 ((callers calls).length - 1 - releases calls) ∧
      (state.sem.waiters.length : Int) = max 0 (-state.sem.S) := by
  obtain ⟨state, ran, granted⟩ := run_granted name (start_granted name) calls
  rw [List.nil_append, Nat.zero_add] at granted
  obtain ⟨value, split, queued⟩ := granted
  have lengths := congrArg List.length split
  rw [List.length_append] at lengths
  have cut : min (callers calls).length (1 + releases calls) = state.granted.length := by omega
  refine ⟨state, ran, value, ?_, ?_, ?_, queued⟩
  · rw [cut, ← split, List.take_left]
  · rw [cut, ← split, List.drop_left]
  · omega

end Ribabari.GrantOrder

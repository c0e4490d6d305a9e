import Mathlib.Data.Char
import Mathlib.Data.List.Lex
import Ribabari.Kernel.MutualExclusion

/-!
# Deadlock freedom under ordered acquisition

A process that waits for a semaphore holds only smaller ones, and a contended
semaphore has a holder outside its queue. The holder is live, since a finished
process has given everything back, so the processes cannot all wait.
-/

namespace Ribabari.DeadlockFreedom

open Ribabari.ProcessRecords Ribabari.SemaphoreTable Ribabari.KernelState
open Ribabari.KernelEvents Ribabari.ProgramLedger Ribabari.SemaphoreAccounts
open Ribabari.QueueBoard Ribabari.QueueRefinement Ribabari.Placement
open Ribabari.CountingSemaphore Ribabari.MutualExclusion Ribabari.TransitionSystem

set_option autoImplicit false

/-- Every `P` comes while only smaller semaphores are held, every `V` releases a
semaphore that is held, and none is held at the end. -/
structure Ordered (before : CString → CString → Prop) (code : List Instr) : Prop where
  acquires : ∀ pc instr, code[pc]? = some instr → ∀ name, isAcquire name instr = true →
    ∀ held, 0 < balance held (code.take pc) → before held name
  releases : ∀ pc instr, code[pc]? = some instr → ∀ name, isRelease name instr = true →
    0 < balance name (code.take pc)
  returns : ∀ name, balance name code = 0

/-- A process is finished at the end of its code only, which `cpu()` tests first. -/
def FinishesAtEnd (state : Kernel × Ledger) : KernelEvent → Prop
  | .processFinish => ∀ proc, state.1.scheduler.scheduledProc = some proc →
      (state.1.procs proc).codeLen ≤ (state.1.procs proc).pc
  | _ => True

theorem empty_ordered (before : CString → CString → Prop) : Ordered before [] where
  acquires := fun _ _ found => by simp at found
  releases := fun _ _ found => by simp at found
  returns := fun _ => rfl

theorem prefix_at {code done : List Instr} {instr : Instr} (part : done ++ [instr] <+: code) :
    code[done.length]? = some instr ∧ code.take done.length = done := by
  obtain ⟨rest, rfl⟩ := part
  simp

/-- Holding only smaller semaphores excludes taking one twice. -/
theorem ordered_balance {before : CString → CString → Prop} [IsStrictOrder CString before]
    {code : List Instr} (ordered : Ordered before code) (name : CString) {done : List Instr}
    (part : done <+: code) : 0 ≤ balance name done ∧ balance name done ≤ 1 := by
  induction done using List.reverseRecOn with
  | nil => simp
  | append_singleton done instr ih =>
      have bounds := ih ((List.prefix_append done [instr]).trans part)
      obtain ⟨found, passed⟩ := prefix_at part
      rw [balance_append]
      by_cases acquires : isAcquire name instr = true
      · have free : ¬0 < balance name done := fun held =>
          Std.Irrefl.irrefl name (ordered.acquires _ instr found name acquires name
            (passed.symm ▸ held))
        rw [balance_acquire acquires]
        omega
      · by_cases releases : isRelease name instr = true
        · have held := ordered.releases _ instr found name releases
          rw [passed] at held
          rw [balance_release releases]
          omega
        · rw [balance_other (by simpa using acquires) (by simpa using releases), add_zero]
          exact bounds

section Runs

variable {past : List ((Kernel × Ledger) × KernelEvent)} {state : Kernel × Ledger}

/-- Processes that have left the process table have evaluated their whole code. -/
def FinishedWhole (state : Kernel × Ledger) : Prop :=
  ∀ proc < state.1.nextProcId, proc ∉ state.1.procTable →
    state.2.evaluated proc = state.2.loaded proc

theorem step_finished_whole {kernel after : Kernel} {ledger : Ledger} {event : KernelEvent}
    (reached : Reachable kernelSystem kernel) (ledgered : Ledgered kernel ledger)
    (follows : ∀ proc, ledger.evaluated proc <+: ledger.loaded proc)
    (whole : FinishedWhole (kernel, ledger)) (atEnd : FinishesAtEnd (kernel, ledger) event)
    (fired : kernelStep kernel event = some after) :
    FinishedWhole (after, ledger.record kernel event) := by
  cases event with
  | processCreate program fresh =>
      obtain rfl := Option.some.inj fired
      have code := create_code kernel program fresh
      intro proc used gone
      rw [code.listed, List.mem_append, List.mem_singleton, not_or] at gone
      rw [code.next] at used
      have old : proc < kernel.nextProcId :=
        Nat.lt_of_le_of_ne (Nat.lt_succ_iff.mp used) gone.2
      simpa [Ledger.record, gone.2] using whole proc old gone.1
  | execute instr =>
      obtain ⟨proc, running, code⟩ := execute_code fired
      intro other used gone
      rw [code.listed] at gone
      rw [code.next] at used
      have different : other ≠ proc := by
        rintro rfl
        exact gone (scheduled_numbered reached running).1
      simpa [Ledger.record, running, different] using whole other used gone
  | processFinish =>
      obtain ⟨proc, running, finished⟩ := finish_fires fired
      have code := finish_code running finished
      have numbered := (scheduled_numbered reached running).2
      have ended : (ledger.loaded proc).length ≤ (ledger.evaluated proc).length := by
        rw [← ledgered.length proc numbered, ← ledgered.counter proc numbered]
        exact atEnd proc running
      intro other used gone
      by_cases same : other = proc
      · subst same
        exact (follows other).eq_of_length_le ended
      · refine whole other (code.next ▸ used) fun member => gone ?_
        rw [code.listed]
        exact (List.mem_erase_of_ne same).mpr member
  | idleDispatch | quantumCompleted | diskTick =>
      have code := spared_code fired rfl
      exact fun proc used gone => whole proc (code.next ▸ used) (code.listed ▸ gone)

theorem finished_whole (trace : Trace recordedSystem past state)
    (inRange : ∀ entry ∈ past, FetchInRange entry.1 entry.2)
    (atEnd : ∀ entry ∈ past, FinishesAtEnd entry.1 entry.2) : FinishedWhole state := by
  have both := trace_invariant
    (fun state event => FetchInRange state event ∧ FinishesAtEnd state event)
    (fun state =>
      (∀ proc, state.2.evaluated proc <+: state.2.loaded proc) ∧ FinishedWhole state)
    trace (fun entry member => ⟨inRange entry member, atEnd entry member⟩)
    ⟨fun _ => List.nil_prefix, fun _ _ _ => rfl⟩ ?_
  · exact both.2
  · intro before event after reached holds allowed fired
    obtain ⟨step, record⟩ := history_step fired
    have kernelReached := history_reachable reached
    have ledgered := reachable_ledgered reached
    have kept := step_finished_whole kernelReached ledgered holds.1 holds.2 allowed.2 step
    rw [← record] at kept
    exact ⟨record ▸ step_follows kernelReached ledgered holds.1 allowed.1, kept⟩

/-- Where a live process can be: it can go on, or it waits for a semaphore. -/
theorem placed_or_waiting (reached : Reachable recordedSystem state) {proc : ProcId}
    (listed : proc ∈ state.1.procTable) :
    (state.1.scheduler.scheduledProc = some proc ∨ proc ∈ state.1.scheduler.highQueue ∨
        proc ∈ state.1.scheduler.lowQueue ∨
        ∃ request ∈ state.1.diskScheduler.pendingRequests, request.process = proc) ∨
      ∃ name, proc ∈ waiters state.1 name := by
  have accounted := kernel_accounted (history_reachable reached)
  have placed := accounted.placed.mem_iff.mpr listed
  simp only [Queues.places, List.mem_append, Option.mem_toList] at placed
  rcases placed with ((scheduled | high) | low) | blocked
  · exact .inl (.inl scheduled)
  · exact .inl (.inr (.inl high))
  · exact .inl (.inr (.inr (.inl low)))
  · rcases List.mem_append.mp (accounted.blocked.mem_iff.mp blocked) with waits | pending
    · obtain ⟨sem, member, waits⟩ := List.mem_flatMap.mp waits
      have found : semaphoreFind state.1.semTable sem.name = some sem :=
        FirstMatch.find_key (reachable_balanced reached).names member
      exact .inr ⟨sem.name, by simpa [waiters, found] using waits⟩
    · obtain ⟨request, member, owner⟩ := List.mem_map.mp pending
      exact .inl (.inr (.inr (.inr ⟨request, member, owner⟩)))

section Ordering

variable {before : CString → CString → Prop} [IsStrictOrder CString before]

theorem ordered_bounds (trace : Trace recordedSystem past state)
    (ordered : ∀ entry ∈ past, Loads (Ordered before) entry.2) (name : CString) (proc : ProcId)
    (done : List Instr) (part : done <+: state.2.loaded proc) :
    0 ≤ balance name done ∧ balance name done ≤ 1 :=
  ordered_balance (loaded_ok (Ordered before) (empty_ordered before) trace ordered proc) name part

/-- A contended semaphore has a holder outside its queue, who has not finished. -/
theorem contended_has_live_holder (trace : Trace recordedSystem past state)
    (ordered : ∀ entry ∈ past, Loads (Ordered before) entry.2)
    (inRange : ∀ entry ∈ past, FetchInRange entry.1 entry.2)
    (atEnd : ∀ entry ∈ past, FinishesAtEnd entry.1 entry.2) {waiter : ProcId} {name : CString}
    (waits : waiter ∈ waiters state.1 name) :
    ∃ holder ∈ state.1.procTable, holder ∉ waiters state.1 name ∧
      0 < balance name (state.2.evaluated holder) := by
  have programs := loaded_ok (Ordered before) (empty_ordered before) trace ordered
  have follows := evaluated_prefix trace inRange
  cases found : semaphoreFind state.1.semTable name with
  | none => simp [waiters, found] at waits
  | some sem =>
      have queue : waiters state.1 name = sem.waiters := by simp [waiters, found]
      obtain ⟨holder, numbered, awake, taken⟩ :=
        ((reachable_balanced ⟨past, trace⟩).balanced found).exists_holder
          (waiters_asked trace (ordered_bounds trace ordered name) follows found) (by decide)
          (List.ne_nil_of_mem (queue ▸ waits))
      refine ⟨holder, ?_, queue ▸ awake, taken⟩
      by_contra finished
      have evaluated := finished_whole trace inRange atEnd holder (Finset.mem_range.mp numbered)
        finished
      rw [evaluated, (programs holder).returns name] at taken
      exact Int.lt_irrefl 0 taken

omit [IsStrictOrder CString before] in
/-- A waiter evaluated its `P` last, when it held only smaller semaphores. -/
theorem waits_above_holdings (trace : Trace recordedSystem past state)
    (ordered : ∀ entry ∈ past, Loads (Ordered before) entry.2)
    (inRange : ∀ entry ∈ past, FetchInRange entry.1 entry.2) {waiter : ProcId}
    {wanted owned : CString} (waits : waiter ∈ waiters state.1 wanted)
    (awake : waiter ∉ waiters state.1 owned)
    (taken : 0 < balance owned (state.2.evaluated waiter)) : before owned wanted := by
  have program := loaded_ok (Ordered before) (empty_ordered before) trace ordered waiter
  have follows := evaluated_prefix trace inRange waiter
  cases found : semaphoreFind state.1.semTable wanted with
  | none => simp [waiters, found] at waits
  | some sem =>
      have queue : waiters state.1 wanted = sem.waiters := by simp [waiters, found]
      obtain ⟨earlier, last, shape, acquires⟩ :=
        (reachable_balanced ⟨past, trace⟩).asked found waiter (queue ▸ waits)
      have part : earlier ++ [last] <+: state.2.loaded waiter := shape ▸ follows
      have different : owned ≠ wanted := by
        rintro rfl
        exact awake waits
      obtain ⟨otherAcquire, otherRelease⟩ := names_differ (acquire_named acquires) different
      rw [shape, balance_append, balance_other otherAcquire otherRelease, add_zero] at taken
      obtain ⟨next, done⟩ := prefix_at part
      exact program.acquires _ last next wanted acquires owned (done.symm ▸ taken)

theorem some_live_process_awake (trace : Trace recordedSystem past state)
    (ordered : ∀ entry ∈ past, Loads (Ordered before) entry.2)
    (inRange : ∀ entry ∈ past, FetchInRange entry.1 entry.2)
    (atEnd : ∀ entry ∈ past, FinishesAtEnd entry.1 entry.2)
    (nonempty : state.1.procTable ≠ []) :
    ∃ proc ∈ state.1.procTable, ∀ name, proc ∉ waiters state.1 name := by
  have live : state.1.procTable.toFinset.Nonempty := by
    obtain ⟨proc, member⟩ := List.exists_mem_of_ne_nil _ nonempty
    exact ⟨proc, List.mem_toFinset.mpr member⟩
  let waitsFor (proc : ProcId) (name : CString) := proc ∈ waiters state.1 name
  let holds (proc : ProcId) (name : CString) :=
    proc ∉ waiters state.1 name ∧ 0 < balance name (state.2.evaluated proc)
  have served : ∀ waiter ∈ state.1.procTable.toFinset, ∀ name, waitsFor waiter name →
      ∃ holder ∈ state.1.procTable.toFinset, holds holder name := by
    intro waiter _ name waits
    obtain ⟨holder, listed, holding⟩ := contended_has_live_holder trace ordered inRange atEnd waits
    exact ⟨holder, List.mem_toFinset.mpr listed, holding⟩
  have increasing : ∀ waiter ∈ state.1.procTable.toFinset, ∀ wanted owned,
      waitsFor waiter wanted → holds waiter owned → before owned wanted := by
    intro waiter _ wanted owned waits holding
    exact waits_above_holdings trace ordered inRange waits holding.1 holding.2
  obtain ⟨proc, member, free⟩ := somebody_runs before live waitsFor holds served increasing
  exact ⟨proc, List.mem_toFinset.mp member, free⟩

end Ordering

/-- If every loaded program acquires in increasing order, releases what it holds
and holds nothing at its end, then in every state with a live process some live
process is scheduled, ready or waiting for the disk. -/
theorem some_live_process_goes_on (before : CString → CString → Prop)
    [IsStrictOrder CString before] (trace : Trace recordedSystem past state)
    (ordered : ∀ entry ∈ past, Loads (Ordered before) entry.2)
    (inRange : ∀ entry ∈ past, FetchInRange entry.1 entry.2)
    (atEnd : ∀ entry ∈ past, FinishesAtEnd entry.1 entry.2)
    (nonempty : state.1.procTable ≠ []) :
    ∃ proc ∈ state.1.procTable, state.1.scheduler.scheduledProc = some proc ∨
      proc ∈ state.1.scheduler.highQueue ∨ proc ∈ state.1.scheduler.lowQueue ∨
      ∃ request ∈ state.1.diskScheduler.pendingRequests, request.process = proc := by
  obtain ⟨proc, listed, awake⟩ :=
    some_live_process_awake trace ordered inRange atEnd nonempty
  refine ⟨proc, listed, ?_⟩
  rcases placed_or_waiting ⟨past, trace⟩ listed with goesOn | ⟨name, waits⟩
  · exact goesOn
  · exact absurd waits (awake name)

end Runs

theorem sample_ordered : Ordered (· < ·) sampleProgram.code where
  acquires := by
    intro pc instr found name acquires held taken
    rcases pc with - | - | - | pc <;> simp [sampleProgram] at found <;> subst found
    · simp at taken
    · simp [isAcquire] at acquires
    · simp [isAcquire] at acquires
  releases := by
    intro pc instr found name releases
    rcases pc with - | - | - | pc <;> simp [sampleProgram] at found <;> subst found
    · simp [isRelease] at releases
    · simp [isRelease] at releases
    · obtain rfl : ['s'] = name := by simpa [isRelease] using releases
      decide
  returns := by
    intro name
    by_cases same : name = ['s']
    · subst same
      decide
    · simp [balance, sampleProgram, isAcquire, isRelease, Ne.symm same]

theorem some_live_process_goes_on_sample :
    ∃ proc ∈ sampleRecord.1.procTable, sampleRecord.1.scheduler.scheduledProc = some proc ∨
      proc ∈ sampleRecord.1.scheduler.highQueue ∨ proc ∈ sampleRecord.1.scheduler.lowQueue ∨
      ∃ request ∈ sampleRecord.1.diskScheduler.pendingRequests, request.process = proc := by
  refine some_live_process_goes_on (· < ·) sample_trace ?_ (by decide) ?_ (by decide)
  · intro entry member
    have fired := history_event member
    simp only [sampleEvents, List.mem_cons, List.not_mem_nil, or_false] at fired
    rcases fired with fired | fired | fired | fired | fired | fired <;> rw [fired]
    · exact sample_ordered
    · exact sample_ordered
    all_goals trivial
  · intro entry member
    have fired := history_event member
    simp only [sampleEvents, List.mem_cons, List.not_mem_nil, or_false] at fired
    rcases fired with fired | fired | fired | fired | fired | fired <;> rw [fired] <;> trivial

end Ribabari.DeadlockFreedom

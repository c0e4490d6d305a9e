import Ribabari.Disk.ElevatorOrder
import Ribabari.Kernel.NoStarvation

/-!
# Whoever blocks comes back

A semaphore is served in order: a `V` wakes the first waiter and nobody overtakes. A request
for a track of the disk is served when the arm comes to the track, whatever is requested in
between. So a process that waits for a semaphore gets the cpu again if `V`s on it recur, and
one that waits for the disk does if ticks recur and loads come to an end.
-/

namespace Ribabari.WaitersReturn

open Filter Ribabari.ProcessRecords Ribabari.SemaphoreTable Ribabari.KernelState
open Ribabari.Dispatch Ribabari.DiskAndFiles Ribabari.KernelEvents Ribabari.CpuLoop
open Ribabari.ProgramLedger Ribabari.QueueBoard Ribabari.QueueRefinement
open Ribabari.BoardInvariants Ribabari.Placement Ribabari.CountingSemaphore
open Ribabari.SemaphoreAccounts Ribabari.InstructionFetch Ribabari.SweepArm Ribabari.ArmSweep
open Ribabari.RequestTracks Ribabari.WorkLeft Ribabari.ElevatorOrder Ribabari.FifoQueue
open Ribabari.ServedQueue Ribabari.Completion Ribabari.NoStarvation Ribabari.FairRuns
open Ribabari.TransitionSystem

set_option autoImplicit false

/-! ## The waiters of a semaphore -/

section Waiters

variable {kernel after : Kernel} {name : CString}

theorem waiters_found {sem : Semaphore} (found : semaphoreFind kernel.semTable name = some sem) :
    waiters kernel name = sem.waiters := by
  rw [waiters, found, Option.elim_some]

theorem waiters_same (table : after.semTable = kernel.semTable) (name : CString) :
    waiters after name = waiters kernel name := by
  rw [waiters, waiters, table]

/-- What is stored for one semaphore leaves the waiters of the others. -/
theorem waiters_stored {named : CString} {sem stored : Semaphore}
    (found : semaphoreFind kernel.semTable named = some sem)
    (table : after.semTable = storeSemaphore kernel.semTable stored)
    (same : stored.name = sem.name) (name : CString) :
    waiters after name = if name = named then stored.waiters else waiters kernel name := by
  obtain rfl := find_name found
  by_cases own : name = sem.name
  · rw [if_pos own, own]
    apply waiters_found
    rw [table]
    exact find_store_same found same
  · rw [if_neg own, waiters, waiters, table, find_store_other (same ▸ own)]

/-- Nobody waits for a semaphore that is new. -/
theorem waiters_registered (names : List CString)
    (table : after.semTable = names.foldl semaphoreRegister kernel.semTable) (name : CString) :
    waiters after name = waiters kernel name := by
  cases found : semaphoreFind after.semTable name with
  | none =>
      have missing := registered_find_none (table ▸ found)
      rw [waiters, waiters, found, missing]
  | some sem =>
      rcases find_registered (table ▸ found) with old | ⟨missing, rfl⟩
      · rw [waiters_found found, waiters_found old]
      · rw [waiters_found found, waiters, missing]
        rfl

def releasesIn (name : CString) : KernelEvent → Bool
  | .execute instr => isRelease name instr
  | .processCreate _ _ | .idleDispatch _ | .quantumCompleted | .processFinish | .diskTick => false

/-- A `V` takes the first waiter, a `P` adds behind the last. -/
theorem step_waiters {ledger : Ledger} (reached : Reachable recordedSystem (kernel, ledger))
    {event : KernelEvent} (fired : kernelStep kernel event = some after) (name : CString) :
    ∃ new, waiters after name =
      (if releasesIn name event then (waiters kernel name).tail else waiters kernel name) ++
        new := by
  have quiet : waiters after name = waiters kernel name → releasesIn name event = false →
      ∃ new, waiters after name =
        (if releasesIn name event then (waiters kernel name).tail else waiters kernel name) ++
          new := by
    intro same silent
    refine ⟨[], ?_⟩
    rw [silent, if_neg Bool.false_ne_true, List.append_nil]
    exact same
  have spared : sparesSemaphores (boardEvent kernel event) = true →
      waiters after name = waiters kernel name := fun spares =>
    waiters_same (board_semaphores (kernel_step_board fired) spares) name
  cases event with
  | processCreate program fresh =>
      obtain rfl := Option.some.inj fired
      apply quiet
      · exact waiters_registered program.semaphores
          (congrArg Board.semTable (create_board kernel program fresh)) name
      · rfl
  | idleDispatch | quantumCompleted | processFinish | diskTick => exact quiet (spared rfl) rfl
  | execute instr =>
      obtain ⟨proc, running, -⟩ := execute_fires fired
      rcases execute_semaphores running fired with
        ⟨others, table⟩ | ⟨named, sem, acquires, found, table⟩ |
          ⟨named, sem, releases, found, table⟩
      · exact quiet (waiters_same table name) (others name).2
      · have stored := waiters_stored found table rfl name
        by_cases own : name = named
        · subst own
          rw [if_pos rfl] at stored
          rw [stored, releasesIn, acquire_not_release acquires, if_neg Bool.false_ne_true,
            waiters_found found]
          dsimp only
          split
          · exact ⟨[proc], rfl⟩
          · exact ⟨[], (List.append_nil _).symm⟩
        · rw [if_neg own] at stored
          exact quiet stored (names_differ (acquire_named acquires) own).2
      · have stored := waiters_stored found table rfl name
        by_cases own : name = named
        · subst own
          rw [if_pos rfl] at stored
          rw [stored, releasesIn, releases, if_pos rfl, waiters_found found]
          refine ⟨[], ?_⟩
          dsimp only
          split
          · exact (List.append_nil _).symm
          · -- With a permit to give, nobody waits.
            have queued := ((reachable_balanced reached).balanced found).queued
            have empty : sem.waiters = [] := List.eq_nil_of_length_eq_zero (by omega)
            rw [empty]
            rfl
        · rw [if_neg own] at stored
          exact quiet stored (names_differ (release_named releases) own).2

/-- The first waiter is woken into the high queue. -/
theorem release_wakes {ledger : Ledger} (reached : Reachable recordedSystem (kernel, ledger))
    {instr : Instr} (fired : kernelStep kernel (.execute instr) = some after)
    (releases : isRelease name instr = true) {proc : ProcId}
    (first : (waiters kernel name).head? = some proc) : proc ∈ after.scheduler.highQueue := by
  obtain ⟨runner, running, -⟩ := execute_fires fired
  have accounted := kernel_accounted (history_reachable reached)
  have scheduled : (boardOf kernel).queues.scheduledProc = some runner := running
  have step := kernel_step_board fired
  rcases instr with ⟨op, value, text⟩
  obtain ⟨rfl, rfl⟩ : op = .semV ∧ text = some name := by simpa [isRelease] using releases
  simp only [boardEvent, Option.getD_some, instrEvent, boardStep, scheduled, Option.bind_some,
    Board.runProcess] at step
  obtain ⟨sem, found, released⟩ := Option.bind_eq_some_iff.mp step
  rw [waiters_found found] at first
  obtain ⟨rest, waiting⟩ := List.head?_eq_some_iff.mp first
  have asleep : sem.S + 1 ≤ 0 := by
    have queued := ((reachable_balanced reached).balanced found).queued
    rw [waiting, List.length_cons] at queued
    omega
  simp only [Board.release, semaphoreV, asleep, if_true, waiting, Option.map_some,
    Option.some.injEq] at released
  have blocked : proc ∈ (boardOf kernel).queues.blockedQueue := by
    apply accounted.blocked.mem_iff.mpr
    apply List.mem_append_left
    exact List.mem_flatMap.mpr
      ⟨sem, List.mem_of_find?_eq_some found, by rw [waiting]; exact List.mem_cons_self⟩
  have queues := congrArg (fun board : Board => board.queues.highQueue) released
  have woken : after.scheduler.highQueue = kernel.scheduler.highQueue ++ [proc] := by
    rw [← show (boardOf after).queues.highQueue = after.scheduler.highQueue from rfl, ← queues]
    dsimp only
    unfold Queues.unblock
    rw [if_pos blocked]
    rfl
  rw [woken]
  exact List.mem_append_right _ List.mem_cons_self

end Waiters

section Semaphores

variable {run : InfiniteRun recordedCpu} {time : Nat} {proc : ProcId} {name : CString}

/-- The step evaluates a `V` on the semaphore. -/
def releases (name : CString) (state : Cpu × Ledger) (event : CpuEvent) : Bool :=
  (cpuAction state.1 event).any (releasesIn name)

theorem waiters_fifo (name : CString) : Fifo recordedCpu (Reachable recordedCpu)
    (fun state => waiters state.1.kernel name) (releases name) where
  kept := reachable_next
  moves := by
    intro before event after reached fired
    rcases step_action (history_step fired).1 with ⟨silent, kernel⟩ | ⟨action, acts, step⟩
    · refine ⟨[], ?_⟩
      simp only [releases, silent, kernel, Option.any_none, Bool.false_eq_true, if_false,
        List.append_nil]
    · have moved := step_waiters (cpuRefinesKernel.reachable reached) step name
      rw [releases, acts, Option.any_some]
      exact moved

/-- A process that waits for a semaphore gets the cpu once more `V`s on it have been
evaluated than processes wait before it. -/
theorem semaphore_waiter_runs (serving : Serving run) {ahead behind : List ProcId}
    (place : waiters (run.states time).1.kernel name = ahead ++ proc :: behind) {steps : Nat}
    (enough : ahead.length < takings (releases name) run time steps) :
    ∃ later > time, (run.states later).1.kernel.scheduler.scheduledProc = some proc := by
  have front : ahead ++ [proc] <+: waiters (run.states time).1.kernel name :=
    ⟨behind, by rw [place, List.append_assoc, List.singleton_append]⟩
  obtain ⟨woken, after, release, first⟩ :=
    served_within (waiters_fifo name) run run.reachable steps front enough
  have ready : proc ∈ (run.states (woken + 1)).1.kernel.scheduler.highQueue := by
    rcases step_action (run_step run woken) with ⟨silent, -⟩ | ⟨action, acts, step⟩
    · simp [releases, silent] at release
    · rw [releases, acts, Option.any_some] at release
      cases action with
      | execute instr =>
          have reached := cpuRefinesKernel.reachable (run.reachable woken)
          exact release_wakes reached step release first
      | processCreate | idleDispatch | quantumCompleted | processFinish | diskTick =>
          exact absurd release Bool.false_ne_true
  obtain ⟨later, beyond, running⟩ := high_queue_never_starves serving ready
  exact ⟨later, by omega, running⟩

end Semaphores

/-- The first program loses the cpu inside its critical section, the second has to wait. -/
def contendingStart : List CpuEvent :=
  [.processCreate
      { sampleProgram with
        code := [⟨.semP, 0, some ['s']⟩, ⟨.exec, 1000, none⟩, ⟨.semV, 0, some ['s']⟩] }
      blankPage,
    .processCreate
      { sampleProgram with
        segId := 2
        code := [⟨.semP, 0, some ['s']⟩, ⟨.semV, 0, some ['s']⟩] }
      blankPage] ++ List.replicate 17 (.pass true)

def contendedState : Cpu × Ledger :=
  (TransitionSystem.run recordedCpu contendingStart recordedCpu.start).getD recordedCpu.start

theorem contended_rests : Resting contendedState where
  reached := reachable_run contendingStart rfl
  control := rfl
  queues := rfl
  pending := rfl

theorem contending_defined :
    (∀ time, (stateAfter recordedCpu (thenResting contendingStart) time).isSome) ∧
      ∀ time ≥ contendingStart.length, ∃ state,
        stateAfter recordedCpu (thenResting contendingStart) time = some state ∧
          Resting state :=
  then_resting_defined rfl contended_rests

def contendingRun : InfiniteRun recordedCpu := .ofEvents contending_defined.1

theorem contending_same : contendingRun.events = thenResting contendingStart := rfl

theorem contending_rests :
    ∀ time ≥ contendingStart.length, Resting (contendingRun.states time) := by
  intro time late
  obtain ⟨state, defined, rests⟩ := contending_defined.2 time late
  have same : contendingRun.states time = state := Option.get_of_eq_some _ defined
  exact same ▸ rests

theorem contending_serving : Serving contendingRun where
  passes := then_resting_passes contending_same
  elapses := then_resting_elapses contending_rests

theorem semaphore_waiter_runs_sample :
    ∃ later > 11, (contendingRun.states later).1.kernel.scheduler.scheduledProc = some 2 := by
  have place : waiters (contendingRun.states 11).1.kernel ['s'] = [] ++ 2 :: [] := rfl
  have enough : 0 < takings (releases ['s']) contendingRun 11 2 := by decide
  exact semaphore_waiter_runs contending_serving place enough

/-! ## The requests of the disk -/

/-- A process that waits for a track of the disk gets the cpu again if ticks recur, unless
programs are loaded for ever. -/
theorem disk_waiter_runs {run : InfiniteRun recordedCpu} (serving : Serving run)
    (ticks : run.Recurs Ticks) {time : Nat} {request : DiskRequest}
    (waits : request ∈ (run.states time).1.kernel.diskScheduler.pendingRequests)
    (onDisk : OnDisk request.track) :
    (∃ later > time,
        (run.states later).1.kernel.scheduler.scheduledProc = some request.process) ∨
      run.Recurs Loads := by
  obtain ⟨served, after, ticked, completes⟩ := arm_arrives ticks onDisk waits
  have ready := completed_ready ticked completes
  rcases low_queue_waits_for_loads serving ready with ⟨later, beyond, running⟩ | loads
  · exact .inl ⟨later, by omega, running⟩
  · exact .inr loads

theorem disk_waiter_runs_sample :
    ∃ later > 4, (completingRun.states later).1.kernel.scheduler.scheduledProc = some 1 := by
  have waits : ∃ request ∈ (completingRun.states 4).1.kernel.diskScheduler.pendingRequests,
      request.process = 1 ∧ OnDisk request.track := by decide
  obtain ⟨request, pending, owner, onDisk⟩ := waits
  have runs := disk_waiter_runs completing_serving completing_fair.ticks pending onDisk
  rw [owner] at runs
  exact runs.resolve_right completing_loads_end

end Ribabari.WaitersReturn

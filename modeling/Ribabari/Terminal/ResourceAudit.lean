import Ribabari.Foundation.LogReplay
import Ribabari.Kernel.LogEntries
import Ribabari.Kernel.RecordGrowth
import Ribabari.Kernel.SemaphoreAccounts

/-!
# The resource log is an account of the semaphores

A reader of the resource acquisition log alone can tell the counter of every semaphore
and the names that wait for it, in their order. The log says that a caller was blocked
exactly when the counter the reader knows leaves none.
-/

namespace Ribabari.ResourceAudit

open Ribabari.ProcessRecords Ribabari.SemaphoreTable Ribabari.KernelState
open Ribabari.KernelEvents Ribabari.QueueBoard Ribabari.QueueRefinement
open Ribabari.BoardInvariants Ribabari.Placement Ribabari.ProgramLedger
open Ribabari.SemaphoreAccounts Ribabari.RecordGrowth Ribabari.LogEntries
open Ribabari.LogReplay Ribabari.TransitionSystem

set_option autoImplicit false

/-! ## The auditor -/

/-- The counter of each semaphore and the names of its waiters. -/
abbrev ResKnown := CString → Int × List CString

def resAuditStep (known : ResKnown) (entry : ResAcqLog) : Option ResKnown :=
  let sem := known entry.semName
  if entry.acq then
    if entry.blocked = decide (sem.1 - 1 < 0) then
      some (Function.update known entry.semName
        (sem.1 - 1, if entry.blocked then sem.2 ++ [entry.procName] else sem.2))
    else none
  else if entry.blocked then none
  else
    some (Function.update known entry.semName
      (sem.1 + 1, if sem.1 + 1 ≤ 0 then sem.2.tail else sem.2))

/-- A semaphore that the log has not mentioned is free. -/
def resAuditor : System ResKnown ResAcqLog where
  start := fun _ => (1, [])
  step := resAuditStep

def semView (kernel : Kernel) (sem : Semaphore) : Int × List CString :=
  (sem.S, sem.waiters.map fun proc => (kernel.procs proc).name)

/-- The kernel's own state of what the reader knows. -/
def resKnown (kernel : Kernel) : ResKnown := fun name =>
  (semaphoreFind kernel.semTable name).elim (1, []) (semView kernel)

variable {kernel after : Kernel}

/-! ## One event -/

/-- The waiters keep their names. -/
theorem view_kept (reached : Reachable kernelSystem kernel) {event : KernelEvent}
    (fired : kernelStep kernel event = some after) {name : CString} {sem : Semaphore}
    (found : semaphoreFind kernel.semTable name = some sem) :
    semView after sem = semView kernel sem := by
  have accounted := kernel_accounted reached
  have member : sem ∈ (boardOf kernel).semTable := List.mem_of_find?_eq_some found
  rw [semView, semView]
  congr 1
  apply List.map_congr_left
  intro proc waits
  have listed := accounted.waiting_listed (List.mem_append_left _
    (List.mem_flatMap.mpr ⟨sem, member, waits⟩))
  exact (step_keeps fired (accounted.numbered proc listed)).name

theorem known_kept (reached : Reachable kernelSystem kernel) {event : KernelEvent}
    (fired : kernelStep kernel event = some after) (table : after.semTable = kernel.semTable) :
    resKnown after = resKnown kernel := by
  funext name
  rw [resKnown, resKnown, table]
  cases found : semaphoreFind kernel.semTable name with
  | none => rfl
  | some sem => exact view_kept reached fired found

/-- A load registers free semaphores, which the reader takes for granted. -/
theorem create_known (reached : Reachable kernelSystem kernel) {program : Program}
    {fresh : Nat → SegmentMemory.Page}
    (fired : kernelStep kernel (.processCreate program fresh) = some after) :
    resKnown after = resKnown kernel := by
  have table : after.semTable = program.semaphores.foldl semaphoreRegister kernel.semTable := by
    rw [← Option.some.inj fired]
    exact congrArg Board.semTable (create_board kernel program fresh)
  funext name
  rw [resKnown, resKnown, table]
  cases registered : semaphoreFind (program.semaphores.foldl semaphoreRegister kernel.semTable)
      name with
  | none =>
      rw [registered_find_none registered]
      rfl
  | some sem =>
      rcases find_registered registered with found | ⟨missing, rfl⟩
      · rw [found]
        exact view_kept reached fired found
      · rw [missing]
        rfl

/-- A call writes one semaphore. -/
theorem stored_known (reached : Reachable kernelSystem kernel) {event : KernelEvent}
    (fired : kernelStep kernel event = some after) {name : CString} {sem stored : Semaphore}
    (found : semaphoreFind kernel.semTable name = some sem)
    (table : after.semTable = storeSemaphore kernel.semTable stored)
    (same : stored.name = sem.name) :
    resKnown after = Function.update (resKnown kernel) name (semView after stored) := by
  have named : sem.name = name := find_name found
  subst named
  funext other
  by_cases own : other = sem.name
  · subst own
    rw [Function.update_self, resKnown, table, find_store_same found same]
    rfl
  · rw [Function.update_of_ne own, resKnown, resKnown, table,
      find_store_other fun equal => own (equal.trans same)]
    cases kept : semaphoreFind kernel.semTable other with
    | none => rfl
    | some sem => exact view_kept reached fired kept

theorem silent_replays (same : resKnown after = resKnown kernel) :
    run resAuditor [] (resKnown kernel) = some (resKnown after) := by
  rw [same]
  rfl

theorem acquire_replays (reached : Reachable kernelSystem kernel) {instr : Instr}
    (fired : kernelStep kernel (.execute instr) = some after) {proc : ProcId}
    (running : kernel.scheduler.scheduledProc = some proc) {name : CString} {sem : Semaphore}
    (acquires : isAcquire name instr = true)
    (found : semaphoreFind kernel.semTable name = some sem)
    (table : after.semTable = storeSemaphore kernel.semTable
      { sem with
        S := sem.S - 1
        waiters := if sem.S - 1 < 0 then sem.waiters ++ [proc] else sem.waiters }) :
    run resAuditor (instrRes kernel proc instr) (resKnown kernel) = some (resKnown after) := by
  have named : sem.name = name := find_name found
  have known : resKnown kernel name = semView kernel sem := by
    rw [resKnown, found]
    rfl
  have waiting : (sem.waiters.map fun proc => (after.procs proc).name) =
      sem.waiters.map fun proc => (kernel.procs proc).name :=
    (Prod.mk.inj (view_kept reached fired found)).2
  have own : (after.procs proc).name = (kernel.procs proc).name :=
    (step_keeps fired (scheduled_numbered reached running).2).name
  have entries : instrRes kernel proc instr =
      [{ procName := (kernel.procs proc).name
         semName := sem.name
         acq := true
         blocked := decide (sem.S - 1 < 0) }] := by
    rcases instr with ⟨op, value, text⟩
    simp only [isAcquire, decide_eq_true_eq] at acquires
    obtain ⟨rfl, rfl⟩ := acquires
    simp only [instrRes, instrSemaphore, Option.bind_some, found]
  rw [entries, run_single, stored_known reached fired found table rfl]
  unfold resAuditor resAuditStep
  dsimp only
  rw [named, known, if_pos rfl]
  by_cases short : sem.S - 1 < 0
  · simp [semView, short, waiting, own]
  · simp [semView, short, waiting]

theorem release_replays (reached : Reachable kernelSystem kernel) {instr : Instr}
    (fired : kernelStep kernel (.execute instr) = some after) (proc : ProcId) {name : CString}
    {sem : Semaphore} (releases : isRelease name instr = true)
    (found : semaphoreFind kernel.semTable name = some sem)
    (table : after.semTable = storeSemaphore kernel.semTable
      { sem with
        S := sem.S + 1
        waiters := if sem.S + 1 ≤ 0 then sem.waiters.tail else sem.waiters }) :
    run resAuditor (instrRes kernel proc instr) (resKnown kernel) = some (resKnown after) := by
  have named : sem.name = name := find_name found
  have known : resKnown kernel name = semView kernel sem := by
    rw [resKnown, found]
    rfl
  have waiting : (sem.waiters.map fun proc => (after.procs proc).name) =
      sem.waiters.map fun proc => (kernel.procs proc).name :=
    (Prod.mk.inj (view_kept reached fired found)).2
  have entries : instrRes kernel proc instr =
      [{ procName := (kernel.procs proc).name
         semName := sem.name
         acq := false
         blocked := false }] := by
    rcases instr with ⟨op, value, text⟩
    simp only [isRelease, decide_eq_true_eq] at releases
    obtain ⟨rfl, rfl⟩ := releases
    simp only [instrRes, instrSemaphore, Option.bind_some, found]
  rw [entries, run_single, stored_known reached fired found table rfl]
  unfold resAuditor resAuditStep
  dsimp only
  rw [named, known]
  by_cases wakes : sem.S + 1 ≤ 0
  · simp [semView, wakes, waiting, List.map_tail]
  · simp [semView, wakes, waiting]

/-- What an event writes takes the reader from one state to the next. -/
theorem step_replays (reached : Reachable kernelSystem kernel) {event : KernelEvent}
    (fired : kernelStep kernel event = some after) :
    run resAuditor (eventEntries kernel event).res (resKnown kernel) = some (resKnown after) := by
  have spared : sparesSemaphores (boardEvent kernel event) = true →
      resKnown after = resKnown kernel := by
    intro spares
    exact known_kept reached fired (board_semaphores (kernel_step_board fired) spares)
  cases event with
  | processCreate program fresh =>
      have none : (eventEntries kernel (.processCreate program fresh)).res = [] := by
        cases running : kernel.scheduler.scheduledProc <;>
          simp [eventEntries, runEntries, running, Entries.empty]
      rw [none]
      exact silent_replays (create_known reached fired)
  | execute instr =>
      obtain ⟨proc, running, -⟩ := execute_fires fired
      simp only [eventEntries, running, Option.elim_some]
      rcases execute_semaphores running fired with ⟨quiet, table⟩ |
        ⟨name, sem, acquires, found, table⟩ | ⟨name, sem, releases, found, table⟩
      · have none : instrRes kernel proc instr = [] := by
          rcases instr with ⟨op, value, text⟩
          cases op with
          | exec | read | write | print => rfl
          | semP | semV =>
              cases text with
              | none => rfl
              | some name => simp [isAcquire, isRelease] at quiet
        simp only [runEntries, none]
        exact silent_replays (known_kept reached fired table)
      · exact acquire_replays reached fired running acquires found table
      · exact release_replays reached fired proc releases found table
  | idleDispatch logged =>
      obtain ⟨idle, -⟩ := idle_fires fired
      have none : (eventEntries kernel (.idleDispatch logged)).res = [] := by
        cases logged <;> simp [eventEntries, idle, Entries.empty]
      rw [none]
      exact silent_replays (spared rfl)
  | quantumCompleted =>
      obtain ⟨proc, running, -⟩ := quantum_fires fired
      simp only [eventEntries, running, Option.elim_some]
      exact silent_replays (spared rfl)
  | processFinish =>
      obtain ⟨proc, running, -⟩ := finish_fires fired
      simp only [eventEntries, running, Option.elim_some]
      exact silent_replays (spared rfl)
  | diskTick => exact silent_replays (spared rfl)

/-! ## Every run -/

def resAudited : Audited kernelSystem resAuditor where
  log kernel := kernel.logs.resAcqLogList
  record := resKnown
  startLog := rfl
  startRecord := rfl
  writes := by
    intro before event after reached fired
    refine ⟨(eventEntries before event).res, ?_, step_replays reached fired⟩
    rw [step_logs fired]
    rfl

/-- The whole resource log of a reachable kernel is accepted, and a reader of it knows the
counter and the waiting names of every semaphore. -/
theorem res_log_replays (reached : Reachable kernelSystem kernel) :
    run resAuditor kernel.logs.resAcqLogList resAuditor.start = some (resKnown kernel) :=
  resAudited.replays reached

theorem res_log_replays_sample :
    (run resAuditor sampleKernel.logs.resAcqLogList resAuditor.start).map
        (fun known => known ['s']) = some (-1, [['s', 'i', 'n', 't', '1']]) := by
  rw [res_log_replays sample_reachable]
  rfl

end Ribabari.ResourceAudit

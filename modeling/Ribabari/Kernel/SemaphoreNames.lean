import Ribabari.Kernel.SemaphoreAccounts
import Ribabari.Model.ProgramFile

/-!
# The names of the semaphores

The table grows by one fresh entry for each new name and never loses one. A P or V writes
through a pointer to an entry and keeps its name. So an index, once it has a name, has it
for good, and the name leads back to this index.
-/

namespace Ribabari.SemaphoreNames

open Ribabari.FirstMatch Ribabari.ProcessRecords Ribabari.SemaphoreTable
open Ribabari.KernelState Ribabari.KernelEvents Ribabari.ProgramFile Ribabari.QueueBoard
open Ribabari.QueueRefinement Ribabari.SemaphoreAccounts Ribabari.TransitionSystem

set_option autoImplicit false

/-- The calls that reach the table. P and V look their semaphore up by its name. -/
inductive TableCall where
  | register (name : CString)
  | P (name : CString) (proc : ProcId)
  | V (name : CString)
  deriving DecidableEq, Repr

/-- The callbacks of P and V do not reach the table. -/
def tableStep (table : List Semaphore) : TableCall → Option (List Semaphore)
  | .register name => some (semaphoreRegister table name)
  | .P name proc =>
      (semaphoreFind table name).map fun sem =>
        storeSemaphore table (semaphoreP sem proc id ()).1
  | .V name =>
      (semaphoreFind table name).bind fun sem =>
        (semaphoreV sem (fun _ => id) ()).map fun result => storeSemaphore table result.1

/-- From `semaphore_table_init` on. -/
def tableSystem : System (List Semaphore) TableCall where
  start := []
  step := tableStep

def registeredName : TableCall → Option CString
  | .register name => some name
  | .P _ _ | .V _ => none

/-- The names that the calls of a run registered, in call order. -/
def registeredNames (past : List (List Semaphore × TableCall)) : List CString :=
  past.filterMap fun entry => registeredName entry.2

variable {table after : List Semaphore}

/-! ## One call -/

section Callbacks

variable {World World' : Type*} (sem : Semaphore)

theorem semaphore_p_table (proc : ProcId) (sleep : World → World) (world : World)
    (sleep' : World' → World') (world' : World') :
    (semaphoreP sem proc sleep world).1 = (semaphoreP sem proc sleep' world').1 := by
  unfold semaphoreP
  split <;> rfl

theorem semaphore_v_table (wakeup : ProcId → World → World) (world : World)
    (wakeup' : ProcId → World' → World') (world' : World') :
    (semaphoreV sem wakeup world).map Prod.fst = (semaphoreV sem wakeup' world').map Prod.fst := by
  unfold semaphoreV
  split
  · cases sem.waiters <;> rfl
  · rfl

end Callbacks

theorem register_present {name : CString} (present : name ∈ table.map Semaphore.name) :
    semaphoreRegister table name = table := by
  rcases register_prefix table name with same | ⟨absent, -⟩
  · exact same
  · exact absurd present absent

theorem register_new {name : CString} (absent : name ∉ table.map Semaphore.name) :
    semaphoreRegister table name = table ++ [{ name := name, S := 1, waiters := [] }] := by
  have miss : ¬(table.any fun sem => sem.name == name) = true := by
    simpa using absent
  exact if_neg miss

/-- Only a registration of a new name changes the names. -/
theorem step_names {call : TableCall} (fired : tableStep table call = some after) :
    after.map Semaphore.name = table.map Semaphore.name ++
      (registeredName call).toList.filter fun name => name ∉ table.map Semaphore.name := by
  cases call with
  | register name =>
      obtain rfl := Option.some.inj fired
      rw [register_names]
      rw [registeredName, Option.toList_some]
      by_cases present : name ∈ table.map Semaphore.name
      · rw [if_pos present, List.filter_cons_of_neg (by simpa using present), List.filter_nil,
          List.append_nil]
      · rw [if_neg present, List.filter_cons_of_pos (by simpa using present), List.filter_nil]
  | P name proc =>
      obtain ⟨sem, -, rfl⟩ := Option.map_eq_some_iff.mp fired
      rw [store_names]
      exact (List.append_nil _).symm
  | V name =>
      obtain ⟨sem, -, released⟩ := Option.bind_eq_some_iff.mp fired
      obtain ⟨result, -, rfl⟩ := Option.map_eq_some_iff.mp released
      rw [store_names]
      exact (List.append_nil _).symm

/-! ## Runs -/

theorem trace_names {past : List (List Semaphore × TableCall)}
    (trace : Trace tableSystem past table) :
    table.map Semaphore.name = (registeredNames past).eraseDups := by
  induction trace with
  | start => rfl
  | @next past before after call prior fired ih =>
      have grown := step_names fired
      have names : registeredNames (past ++ [(before, call)]) =
          registeredNames past ++ (registeredName call).toList := by
        cases named : registeredName call <;> simp [registeredNames, named]
      rw [grown, names, List.eraseDups_append, ih]
      congr 1
      cases registeredName call with
      | none => rfl
      | some name =>
          by_cases present : name ∈ registeredNames past <;>
            simp [List.removeAll, present, List.eraseDups_cons]

theorem names_distinct {past : List (List Semaphore × TableCall)}
    (trace : Trace tableSystem past table) : (table.map Semaphore.name).Nodup := by
  induction trace with
  | start => exact List.nodup_nil
  | @next past before after call prior fired ih =>
      rw [step_names fired]
      apply List.nodup_append.mpr
      refine ⟨ih, ?_, ?_⟩
      · cases registeredName call with
        | none => exact List.nodup_nil
        | some name => exact (List.nodup_singleton name).filter _
      · intro name old other new same
        have absent := (List.mem_filter.mp new).2
        simp [← same, old] at absent

theorem run_names {calls : List TableCall} {later : List Semaphore}
    (ran : run tableSystem calls table = some later) :
    table.map Semaphore.name <+: later.map Semaphore.name := by
  induction calls generalizing table with
  | nil =>
      obtain rfl := Option.some.inj ran
      exact List.prefix_rfl
  | cons call calls ih =>
      obtain ⟨after, fired, rest⟩ := Option.bind_eq_some_iff.mp ran
      have first : table.map Semaphore.name <+: after.map Semaphore.name :=
        step_names fired ▸ List.prefix_append _ _
      exact first.trans (ih rest)

/-- A name leads to the index that has it, at any later point of a run. -/
theorem find_stays {calls : List TableCall} {later : List Semaphore}
    (ran : run tableSystem calls table = some later)
    (distinct : (later.map Semaphore.name).Nodup) {index : Nat} {sem : Semaphore}
    (entry : table[index]? = some sem) :
    ∃ kept, later[index]? = some kept ∧ kept.name = sem.name ∧
      semaphoreFind later sem.name = some kept := by
  have named : (table.map Semaphore.name)[index]? = some sem.name := by
    rw [List.getElem?_map, entry, Option.map_some]
  obtain ⟨new, longer⟩ := run_names ran
  have inRange := (List.getElem?_eq_some_iff.mp named).1
  rw [← List.getElem?_append_left inRange, longer, List.getElem?_map] at named
  obtain ⟨kept, present, same⟩ := Option.map_eq_some_iff.mp named
  have member : kept ∈ later := List.mem_of_getElem? present
  have found : semaphoreFind later kept.name = some kept := find_key distinct member
  exact ⟨kept, present, same, same ▸ found⟩

/-- The index at which a search by name ended. -/
theorem find_index {name : CString} {sem : Semaphore}
    (found : semaphoreFind table name = some sem) : ∃ index : Nat, table[index]? = some sem :=
  List.getElem?_of_mem (List.mem_of_find?_eq_some found)

/-! ## Instructions -/

/-- A P or V line is accepted with the name of a registered semaphore. -/
theorem semaphore_parsed {old instr : Instr} {line : CString}
    (parsed : instrParse old line table = some instr)
    (unary : line.head? = some 'P' ∨ line.head? = some 'V') :
    instr.op = (if line.head? = some 'P' then .semP else .semV) ∧
      ∃ name sem, instr.sem = some name ∧ semaphoreFind table name = some sem := by
  rw [instrParse, if_pos unary] at parsed
  unfold instrSemaphoreParse at parsed
  split at parsed
  case isTrue => cases parsed
  case isFalse =>
      split at parsed
      case h_1 => cases parsed
      case h_2 sem found =>
          obtain rfl := Option.some.inj parsed
          exact ⟨rfl, _, sem, rfl, found⟩

/-- After any calls the names of the table are the registered ones, each once and in the
order of their first registration. Registering a present name changes nothing, and a new
one adds an entry with a unit and without waiters. The semaphore that an accepted P or V
line names is at the same index at any later point, where the search finds it. -/
theorem semaphore_names {past : List (List Semaphore × TableCall)}
    (trace : Trace tableSystem past table) :
    table.map Semaphore.name = (registeredNames past).eraseDups ∧
      (table.map Semaphore.name).Nodup ∧
      (∀ name ∈ table.map Semaphore.name, semaphoreRegister table name = table) ∧
      (∀ name ∉ table.map Semaphore.name,
        semaphoreRegister table name = table ++ [{ name := name, S := 1, waiters := [] }]) ∧
      ∀ old line instr, instrParse old line table = some instr →
        line.head? = some 'P' ∨ line.head? = some 'V' →
          instr.op = (if line.head? = some 'P' then .semP else .semV) ∧
            ∃ name sem, ∃ index : Nat, instr.sem = some name ∧ table[index]? = some sem ∧
              semaphoreFind table name = some sem ∧
              ∀ calls later, run tableSystem calls table = some later →
                ∃ kept, later[index]? = some kept ∧ semaphoreFind later name = some kept := by
  refine ⟨trace_names trace, names_distinct trace, fun _ => register_present,
    fun _ => register_new, ?_⟩
  intro old line instr parsed unary
  obtain ⟨op, name, sem, named, found⟩ := semaphore_parsed parsed unary
  obtain ⟨index, entry⟩ := find_index found
  refine ⟨op, name, sem, index, named, entry, found, ?_⟩
  intro calls later ran
  have distinct := names_distinct (trace_history calls trace ran)
  obtain ⟨kept, present, -, again⟩ := find_stays ran distinct entry
  rw [find_name found] at again
  exact ⟨kept, present, again⟩

def sampleCalls : List TableCall :=
  [.register ['s'], .P ['s'] 1, .register ['t'], .P ['s'] 2, .register ['s']]

theorem semaphore_names_sample :
    ((run tableSystem sampleCalls []).getD []).map Semaphore.name = [['s'], ['t']] :=
  (semaphore_names (trace_history sampleCalls (Trace.start : Trace tableSystem [] _) rfl)).1.trans
    (by decide)

/-! ## The kernel's table -/

theorem run_registers (names : List CString) (table : List Semaphore) :
    run tableSystem (names.map .register) table = some (names.foldl semaphoreRegister table) := by
  induction names generalizing table with
  | nil => rfl
  | cons name names ih => exact ih (semaphoreRegister table name)

theorem board_calls {board next : Board} {event : BoardEvent}
    (fired : boardStep board event = some next) :
    ∃ calls, run tableSystem calls board.semTable = some next.semTable := by
  cases event with
  | create names high =>
      obtain rfl := Option.some.inj fired
      exact ⟨names.map .register, run_registers names board.semTable⟩
  | acquire name =>
      obtain ⟨proc, -, step⟩ := Option.bind_eq_some_iff.mp fired
      obtain ⟨sem, found, rfl⟩ := Option.map_eq_some_iff.mp step
      have same := semaphore_p_table sem proc id ()
        (Queues.schedule · .semaphoreBlocked) board.queues
      have call : tableStep board.semTable (.P name proc) =
          some (board.acquire proc sem).semTable := by
        rw [tableStep, found, Option.map_some, same]
        rfl
      exact ⟨[.P name proc], (run_single tableSystem _ _).trans call⟩
  | release name =>
      obtain ⟨proc, -, step⟩ := Option.bind_eq_some_iff.mp fired
      obtain ⟨sem, found, released⟩ := Option.bind_eq_some_iff.mp step
      obtain ⟨result, woken, rfl⟩ := Option.map_eq_some_iff.mp released
      have same := semaphore_v_table sem (fun _ => id) () (Queues.unblock .highQueue) board.queues
      rw [woken] at same
      obtain ⟨stored, called, entry⟩ := Option.map_eq_some_iff.mp same
      have call : tableStep board.semTable (.V name) =
          some (storeSemaphore board.semTable result.1) := by
        rw [tableStep, found, Option.bind_some, called, Option.map_some, entry]
      exact ⟨[.V name], (run_single tableSystem _ _).trans call⟩
  | idle | run | requestDisk | print | quantum | finish | tick =>
      exact ⟨[], congrArg some (board_semaphores fired rfl).symm⟩

/-- A kernel run is a run of calls on its table. -/
theorem kernel_calls {kernel later : Kernel} {events : List KernelEvent}
    (ran : run kernelSystem events kernel = some later) :
    ∃ calls, run tableSystem calls kernel.semTable = some later.semTable := by
  induction events generalizing kernel with
  | nil =>
      obtain rfl := Option.some.inj ran
      exact ⟨[], rfl⟩
  | cons event events ih =>
      obtain ⟨after, fired, rest⟩ := Option.bind_eq_some_iff.mp ran
      obtain ⟨first, step⟩ := board_calls (kernel_step_board fired)
      obtain ⟨calls, tail⟩ := ih rest
      refine ⟨first ++ calls, ?_⟩
      rw [run_append]
      exact Option.bind_eq_some_iff.mpr ⟨_, step, tail⟩

theorem reachable_table {kernel : Kernel} (reached : Reachable kernelSystem kernel) :
    Reachable tableSystem kernel.semTable := by
  apply reachable_invariant (fun kernel => Reachable tableSystem kernel.semTable) reached
  · exact ⟨[], .start⟩
  · intro kernel event after _ table fired
    obtain ⟨past, trace⟩ := table
    obtain ⟨calls, step⟩ := board_calls (kernel_step_board fired)
    exact ⟨_, trace_history calls trace step⟩

/-- So the lookup that `eval` does not check finds, at any later point, the entry that the
parser found. -/
theorem evaluated_semaphore_found {kernel later : Kernel} (reached : Reachable kernelSystem kernel)
    {events : List KernelEvent} (ran : run kernelSystem events kernel = some later)
    {old instr : Instr} {line : CString}
    (parsed : instrParse old line kernel.semTable = some instr)
    (unary : line.head? = some 'P' ∨ line.head? = some 'V') :
    ∃ index : Nat, ∃ sem kept, instrSemaphore kernel instr = some sem ∧
      kernel.semTable[index]? = some sem ∧ instrSemaphore later instr = some kept ∧
      later.semTable[index]? = some kept := by
  obtain ⟨-, name, sem, named, found⟩ := semaphore_parsed parsed unary
  obtain ⟨index, entry⟩ := find_index found
  obtain ⟨past, trace⟩ := reachable_table reached
  obtain ⟨calls, calling⟩ := kernel_calls ran
  have distinct := names_distinct (trace_history calls trace calling)
  obtain ⟨kept, present, -, again⟩ := find_stays calling distinct entry
  rw [find_name found] at again
  refine ⟨index, sem, kept, ?_, entry, ?_, present⟩
  · rw [instrSemaphore, named, Option.bind_some, found]
  · rw [instrSemaphore, named, Option.bind_some, again]

end Ribabari.SemaphoreNames

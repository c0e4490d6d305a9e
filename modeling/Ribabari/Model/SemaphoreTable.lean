import Ribabari.Foundation.FirstMatch
import Ribabari.Model.ProcessRecords

/-!
# The semaphore table

`semaphore.c` without the host mutex, whose critical sections are the atomic
steps of this model. The table is searched by name, and the pointer a search
returns is written through with `storeSemaphore`.
-/

namespace Ribabari.SemaphoreTable

open Ribabari.FirstMatch Ribabari.ProcessRecords

set_option autoImplicit false

structure Semaphore where
  name : CString
  S : Int
  waiters : List ProcId
  deriving DecidableEq, Repr

def semaphoreInit (name : CString) (S : Int) : Semaphore where
  name := name
  S := S
  waiters := []

def semaphoreFind (table : List Semaphore) (name : CString) : Option Semaphore :=
  table.find? fun sem => sem.name == name

def semaphoreRegister (table : List Semaphore) (name : CString) : List Semaphore :=
  if table.any fun sem => sem.name == name then table
  else table ++ [semaphoreInit name 1]

/-- Write through the pointer that `semaphoreFind` returned for this name. -/
def storeSemaphore (table : List Semaphore) (sem : Semaphore) : List Semaphore :=
  updateFirst (fun other => other.name == sem.name) (fun _ => sem) table

/-- `semaphore_P`: the counter goes down first, and a caller that finds it
negative queues itself before the callback `sleep` runs. The flag is `blocked`. -/
def semaphoreP {World : Type*} (sem : Semaphore) (proc : ProcId)
    (sleep : World → World) (world : World) : Semaphore × World × Bool :=
  if sem.S - 1 < 0 then
    ({ sem with S := sem.S - 1, waiters := sem.waiters ++ [proc] }, sleep world, true)
  else ({ sem with S := sem.S - 1 }, world, false)

/-- `semaphore_V`. Undefined where the head of an empty list is dereferenced. -/
def semaphoreV {World : Type*} (sem : Semaphore)
    (wakeup : ProcId → World → World) (world : World) : Option (Semaphore × World) :=
  if sem.S + 1 ≤ 0 then
    match sem.waiters with
    | [] => none
    | proc :: rest => some ({ sem with S := sem.S + 1, waiters := rest }, wakeup proc world)
  else some ({ sem with S := sem.S + 1 }, world)

theorem find_name {table : List Semaphore} {name : CString} {sem : Semaphore}
    (found : semaphoreFind table name = some sem) : sem.name = name := by
  simpa using List.find?_some found

theorem store_names (table : List Semaphore) (sem : Semaphore) :
    (storeSemaphore table sem).map Semaphore.name = table.map Semaphore.name := by
  apply map_update_first
  intro other matched
  exact (by simpa using matched : other.name = sem.name).symm

theorem find_store_same {table : List Semaphore} {sem stored : Semaphore}
    (found : semaphoreFind table sem.name = some sem) (name : stored.name = sem.name) :
    semaphoreFind (storeSemaphore table stored) sem.name = some stored := by
  have update := find_key_update_same Semaphore.name (f := fun _ => stored) name found
  simpa [semaphoreFind, storeSemaphore, name] using update

theorem find_store_other {table : List Semaphore} {stored : Semaphore} {name : CString}
    (different : name ≠ stored.name) :
    semaphoreFind (storeSemaphore table stored) name = semaphoreFind table name :=
  find_key_update_other Semaphore.name (fun _ _ => rfl) different

/-- The table around the semaphore that a search by name returned. -/
theorem store_split {table : List Semaphore} {name : CString} {sem stored : Semaphore}
    (found : semaphoreFind table name = some sem) (same : stored.name = sem.name) :
    ∃ before after, table = before ++ sem :: after ∧
      storeSemaphore table stored = before ++ stored :: after := by
  obtain ⟨before, after, split, matched, skipped⟩ := find_split found
  have wanted : stored.name = name := same.trans (find_name found)
  refine ⟨before, after, split, ?_⟩
  rw [split, storeSemaphore, wanted, update_first_append skipped matched]

theorem register_names (table : List Semaphore) (name : CString) :
    (semaphoreRegister table name).map Semaphore.name =
      if name ∈ table.map Semaphore.name then table.map Semaphore.name
      else table.map Semaphore.name ++ [name] := by
  by_cases present : name ∈ table.map Semaphore.name
  · have hit : (table.any fun sem => sem.name == name) = true := by
      simpa using present
    simp [semaphoreRegister, hit, present]
  · have miss : ¬(table.any fun sem => sem.name == name) = true := by
      simpa using present
    simp [semaphoreRegister, miss, present, semaphoreInit]

/-- Registering never moves or changes an entry, it can only append a fresh one. -/
theorem register_prefix (table : List Semaphore) (name : CString) :
    semaphoreRegister table name = table ∨
      (name ∉ table.map Semaphore.name ∧
        semaphoreRegister table name = table ++ [semaphoreInit name 1]) := by
  by_cases hit : (table.any fun sem => sem.name == name) = true
  · exact .inl (by simp [semaphoreRegister, hit])
  · refine .inr ⟨?_, by simp [semaphoreRegister, hit]⟩
    simpa using hit

/-- Registering names adds semaphores with one permit and changes no other. -/
theorem find_registered {names : List CString} {table : List Semaphore} {name : CString}
    {sem : Semaphore}
    (found : semaphoreFind (names.foldl semaphoreRegister table) name = some sem) :
    semaphoreFind table name = some sem ∨
      (semaphoreFind table name = none ∧ sem = semaphoreInit name 1) := by
  induction names generalizing table with
  | nil => exact .inl found
  | cons added names ih =>
      rcases register_prefix table added with same | ⟨absent, appended⟩
      · rw [List.foldl_cons, same] at found
        exact ih found
      · rw [List.foldl_cons, appended] at found
        have split : semaphoreFind (table ++ [semaphoreInit added 1]) name =
            (semaphoreFind table name).or (semaphoreFind [semaphoreInit added 1] name) :=
          List.find?_append
        rcases ih found with earlier | ⟨missing, fresh⟩
        · rw [split] at earlier
          cases old : semaphoreFind table name with
          | some other => exact .inl (by simpa [old] using earlier)
          | none =>
              rw [old, Option.none_or] at earlier
              have named := find_name earlier
              have new : sem = semaphoreInit added 1 := by
                simpa using List.mem_of_find?_eq_some earlier
              subst new
              exact .inr ⟨rfl, by rw [← named]; rfl⟩
        · rw [split, Option.or_eq_none_iff] at missing
          exact .inr ⟨missing.1, fresh⟩

theorem registered_find_none {names : List CString} {table : List Semaphore} {name : CString}
    (missing : semaphoreFind (names.foldl semaphoreRegister table) name = none) :
    semaphoreFind table name = none := by
  induction names generalizing table with
  | nil => exact missing
  | cons added names ih =>
      have earlier := ih missing
      rcases register_prefix table added with same | ⟨-, appended⟩
      · rwa [same] at earlier
      · rw [appended, semaphoreFind, List.find?_append, Option.or_eq_none_iff] at earlier
        exact earlier.1

theorem registered_names (names : List CString) {table : List Semaphore}
    (distinct : (table.map Semaphore.name).Nodup) :
    ((names.foldl semaphoreRegister table).map Semaphore.name).Nodup := by
  induction names generalizing table with
  | nil => exact distinct
  | cons added names ih =>
      apply ih
      rw [register_names]
      split
      case isTrue => exact distinct
      case isFalse absent =>
          exact List.nodup_append.mpr ⟨distinct, List.nodup_singleton _, fun name old new last =>
            List.mem_singleton.mp last ▸ fun same => absent (same ▸ old)⟩

/-- Every registered name is found. -/
theorem registered_found {names : List CString} {table : List Semaphore} {name : CString}
    (listed : name ∈ names ∨ semaphoreFind table name ≠ none) :
    semaphoreFind (names.foldl semaphoreRegister table) name ≠ none := by
  induction names generalizing table with
  | nil => simpa using listed
  | cons added names ih =>
      apply ih
      rcases listed with member | found
      · rcases List.mem_cons.mp member with rfl | later
        · refine .inr fun missing => ?_
          have named : name ∈ (semaphoreRegister table name).map Semaphore.name := by
            rw [register_names]
            split
            · assumption
            · simp
          obtain ⟨sem, semMember, same⟩ := List.mem_map.mp named
          exact List.find?_eq_none.mp missing sem semMember (by simpa using same)
        · exact .inl later
      · exact .inr fun missing => found (registered_find_none
          (show semaphoreFind ([added].foldl semaphoreRegister table) name = none from missing))

end Ribabari.SemaphoreTable

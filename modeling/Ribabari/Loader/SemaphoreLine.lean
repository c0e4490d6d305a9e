import Ribabari.Model.ProgramFile

/-!
# The semaphore line

`read_semaphores` with its array. The array is sized by counting the blanks of the line,
while `strtok` fills it, to which a run of blanks is one separator and a blank at either
end none. So there are enough entries, but the first token is used before it is tested.
-/

namespace Ribabari.SemaphoreLine

open Ribabari.CLibrary Ribabari.ProcessRecords Ribabari.SemaphoreTable Ribabari.ProgramFile

set_option autoImplicit false

/-- Where the loop has no defined behaviour: `strdup(NULL)`, and a write behind the end of
the array. The loop of the model can also run out of fuel. -/
inductive ReadFault where
  | nullToken
  | pastArray
  | outOfFuel
  deriving DecidableEq, Repr

/-- `proc->semaphores`, whose entries are `none` until they are written, the next index and
the semaphore table. -/
structure SemaphoreArray where
  slots : List (Option CString)
  index : Nat
  table : List Semaphore
  deriving DecidableEq

/-- The body of the loop, with a token that is not null. -/
def storeToken (array : SemaphoreArray) (tok : CString) : Except ReadFault SemaphoreArray :=
  if array.index < array.slots.length then
    .ok
      { slots := array.slots.set array.index (some tok)
        index := array.index + 1
        table := semaphoreRegister array.table tok }
  else .error .pastArray

/-- The `do` loop, over what `strtok` has returned last. -/
def storeLoop : Nat → Option (CString × CString) → SemaphoreArray →
    Except ReadFault SemaphoreArray
  | 0, _, _ => .error .outOfFuel
  | _ + 1, none, _ => .error .nullToken
  | fuel + 1, some (tok, rest), array =>
      match storeToken array tok with
      | .error fault => .error fault
      | .ok stored =>
          match strtok ' ' rest with
          | none => .ok stored
          | some next => storeLoop fuel (some next) stored

def semCount (line : CString) : Nat := line.count ' ' + 1

/-- `read_semaphores` on the line without its last character. -/
def readSemaphoreLine (table : List Semaphore) (line : CString) :
    Except ReadFault SemaphoreArray :=
  storeLoop (line.length + 1) (strtok ' ' line)
    { slots := List.replicate (semCount line) none
      index := 0
      table := table }

/-- The names in the line, between blanks. -/
def namesIn (line : CString) : List CString := pieces ' ' line

/-- The first entries of the array are the names, in order, and the semaphore table has been
given exactly these. -/
structure Stored (table : List Semaphore) (line : CString) (array : SemaphoreArray) : Prop where
  slots : array.slots =
    (namesIn line).map some ++ List.replicate (semCount line - (namesIn line).length) none
  index : array.index = (namesIn line).length
  room : array.index ≤ semCount line
  calls : array.table = (namesIn line).foldl semaphoreRegister table
  names : ∀ name, name ∈ array.table.map Semaphore.name ↔
    name ∈ table.map Semaphore.name ∨ name ∈ namesIn line
  kept : table <+: array.table

/-- The loop ends, without a fault, with all names stored. -/
def ReadsNames (table : List Semaphore) (line : CString) : Prop :=
  ∃ array, readSemaphoreLine table line = .ok array ∧ Stored table line array

variable {table : List Semaphore} {line text : CString}

theorem register_all_names (table : List Semaphore) (names : List CString) (name : CString) :
    name ∈ (names.foldl semaphoreRegister table).map Semaphore.name ↔
      name ∈ table.map Semaphore.name ∨ name ∈ names := by
  induction names generalizing table with
  | nil => simp
  | cons added names ih =>
      rw [List.foldl_cons, ih, register_names]
      split <;> grind

theorem register_all_prefix (table : List Semaphore) (names : List CString) :
    table <+: names.foldl semaphoreRegister table := by
  induction names generalizing table with
  | nil => exact List.prefix_rfl
  | cons added names ih =>
      have one : table <+: semaphoreRegister table added := by
        rcases register_prefix table added with same | ⟨-, appended⟩
        · simp only [same, List.prefix_rfl]
        · rw [appended]
          exact List.prefix_append _ _
      exact one.trans (ih _)

/-- The array when these names have been stored and so many entries are left. -/
def filled (names : List CString) (left : Nat) (table : List Semaphore) : SemaphoreArray where
  slots := names.map some ++ List.replicate left none
  index := names.length
  table := table

theorem store_token_filled (names : List CString) (left : Nat) (table : List Semaphore)
    (tok : CString) :
    storeToken (filled names (left + 1) table) tok =
      .ok (filled (names ++ [tok]) left (semaphoreRegister table tok)) := by
  simp [storeToken, filled, List.replicate_succ]

/-- From a token on, the loop stores it and the names behind it. -/
theorem store_loop_filled {names : List CString} {left fuel : Nat}
    (enough : text.length < fuel) (found : pieces ' ' text ≠ [])
    (room : (pieces ' ' text).length ≤ left) :
    storeLoop fuel (strtok ' ' text) (filled names left table) =
      .ok (filled (names ++ pieces ' ' text) (left - (pieces ' ' text).length)
        ((pieces ' ' text).foldl semaphoreRegister table)) := by
  induction fuel generalizing text names left table with
  | zero => exact absurd enough (Nat.not_lt_zero _)
  | succ fuel ih =>
      cases called : strtok ' ' text with
      | none => exact absurd (strtok_pieces_none called) found
      | some result =>
          obtain ⟨tok, rest⟩ := result
          obtain ⟨first, shorter⟩ := strtok_pieces_some called
          rw [first, List.length_cons] at room
          obtain ⟨left, rfl⟩ : ∃ more, left = more + 1 := ⟨left - 1, by omega⟩
          rw [storeLoop, store_token_filled, first]
          cases next : strtok ' ' rest with
          | none => simp [strtok_pieces_none next]
          | some other =>
              have more : pieces ' ' rest ≠ [] := by
                rw [(strtok_pieces_some next).1]
                exact List.cons_ne_nil _ _
              have others : storeLoop fuel (strtok ' ' rest)
                  (filled (names ++ [tok]) left (semaphoreRegister table tok)) = _ :=
                ih (by omega) more (by omega)
              rw [next] at others
              simp only [others, List.append_assoc, List.singleton_append, List.length_cons,
                List.foldl_cons, Nat.add_sub_add_right]

/-- A line with a name is read. -/
theorem read_line_filled (table : List Semaphore) (found : namesIn line ≠ []) :
    readSemaphoreLine table line =
      .ok (filled (namesIn line) (semCount line - (namesIn line).length)
        ((namesIn line).foldl semaphoreRegister table)) := by
  have filledUp : storeLoop (line.length + 1) (strtok ' ' line) (filled [] (semCount line) table) = _ :=
    store_loop_filled (Nat.lt_succ_self _) found (pieces_length_le ' ' line)
  exact filledUp

theorem read_blank_line (table : List Semaphore) (blank : namesIn line = []) :
    readSemaphoreLine table line = .error .nullToken := by
  have ended : strtok ' ' line = none := by
    cases called : strtok ' ' line with
    | none => rfl
    | some result =>
        obtain ⟨first, -⟩ := strtok_pieces_some called
        exact absurd (first.symm.trans blank) (List.cons_ne_nil _ _)
  rw [readSemaphoreLine, ended]
  rfl

/-- The model of the whole loader has the same result, and stops at the same lines. -/
theorem read_semaphores_is_loop (table : List Semaphore) (line : CString) :
    readSemaphores table line =
      match readSemaphoreLine table line with
      | .ok array => some ((array.slots.take array.index).filterMap id, array.table)
      | .error _ => none := by
  have names : strtokAll ' ' (line.length + 1) line = namesIn line :=
    strtok_all_pieces (Nat.lt_succ_self _)
  rw [readSemaphores, names]
  by_cases blank : namesIn line = []
  · rw [read_blank_line table blank, if_pos (.inl blank)]
  · have room : ¬line.count ' ' + 1 < (namesIn line).length :=
      Nat.not_lt_of_le (pieces_length_le ' ' line)
    rw [read_line_filled table blank, if_neg (not_or.mpr ⟨blank, room⟩)]
    simp [filled]

/-- Every line is read into the array and the table name by name, except that a line of
blanks duplicates the null token. -/
theorem reads_names_iff (table : List Semaphore) (line : CString) :
    (ReadsNames table line ↔ ∃ c ∈ line, c ≠ ' ') ∧
      ((∀ c ∈ line, c = ' ') → readSemaphoreLine table line = .error .nullToken) := by
  have blank : (∀ c ∈ line, c = ' ') → readSemaphoreLine table line = .error .nullToken :=
    fun all => read_blank_line table (pieces_eq_nil_iff.mpr all)
  refine ⟨⟨?_, ?_⟩, blank⟩
  · rintro ⟨array, read, -⟩
    by_contra none
    push Not at none
    rw [blank none] at read
    simp at read
  · rintro ⟨c, member, differs⟩
    have found : namesIn line ≠ [] := fun none => differs (pieces_eq_nil_iff.mp none c member)
    refine ⟨_, read_line_filled table found, ?_⟩
    exact
      { slots := rfl
        index := rfl
        room := pieces_length_le ' ' line
        calls := rfl
        names := register_all_names table (namesIn line)
        kept := register_all_prefix table (namesIn line) }

/-- The line of a single blank in front of the end of the line. -/
theorem blank_line_duplicates_null :
    ¬∀ (table : List Semaphore) (buf line : CString), buf ≠ ['\n'] → stripLast buf = some line →
      ReadsNames table line := by
  intro claimed
  obtain ⟨array, read, -⟩ := claimed [] [' ', '\n'] [' '] (by decide) (by decide)
  have fault : readSemaphoreLine [] [' '] = .error .nullToken := by decide
  rw [fault] at read
  simp at read

/-- Runs of blanks and blanks at the ends separate no further names. -/
example : readSemaphoreLine [] [' ', 's', ' ', ' ', 't', ' '] =
    .ok (filled [['s'], ['t']] 3 [semaphoreInit ['s'] 1, semaphoreInit ['t'] 1]) := by decide

end Ribabari.SemaphoreLine

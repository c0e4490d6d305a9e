import Ribabari.Loader.ProgramRoundTrip

/-!
# The lines that become instructions

The documented grammar of an instruction line against what `instr_parse` does with every
line. The parser looks at the first letter, at the first word and at fixed distances from
the end of the line, so only some of the lines outside the grammar reach its `exit`.
-/

namespace Ribabari.InstructionGrammar

open Ribabari.CLibrary Ribabari.ProcessRecords Ribabari.SemaphoreTable
open Ribabari.ProgramFile Ribabari.ProgramRoundTrip

set_option autoImplicit false

/-! ## The grammar -/

/-- A decimal integer: digits, with a sign or without. -/
inductive Numeral : CString → Int → Prop where
  | plain {digits : CString} (nonempty : digits ≠ []) (all : ∀ c ∈ digits, c.isDigit = true) :
      Numeral digits (digitsValue digits)
  | plus {digits : CString} (nonempty : digits ≠ []) (all : ∀ c ∈ digits, c.isDigit = true) :
      Numeral ('+' :: digits) (digitsValue digits)
  | minus {digits : CString} (nonempty : digits ≠ []) (all : ∀ c ∈ digits, c.isDigit = true) :
      Numeral ('-' :: digits) (-digitsValue digits)

inductive Grammar (table : List Semaphore) : CString → Command → Prop where
  | binary {numeral : CString} {k : Int} (mnemonic : Mnemonic) (number : Numeral numeral k) :
      Grammar table (mnemonic.text ++ ' ' :: numeral) (.binary mnemonic k)
  | acquire {name : CString} (registered : semaphoreFind table name ≠ none) :
      Grammar table ('P' :: '(' :: (name ++ [')'])) (.acquire name)
  | release {name : CString} (registered : semaphoreFind table name ≠ none) :
      Grammar table ('V' :: '(' :: (name ++ [')'])) (.release name)

/-- No terminator at the end of the file, LF or CRLF. -/
def lineEnds : List CString := [[], ['\n'], ['\r', '\n']]

def GrammarLine (table : List Semaphore) (line : CString) (command : Command) : Prop :=
  ∃ content, ∃ ending ∈ lineEnds, line = content ++ ending ∧ Grammar table content command

/-! ## The outcomes -/

/-- `undefined` is a null pointer for a missing operand, or a read behind a line of one
letter. -/
inductive ParseOutcome where
  | parsed (instr : Instr)
  | exits
  | undefined
  deriving DecidableEq, Repr

def StartsUnary (line : CString) : Prop := line.head? = some 'P' ∨ line.head? = some 'V'

instance : DecidablePred StartsUnary := fun _ => inferInstanceAs (Decidable (_ ∨ _))

/-- What `instr_parse` ends in. Its only `exit` is behind the search for the name of a
unary line, which a line of one letter does not get to. -/
def parseOutcome (old : Instr) (line : CString) (table : List Semaphore) : ParseOutcome :=
  match instrParse old line table with
  | some instr => .parsed instr
  | none => if StartsUnary line ∧ 2 ≤ line.length then .exits else .undefined

/-- The line is in the grammar and the entry gets its opcode and operand, or it is not
and the program exits. -/
def KeepsGrammar (old : Instr) (table : List Semaphore) (line : CString) : Prop :=
  (∃ command, GrammarLine table line command ∧
      ∃ instr, parseOutcome old line table = .parsed instr ∧ command.Matches instr) ∨
    ((¬∃ command, GrammarLine table line command) ∧ parseOutcome old line table = .exits)

section Outcomes

variable {old instr : Instr} {table : List Semaphore} {line : CString}

theorem outcome_parsed_iff :
    parseOutcome old line table = .parsed instr ↔ instrParse old line table = some instr := by
  unfold parseOutcome
  cases instrParse old line table with
  | some other => simp
  | none =>
      simp only [reduceCtorEq, iff_false]
      split <;> exact ParseOutcome.noConfusion

theorem unary_parsed_iff (unary : StartsUnary line) :
    instrParse old line table = some instr ↔
      2 ≤ line.length ∧ semaphoreFind table (semName line) ≠ none ∧
        instr = { old with
          op := if line.head? = some 'P' then .semP else .semV
          sem := some (semName line) } := by
  have semaphores : instrParse old line table = instrSemaphoreParse old line table :=
    if_pos unary
  rw [semaphores, instrSemaphoreParse]
  split
  case isTrue short =>
      constructor
      · intro parsed
        cases parsed
      · intro long
        omega
  case isFalse long =>
      cases found : semaphoreFind table (semName line) with
      | none => simp
      | some sem =>
          simp only [ne_eq, reduceCtorEq, not_false_eq_true, true_and, Option.some.injEq]
          constructor
          · rintro rfl
            exact ⟨by omega, rfl⟩
          · rintro ⟨-, rfl⟩
            rfl

/-- A line of three characters names its semaphore by the third. -/
example : instrParse ⟨.exec, 0, none⟩ ['P', '(', 'a'] (semaphoreRegister [] ['a']) =
    some ⟨.semP, 0, some ['a']⟩ := by decide

/-- Only a unary line whose name is not registered is rejected. -/
theorem outcome_exits_iff :
    parseOutcome old line table = .exits ↔
      StartsUnary line ∧ 2 ≤ line.length ∧ semaphoreFind table (semName line) = none := by
  unfold parseOutcome
  cases parsed : instrParse old line table with
  | some other =>
      simp only [reduceCtorEq, false_iff, not_and]
      intro unary _ missing
      exact ((unary_parsed_iff unary).mp parsed).2.1 missing
  | none =>
      dsimp only
      split
      case isTrue rejected =>
          obtain ⟨unary, long⟩ := rejected
          simp only [true_iff]
          refine ⟨unary, long, ?_⟩
          by_contra found
          have some : instrParse old line table = some _ :=
            (unary_parsed_iff unary).mpr ⟨long, found, rfl⟩
          rw [parsed] at some
          exact nomatch some
      case isFalse kept =>
          simp only [reduceCtorEq, false_iff, not_and]
          intro unary long
          exact absurd ⟨unary, long⟩ kept

end Outcomes

/-! ## Lines of the grammar -/

theorem int32_is_int32 (value : Int) : IsInt32 (int32 value) := by
  have lower := Int.le_bmod (x := value) (m := 2 ^ 32) (by decide)
  have upper := Int.bmod_lt (x := value) (m := 2 ^ 32) (by decide)
  unfold IsInt32 int32
  omega

theorem numeral_nonempty {numeral : CString} {k : Int} (number : Numeral numeral k) :
    numeral ≠ [] := by
  cases number with
  | plain nonempty all => exact nonempty
  | plus | minus => exact List.cons_ne_nil _ _

theorem mem_numeral {numeral : CString} {k : Int} (number : Numeral numeral k) {c : Char}
    (member : c ∈ numeral) : c = '+' ∨ c = '-' ∨ c.isDigit = true := by
  cases number with
  | plain nonempty all => exact .inr (.inr (all c member))
  | plus nonempty all =>
      rcases List.mem_cons.mp member with sign | digit
      · exact .inl sign
      · exact .inr (.inr (all c digit))
  | minus nonempty all =>
      rcases List.mem_cons.mp member with sign | digit
      · exact .inr (.inl sign)
      · exact .inr (.inr (all c digit))

theorem end_stops {ending : CString} (ends : ending ∈ lineEnds) :
    (∀ c ∈ ending.head?, c.isDigit = false) ∧ ' ' ∉ ending := by
  simp only [lineEnds, List.mem_cons, List.not_mem_nil, or_false] at ends
  rcases ends with rfl | rfl | rfl <;> simp

/-- A numeral is read through a `long` that saturates. -/
theorem atoi_numeral {numeral ending : CString} {k : Int} (number : Numeral numeral k)
    (ends : ending ∈ lineEnds) :
    atoi (numeral ++ ending) = int32 (max (-(2 ^ 63)) (min (2 ^ 63 - 1) k)) := by
  have stops := (end_stops ends).1
  cases number with
  | plain nonempty all =>
      have positive : 0 ≤ digitsValue numeral := Int.natCast_nonneg _
      rw [atoi_digits nonempty all stops, Int.max_eq_right (by omega)]
  | @plus digits nonempty all =>
      have positive : 0 ≤ digitsValue digits := Int.natCast_nonneg _
      rw [List.cons_append, atoi_plus all stops, Int.max_eq_right (by omega)]
  | @minus digits nonempty all =>
      have positive : 0 ≤ digitsValue digits := Int.natCast_nonneg _
      rw [List.cons_append, atoi_minus all stops, Int.min_eq_right (by omega)]

theorem binary_line_read (old : Instr) (table : List Semaphore) (mnemonic : Mnemonic)
    {numeral ending : CString} {k : Int} (number : Numeral numeral k) (ends : ending ∈ lineEnds) :
    instrParse old (mnemonic.text ++ ' ' :: numeral ++ ending) table = some
      { op := mnemonic.opcode
        value := int32 (max (-(2 ^ 63)) (min (2 ^ 63 - 1) k))
        sem := none } := by
  have leftToken : strtok ' ' (mnemonic.text ++ ' ' :: (numeral ++ ending)) =
      some (mnemonic.text, numeral ++ ending) :=
    strtok_split _ (by cases mnemonic <;> decide) (by cases mnemonic <;> decide) (by simp)
  have unspaced : ' ' ∉ numeral ++ ending := by
    intro member
    rcases List.mem_append.mp member with inNumeral | inEnding
    · rcases mem_numeral number inNumeral with sign | sign | digit
      · exact absurd sign (by decide)
      · exact absurd sign (by decide)
      · exact absurd digit (by decide)
    · exact (end_stops ends).2 inEnding
  have rightToken : strtok ' ' (numeral ++ ending) = some (numeral ++ ending, []) := by
    have nonempty : numeral ++ ending ≠ [] := by simp [numeral_nonempty number]
    have token := strtok_split [] nonempty unspaced (by simp)
    rwa [List.append_nil] at token
  have unary : ¬((mnemonic.text ++ ' ' :: (numeral ++ ending)).head? = some 'P' ∨
      (mnemonic.text ++ ' ' :: (numeral ++ ending)).head? = some 'V') := by
    cases mnemonic <;> simp [Mnemonic.text, execText, readText, writeText, printText]
  rw [List.append_assoc, List.cons_append, instrParse, if_neg unary]
  simp only [leftToken, rightToken, Option.bind_eq_bind, Option.bind_some,
    atoi_numeral number ends]
  cases mnemonic <;> rfl

/-- Two characters are cut from the end of a unary line, so the name is read as written
only where the terminator is one character long. -/
theorem unary_name_read (letter : Char) (name : CString) {ending : CString}
    (ends : ending ∈ lineEnds)
    (same : semName (letter :: '(' :: (name ++ [')'] ++ ending)) = name) :
    ending = ['\n'] := by
  have lengths := congrArg List.length same
  simp only [semName, List.drop_succ_cons, List.drop_zero] at lengths
  simp only [lineEnds, List.mem_cons, List.not_mem_nil, or_false] at ends
  split at lengths
  case isTrue short =>
      simp only [List.length_append, List.length_singleton] at lengths
      omega
  case isFalse long =>
      simp only [List.length_take, List.length_append, List.length_singleton] at long lengths
      rcases ends with rfl | rfl | rfl
      · simp only [List.length_nil] at long lengths
        omega
      · rfl
      · simp only [List.length_cons, List.length_nil] at lengths
        omega

theorem sem_name_line (letter : Char) (name : CString) :
    semName (letter :: '(' :: (name ++ [')', '\n'])) = name := by
  simp [semName]

/-! ## Every line -/

/-- For every line and every table `instr_parse` keeps to the grammar exactly when the
line is a binary instruction with a 32-bit operand, or a unary one on a registered name
that ends in LF, or a line outside the grammar that begins like a unary one, has a second
character, and has no registered name where the parser looks for it. -/
theorem keeps_grammar_iff (old : Instr) (table : List Semaphore) (line : CString) :
    KeepsGrammar old table line ↔
      (∃ mnemonic k, GrammarLine table line (.binary mnemonic k) ∧ IsInt32 k) ∨
        (∃ name, semaphoreFind table name ≠ none ∧
          (line = 'P' :: '(' :: (name ++ [')', '\n']) ∨
            line = 'V' :: '(' :: (name ++ [')', '\n']))) ∨
        ((¬∃ command, GrammarLine table line command) ∧ StartsUnary line ∧ 2 ≤ line.length ∧
          semaphoreFind table (semName line) = none) := by
  constructor
  · rintro (⟨command, inGrammar, instr, outcome, matched⟩ | ⟨outside, exits⟩)
    · have parsed := outcome_parsed_iff.mp outcome
      obtain ⟨content, ending, ends, rfl, grammar⟩ := inGrammar
      cases grammar with
      | @binary numeral k mnemonic number =>
          rw [binary_line_read old table mnemonic number ends] at parsed
          have value := matched.2.1
          rw [← Option.some.inj parsed] at value
          refine .inl ⟨mnemonic, k, ⟨_, ending, ends, rfl, .binary mnemonic number⟩, ?_⟩
          rw [← value]
          exact int32_is_int32 _
      | @acquire name registered =>
          obtain ⟨-, -, rfl⟩ := (unary_parsed_iff (.inl rfl)).mp parsed
          obtain rfl := unary_name_read _ _ ends (Option.some.inj matched.2)
          exact .inr (.inl ⟨name, registered, .inl (by simp)⟩)
      | @release name registered =>
          obtain ⟨-, -, rfl⟩ := (unary_parsed_iff (.inr rfl)).mp parsed
          obtain rfl := unary_name_read _ _ ends (Option.some.inj matched.2)
          exact .inr (.inl ⟨name, registered, .inr (by simp)⟩)
    · exact .inr (.inr ⟨outside, outcome_exits_iff.mp exits⟩)
  · rintro (⟨mnemonic, k, inGrammar, range⟩ | ⟨name, registered, here⟩ | ⟨outside, rejected⟩)
    · have documented := inGrammar
      obtain ⟨content, ending, ends, rfl, grammar⟩ := inGrammar
      cases grammar with
      | binary mnemonic number =>
          have parsed := binary_line_read old table mnemonic number ends
          have value : int32 (max (-(2 ^ 63)) (min (2 ^ 63 - 1) k)) = k := by
            have bounds := range
            unfold IsInt32 at bounds
            rw [Int.min_eq_right (by omega), Int.max_eq_right (by omega)]
            exact int32_of_range range
          exact .inl ⟨_, documented, _, outcome_parsed_iff.mpr parsed, rfl, value, rfl⟩
    · rcases here with rfl | rfl
      · have parsed : instrParse old ('P' :: '(' :: (name ++ [')', '\n'])) table = some _ :=
          (unary_parsed_iff (.inl rfl)).mpr
          ⟨by simp, (sem_name_line 'P' name).symm ▸ registered, rfl⟩
        refine .inl ⟨.acquire name,
          ⟨_, ['\n'], by simp [lineEnds], by simp, .acquire registered⟩, _,
          outcome_parsed_iff.mpr parsed, rfl, ?_⟩
        exact congrArg some (sem_name_line 'P' name)
      · have parsed : instrParse old ('V' :: '(' :: (name ++ [')', '\n'])) table = some _ :=
          (unary_parsed_iff (.inr rfl)).mpr
          ⟨by simp, (sem_name_line 'V' name).symm ▸ registered, rfl⟩
        refine .inl ⟨.release name,
          ⟨_, ['\n'], by simp [lineEnds], by simp, .release registered⟩, _,
          outcome_parsed_iff.mpr parsed, rfl, ?_⟩
        exact congrArg some (sem_name_line 'V' name)
    · exact .inr ⟨outside, outcome_exits_iff.mpr rejected⟩

/-- An unknown mnemonic leaves the opcode to what the memory held. -/
theorem unknown_mnemonic_is_loaded :
    parseOutcome ⟨.print, 7, none⟩ ['j', 'u', 'm', 'p', ' ', '5', '\n'] [] =
        .parsed ⟨.print, 5, none⟩ ∧
      ¬KeepsGrammar ⟨.print, 7, none⟩ [] ['j', 'u', 'm', 'p', ' ', '5', '\n'] := by
  have outcome : parseOutcome ⟨.print, 7, none⟩ ['j', 'u', 'm', 'p', ' ', '5', '\n'] [] =
      .parsed ⟨.print, 5, none⟩ := by decide
  refine ⟨outcome, ?_⟩
  rintro (⟨command, ⟨content, ending, -, line, grammar⟩, -⟩ | ⟨-, exits⟩)
  · have first := congrArg List.head? line
    cases grammar with
    | binary mnemonic number =>
        cases mnemonic <;> simp [Mnemonic.text, execText, readText, writeText, printText] at first
    | acquire | release => simp at first
  · rw [outcome] at exits
    cases exits

end Ribabari.InstructionGrammar

import Ribabari.Kernel.InstructionFetch
import Ribabari.Model.ProgramFile

/-!
# The length of the code

`read_code` counts the lines in one pass and parses them in another, and only the second
passes over blank lines. Each parsed line goes to the next entry, so the parsed entries
come first and the array ends with as many entries of uninitialised memory as there are
blank lines.
-/

namespace Ribabari.CodeLength

open Ribabari.CLibrary Ribabari.ProcessRecords Ribabari.SemaphoreTable
open Ribabari.KernelEvents Ribabari.ProgramFile Ribabari.CpuLoop
open Ribabari.Placement Ribabari.InstructionFetch Ribabari.TransitionSystem

set_option autoImplicit false

/-- What `buf` holds after each `fgets` of a pass. -/
def codeLines (rest : List Char) : List CString :=
  (fgetsAll bufLenParse rest.length rest).map cString

/-- The lines that the second pass ignores. -/
def Blank (buf : CString) : Prop := buf = [] ∨ buf = ['\n'] ∨ buf = ['\r', '\n']

instance : DecidablePred Blank := fun _ => inferInstanceAs (Decidable (_ ∨ _ ∨ _))

def instrLines (lines : List CString) : List CString := lines.filter fun buf => ¬Blank buf

/-- The second pass, with the number of entries it wrote. -/
def secondPass (table : List Semaphore) (garbage : Nat → Instr) (rest : List Char) :
    Option (Nat × List Instr) :=
  (codeLines rest).foldlM (parseLine table)
    (0, (List.range (codeLines rest).length).map garbage)

theorem read_code_passes (table : List Semaphore) (garbage : Nat → Instr) (rest : List Char) :
    readCode table garbage rest =
      (secondPass table garbage rest).map fun result => ((codeLines rest).length, result.2) :=
  rfl

section Passes

variable {table : List Semaphore} {line : CString} {lines : List CString}

theorem parse_line_fires {state next : Nat × List Instr}
    (parsed : parseLine table state line = some next) :
    (Blank line ∧ next = state) ∨
      (¬Blank line ∧ ∃ old instr, state.2[state.1]? = some old ∧
        instrParse old line table = some instr ∧
        next = (state.1 + 1, state.2.set state.1 instr)) := by
  unfold parseLine at parsed
  split at parsed
  case isTrue blank => exact .inl ⟨blank, (Option.some.inj parsed).symm⟩
  case isFalse full =>
      simp only [Option.bind_eq_bind, Option.bind_eq_some_iff] at parsed
      obtain ⟨old, here, instr, parsed, stepped⟩ := parsed
      exact .inr ⟨full, old, instr, here, parsed, (Option.some.inj stepped).symm⟩

/-- From an index on the pass writes one entry for each line that is not blank, in order,
and no other entry. -/
theorem parse_lines_written {index last : Nat} {code result : List Instr}
    (parsed : lines.foldlM (parseLine table) (index, code) = some (last, result)) :
    last = index + (instrLines lines).length ∧
      (∀ entry, entry < index ∨ last ≤ entry → result[entry]? = code[entry]?) ∧
      ∀ offset line, (instrLines lines)[offset]? = some line →
        ∃ old instr, code[index + offset]? = some old ∧
          instrParse old line table = some instr ∧ result[index + offset]? = some instr := by
  induction lines generalizing index code with
  | nil =>
      obtain ⟨rfl, rfl⟩ := Prod.mk.inj (Option.some.inj parsed)
      exact ⟨rfl, fun _ _ => rfl, fun offset line found => nomatch found⟩
  | cons first lines ih =>
      rw [List.foldlM_cons] at parsed
      obtain ⟨next, step, parsed⟩ := Option.bind_eq_some_iff.mp parsed
      rcases parse_line_fires step with ⟨blank, rfl⟩ | ⟨full, old, instr, here, read, rfl⟩
      · have skipped : instrLines (first :: lines) = instrLines lines :=
          List.filter_cons_of_neg (by simpa using blank)
        rw [skipped]
        exact ih parsed
      · have kept : instrLines (first :: lines) = first :: instrLines lines :=
          List.filter_cons_of_pos (by simpa using full)
        obtain ⟨count, outside, written⟩ := ih parsed
        have inside : index < code.length := (List.getElem?_eq_some_iff.mp here).1
        rw [kept, List.length_cons]
        refine ⟨by omega, fun entry range => ?_, fun offset line found => ?_⟩
        · rw [outside entry (by omega)]
          exact List.getElem?_set_ne (by omega)
        · cases offset with
          | zero =>
              obtain rfl : first = line := by simpa using found
              refine ⟨old, instr, here, read, ?_⟩
              rw [Nat.add_zero, outside index (.inl (Nat.lt_succ_self index)),
                List.getElem?_set_self inside]
          | succ offset =>
              rw [List.getElem?_cons_succ] at found
              obtain ⟨earlier, later, before, parsedLater, after⟩ := written offset line found
              rw [show index + 1 + offset = index + (offset + 1) by omega] at before after
              rw [List.getElem?_set_ne (by omega)] at before
              exact ⟨earlier, later, before, parsedLater, after⟩

end Passes

/-- The passes read the same lines, all of the text. The second writes the first entries
from the lines that are not blank and leaves the others as they were, so the length is
the number of parsed instructions, and every entry below it comes from a line, exactly
when no line is blank. -/
theorem code_len_is_parsed_iff {table : List Semaphore} {garbage : Nat → Instr}
    {rest : List Char} {codeLen : Nat} {code : List Instr}
    (read : readCode table garbage rest = some (codeLen, code)) :
    ∃ parsed, secondPass table garbage rest = some (parsed, code) ∧
      (fgetsAll bufLenParse rest.length rest).flatten = rest ∧
      (∀ index < parsed, ∃ line, (instrLines (codeLines rest))[index]? = some line ∧
        ∃ instr, instrParse (garbage index) line table = some instr ∧
          code[index]? = some instr) ∧
      (∀ index, parsed ≤ index → index < codeLen → code[index]? = some (garbage index)) ∧
      ((parsed = codeLen ∧ ∀ index < codeLen, ∃ line ∈ codeLines rest, ∃ instr,
          instrParse (garbage index) line table = some instr ∧ code[index]? = some instr) ↔
        ∀ line ∈ codeLines rest, ¬Blank line) := by
  rw [read_code_passes] at read
  obtain ⟨⟨parsed, result⟩, passed, same⟩ := Option.map_eq_some_iff.mp read
  obtain ⟨rfl, rfl⟩ := Prod.mk.inj same
  obtain ⟨count, outside, written⟩ := parse_lines_written passed
  rw [Nat.zero_add] at count
  have initial : ∀ index < (codeLines rest).length,
      ((List.range (codeLines rest).length).map garbage)[index]? = some (garbage index) := by
    intro index bound
    rw [List.getElem?_map, List.getElem?_range bound, Option.map_some]
  have fits : parsed ≤ (codeLines rest).length := count ▸ List.length_filter_le _ _
  have entries : ∀ index < parsed, ∃ line, (instrLines (codeLines rest))[index]? = some line ∧
      ∃ instr, instrParse (garbage index) line table = some instr ∧
        result[index]? = some instr := by
    intro index bound
    have found := List.getElem?_eq_getElem (count ▸ bound)
    obtain ⟨old, instr, before, parsedHere, after⟩ := written index _ found
    rw [Nat.zero_add] at before after
    rw [initial index (Nat.lt_of_lt_of_le bound fits)] at before
    rw [← Option.some.inj before] at parsedHere
    exact ⟨_, found, instr, parsedHere, after⟩
  refine ⟨parsed, passed, fgets_all_flatten (by decide) (Nat.le_refl _), entries, ?_, ?_⟩
  · intro index late bound
    rw [outside index (.inr late), initial index bound]
  · rw [count]
    constructor
    · intro holds line member
      have all := List.length_filter_eq_length_iff.mp holds.1 line member
      exact of_decide_eq_true all
    · intro full
      have whole : (instrLines (codeLines rest)).length = (codeLines rest).length :=
        List.length_filter_eq_length_iff.mpr fun line member => decide_eq_true (full line member)
      refine ⟨whole, fun index bound => ?_⟩
      obtain ⟨line, found, instr, parsedHere, after⟩ := entries index (by omega)
      have member : line ∈ instrLines (codeLines rest) := List.mem_of_getElem? found
      exact ⟨line, (List.mem_filter.mp member).1, instr, parsedHere, after⟩

theorem code_len_is_parsed_iff_sample :
    ∃ parsed, secondPass [] (fun _ => ⟨.print, 7, none⟩)
        ['e', 'x', 'e', 'c', ' ', '1', '\n', 'r', 'e', 'a', 'd', ' ', '2'] =
          some (parsed, [⟨.exec, 1, none⟩, ⟨.read, 2, none⟩]) ∧ parsed = 2 := by
  obtain ⟨parsed, passed, -, -, -, holds⟩ := @code_len_is_parsed_iff []
    (fun _ => ⟨.print, 7, none⟩)
    ['e', 'x', 'e', 'c', ' ', '1', '\n', 'r', 'e', 'a', 'd', ' ', '2'] 2
    [⟨.exec, 1, none⟩, ⟨.read, 2, none⟩] (by decide)
  exact ⟨parsed, passed, (holds.mpr (by decide)).1⟩

/-- A program whose text ends with a blank line, over memory that held a `print`. -/
def blankEndText : List Char := ['e', 'x', 'e', 'c', ' ', '1', '\n', '\n']

def blankEndProgram : Program :=
  { sampleProgram with
    semaphores := []
    code := [⟨.exec, 1, none⟩, ⟨.print, 7, none⟩] }

def blankEndEvents : List CpuEvent :=
  [.processCreate blankEndProgram blankPage, .pass false, .pass false, .pass true, .pass false,
    .pass true]

/-- The length is two, one line is parsed, and the cpu evaluates the other entry. -/
theorem blank_line_is_counted :
    readCode [] (fun _ => ⟨.print, 7, none⟩) blankEndText = some (2, blankEndProgram.code) ∧
      secondPass [] (fun _ => ⟨.print, 7, none⟩) blankEndText = some (1, blankEndProgram.code) ∧
      (∀ line ∈ codeLines blankEndText,
        instrParse ⟨.print, 7, none⟩ line [] ≠ some ⟨.print, 7, none⟩) ∧
      (run recordedCpu blankEndEvents recordedCpu.start).map
        (fun state => state.2.evaluated 1) = some [⟨.exec, 1, none⟩, ⟨.print, 7, none⟩] :=
  ⟨by decide, by decide, by decide, by decide⟩

end Ribabari.CodeLength

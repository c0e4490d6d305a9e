import Ribabari.Kernel.SemaphoreNames
import Ribabari.Loader.LineEndings

/-!
# The semaphores a loaded program names

`instr_semaphore_parse` refuses a name that is not in the table, and the table never
loses a name. So a semaphore instruction that the parser wrote finds its semaphore for
good. The parser also leaves an `op` behind that it never wrote, at a blank line and at
an unknown mnemonic, and there the instruction is what `malloc` returned.
-/

namespace Ribabari.ResolvedNames

open Ribabari.ProcessRecords Ribabari.SegmentMemory Ribabari.SemaphoreTable
open Ribabari.KernelState Ribabari.KernelEvents Ribabari.ProgramFile Ribabari.LineEndings
open Ribabari.SemaphoreNames Ribabari.QueueRefinement Ribabari.Placement
open Ribabari.TransitionSystem

set_option autoImplicit false

def Instr.onSemaphore (instr : Instr) : Prop := instr.op = .semP ∨ instr.op = .semV

instance (instr : Instr) : Decidable (Instr.onSemaphore instr) :=
  inferInstanceAs (Decidable (instr.op = .semP ∨ instr.op = .semV))

/-- A semaphore instruction finds its semaphore in the table. -/
def Resolves (table : List Semaphore) (instr : Instr) : Prop :=
  Instr.onSemaphore instr → ∃ sem, instr.sem.bind (semaphoreFind table) = some sem

/-! ## What the parser writes -/

section Parsing

variable {table : List Semaphore}

/-- An instruction that is parsed resolves, or its `op` is the one the entry held. -/
theorem instr_parse_resolves {old instr : Instr} {line : CString}
    (parsed : instrParse old line table = some instr) :
    Resolves table instr ∨ instr.op = old.op := by
  by_cases unary : line.head? = some 'P' ∨ line.head? = some 'V'
  · obtain ⟨-, name, sem, named, found⟩ := semaphore_parsed parsed unary
    apply Or.inl
    intro _
    rw [named, Option.bind_some]
    exact ⟨sem, found⟩
  · simp only [instrParse, unary, if_false, Option.bind_eq_bind, Option.bind_eq_some_iff,
      Option.some.injEq] at parsed
    obtain ⟨left, -, right, -, rfl⟩ := parsed
    dsimp only
    split_ifs
    case neg => exact .inr rfl
    all_goals
      apply Or.inl
      rintro (acquires | releases)
      · exact Opcode.noConfusion acquires
      · exact Opcode.noConfusion releases

/-- The entries before the next index are parsed, the others are as `malloc` left them. -/
structure ParsedSoFar (table : List Semaphore) (garbage : Nat → Instr)
    (state : Nat × List Instr) : Prop where
  written : ∀ index instr, state.2[index]? = some instr →
    Resolves table instr ∨ instr.op = (garbage index).op
  unwritten : ∀ index instr, state.1 ≤ index → state.2[index]? = some instr →
    instr.op = (garbage index).op

theorem start_parsed (table : List Semaphore) (garbage : Nat → Instr) (length : Nat) :
    ParsedSoFar table garbage (0, (List.range length).map garbage) := by
  have entry : ∀ index instr, ((List.range length).map garbage)[index]? = some instr →
      instr.op = (garbage index).op := by
    intro index instr found
    rw [List.getElem?_map, Option.map_eq_some_iff] at found
    obtain ⟨same, position, rfl⟩ := found
    rw [List.getElem?_range (by simpa using (List.getElem?_eq_some_iff.mp position).1)] at position
    rw [Option.some.inj position]
  exact ⟨fun index instr found => .inr (entry index instr found),
    fun index instr _ found => entry index instr found⟩

theorem parse_line_parsed {garbage : Nat → Instr} {state next : Nat × List Instr}
    {line : CString}
    (soFar : ParsedSoFar table garbage state) (parsed : parseLine table state line = some next) :
    ParsedSoFar table garbage next := by
  unfold parseLine at parsed
  split at parsed
  case isTrue =>
      obtain rfl := Option.some.inj parsed
      exact soFar
  case isFalse =>
      simp only [Option.bind_eq_bind, Option.bind_eq_some_iff, Option.some.injEq] at parsed
      obtain ⟨old, held, instr, parse, rfl⟩ := parsed
      have inRange : state.1 < state.2.length := (List.getElem?_eq_some_iff.mp held).1
      constructor
      · intro index entry found
        by_cases here : state.1 = index
        · subst here
          obtain rfl : instr = entry := by
            simpa [List.getElem?_set_self inRange] using found
          apply (instr_parse_resolves parse).imp_right
          intro same
          exact same.trans (soFar.unwritten _ old (Nat.le_refl _) held)
        · rw [List.getElem?_set_ne here] at found
          exact soFar.written index entry found
      · intro index entry beyond found
        rw [List.getElem?_set_ne (Nat.ne_of_lt beyond)] at found
        exact soFar.unwritten index entry (Nat.le_of_succ_le beyond) found

theorem parse_lines_parsed {garbage : Nat → Instr} {lines : List CString}
    {state result : Nat × List Instr} (soFar : ParsedSoFar table garbage state)
    (parsed : lines.foldlM (parseLine table) state = some result) :
    ParsedSoFar table garbage result := by
  induction lines generalizing state with
  | nil =>
      obtain rfl := Option.some.inj parsed
      exact soFar
  | cons line lines ih =>
      rw [List.foldlM_cons] at parsed
      obtain ⟨next, step, rest⟩ := Option.bind_eq_some_iff.mp parsed
      exact ih (parse_line_parsed soFar step) rest

theorem read_code_resolves {garbage : Nat → Instr} {rest : List Char} {codeLen : Nat}
    {code : List Instr} (read : readCode table garbage rest = some (codeLen, code)) :
    ∀ index instr, code[index]? = some instr →
      Resolves table instr ∨ instr.op = (garbage index).op := by
  obtain ⟨result, parsed, same⟩ := Option.map_eq_some_iff.mp read
  obtain ⟨-, rfl⟩ := Prod.mk.inj same
  exact (parse_lines_parsed (start_parsed table garbage _) parsed).written

end Parsing

/-! ## The table afterwards -/

theorem find_some_iff (table : List Semaphore) (name : CString) :
    (∃ sem, semaphoreFind table name = some sem) ↔ name ∈ table.map Semaphore.name := by
  rw [← Option.isSome_iff_exists, semaphoreFind, List.find?_isSome]
  simp

theorem resolves_longer {table later : List Semaphore}
    (kept : table.map Semaphore.name <+: later.map Semaphore.name) {instr : Instr}
    (resolves : Resolves table instr) : Resolves later instr := by
  intro onSemaphore
  obtain ⟨sem, found⟩ := resolves onSemaphore
  obtain ⟨name, named, found⟩ := Option.bind_eq_some_iff.mp found
  rw [named, Option.bind_some]
  apply (find_some_iff later name).mpr
  exact kept.subset ((find_some_iff table name).mp ⟨sem, found⟩)

/-- No event takes a name out of the semaphore table. -/
theorem step_keeps_names {kernel after : Kernel} {event : KernelEvent}
    (fired : kernelStep kernel event = some after) :
    kernel.semTable.map Semaphore.name <+: after.semTable.map Semaphore.name := by
  obtain ⟨calls, ran⟩ := board_calls (kernel_step_board fired)
  exact run_names ran

theorem run_keeps_names {kernel later : Kernel} {events : List KernelEvent}
    (ran : run kernelSystem events kernel = some later) :
    kernel.semTable.map Semaphore.name <+: later.semTable.map Semaphore.name := by
  obtain ⟨calls, table⟩ := kernel_calls ran
  exact run_names table

/-- A program with one semaphore, which it takes and gives back. -/
def sectionText : List Char :=
  ['a', '\n', '1', '\n', '1', '\n', '4', '\n', 's', '\n', 'P', '(', 's', ')', '\n',
    'V', '(', 's', ')', '\n']

end Ribabari.ResolvedNames

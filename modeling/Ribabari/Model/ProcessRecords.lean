import Mathlib.Data.Int.Notation
import Mathlib.Data.List.Basic

/-!
# Processes and instructions

The records of `process.h` and `instruction.h`. A C string is the list of its
bytes before the terminator, one `Char` a byte. A `process_t *` is represented
by the process's `id`: ids are drawn once each from `next_proc_id`, and
`proc_cmp`, the only comparison of processes in the source, compares ids.
-/

namespace Ribabari.ProcessRecords

set_option autoImplicit false

abbrev CString := List Char

abbrev ProcId := Nat

inductive Opcode where
  | exec
  | read
  | write
  | print
  | semP
  | semV
  deriving DecidableEq, Repr

/-- `instr_t`. `sem` is `none` for the null pointer. -/
structure Instr where
  op : Opcode
  value : Int
  sem : Option CString
  deriving DecidableEq, Repr

inductive ProcessState where
  | new
  | blocked
  | ready
  | running
  | terminated
  deriving DecidableEq, Repr

/-- `process_t` without its `id`, which addresses the record. `semaphores` is `none` while
nothing has been assigned to the pointer. -/
structure Process where
  name : CString
  pc : Nat
  codeLen : Nat
  segId : Int
  segSize : Int
  priority : Int
  remaining : Int
  state : ProcessState
  oFiles : List Int
  semaphores : Option (List CString)
  deriving DecidableEq, Repr

/-- Storage nothing has written yet. -/
def Process.blank : Process where
  name := []
  pc := 0
  codeLen := 0
  segId := 0
  segSize := 0
  priority := 0
  remaining := 0
  state := .new
  oFiles := []
  semaphores := none

/-- What `parse_synthetic_program` and `read_code` take from a program file. -/
structure Program where
  name : CString
  segId : Int
  priority : Int
  segSize : Int
  semaphores : List CString
  code : List Instr
  deriving DecidableEq, Repr

def Process.setState (process : Process) (state : ProcessState) : Process :=
  { process with state := state }

def Process.setRemaining (process : Process) (remaining : Int) : Process :=
  { process with remaining := remaining }

/-- The fields that neither the scheduler nor an instruction's cost changes. -/
def Process.image (process : Process) : Process :=
  { process with remaining := 0, state := .new }

@[simp] theorem image_set_state (process : Process) (state : ProcessState) :
    (process.setState state).image = process.image := rfl

@[simp] theorem image_set_remaining (process : Process) (remaining : Int) :
    (process.setRemaining remaining).image = process.image := rfl

@[simp] theorem state_set_remaining (process : Process) (remaining : Int) :
    (process.setRemaining remaining).state = process.state := rfl

theorem image_fields {left right : Process} (same : left.image = right.image) :
    left.name = right.name ∧ left.pc = right.pc ∧ left.codeLen = right.codeLen ∧
      left.segId = right.segId ∧ left.oFiles = right.oFiles := by
  simp only [Process.image, Process.mk.injEq] at same
  exact ⟨same.1, same.2.1, same.2.2.1, same.2.2.2.1, same.2.2.2.2.2.2.2.2.1⟩

theorem image_semaphores {left right : Process} (same : left.image = right.image) :
    left.semaphores = right.semaphores := by
  simp only [Process.image, Process.mk.injEq] at same
  exact same.2.2.2.2.2.2.2.2.2

/-- `has_opened_file`. -/
def hasOpenedFile (process : Process) (inumber : Int) : Bool :=
  process.oFiles.contains inumber

end Ribabari.ProcessRecords

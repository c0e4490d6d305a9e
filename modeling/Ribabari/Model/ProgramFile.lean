import Ribabari.Foundation.CLibrary
import Ribabari.Model.KernelEvents

/-!
# Reading a program file

`parse_synthetic_program`, `read_code` and the instruction parsers. The reader is
undefined where the source writes before its buffer, reads behind it, dereferences a
missing token or exits. What `malloc` left in the code array is a parameter, since a semaphore
instruction never writes its `value` and an unknown mnemonic never writes its `op`.
-/

namespace Ribabari.ProgramFile

open Ribabari.CLibrary Ribabari.ProcessRecords Ribabari.SegmentMemory
open Ribabari.SemaphoreTable Ribabari.KernelState Ribabari.KernelEvents

set_option autoImplicit false

def bufLenParse : Nat := 256

/-- The file from the read position on, and the string in `buf`. -/
structure Reader where
  rest : List Char
  buf : CString

/-- `fgets(buf, BUF_LEN_PARSE, fp)`, which leaves `buf` alone at the end. -/
def Reader.fgets (reader : Reader) : Reader :=
  match CLibrary.fgets bufLenParse reader.rest with
  | none => reader
  | some (line, rest) =>
      { rest := rest
        buf := cString line }

/-- `buf[strlen(buf) - 1] = '\0'`, which needs a non-empty string. -/
def stripLast (buf : CString) : Option CString :=
  if buf = [] then none else some buf.dropLast

/-- `read_semaphores`: the names copied into an array that is sized by the spaces of
the line, and the table with each of them registered. -/
def readSemaphores (table : List Semaphore) (line : CString) :
    Option (List CString × List Semaphore) :=
  let semCount := line.count ' ' + 1
  let names := strtokAll ' ' (line.length + 1) line
  if names = [] ∨ semCount < names.length then none
  else some (names, names.foldl semaphoreRegister table)

/-- What `parse_synthetic_program` has set when it returns. -/
structure Header where
  name : CString
  segId : Int
  priority : Int
  segSize : Int
  semaphores : List CString
  semTable : List Semaphore
  reader : Reader

def parseSyntheticProgram (table : List Semaphore) (reader : Reader) : Option Header := do
  let reader := reader.fgets
  let name ← stripLast reader.buf
  let reader := reader.fgets
  let segId := atoi reader.buf
  let reader := reader.fgets
  let priority := atoi reader.buf
  let reader := reader.fgets
  let segSize := atoi reader.buf
  let reader := reader.fgets
  if reader.buf = ['\n'] then
    some
      { name := name
        segId := segId
        priority := priority
        segSize := segSize
        semaphores := []
        semTable := table
        reader := reader }
  else
    let line ← stripLast reader.buf
    let read ← readSemaphores table line
    some
      { name := name
        segId := segId
        priority := priority
        segSize := segSize
        semaphores := read.1
        semTable := read.2
        reader := reader.fgets }

/-- `sem_name[strlen(sem_name) - 2] = '\0'` behind the first two characters. Where fewer than
two are left the write lands on one of those two, and the name stays uncut. -/
def semName (line : CString) : CString :=
  let tail := line.drop 2
  if tail.length < 2 then tail else tail.take (tail.length - 2)

/-- `instr_semaphore_parse` into an entry that held `old`. Behind a single character it
reads past the copy of the line. -/
def instrSemaphoreParse (old : Instr) (line : CString) (table : List Semaphore) :
    Option Instr :=
  if line.length < 2 then none
  else
    match semaphoreFind table (semName line) with
    | none => none
    | some _ => some
        { old with
          op := if line.head? = some 'P' then .semP else .semV
          sem := some (semName line) }

def execText : CString := ['e', 'x', 'e', 'c']

def readText : CString := ['r', 'e', 'a', 'd']

def writeText : CString := ['w', 'r', 'i', 't', 'e']

def printText : CString := ['p', 'r', 'i', 'n', 't']

/-- `instr_parse` into an entry that held `old`. -/
def instrParse (old : Instr) (line : CString) (table : List Semaphore) : Option Instr :=
  if line.head? = some 'P' ∨ line.head? = some 'V' then instrSemaphoreParse old line table
  else do
    let left ← strtok ' ' line
    let right ← strtok ' ' left.2
    let op :=
      if left.1 = execText then .exec
      else if left.1 = readText then .read
      else if left.1 = writeText then .write
      else if left.1 = printText then .print
      else old.op
    some
      { op := op
        value := atoi right.1
        sem := none }

/-- One pass of the second loop of `read_code`, over the next index and the array. -/
def parseLine (table : List Semaphore) (state : Nat × List Instr) (buf : CString) :
    Option (Nat × List Instr) :=
  if buf = [] ∨ buf = ['\n'] ∨ buf = ['\r', '\n'] then some state
  else do
    let old ← state.2[state.1]?
    let instr ← instrParse old buf table
    some (state.1 + 1, state.2.set state.1 instr)

/-- `read_code`: `code_len` counts every line, the array is filled by a second pass
from the same position. -/
def readCode (table : List Semaphore) (garbage : Nat → Instr) (rest : List Char) :
    Option (Nat × List Instr) :=
  let lines := (fgetsAll bufLenParse rest.length rest).map cString
  let codeLen := lines.length
  let code := (List.range codeLen).map garbage
  (lines.foldlM (parseLine table) (0, code)).map fun result => (codeLen, result.2)

/-- `process_create` on the text of the file. -/
def processCreateFile (kernel : Kernel) (reader : Reader) (garbage : Nat → Instr)
    (fresh : Nat → Page) : Option Kernel := do
  let header ← parseSyntheticProgram kernel.semTable reader
  let code ← readCode header.semTable garbage header.reader.rest
  some (processCreate kernel
    { name := header.name
      segId := header.segId
      priority := header.priority
      segSize := header.segSize
      semaphores := header.semaphores
      code := code.2 } fresh)

/-- The semaphores are registered while the header is read, in the order of the line:
the table is the one the load leaves in the kernel. -/
theorem header_registers {table : List Semaphore} {reader : Reader} {header : Header}
    (parsed : parseSyntheticProgram table reader = some header) :
    header.semTable = header.semaphores.foldl semaphoreRegister table := by
  simp only [parseSyntheticProgram, Option.bind_eq_bind, Option.bind_eq_some_iff] at parsed
  obtain ⟨name, -, parsed⟩ := parsed
  split at parsed
  · obtain rfl := Option.some.inj parsed
    rfl
  · obtain ⟨line, -, parsed⟩ := Option.bind_eq_some_iff.mp parsed
    obtain ⟨read, registered, parsed⟩ := Option.bind_eq_some_iff.mp parsed
    obtain rfl := Option.some.inj parsed
    unfold readSemaphores at registered
    dsimp only at registered
    split at registered
    · simp at registered
    · rw [← Option.some.inj registered]

theorem parse_line_length {table : List Semaphore} {state next : Nat × List Instr}
    {line : CString} (parsed : parseLine table state line = some next) :
    next.2.length = state.2.length := by
  unfold parseLine at parsed
  split at parsed
  · rw [← Option.some.inj parsed]
  · simp only [Option.bind_eq_bind, Option.bind_eq_some_iff] at parsed
    obtain ⟨old, -, instr, -, parsed⟩ := parsed
    rw [← Option.some.inj parsed, List.length_set]

theorem parse_lines_length {table : List Semaphore} {lines : List CString}
    {state result : Nat × List Instr} (parsed : lines.foldlM (parseLine table) state = some result) :
    result.2.length = state.2.length := by
  induction lines generalizing state with
  | nil => rw [← Option.some.inj parsed]
  | cons line lines ih =>
      rw [List.foldlM_cons] at parsed
      obtain ⟨next, step, rest⟩ := Option.bind_eq_some_iff.mp parsed
      exact (ih rest).trans (parse_line_length step)

/-- The array has an entry for each line that was counted. -/
theorem read_code_counted {table : List Semaphore} {garbage : Nat → Instr} {rest : List Char}
    {codeLen : Nat} {code : List Instr}
    (read : readCode table garbage rest = some (codeLen, code)) : code.length = codeLen := by
  obtain ⟨result, parsed, same⟩ := Option.map_eq_some_iff.mp read
  obtain ⟨rfl, rfl⟩ := Prod.mk.inj same
  simpa using parse_lines_length parsed

/-- A file that is read is one load of the kernel: the table the code was checked
against is the one the load registers, and `code_len` is the length of the array. -/
theorem create_file_is_load {kernel after : Kernel} {reader : Reader} {garbage : Nat → Instr}
    {fresh : Nat → Page} (created : processCreateFile kernel reader garbage fresh = some after) :
    ∃ program codeLen semTable rest,
      kernelStep kernel (.processCreate program fresh) = some after ∧
      (registerProgram kernel program).semTable = semTable ∧
      readCode semTable garbage rest = some (codeLen, program.code) ∧
      (newProcess program).codeLen = codeLen := by
  obtain ⟨header, parsed, created⟩ := Option.bind_eq_some_iff.mp created
  obtain ⟨⟨codeLen, code⟩, read, created⟩ := Option.bind_eq_some_iff.mp created
  exact ⟨_, codeLen, header.semTable, header.reader.rest, created,
    (header_registers parsed).symm, read, read_code_counted read⟩

end Ribabari.ProgramFile

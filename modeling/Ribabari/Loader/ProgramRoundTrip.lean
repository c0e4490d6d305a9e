import Ribabari.Model.ProgramFile

/-!
# Reading a written program back

A program in the documented format, its text, and what the loader makes of it. Each
line of the text is one `fgets`, so the header is read field by field and the code
line by line into the entry of the same index.
-/

namespace Ribabari.ProgramRoundTrip

open Ribabari.CLibrary Ribabari.ProcessRecords Ribabari.SegmentMemory Ribabari.SemaphoreTable
open Ribabari.KernelState Ribabari.KernelEvents Ribabari.ProgramFile

set_option autoImplicit false

/-! ## The documented format -/

def IsControl (c : Char) : Prop := c.toNat < 32 ∨ c.toNat = 127

instance (c : Char) : Decidable (IsControl c) := inferInstanceAs (Decidable (_ ∨ _))

/-- Text without control characters. -/
def Plain (text : CString) : Prop := ∀ c ∈ text, ¬IsControl c

instance (text : CString) : Decidable (Plain text) :=
  List.decidableBAll (fun c => ¬IsControl c) text

inductive Mnemonic where
  | exec
  | read
  | write
  | print
  deriving DecidableEq

def Mnemonic.text : Mnemonic → CString
  | .exec => execText
  | .read => readText
  | .write => writeText
  | .print => printText

def Mnemonic.opcode : Mnemonic → Opcode
  | .exec => .exec
  | .read => .read
  | .write => .write
  | .print => .print

inductive Command where
  | binary (mnemonic : Mnemonic) (k : Int)
  | acquire (name : CString)
  | release (name : CString)

/-- The instruction line without its newline. -/
def Command.line : Command → CString
  | .binary mnemonic k => mnemonic.text ++ ' ' :: decimal k
  | .acquire name => 'P' :: '(' :: (name ++ [')'])
  | .release name => 'V' :: '(' :: (name ++ [')'])

def Command.Documented (semaphores : List CString) : Command → Prop
  | .binary _ k => IsInt32 k
  | .acquire name => name ∈ semaphores
  | .release name => name ∈ semaphores

instance (semaphores : List CString) : DecidablePred (Command.Documented semaphores)
  | .binary _ k => inferInstanceAs (Decidable (IsInt32 k))
  | .acquire name => inferInstanceAs (Decidable (name ∈ semaphores))
  | .release name => inferInstanceAs (Decidable (name ∈ semaphores))

/-- The entry has the opcode, the value and the semaphore name of the line. -/
def Command.Matches : Command → Instr → Prop
  | .binary mnemonic k, instr => instr.op = mnemonic.opcode ∧ instr.value = k ∧ instr.sem = none
  | .acquire name, instr => instr.op = .semP ∧ instr.sem = some name
  | .release name, instr => instr.op = .semV ∧ instr.sem = some name

structure ProgramText where
  name : CString
  segId : Int
  priority : Int
  segSize : Int
  semaphores : List CString
  commands : List Command

def ProgramText.semaphoreLines (program : ProgramText) : List CString :=
  if program.semaphores = [] then [[]] else [joined ' ' program.semaphores, []]

/-- The lines of the file without their newlines. -/
def ProgramText.lines (program : ProgramText) : List CString :=
  [program.name, decimal program.segId, decimal program.priority, decimal program.segSize] ++
    program.semaphoreLines ++ program.commands.map Command.line

def written (lines : List CString) : List Char := lines.flatMap fun line => line ++ ['\n']

def ProgramText.text (program : ProgramText) : List Char := written program.lines

/-- A program that the README's format describes, no line over 255 bytes. -/
structure DocumentedProgram extends ProgramText where
  name_plain : Plain name
  segId_int : IsInt32 segId
  priority_int : IsInt32 priority
  segSize_int : IsInt32 segSize
  semaphores_nonempty : ∀ sem ∈ semaphores, sem ≠ []
  semaphores_plain : ∀ sem ∈ semaphores, Plain sem
  semaphores_unspaced : ∀ sem ∈ semaphores, ' ' ∉ sem
  commands_documented : ∀ command ∈ commands, command.Documented semaphores
  lines_short : ∀ line ∈ toProgramText.lines, line.length + 1 ≤ 255

/-- A shortened form of the README's example. -/
def readmeProgram : DocumentedProgram where
  name := ['p', 'r', 'o', 'c', 'e', 's', 's', '1']
  segId := 50
  priority := 0
  segSize := 24
  semaphores := [['s']]
  commands :=
    [.binary .exec 20, .acquire ['s'], .binary .read 110, .binary .print 50,
      .binary .write 150, .release ['s']]
  name_plain := by decide
  segId_int := by decide
  priority_int := by decide
  segSize_int := by decide
  semaphores_nonempty := by decide
  semaphores_plain := by decide
  semaphores_unspaced := by decide
  commands_documented := by decide
  lines_short := by decide

/-! ## Lines -/

theorem plain_line {text : CString} (plain : Plain text) :
    '\n' ∉ text ∧ Char.ofNat 0 ∉ text :=
  ⟨fun member => plain _ member (by decide), fun member => plain _ member (by decide)⟩

theorem plain_cons {c : Char} {text : CString} (printable : ¬IsControl c) (plain : Plain text) :
    Plain (c :: text) :=
  List.forall_mem_cons.mpr ⟨printable, plain⟩

theorem plain_append {left right : CString} (leftPlain : Plain left) (rightPlain : Plain right) :
    Plain (left ++ right) := by
  intro c member
  rcases List.mem_append.mp member with inLeft | inRight
  · exact leftPlain c inLeft
  · exact rightPlain c inRight

theorem plain_decimal (value : Int) : Plain (decimal value) := by
  intro c member
  rcases mem_decimal member with rfl | digit
  · decide
  · have range := digit_range digit
    unfold IsControl
    omega

theorem plain_joined {items : List CString} (plain : ∀ item ∈ items, Plain item) :
    Plain (joined ' ' items) := by
  intro c member
  rcases mem_joined member with rfl | ⟨item, itemMember, inside⟩
  · decide
  · exact plain item itemMember c inside

theorem plain_command {semaphores : List CString} {command : Command}
    (plain : ∀ sem ∈ semaphores, Plain sem) (documented : command.Documented semaphores) :
    Plain command.line := by
  cases command with
  | binary mnemonic k =>
      refine plain_append ?_ (plain_cons (by decide) (plain_decimal k))
      cases mnemonic <;> decide
  | acquire name =>
      exact plain_cons (by decide) (plain_cons (by decide)
        (plain_append (plain name documented) (by decide)))
  | release name =>
      exact plain_cons (by decide) (plain_cons (by decide)
        (plain_append (plain name documented) (by decide)))

theorem c_string_line {line : CString} (plain : Plain line) :
    cString (line ++ ['\n']) = line ++ ['\n'] := by
  refine c_string_plain fun member => ?_
  rcases List.mem_append.mp member with inLine | newline
  · exact (plain_line plain).2 inLine
  · exact absurd (List.mem_singleton.mp newline) (by decide)

/-- A short line is one `fgets`, whatever follows it. -/
theorem reader_short_line (line : CString) (rest : List Char) (buf : CString)
    (single : '\n' ∉ line) (unzeroed : Char.ofNat 0 ∉ line) (short : line.length + 1 ≤ 255) :
    ({ rest := line ++ '\n' :: rest, buf := buf } : Reader).fgets =
      { rest := rest
        buf := line ++ ['\n'] } := by
  have fits : line.length + 1 < bufLenParse := Nat.lt_succ_of_le short
  have whole : cString (line ++ ['\n']) = line ++ ['\n'] := by
    apply c_string_plain
    intro member
    rcases List.mem_append.mp member with inLine | newline
    · exact unzeroed inLine
    · exact absurd (List.mem_singleton.mp newline) (by decide)
  rw [Reader.fgets, fgets_line rest single fits]
  dsimp only
  rw [whole]

theorem written_cons (line : CString) (lines : List CString) (rest : List Char) :
    written (line :: lines) ++ rest = line ++ '\n' :: (written lines ++ rest) := by
  simp [written]

theorem reader_line {line : CString} (lines : List CString) (rest : List Char) (buf : CString)
    (plain : Plain line) (short : line.length + 1 ≤ 255) :
    ({ rest := written (line :: lines) ++ rest, buf := buf } : Reader).fgets =
      { rest := written lines ++ rest
        buf := line ++ ['\n'] } := by
  rw [written_cons]
  exact reader_short_line _ _ buf (plain_line plain).1 (plain_line plain).2 short

theorem written_length (lines : List CString) : lines.length ≤ (written lines).length := by
  induction lines with
  | nil => simp
  | cons line lines ih =>
      rw [written, List.flatMap_cons, List.length_append, List.length_append,
        List.length_singleton, List.length_cons]
      unfold written at ih
      omega

theorem strip_last_line (line : CString) : stripLast (line ++ ['\n']) = some line := by
  rw [stripLast, if_neg (by simp), List.dropLast_concat]

theorem atoi_line {value : Int} (range : IsInt32 value) :
    atoi (decimal value ++ ['\n']) = value :=
  atoi_decimal range (by simp)

/-! ## The header -/

theorem read_semaphores_joined {semaphores : List CString} (table : List Semaphore)
    (listed : semaphores ≠ []) (nonempty : ∀ sem ∈ semaphores, sem ≠ [])
    (unspaced : ∀ sem ∈ semaphores, ' ' ∉ sem) :
    readSemaphores table (joined ' ' semaphores) =
      some (semaphores, semaphores.foldl semaphoreRegister table) := by
  have spaces := joined_count unspaced listed
  unfold readSemaphores
  rw [strtok_all_joined nonempty unspaced, if_neg]
  rintro (empty | overflow)
  · exact listed empty
  · omega

/-- The end of the parse, after the four fields in front of the semaphores. -/
def ProgramText.restOfHeader (program : ProgramText) (table : List Semaphore) (reader : Reader) :
    Option Header :=
  if reader.buf = ['\n'] then
    some
      { name := program.name
        segId := program.segId
        priority := program.priority
        segSize := program.segSize
        semaphores := []
        semTable := table
        reader := reader }
  else do
    let line ← stripLast reader.buf
    let read ← readSemaphores table line
    some
      { name := program.name
        segId := program.segId
        priority := program.priority
        segSize := program.segSize
        semaphores := read.1
        semTable := read.2
        reader := reader.fgets }

def ProgramText.fields (program : ProgramText) : List CString :=
  [program.name, decimal program.segId, decimal program.priority, decimal program.segSize]

/-- The first four lines are read into their fields, whatever follows them. -/
theorem fields_read (program : DocumentedProgram) (table : List Semaphore) (buf : CString)
    (rest : List Char) :
    parseSyntheticProgram table
        { rest := written program.fields ++ rest, buf := buf } =
      program.restOfHeader table
        (Reader.fgets { rest := rest, buf := decimal program.segSize ++ ['\n'] }) := by
  have short := program.lines_short
  rw [ProgramText.lines] at short
  have nameRead := fun lines buf => reader_line lines rest buf program.name_plain
    (short program.name (by simp))
  have segIdRead := fun lines buf => reader_line lines rest buf
    (plain_decimal program.segId) (short _ (by simp))
  have priorityRead := fun lines buf => reader_line lines rest buf
    (plain_decimal program.priority) (short _ (by simp))
  have segSizeRead := fun lines buf => reader_line lines rest buf
    (plain_decimal program.segSize) (short _ (by simp))
  have done : written [] ++ rest = rest := rfl
  unfold parseSyntheticProgram ProgramText.restOfHeader
  dsimp only
  rw [ProgramText.fields, nameRead, segIdRead, priorityRead, segSizeRead, done]
  simp only [strip_last_line, Option.bind_eq_bind, Option.bind_some, atoi_line program.segId_int,
    atoi_line program.priority_int, atoi_line program.segSize_int]

/-- The line of the semaphores. The reader goes on behind it, over one more line. -/
theorem semaphores_read (program : DocumentedProgram) (table : List Semaphore) (buf : CString)
    (rest : List Char) (listed : program.semaphores ≠ []) :
    program.restOfHeader table
        (Reader.fgets
          { rest := written [joined ' ' program.semaphores] ++ rest, buf := buf }) = some
      { name := program.name
        segId := program.segId
        priority := program.priority
        segSize := program.segSize
        semaphores := program.semaphores
        semTable := program.semaphores.foldl semaphoreRegister table
        reader := Reader.fgets
          { rest := rest, buf := joined ' ' program.semaphores ++ ['\n'] } } := by
  have short := program.lines_short (joined ' ' program.semaphores)
    (by simp [ProgramText.lines, ProgramText.semaphoreLines, listed])
  have nonblank : joined ' ' program.semaphores ++ ['\n'] ≠ ['\n'] := by
    intro blank
    obtain ⟨sem, others, shape⟩ := List.exists_cons_of_ne_nil listed
    have nonempty := program.semaphores_nonempty sem (by simp [shape])
    rw [List.append_left_eq_self, shape] at blank
    cases others with
    | nil => exact nonempty blank
    | cons next others => simp [joined] at blank
  have done : written [] ++ rest = rest := rfl
  rw [reader_line [] rest buf (plain_joined program.semaphores_plain) short,
    ProgramText.restOfHeader, if_neg nonblank, done]
  simp only [strip_last_line, Option.bind_eq_bind, Option.bind_some,
    read_semaphores_joined table listed program.semaphores_nonempty program.semaphores_unspaced]

/-- The header comes back and the reader stands at what follows it. -/
theorem header_read_before (program : DocumentedProgram) (table : List Semaphore) (buf : CString)
    (rest : List Char) :
    ∃ left, parseSyntheticProgram table
        { rest := written (program.fields ++ program.semaphoreLines) ++ rest, buf := buf } = some
      { name := program.name
        segId := program.segId
        priority := program.priority
        segSize := program.segSize
        semaphores := program.semaphores
        semTable := program.semaphores.foldl semaphoreRegister table
        reader :=
          { rest := rest
            buf := left } } := by
  have split : written (program.fields ++ program.semaphoreLines) ++ rest =
      written program.fields ++ (written program.semaphoreLines ++ rest) := by
    simp only [written, List.flatMap_append, List.append_assoc]
  have blankRead := fun buf => reader_line [] rest buf (show Plain [] by decide) (by simp)
  have done : written [] ++ rest = rest := rfl
  rw [split, fields_read]
  by_cases listed : program.semaphores = []
  · rw [ProgramText.semaphoreLines, if_pos listed, blankRead, ProgramText.restOfHeader,
      List.nil_append, if_pos rfl, done]
    exact ⟨['\n'], by simp [listed]⟩
  · have lines : written [joined ' ' program.semaphores, []] ++ rest =
        written [joined ' ' program.semaphores] ++ (written [[]] ++ rest) := by
      simp [written]
    rw [ProgramText.semaphoreLines, if_neg listed, lines, semaphores_read program table _ _ listed,
      blankRead, done]
    exact ⟨_, rfl⟩

/-- The header comes back and the reader stands at the first instruction. -/
theorem header_read (program : DocumentedProgram) (table : List Semaphore) (buf : CString) :
    ∃ left, parseSyntheticProgram table { rest := program.text, buf := buf } = some
      { name := program.name
        segId := program.segId
        priority := program.priority
        segSize := program.segSize
        semaphores := program.semaphores
        semTable := program.semaphores.foldl semaphoreRegister table
        reader :=
          { rest := written (program.commands.map Command.line)
            buf := left } } := by
  have split : program.text = written (program.fields ++ program.semaphoreLines) ++
      written (program.commands.map Command.line) := by
    rw [ProgramText.text, ProgramText.lines, written, List.flatMap_append]
    rfl
  rw [split]
  exact header_read_before program table buf _

/-! ## The code -/

theorem binary_read (old : Instr) (table : List Semaphore) (mnemonic : Mnemonic) {k : Int}
    (range : IsInt32 k) :
    instrParse old ((Command.binary mnemonic k).line ++ ['\n']) table = some
      { op := mnemonic.opcode
        value := k
        sem := none } := by
  have leftToken : strtok ' ' (mnemonic.text ++ ' ' :: (decimal k ++ ['\n'])) =
      some (mnemonic.text, decimal k ++ ['\n']) :=
    strtok_split _ (by cases mnemonic <;> decide) (by cases mnemonic <;> decide) (by simp)
  have unspaced : ' ' ∉ decimal k ++ ['\n'] := by
    intro member
    rcases List.mem_append.mp member with inDecimal | newline
    · rcases mem_decimal inDecimal with sign | digit
      · exact absurd sign (by decide)
      · exact absurd (digit_range digit).1 (by decide)
    · exact absurd (List.mem_singleton.mp newline) (by decide)
  have rightToken : strtok ' ' (decimal k ++ ['\n']) = some (decimal k ++ ['\n'], []) := by
    have token := strtok_split [] (by simp) unspaced (by simp)
    rwa [List.append_nil] at token
  have unary : ¬((mnemonic.text ++ ' ' :: (decimal k ++ ['\n'])).head? = some 'P' ∨
      (mnemonic.text ++ ' ' :: (decimal k ++ ['\n'])).head? = some 'V') := by
    cases mnemonic <;> simp [Mnemonic.text, execText, readText, writeText, printText]
  rw [Command.line, List.append_assoc, List.cons_append, instrParse, if_neg unary]
  simp only [leftToken, rightToken, Option.bind_eq_bind, Option.bind_some, atoi_line range]
  cases mnemonic <;> rfl

theorem semaphore_read (old : Instr) {table : List Semaphore} (letter : Char) {name : CString}
    (registered : semaphoreFind table name ≠ none) :
    instrSemaphoreParse old (letter :: '(' :: (name ++ [')', '\n'])) table = some
      { old with
        op := if letter = 'P' then .semP else .semV
        sem := some name } := by
  obtain ⟨sem, found⟩ := Option.ne_none_iff_exists'.mp registered
  have long : ¬(letter :: '(' :: (name ++ [')', '\n'])).length < 2 := by simp
  have cut : semName (letter :: '(' :: (name ++ [')', '\n'])) = name := by simp [semName]
  simp only [instrSemaphoreParse, if_neg long, cut, found, List.head?_cons, Option.some.injEq]

/-- A documented line parses to its instruction, whatever the entry held. -/
theorem command_read (old : Instr) {table : List Semaphore} {semaphores : List CString}
    {command : Command} (documented : command.Documented semaphores)
    (registered : ∀ sem ∈ semaphores, semaphoreFind table sem ≠ none) :
    ∃ instr, instrParse old (command.line ++ ['\n']) table = some instr ∧
      command.Matches instr := by
  cases command with
  | binary mnemonic k => exact ⟨_, binary_read old table mnemonic documented, rfl, rfl, rfl⟩
  | acquire name =>
      have parsed := semaphore_read old 'P' (registered name documented)
      exact ⟨_, by simpa [Command.line, instrParse] using parsed, rfl, rfl⟩
  | release name =>
      have parsed := semaphore_read old 'V' (registered name documented)
      exact ⟨_, by simpa [Command.line, instrParse] using parsed, rfl, rfl⟩

theorem command_line_long (command : Command) : 2 ≤ command.line.length := by
  cases command with
  | binary mnemonic k => cases mnemonic <;> simp [Command.line, Mnemonic.text, execText, readText,
      writeText, printText]
  | acquire name => simp [Command.line]
  | release name => simp [Command.line]

/-- One pass of the loop writes the next entry of the array. -/
theorem parse_line_read {table : List Semaphore} {semaphores : List CString} {command : Command}
    (filled : List Instr) (old : Instr) (left : List Instr)
    (documented : command.Documented semaphores)
    (registered : ∀ sem ∈ semaphores, semaphoreFind table sem ≠ none) :
    ∃ instr, command.Matches instr ∧
      parseLine table (filled.length, filled ++ old :: left) (command.line ++ ['\n']) =
        some ((filled ++ [instr]).length, (filled ++ [instr]) ++ left) := by
  obtain ⟨instr, parsed, matched⟩ := command_read old documented registered
  have long := command_line_long command
  have unskipped : ¬(command.line ++ ['\n'] = [] ∨ command.line ++ ['\n'] = ['\n'] ∨
      command.line ++ ['\n'] = ['\r', '\n']) := by
    intro skipped
    have short : (command.line ++ ['\n']).length ≤ 2 := by
      rcases skipped with same | same | same <;> simp [same]
    rw [List.length_append, List.length_singleton] at short
    omega
  refine ⟨instr, matched, ?_⟩
  rw [parseLine, if_neg unskipped]
  simp [parsed]

/-- The second loop from a part of the array that is filled: the induction is on the lines
that are left, the entries before the index stay. -/
theorem commands_read {table : List Semaphore} {semaphores : List CString}
    {commands : List Command} (filled left : List Instr)
    (sized : left.length = commands.length)
    (documented : ∀ command ∈ commands, command.Documented semaphores)
    (registered : ∀ sem ∈ semaphores, semaphoreFind table sem ≠ none) :
    ∃ code, List.Forall₂ Command.Matches commands code ∧
      (commands.map fun command => command.line ++ ['\n']).foldlM (parseLine table)
        (filled.length, filled ++ left) = some ((filled ++ code).length, filled ++ code) := by
  induction commands generalizing filled left with
  | nil =>
      obtain rfl := List.length_eq_zero_iff.mp sized
      exact ⟨[], .nil, by simp⟩
  | cons command commands ih =>
      obtain ⟨old, left, rfl⟩ := List.exists_cons_of_length_eq_add_one sized
      obtain ⟨instr, matched, step⟩ := parse_line_read filled old left
        (documented command (by simp)) registered
      obtain ⟨code, allMatched, rest⟩ := ih (filled ++ [instr]) left (Nat.succ.inj sized)
        fun other member => documented other (List.mem_cons_of_mem _ member)
      refine ⟨instr :: code, .cons matched allMatched, ?_⟩
      rw [List.map_cons, List.foldlM_cons, step]
      simpa using rest

theorem listed_found (program : DocumentedProgram) (table : List Semaphore) :
    ∀ name ∈ program.semaphores,
      semaphoreFind (program.semaphores.foldl semaphoreRegister table) name ≠ none :=
  fun _ listed => registered_found (.inl listed)

/-- The code is read against the table that the header has left. -/
theorem code_read (program : DocumentedProgram) (table : List Semaphore)
    (garbage : Nat → Instr) :
    ∃ code, List.Forall₂ Command.Matches program.commands code ∧
      readCode (program.semaphores.foldl semaphoreRegister table) garbage
          (written (program.commands.map Command.line)) =
        some (program.commands.length, code) := by
  have plain : ∀ line ∈ program.commands.map Command.line, Plain line := by
    intro line member
    obtain ⟨command, commandMember, rfl⟩ := List.mem_map.mp member
    exact plain_command program.semaphores_plain
      (program.commands_documented command commandMember)
  have short : ∀ line ∈ program.commands.map Command.line, line.length + 1 < bufLenParse := by
    intro line member
    have bounded := program.lines_short line (List.mem_append_right _ member)
    unfold bufLenParse
    omega
  have lines : (fgetsAll bufLenParse (written (program.commands.map Command.line)).length
      (written (program.commands.map Command.line))).map cString =
      program.commands.map fun command => command.line ++ ['\n'] := by
    have each := fgets_all_lines (fun line member => (plain_line (plain line member)).1) short
      (written_length (program.commands.map Command.line))
    rw [show fgetsAll bufLenParse _ (written (program.commands.map Command.line)) = _ from each,
      List.map_map, List.map_map]
    exact List.map_congr_left fun command member =>
      c_string_line (plain _ (List.mem_map_of_mem member))
  obtain ⟨code, allMatched, parsed⟩ :=
    commands_read [] ((List.range program.commands.length).map garbage) (by simp)
      program.commands_documented (listed_found program table)
  refine ⟨code, allMatched, ?_⟩
  unfold readCode
  dsimp only
  rw [lines, List.length_map]
  exact congrArg (Option.map fun result => (program.commands.length, result.2)) parsed

/-- The file of a documented program is loaded, with its instructions in their places. -/
theorem documented_file_loads (program : DocumentedProgram) (kernel : Kernel) (buf : CString)
    (garbage : Nat → Instr) (fresh : Nat → Page) :
    ∃ loaded : Program, List.Forall₂ Command.Matches program.commands loaded.code ∧
      processCreateFile kernel { rest := program.text, buf := buf } garbage fresh =
        some (processCreate kernel loaded fresh) := by
  obtain ⟨left, parsed⟩ := header_read program kernel.semTable buf
  obtain ⟨code, allMatched, read⟩ := code_read program kernel.semTable garbage
  let loaded : Program :=
    { name := program.name
      segId := program.segId
      priority := program.priority
      segSize := program.segSize
      semaphores := program.semaphores
      code := code }
  refine ⟨loaded, allMatched, ?_⟩
  rw [processCreateFile, parsed]
  simp only [Option.bind_eq_bind, Option.bind_some, read, loaded]

/-- Every program in the documented format is read back from its text: the header fields,
the registered semaphores and the instructions, entry by entry. -/
theorem program_file_round_trip (program : DocumentedProgram) (table : List Semaphore)
    (buf : CString) (garbage : Nat → Instr) :
    ∃ header code,
      parseSyntheticProgram table { rest := program.text, buf := buf } = some header ∧
      readCode header.semTable garbage header.reader.rest =
        some (program.commands.length, code) ∧
      header.name = program.name ∧
      header.segId = program.segId ∧
      header.priority = program.priority ∧
      header.segSize = program.segSize ∧
      header.semaphores = program.semaphores ∧
      (∀ name ∈ program.semaphores, ∃ sem, semaphoreFind header.semTable name = some sem) ∧
      code.length = program.commands.length ∧
      ∀ (index : Nat) (command : Command), program.commands[index]? = some command →
        ∃ instr, code[index]? = some instr ∧ command.Matches instr := by
  obtain ⟨left, parsed⟩ := header_read program table buf
  obtain ⟨code, allMatched, read⟩ := code_read program table garbage
  refine ⟨_, code, parsed, read, rfl, rfl, rfl, rfl, rfl, ?_, allMatched.length_eq.symm, ?_⟩
  · exact fun name member => Option.ne_none_iff_exists'.mp (listed_found program table name member)
  · intro index command atIndex
    obtain ⟨inCommands, rfl⟩ := List.getElem?_eq_some_iff.mp atIndex
    have inCode : index < code.length := by rwa [← allMatched.length_eq]
    exact ⟨code[index], List.getElem?_eq_getElem inCode,
      allMatched.get inCommands inCode⟩

example (garbage : Nat → Instr) :
    readCode [semaphoreInit ['s'] 1] garbage
        (written (readmeProgram.commands.map Command.line)) =
      some (6,
        [⟨.exec, 20, none⟩, ⟨.semP, (garbage 1).value, some ['s']⟩, ⟨.read, 110, none⟩,
          ⟨.print, 50, none⟩, ⟨.write, 150, none⟩, ⟨.semV, (garbage 5).value, some ['s']⟩]) := by
  rfl

end Ribabari.ProgramRoundTrip

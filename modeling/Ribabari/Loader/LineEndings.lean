import Ribabari.Loader.CodeLength
import Ribabari.Loader.InstructionGrammar

/-!
# Line endings

The texts of one program with LF or CRLF behind its lines and with or without a
terminator behind the last. The code section skips blank lines of both formats, but the
header cuts one character from the end of a line and compares the line of the semaphores
with LF alone, and the name of a `P` or a `V` is cut two characters before the end.
-/

namespace Ribabari.LineEndings

open Ribabari.CLibrary Ribabari.ProcessRecords Ribabari.SegmentMemory Ribabari.SemaphoreTable
open Ribabari.KernelState Ribabari.KernelEvents Ribabari.ProgramFile Ribabari.ProgramRoundTrip
open Ribabari.CodeLength Ribabari.InstructionGrammar

set_option autoImplicit false

/-! ## What a file becomes -/

/-- What `process_create` takes from a file: the fields of the process, its code, and the
table with its semaphores registered. -/
structure LoadedFile where
  name : CString
  segId : Int
  priority : Int
  segSize : Int
  semaphores : List CString
  semTable : List Semaphore
  codeLen : Nat
  code : List Instr
  deriving DecidableEq, Repr

def readFile (table : List Semaphore) (garbage : Nat → Instr) (reader : Reader) :
    Option LoadedFile := do
  let header ← parseSyntheticProgram table reader
  let code ← readCode header.semTable garbage header.reader.rest
  some
    { name := header.name
      segId := header.segId
      priority := header.priority
      segSize := header.segSize
      semaphores := header.semaphores
      semTable := header.semTable
      codeLen := code.1
      code := code.2 }

theorem create_reads_file (kernel : Kernel) (reader : Reader) (garbage : Nat → Instr)
    (fresh : Nat → Page) :
    processCreateFile kernel reader garbage fresh =
      (readFile kernel.semTable garbage reader).map fun loaded =>
        processCreate kernel
          { name := loaded.name
            segId := loaded.segId
            priority := loaded.priority
            segSize := loaded.segSize
            semaphores := loaded.semaphores
            code := loaded.code } fresh := by
  unfold processCreateFile readFile
  cases parseSyntheticProgram kernel.semTable reader with
  | none => rfl
  | some header =>
      simp only [Option.bind_eq_bind, Option.bind_some]
      cases readCode header.semTable garbage header.reader.rest with
      | none => rfl
      | some code => rfl

inductive LineEnd where
  | lf
  | crlf
  deriving DecidableEq, Repr

def LineEnd.text : LineEnd → CString
  | .lf => ['\n']
  | .crlf => ['\r', '\n']

/-- The lines with an ending between any two, and behind the last when it is terminated. -/
def fileText (ending : LineEnd) (terminated : Bool) (lines : List CString) : List Char :=
  (lines.dropLast.flatMap fun line => line ++ ending.text) ++ lines.getLastD [] ++
    if terminated then ending.text else []

theorem file_text_lf (program : ProgramText) : fileText .lf true program.lines = program.text := by
  have nonempty : program.lines ≠ [] := by simp [ProgramText.lines]
  obtain ⟨others, last, lines⟩ := (List.eq_nil_or_concat' program.lines).resolve_left nonempty
  simp [fileText, ProgramText.text, written, lines, LineEnd.text]

/-- The four texts of a program are read alike. -/
def SameForEveryEnding (program : ProgramText) (table : List Semaphore) (garbage : Nat → Instr)
    (buf : CString) : Prop :=
  ∀ ending other terminated otherTerminated,
    readFile table garbage { rest := fileText ending terminated program.lines, buf := buf } =
      readFile table garbage { rest := fileText other otherTerminated program.lines, buf := buf }

/-! ## CRLF -/

/-- Where the name and the semaphores come from, in any file that is read. -/
theorem header_parts {table : List Semaphore} {reader : Reader} {header : Header}
    (parsed : parseSyntheticProgram table reader = some header) :
    stripLast reader.fgets.buf = some header.name ∧
      (reader.fgets.fgets.fgets.fgets.fgets.buf = ['\n'] ∨
        ∃ line, stripLast reader.fgets.fgets.fgets.fgets.fgets.buf = some line ∧
          header.semaphores = strtokAll ' ' (line.length + 1) line) := by
  simp only [parseSyntheticProgram, Option.bind_eq_bind, Option.bind_eq_some_iff] at parsed
  obtain ⟨name, stripped, parsed⟩ := parsed
  split at parsed
  case isTrue blank =>
      obtain rfl := Option.some.inj parsed
      exact ⟨stripped, .inl blank⟩
  case isFalse =>
      obtain ⟨line, cut, parsed⟩ := Option.bind_eq_some_iff.mp parsed
      obtain ⟨read, registered, parsed⟩ := Option.bind_eq_some_iff.mp parsed
      obtain rfl := Option.some.inj parsed
      unfold readSemaphores at registered
      dsimp only at registered
      split at registered
      · cases registered
      · obtain rfl := Option.some.inj registered
        exact ⟨stripped, .inr ⟨line, cut, rfl⟩⟩

theorem take_line_full {line : List Char} (rest : List Char) (single : '\n' ∉ line) :
    takeLine line.length (line ++ rest) = (line, rest) := by
  induction line with
  | nil => rfl
  | cons c line ih =>
      rw [List.mem_cons, not_or] at single
      rw [List.length_cons, List.cons_append, takeLine, if_neg (Ne.symm single.1), ih single.2]

theorem decimal_short {value : Int} (range : IsInt32 value) : (decimal value).length ≤ 11 := by
  have digits : (Nat.toDigits 10 value.natAbs).length ≤ 10 := by
    apply (Nat.length_toDigits_le_iff (by decide) (by decide)).mpr
    unfold IsInt32 at range
    omega
  unfold decimal
  split
  · rw [List.length_cons]
    omega
  · omega

/-- A decimal line in CRLF format is one `fgets`. -/
theorem crlf_decimal_read {value : Int} (range : IsInt32 value) (rest : List Char)
    (buf : CString) :
    ({ rest := decimal value ++ '\r' :: '\n' :: rest, buf := buf } : Reader).fgets =
      { rest := rest
        buf := decimal value ++ ['\r'] ++ ['\n'] } := by
  have short := decimal_short range
  have plain := plain_line (plain_decimal value)
  have read := reader_short_line (decimal value ++ ['\r']) rest buf
    (by simp [plain.1]) (by simp [plain.2]) (by
      rw [List.length_append, List.length_singleton]
      omega)
  rwa [List.append_assoc, List.singleton_append] at read

/-- The name keeps the CR, or it fills the buffer and the lines behind it are read one
field too late, so that the size is registered as a semaphore. -/
theorem crlf_header {program : DocumentedProgram} {table : List Semaphore} {buf : CString}
    {rest : List Char} {header : Header}
    (parsed : parseSyntheticProgram table
      { rest := (program.fields.flatMap fun line => line ++ ['\r', '\n']) ++ rest, buf := buf } =
        some header) :
    header.name ≠ program.name ∨ header.semaphores ≠ program.semaphores := by
  obtain ⟨named, listed⟩ := header_parts parsed
  have plain := plain_line program.name_plain
  have single : '\n' ∉ program.name ++ ['\r'] := by simp [plain.1]
  have unzeroed : Char.ofNat 0 ∉ program.name ++ ['\r'] := by simp [plain.2]
  have bounded := program.lines_short program.name (by simp [ProgramText.lines])
  have text : (program.fields.flatMap fun line => line ++ ['\r', '\n']) ++ rest =
      (program.name ++ ['\r']) ++ '\n' :: (decimal program.segId ++ '\r' :: '\n' ::
        (decimal program.priority ++ '\r' :: '\n' ::
          (decimal program.segSize ++ '\r' :: '\n' :: rest))) := by
    simp [ProgramText.fields]
  rw [text] at named listed
  by_cases fits : program.name.length ≤ 253
  · left
    rw [reader_short_line _ _ buf single unzeroed (by
      rw [List.length_append, List.length_singleton]
      omega), strip_last_line] at named
    rw [← Option.some.inj named]
    simp
  · right
    have full : (program.name ++ ['\r']).length = bufLenParse - 1 := by
      rw [List.length_append, List.length_singleton, bufLenParse]
      omega
    have cut : ∀ more buf,
        ({ rest := (program.name ++ ['\r']) ++ '\n' :: more, buf := buf } : Reader).fgets =
          { rest := '\n' :: more
            buf := program.name ++ ['\r'] } := by
      intro more buf
      have taken := take_line_full ('\n' :: more) single
      rw [full] at taken
      rw [Reader.fgets, CLibrary.fgets, if_neg (by simp), taken]
      dsimp only
      rw [c_string_plain unzeroed]
    have blank := fun more buf => reader_short_line [] more buf (by simp) (by simp)
      (by simp)
    rw [cut, ← List.nil_append ('\n' :: _), blank, crlf_decimal_read program.segId_int,
      crlf_decimal_read program.priority_int, crlf_decimal_read program.segSize_int] at listed
    have unspaced : ' ' ∉ decimal program.segSize ++ ['\r'] := by
      intro member
      rcases List.mem_append.mp member with inDecimal | last
      · rcases mem_decimal inDecimal with sign | digit
        · exact absurd sign (by decide)
        · exact absurd digit (by decide)
      · exact absurd (List.mem_singleton.mp last) (by decide)
    rcases listed with short | ⟨line, stripped, listed⟩
    · have lengths := congrArg List.length short
      simp at lengths
    · rw [strip_last_line] at stripped
      obtain rfl := Option.some.inj stripped
      have alone : strtokAll ' ' ((decimal program.segSize ++ ['\r']).length + 1)
          (joined ' ' [decimal program.segSize ++ ['\r']]) = [decimal program.segSize ++ ['\r']] :=
        strtok_all_joined (by simp) (by simpa using unspaced)
      rw [joined] at alone
      rw [listed, alone]
      intro same
      have control := program.semaphores_plain (decimal program.segSize ++ ['\r'])
        (same ▸ List.mem_singleton_self _) '\r' (by simp)
      exact control (by decide)

/-! ## No terminator behind the last line -/

theorem numeral_decimal (k : Int) : Numeral (decimal k) k := by
  have all : ∀ c ∈ Nat.toDigits 10 k.natAbs, c.isDigit = true :=
    fun c member => digits_are_digits k.natAbs member
  have value := digits_value k.natAbs
  by_cases negative : k < 0
  · have number := Numeral.minus Nat.toDigits_ne_nil all
    rw [value, show -(k.natAbs : Int) = k by omega] at number
    rwa [decimal, if_pos negative]
  · have number := Numeral.plain Nat.toDigits_ne_nil all
    rw [value, show (k.natAbs : Int) = k by omega] at number
    rwa [decimal, if_neg negative]

/-- The lines of a code section whose last line may have no newline. -/
theorem code_lines_written (lines : List CString) (last : CString)
    (plain : ∀ line ∈ lines, Plain line) (short : ∀ line ∈ lines, line.length + 1 ≤ 255)
    (plainLast : Plain last) (shortLast : last.length + 1 ≤ 255) :
    codeLines (written lines ++ last) =
      (lines.map fun line => line ++ ['\n']) ++ if last = [] then [] else [last] := by
  have counted := written_length lines
  obtain ⟨more, total⟩ := Nat.exists_eq_add_of_le counted
  have fuel : (written lines ++ last).length = lines.length + (more + last.length) := by
    rw [List.length_append, total, Nat.add_assoc]
  have fits : ∀ line ∈ lines, line.length + 1 < bufLenParse := fun line member =>
    Nat.lt_succ_of_le (short line member)
  have all := fgets_all_append (more + last.length) last
    (fun line member => (plain_line (plain line member)).1) fits
  have strings : (lines.map fun line => line ++ ['\n']).map cString =
      lines.map fun line => line ++ ['\n'] := by
    rw [List.map_map]
    exact List.map_congr_left fun line member => c_string_line (plain line member)
  rw [codeLines, fuel, show written lines = lines.flatMap fun line => line ++ ['\n'] from rfl, all,
    List.map_append, strings]
  congr 1
  by_cases ended : last = []
  · rw [if_pos ended, ended]
    cases more <;> rfl
  · obtain ⟨length, size⟩ := Nat.exists_eq_succ_of_ne_zero
      (Nat.ne_of_gt (List.length_pos_iff.mpr ended))
    have alone : fgetsAll bufLenParse (more + length + 1) last = [last] :=
      fgets_all_open ended (plain_line plainLast).1
        (Nat.lt_of_succ_le (shortLast.trans (by decide)))
    rw [if_neg ended, size, Nat.add_succ, alone, List.map_singleton,
      c_string_plain (plain_line plainLast).2]

theorem command_not_blank {semaphores : List CString} {command : Command}
    (plain : ∀ sem ∈ semaphores, Plain sem) (documented : command.Documented semaphores) :
    ¬Blank command.line ∧ ¬Blank (command.line ++ ['\n']) := by
  have long := command_line_long command
  have control := plain_command plain documented
  constructor
  · rintro (empty | newline | both)
    · simp [empty] at long
    · simp [newline] at long
    · rw [both] at control
      exact control '\r' (by simp) (by decide)
  · intro blank
    have short : (command.line ++ ['\n']).length ≤ 2 := by
      rcases blank with same | same | same <;> simp [same]
    rw [List.length_append, List.length_singleton] at short
    omega

theorem parse_line_full {table : List Semaphore} {state : Nat × List Instr} {line : CString}
    (full : ¬Blank line) :
    parseLine table state line =
      state.2[state.1]?.bind fun old => (instrParse old line table).bind fun instr =>
        some (state.1 + 1, state.2.set state.1 instr) :=
  if_neg full

/-- A binary line is parsed alike with and without its newline. -/
theorem binary_line_open {semaphores : List CString} (plain : ∀ sem ∈ semaphores, Plain sem)
    (table : List Semaphore) (state : Nat × List Instr) (mnemonic : Mnemonic) {k : Int}
    (documented : (Command.binary mnemonic k).Documented semaphores) :
    parseLine table state (Command.binary mnemonic k).line =
      parseLine table state ((Command.binary mnemonic k).line ++ ['\n']) := by
  obtain ⟨full, fullLine⟩ := command_not_blank plain documented
  have alike : ∀ old, instrParse old (Command.binary mnemonic k).line table =
      instrParse old ((Command.binary mnemonic k).line ++ ['\n']) table := by
    intro old
    have terminator : ['\n'] ∈ lineEnds := by simp [lineEnds]
    have nothing : [] ∈ lineEnds := by simp [lineEnds]
    have ended := binary_line_read old table mnemonic (numeral_decimal k) terminator
    have bare := binary_line_read old table mnemonic (numeral_decimal k) nothing
    rw [List.append_nil] at bare
    exact bare.trans ended.symm
  rw [parse_line_full full, parse_line_full fullLine]
  simp only [alike]

section LastCommand

variable {program : DocumentedProgram} {init : List Command} {last : Command}
  (commands : program.commands = init ++ [last])

include commands

theorem code_lines_open :
    codeLines (written (init.map Command.line) ++ last.line) =
      (init.map fun command => command.line ++ ['\n']) ++ [last.line] := by
  have plain : ∀ command ∈ program.commands, Plain command.line := fun command member =>
    plain_command program.semaphores_plain (program.commands_documented command member)
  have short : ∀ command ∈ program.commands, command.line.length + 1 ≤ 255 := fun command member =>
    program.lines_short command.line
      (List.mem_append_right _ (List.mem_map_of_mem member))
  rw [commands] at plain short
  have lines := code_lines_written (init.map Command.line) last.line
    (by
      intro line member
      obtain ⟨command, commandMember, rfl⟩ := List.mem_map.mp member
      exact plain command (List.mem_append_left _ commandMember))
    (by
      intro line member
      obtain ⟨command, commandMember, rfl⟩ := List.mem_map.mp member
      exact short command (List.mem_append_left _ commandMember))
    (plain last (by simp)) (short last (by simp))
  have long := command_line_long last
  have nonempty : last.line ≠ [] := by
    intro empty
    simp [empty] at long
  rw [lines, if_neg nonempty, List.map_map]
  rfl

theorem code_lines_terminated :
    codeLines (written (program.commands.map Command.line)) =
      (init.map fun command => command.line ++ ['\n']) ++ [last.line ++ ['\n']] := by
  have lines := code_lines_written (program.commands.map Command.line) []
    (by
      intro line member
      obtain ⟨command, commandMember, rfl⟩ := List.mem_map.mp member
      exact plain_command program.semaphores_plain
        (program.commands_documented command commandMember))
    (fun line member => program.lines_short line (List.mem_append_right _ member))
    (by decide) (by decide)
  rw [List.append_nil, if_pos rfl, List.append_nil, List.map_map] at lines
  rw [lines, commands, List.map_append]
  rfl

/-- A last binary line does not need its newline. -/
theorem binary_code_open (table : List Semaphore) (garbage : Nat → Instr) {mnemonic : Mnemonic}
    {k : Int} (binary : last = .binary mnemonic k) :
    readCode table garbage (written (init.map Command.line) ++ last.line) =
      readCode table garbage (written (program.commands.map Command.line)) := by
  have documented := program.commands_documented last (by simp [commands])
  subst binary
  rw [read_code_passes, read_code_passes, secondPass, secondPass, code_lines_open commands,
    code_lines_terminated commands]
  have alike : ∀ state, parseLine table state (Command.binary mnemonic k).line =
      parseLine table state ((Command.binary mnemonic k).line ++ ['\n']) := fun state =>
    binary_line_open program.semaphores_plain table state mnemonic documented
  simp only [List.foldlM_append, List.foldlM_cons, List.foldlM_nil, List.length_append,
    List.length_singleton, alike]

/-- The name of a last unary line loses its last character without the newline. -/
theorem unary_code_open (table : List Semaphore) (garbage : Nat → Instr) {letter : Char}
    {name : CString} (unary : last.line = letter :: '(' :: (name ++ [')']))
    (starts : StartsUnary last.line) {codeLen : Nat} {code : List Instr}
    (read : readCode table garbage (written (init.map Command.line) ++ last.line) =
      some (codeLen, code)) :
    ∃ instr, code[init.length]? = some instr ∧ instr.sem ≠ some name := by
  rw [read_code_passes] at read
  obtain ⟨⟨parsed, result⟩, passed, same⟩ := Option.map_eq_some_iff.mp read
  obtain ⟨-, rfl⟩ := Prod.mk.inj same
  have documented : ∀ command ∈ init ++ [last], command.Documented program.semaphores :=
    commands ▸ program.commands_documented
  have full : instrLines (codeLines (written (init.map Command.line) ++ last.line)) =
      (init.map fun command => command.line ++ ['\n']) ++ [last.line] := by
    rw [code_lines_open commands]
    apply List.filter_eq_self.mpr
    intro line member
    apply decide_eq_true
    rcases List.mem_append.mp member with earlier | here
    · obtain ⟨command, commandMember, rfl⟩ := List.mem_map.mp earlier
      exact (command_not_blank program.semaphores_plain
        (documented command (List.mem_append_left _ commandMember))).2
    · rw [List.mem_singleton.mp here]
      exact (command_not_blank program.semaphores_plain (documented last (by simp))).1
  obtain ⟨-, -, written⟩ := parse_lines_written passed
  obtain ⟨old, instr, -, parsedHere, here⟩ := written init.length last.line (by
    rw [full, List.getElem?_append_right (by simp)]
    simp)
  rw [Nat.zero_add] at here
  refine ⟨instr, here, fun named => ?_⟩
  obtain ⟨-, -, rfl⟩ := (unary_parsed_iff starts).mp parsedHere
  rw [unary] at named
  have empty : [] = ['\n'] := unary_name_read letter name (by simp [lineEnds])
    (by simpa using Option.some.inj named)
  cases empty

end LastCommand

/-! ## Every program -/

/-- The last line reads the same without its newline: a binary instruction, or the blank
line behind the semaphores of a program without instructions. -/
def ReadsOpen (program : ProgramText) : Prop :=
  match program.commands.getLast? with
  | some (.binary ..) => True
  | some (.acquire _) | some (.release _) => False
  | none => program.semaphores ≠ []

section Programs

variable (program : DocumentedProgram) (table : List Semaphore) (garbage : Nat → Instr)
  (buf : CString)

theorem program_lines :
    program.lines = program.fields ++ (program.semaphoreLines ++
      program.commands.map Command.line) := by
  rw [ProgramText.lines, ProgramText.fields, List.append_assoc]

theorem semaphore_lines_nonempty : program.semaphoreLines ≠ [] := by
  rw [ProgramText.semaphoreLines]
  split <;> exact List.cons_ne_nil _ _

/-- The four fields stand in front in each text of the program. -/
theorem file_text_fields (ending : LineEnd) (terminated : Bool) :
    ∃ rest, fileText ending terminated program.lines =
      (program.fields.flatMap fun line => line ++ ending.text) ++ rest := by
  have others : program.semaphoreLines ++ program.commands.map Command.line ≠ [] := by
    simp [semaphore_lines_nonempty program]
  rw [fileText, program_lines, List.dropLast_append_of_ne_nil others, List.flatMap_append,
    List.append_assoc, List.append_assoc]
  exact ⟨_, rfl⟩

theorem read_before (rest : List Char) :
    readFile table garbage
        { rest := written (program.fields ++ program.semaphoreLines) ++ rest, buf := buf } =
      (readCode (program.semaphores.foldl semaphoreRegister table) garbage rest).map fun code =>
        { name := program.name
          segId := program.segId
          priority := program.priority
          segSize := program.segSize
          semaphores := program.semaphores
          semTable := program.semaphores.foldl semaphoreRegister table
          codeLen := code.1
          code := code.2 } := by
  obtain ⟨left, parsed⟩ := header_read_before program table buf rest
  rw [readFile, parsed]
  simp only [Option.bind_eq_bind, Option.bind_some]
  cases readCode (program.semaphores.foldl semaphoreRegister table) garbage rest <;> rfl

theorem text_split :
    program.text = written (program.fields ++ program.semaphoreLines) ++
      written (program.commands.map Command.line) := by
  rw [ProgramText.text, program_lines, ← List.append_assoc, written, List.flatMap_append]
  rfl

/-- What the text of the format is read as. -/
theorem read_text :
    ∃ code, List.Forall₂ Command.Matches program.commands code ∧
      readCode (program.semaphores.foldl semaphoreRegister table) garbage
          (written (program.commands.map Command.line)) = some (program.commands.length, code) ∧
      readFile table garbage { rest := program.text, buf := buf } = some
        { name := program.name
          segId := program.segId
          priority := program.priority
          segSize := program.segSize
          semaphores := program.semaphores
          semTable := program.semaphores.foldl semaphoreRegister table
          codeLen := program.commands.length
          code := code } := by
  obtain ⟨code, matched, read⟩ := code_read program table garbage
  refine ⟨code, matched, read, ?_⟩
  rw [text_split, read_before, read, Option.map_some]

/-- No text in CRLF format is read as the program. -/
theorem crlf_differs (terminated : Bool) :
    readFile table garbage { rest := fileText .crlf terminated program.lines, buf := buf } ≠
      readFile table garbage { rest := program.text, buf := buf } := by
  obtain ⟨code, -, -, read⟩ := read_text program table garbage buf
  obtain ⟨rest, text⟩ := file_text_fields program .crlf terminated
  rw [read, text]
  intro same
  obtain ⟨header, parsed, loaded⟩ := Option.bind_eq_some_iff.mp same
  obtain ⟨readCode, -, loaded⟩ := Option.bind_eq_some_iff.mp loaded
  have loaded := Option.some.inj loaded
  rcases crlf_header parsed with name | semaphores
  · exact name (congrArg LoadedFile.name loaded)
  · exact semaphores (congrArg LoadedFile.semaphores loaded)

/-- Without a last newline the size is registered as a semaphore when there is no other. -/
theorem bare_header_open (unlisted : program.semaphores = []) (bare : program.commands = []) :
    readFile table garbage { rest := fileText .lf false program.lines, buf := buf } ≠
      readFile table garbage { rest := program.text, buf := buf } := by
  obtain ⟨code, -, -, read⟩ := read_text program table garbage buf
  have text : fileText .lf false program.lines = written program.fields ++ [] := by
    simp [fileText, program_lines, ProgramText.semaphoreLines, unlisted, bare, ProgramText.fields,
      written, LineEnd.text]
  have ended : Reader.fgets { rest := [], buf := decimal program.segSize ++ ['\n'] } =
      { rest := [], buf := decimal program.segSize ++ ['\n'] } := rfl
  have nonempty := numeral_nonempty (numeral_decimal program.segSize)
  have unspaced : ' ' ∉ decimal program.segSize := by
    intro member
    rcases mem_decimal member with sign | digit
    · exact absurd sign (by decide)
    · exact absurd digit (by decide)
  have registered : readSemaphores table (joined ' ' [decimal program.segSize]) = some _ :=
    read_semaphores_joined table (by simp) (by simpa using nonempty) (by simpa using unspaced)
  rw [joined] at registered
  rw [read, text]
  intro same
  obtain ⟨header, parsed, loaded⟩ := Option.bind_eq_some_iff.mp same
  obtain ⟨readCode, -, loaded⟩ := Option.bind_eq_some_iff.mp loaded
  have semaphores := congrArg LoadedFile.semaphores (Option.some.inj loaded)
  rw [fields_read, ended, ProgramText.restOfHeader, if_neg (by simpa using nonempty),
    strip_last_line] at parsed
  simp only [Option.bind_eq_bind, Option.bind_some, registered, Option.some.injEq] at parsed
  rw [← parsed, unlisted] at semaphores
  cases semaphores

theorem listed_header_open (listed : program.semaphores ≠ []) (bare : program.commands = []) :
    readFile table garbage { rest := fileText .lf false program.lines, buf := buf } =
      readFile table garbage { rest := program.text, buf := buf } := by
  have text : fileText .lf false program.lines =
      written program.fields ++ (written [joined ' ' program.semaphores] ++ []) := by
    simp [fileText, program_lines, ProgramText.semaphoreLines, listed, bare, ProgramText.fields,
      written, LineEnd.text]
  obtain ⟨code, -, readHere, read⟩ := read_text program table garbage buf
  rw [bare] at readHere
  rw [read, text, readFile, fields_read, semaphores_read program table _ [] listed]
  simp only [Option.bind_eq_bind, Option.bind_some]
  rw [show (Reader.fgets { rest := [], buf := joined ' ' program.semaphores ++ ['\n'] }).rest =
    written ([].map Command.line) from rfl, readHere, bare]
  rfl

variable {init : List Command} {last : Command}

theorem open_text (commands : program.commands = init ++ [last]) :
    fileText .lf false program.lines = written (program.fields ++ program.semaphoreLines) ++
      (written (init.map Command.line) ++ last.line) := by
  simp [fileText, program_lines, commands, written, LineEnd.text, List.dropLast_append_of_ne_nil]

theorem binary_file_open {mnemonic : Mnemonic} {k : Int}
    (commands : program.commands = init ++ [.binary mnemonic k]) :
    readFile table garbage { rest := fileText .lf false program.lines, buf := buf } =
      readFile table garbage { rest := program.text, buf := buf } := by
  rw [open_text program commands, text_split, read_before, read_before,
    binary_code_open commands _ garbage rfl]

theorem unary_file_open (commands : program.commands = init ++ [last]) {letter : Char}
    {name : CString} (unary : last.line = letter :: '(' :: (name ++ [')']))
    (starts : StartsUnary last.line)
    (named : ∀ instr, last.Matches instr → instr.sem = some name) :
    readFile table garbage { rest := fileText .lf false program.lines, buf := buf } ≠
      readFile table garbage { rest := program.text, buf := buf } := by
  obtain ⟨code, matched, -, read⟩ := read_text program table garbage buf
  rw [read, open_text program commands, read_before]
  intro same
  obtain ⟨⟨codeLen, openCode⟩, readOpen, loaded⟩ := Option.map_eq_some_iff.mp same
  obtain rfl : openCode = code := congrArg LoadedFile.code loaded
  obtain ⟨instr, here, other⟩ := unary_code_open commands _ garbage unary starts readOpen
  obtain ⟨inCode, rfl⟩ := List.getElem?_eq_some_iff.mp here
  rw [commands] at matched
  have pair := matched.get (by simp) inCode
  simp only [List.get_eq_getElem, List.getElem_concat_length] at pair
  exact other (named _ pair)

end Programs

/-- No program is read the same under every line ending: its text in CRLF format, with or
without a terminator at the end, is never read as its text in LF format. Without the last
newline the LF text is read as with it exactly when it ends with a binary instruction, or
with the header of a program that has semaphores. -/
theorem line_endings_matter (program : DocumentedProgram) (table : List Semaphore)
    (garbage : Nat → Instr) (buf : CString) :
    ¬SameForEveryEnding program.toProgramText table garbage buf ∧
      (∀ terminated,
        readFile table garbage { rest := fileText .crlf terminated program.lines, buf := buf } ≠
          readFile table garbage { rest := program.text, buf := buf }) ∧
      (readFile table garbage { rest := fileText .lf false program.lines, buf := buf } =
          readFile table garbage { rest := program.text, buf := buf } ↔
        ReadsOpen program.toProgramText) := by
  have crlf := crlf_differs program table garbage buf
  refine ⟨fun same => crlf true ?_, crlf, ?_⟩
  · rw [← file_text_lf]
    exact same .crlf .lf true true
  unfold ReadsOpen
  rcases List.eq_nil_or_concat' program.commands with bare | ⟨init, last, commands⟩
  · rw [bare, List.getLast?_nil]
    dsimp only
    constructor
    · intro same unlisted
      exact bare_header_open program table garbage buf unlisted bare same
    · exact fun listed => listed_header_open program table garbage buf listed bare
  · rw [commands, List.getLast?_concat]
    cases last with
    | binary mnemonic k =>
        simp only [iff_true]
        exact binary_file_open program table garbage buf commands
    | acquire name =>
        simp only [iff_false]
        exact unary_file_open program table garbage buf commands rfl (.inl rfl)
          fun instr matched => matched.2
    | release name =>
        simp only [iff_false]
        exact unary_file_open program table garbage buf commands rfl (.inr rfl)
          fun instr matched => matched.2

/-- A program without semaphores. -/
def smallProgram : DocumentedProgram where
  name := ['a']
  segId := 1
  priority := 0
  segSize := 4
  semaphores := []
  commands := [.binary .exec 20, .binary .print 50]
  name_plain := by decide
  segId_int := by decide
  priority_int := readmeProgram.priority_int
  segSize_int := by decide
  semaphores_nonempty := by decide
  semaphores_plain := by decide
  semaphores_unspaced := by decide
  commands_documented := by decide
  lines_short := by decide

/-- In CRLF format its name ends in CR, its blank line is registered as a semaphore, and
its first instruction is read in place of the blank line. -/
theorem crlf_loses_an_instruction :
    readFile [] (fun _ => ⟨.exec, 0, none⟩)
        { rest := fileText .lf true smallProgram.lines, buf := [] } = some
      { name := ['a']
        segId := 1
        priority := 0
        segSize := 4
        semaphores := []
        semTable := []
        codeLen := 2
        code := [⟨.exec, 20, none⟩, ⟨.print, 50, none⟩] } ∧
    readFile [] (fun _ => ⟨.exec, 0, none⟩)
        { rest := fileText .crlf true smallProgram.lines, buf := [] } = some
      { name := ['a', '\r']
        segId := 1
        priority := 0
        segSize := 4
        semaphores := [['\r']]
        semTable := [semaphoreInit ['\r'] 1]
        codeLen := 1
        code := [⟨.print, 50, none⟩] } ∧
    ¬SameForEveryEnding smallProgram.toProgramText [] (fun _ => ⟨.exec, 0, none⟩) [] := by
  have lf : readFile [] (fun _ => ⟨.exec, 0, none⟩)
      { rest := fileText .lf true smallProgram.lines, buf := [] } = some _ := rfl
  have crlf : readFile [] (fun _ => ⟨.exec, 0, none⟩)
      { rest := fileText .crlf true smallProgram.lines, buf := [] } = some _ := rfl
  refine ⟨lf, crlf, fun same => ?_⟩
  have names := congrArg (Option.map LoadedFile.name) (same .lf .crlf true true)
  rw [lf, crlf] at names
  exact absurd names (by decide)

end Ribabari.LineEndings

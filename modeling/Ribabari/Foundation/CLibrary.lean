import Mathlib.Algebra.Order.Ring.Int
import Mathlib.Data.Int.DivMod
import Mathlib.Data.List.TakeWhile
import Mathlib.Data.Nat.Notation

/-!
# C text functions

`fgets`, `strtok` and `atoi` on lists of bytes, one `Char` a byte, with the laws
that make a written text read back: a short line comes back whole, a list joined by a
delimiter falls into its items, and a decimal in front of a non-digit is its value.
-/

namespace Ribabari.CLibrary

set_option autoImplicit false

/-- The value a C `int` of 32 bits keeps. -/
def int32 (value : Int) : Int := Int.bmod value (2 ^ 32)

/-- The string in a buffer: the bytes before the first zero. -/
def cString (bytes : List Char) : List Char := bytes.takeWhile fun c => c ≠ Char.ofNat 0

/-! ## Lines -/

/-- At most `limit` bytes, up to and with the first newline, and what follows. -/
def takeLine : Nat → List Char → List Char × List Char
  | 0, rest => ([], rest)
  | _ + 1, [] => ([], [])
  | limit + 1, c :: rest =>
      if c = '\n' then ([c], rest)
      else (c :: (takeLine limit rest).1, (takeLine limit rest).2)

/-- `fgets` into a buffer of `size` bytes, `none` at the end of the file. -/
def fgets (size : Nat) (rest : List Char) : Option (List Char × List Char) :=
  if rest = [] then none else some (takeLine (size - 1) rest)

/-- What consecutive calls of `fgets` return up to the end of the file. -/
def fgetsAll (size : Nat) : Nat → List Char → List (List Char)
  | 0, _ => []
  | fuel + 1, rest =>
      match fgets size rest with
      | none => []
      | some (line, left) => line :: fgetsAll size fuel left

theorem take_line_append {line rest : List Char} {limit : Nat} (single : '\n' ∉ line)
    (short : line.length < limit) :
    takeLine limit (line ++ '\n' :: rest) = (line ++ ['\n'], rest) := by
  induction line generalizing limit with
  | nil =>
      obtain ⟨limit, rfl⟩ := Nat.exists_eq_succ_of_ne_zero (Nat.ne_of_gt short)
      simp [takeLine]
  | cons c line ih =>
      obtain ⟨limit, rfl⟩ := Nat.exists_eq_succ_of_ne_zero (Nat.ne_of_gt (Nat.zero_lt_of_lt short))
      rw [List.mem_cons, not_or] at single
      rw [List.length_cons, Nat.succ_lt_succ_iff] at short
      rw [List.cons_append, takeLine, if_neg (Ne.symm single.1), ih single.2 short]
      rfl

theorem fgets_line {line : List Char} (rest : List Char) {size : Nat} (single : '\n' ∉ line)
    (short : line.length + 1 < size) :
    fgets size (line ++ '\n' :: rest) = some (line ++ ['\n'], rest) := by
  rw [fgets, if_neg (by simp), take_line_append single (by omega)]

/-- Short lines come back one by one, and then what follows them. -/
theorem fgets_all_append {lines : List (List Char)} {size : Nat} (fuel : Nat) (rest : List Char)
    (single : ∀ line ∈ lines, '\n' ∉ line) (short : ∀ line ∈ lines, line.length + 1 < size) :
    fgetsAll size (lines.length + fuel) ((lines.flatMap fun line => line ++ ['\n']) ++ rest) =
      (lines.map fun line => line ++ ['\n']) ++ fgetsAll size fuel rest := by
  induction lines with
  | nil => simp
  | cons line lines ih =>
      have first := fgets_line ((lines.flatMap fun line => line ++ ['\n']) ++ rest)
        (single line (by simp)) (short line (by simp))
      have others := ih (fun other member => single other (List.mem_cons_of_mem _ member))
        (fun other member => short other (List.mem_cons_of_mem _ member))
      rw [List.flatMap_cons, List.append_assoc, List.append_assoc, List.singleton_append,
        List.length_cons, Nat.add_right_comm, fgetsAll, first]
      rw [List.map_cons, List.cons_append, ← others]

theorem fgets_all_lines {lines : List (List Char)} {size fuel : Nat}
    (single : ∀ line ∈ lines, '\n' ∉ line) (short : ∀ line ∈ lines, line.length + 1 < size)
    (enough : lines.length ≤ fuel) :
    fgetsAll size fuel (lines.flatMap fun line => line ++ ['\n']) =
      lines.map fun line => line ++ ['\n'] := by
  obtain ⟨more, rfl⟩ := Nat.exists_eq_add_of_le enough
  have all := fgets_all_append more [] single short
  have ended : fgetsAll size more [] = [] := by cases more <;> rfl
  rwa [List.append_nil, ended, List.append_nil] at all

theorem take_line_parts (limit : Nat) (rest : List Char) :
    (takeLine limit rest).1 ++ (takeLine limit rest).2 = rest := by
  induction limit generalizing rest with
  | zero => rfl
  | succ limit ih =>
      cases rest with
      | nil => rfl
      | cons c rest =>
          rw [takeLine]
          split
          · rfl
          · rw [List.cons_append, ih rest]

theorem take_line_nonempty {limit : Nat} {rest : List Char} (positive : 0 < limit)
    (nonempty : rest ≠ []) : (takeLine limit rest).1 ≠ [] := by
  obtain ⟨limit, rfl⟩ := Nat.exists_eq_succ_of_ne_zero (Nat.ne_of_gt positive)
  obtain ⟨c, rest, rfl⟩ := List.exists_cons_of_ne_nil nonempty
  rw [takeLine]
  split <;> simp

/-- A last line without a newline is taken to the end of the text. -/
theorem take_line_open {line : List Char} {limit : Nat} (single : '\n' ∉ line)
    (short : line.length ≤ limit) : takeLine limit line = (line, []) := by
  induction line generalizing limit with
  | nil => cases limit <;> rfl
  | cons c line ih =>
      obtain ⟨limit, rfl⟩ := Nat.exists_eq_succ_of_ne_zero
        (Nat.ne_of_gt (Nat.lt_of_lt_of_le (Nat.succ_pos _) short))
      rw [List.mem_cons, not_or] at single
      rw [takeLine, if_neg (Ne.symm single.1), ih single.2 (Nat.le_of_succ_le_succ short)]

theorem fgets_all_open {line : List Char} {size fuel : Nat} (nonempty : line ≠ [])
    (single : '\n' ∉ line) (short : line.length < size) :
    fgetsAll size (fuel + 1) line = [line] := by
  have ended : fgetsAll size fuel [] = [] := by cases fuel <;> rfl
  rw [fgetsAll, fgets, if_neg nonempty, take_line_open single (by omega)]
  dsimp only
  rw [ended]

/-- A call for each byte is enough to read the whole text: every call takes a byte. -/
theorem fgets_all_flatten {size fuel : Nat} {rest : List Char} (room : 1 < size)
    (enough : rest.length ≤ fuel) : (fgetsAll size fuel rest).flatten = rest := by
  induction fuel generalizing rest with
  | zero =>
      rw [List.length_eq_zero_iff.mp (Nat.le_zero.mp enough)]
      rfl
  | succ fuel ih =>
      by_cases ended : rest = []
      · simp [fgetsAll, fgets, ended]
      · have parts := take_line_parts (size - 1) rest
        have positive : 0 < size - 1 := by omega
        have taken := List.length_pos_iff.mpr (take_line_nonempty positive ended)
        have total := congrArg List.length parts
        rw [List.length_append] at total
        simp only [fgetsAll, fgets, if_neg ended, List.flatten_cons]
        rw [ih (by omega), parts]

theorem c_string_plain {text : List Char} (plain : Char.ofNat 0 ∉ text) : cString text = text := by
  refine List.takeWhile_eq_self_iff.mpr fun c member => ?_
  rw [decide_eq_true_eq]
  rintro rfl
  exact plain member

/-! ## Tokens -/

/-- One call of `strtok` with a single delimiter: the token and the text after it. -/
def strtok (delim : Char) (text : List Char) : Option (List Char × List Char) :=
  match text.dropWhile (· = delim) with
  | [] => none
  | token => some (token.takeWhile (· ≠ delim), (token.dropWhile (· ≠ delim)).drop 1)

/-- The tokens that consecutive calls of `strtok` return. -/
def strtokAll (delim : Char) : Nat → List Char → List (List Char)
  | 0, _ => []
  | fuel + 1, text =>
      match strtok delim text with
      | none => []
      | some (token, rest) => token :: strtokAll delim fuel rest

/-- The items with a delimiter between any two. -/
def joined (delim : Char) : List (List Char) → List Char
  | [] => []
  | [item] => item
  | item :: items => item ++ delim :: joined delim items

theorem strtok_split {delim : Char} {token : List Char} (rest : List Char) (nonempty : token ≠ [])
    (free : delim ∉ token) (ends : ∀ c ∈ rest.head?, c = delim) :
    strtok delim (token ++ rest) = some (token, rest.drop 1) := by
  have differs : ∀ c ∈ token, c ≠ delim := fun c member same => free (same ▸ member)
  obtain ⟨first, others, rfl⟩ := List.exists_cons_of_ne_nil nonempty
  have kept : ((first :: others) ++ rest).dropWhile (· = delim) = first :: (others ++ rest) := by
    simp [differs first (by simp)]
  have stops : rest.takeWhile (· ≠ delim) = [] ∧ rest.dropWhile (· ≠ delim) = rest := by
    cases rest with
    | nil => simp
    | cons c rest =>
        obtain rfl : c = delim := ends c rfl
        simp
  have all : ∀ c ∈ first :: others, decide (c ≠ delim) = true := by simpa using differs
  rw [strtok, kept]
  dsimp only
  rw [← List.cons_append, List.takeWhile_append_of_pos all, List.dropWhile_append_of_pos all,
    stops.1, stops.2, List.append_nil]

theorem joined_count {delim : Char} {items : List (List Char)}
    (free : ∀ item ∈ items, delim ∉ item) (nonempty : items ≠ []) :
    (joined delim items).count delim + 1 = items.length := by
  induction items with
  | nil => exact absurd rfl nonempty
  | cons item items ih =>
      have here : item.count delim = 0 := List.count_eq_zero.mpr (free item (by simp))
      cases items with
      | nil => simp [joined, here]
      | cons next items =>
          have rest := ih (fun other member => free other (List.mem_cons_of_mem _ member))
            (by simp)
          rw [joined, List.count_append, List.count_cons_self, here]
          · rw [List.length_cons, ← rest]
            omega
          · simp

theorem mem_joined {delim c : Char} {items : List (List Char)} (member : c ∈ joined delim items) :
    c = delim ∨ ∃ item ∈ items, c ∈ item := by
  induction items with
  | nil => simp [joined] at member
  | cons item items ih =>
      cases items with
      | nil => exact .inr ⟨item, by simp, member⟩
      | cons next items =>
          rw [joined, List.mem_append, List.mem_cons] at member
          · rcases member with here | rfl | later
            · exact .inr ⟨item, by simp, here⟩
            · exact .inl rfl
            · rcases ih later with same | ⟨other, otherMember, inside⟩
              · exact .inl same
              · exact .inr ⟨other, List.mem_cons_of_mem _ otherMember, inside⟩
          · simp

/-- The non-empty stretches between the delimiters. -/
def pieces (delim : Char) (text : List Char) : List (List Char) :=
  (text.splitOn delim).filter fun piece => piece ≠ []

theorem pieces_delim (delim : Char) (text : List Char) :
    pieces delim (delim :: text) = pieces delim text := by
  simp [pieces, List.splitOn_eq_splitOnP, List.splitOnP_cons_eq_if_modifyHead]

theorem pieces_drop (delim : Char) (text : List Char) :
    pieces delim (text.dropWhile (· = delim)) = pieces delim text := by
  induction text with
  | nil => rfl
  | cons c text ih =>
      by_cases same : c = delim
      · subst same
        rw [List.dropWhile_cons_of_pos (by simp), ih, pieces_delim]
      · rw [List.dropWhile_cons_of_neg (by simpa using same)]

theorem token_free {delim : Char} {token : List Char} (free : delim ∉ token) :
    ∀ c ∈ token, (c == delim) = false := by
  intro c member
  rw [beq_eq_false_iff_ne]
  rintro rfl
  exact free member

theorem pieces_split {delim : Char} {token : List Char} (rest : List Char) (nonempty : token ≠ [])
    (free : delim ∉ token) : pieces delim (token ++ delim :: rest) = token :: pieces delim rest := by
  rw [pieces, List.splitOn_eq_splitOnP,
    List.splitOnP_append_cons_of_forall_mem (token_free free) delim (by simp),
    List.filter_cons_of_pos (by simpa using nonempty)]
  rfl

theorem pieces_single {delim : Char} {token : List Char} (nonempty : token ≠ [])
    (free : delim ∉ token) : pieces delim token = [token] := by
  rw [pieces, List.splitOn_eq_splitOnP, List.splitOnP_eq_singleton (token_free free),
    List.filter_cons_of_pos (by simpa using nonempty), List.filter_nil]

theorem strtok_pieces_none {delim : Char} {text : List Char} (ended : strtok delim text = none) :
    pieces delim text = [] := by
  rw [← pieces_drop]
  unfold strtok at ended
  split at ended
  · rename_i blank
    rw [blank]
    rfl
  · simp at ended

theorem drop_head_differs {delim first : Char} {text others : List Char}
    (suffix : text.dropWhile (· = delim) = first :: others) : first ≠ delim := by
  have start := List.head?_dropWhile_not (fun c => decide (c = delim)) text
  rw [suffix] at start
  simpa using start

/-- A text that begins with a token is the token up to the next delimiter and the rest. -/
theorem pieces_token {delim first : Char} (others : List Char) (differs : first ≠ delim) :
    pieces delim (first :: others) =
      (first :: others).takeWhile (· ≠ delim) ::
        pieces delim (((first :: others).dropWhile (· ≠ delim)).drop 1) := by
  have parts := List.takeWhile_append_dropWhile (p := fun c => decide (c ≠ delim))
    (l := first :: others)
  have nonempty : (first :: others).takeWhile (· ≠ delim) ≠ [] := by
    simp [differs]
  have free : delim ∉ (first :: others).takeWhile (· ≠ delim) := by
    intro inside
    have kept := List.mem_takeWhile_imp inside
    simp at kept
  have stop := List.head?_dropWhile_not (fun c => decide (c ≠ delim)) (first :: others)
  conv_lhs => rw [← parts]
  cases behind : (first :: others).dropWhile (· ≠ delim) with
  | nil => rw [List.append_nil, pieces_single nonempty free, List.drop_nil]; rfl
  | cons c rest =>
      rw [behind] at stop
      obtain rfl : c = delim := by simpa using stop
      rw [pieces_split rest nonempty free, List.drop_one, List.tail_cons]

/-- A call returns the first piece, and leaves a shorter text with the others. -/
theorem strtok_pieces_some {delim : Char} {text token rest : List Char}
    (found : strtok delim text = some (token, rest)) :
    pieces delim text = token :: pieces delim rest ∧ rest.length < text.length := by
  cases suffix : text.dropWhile (· = delim) with
  | nil => simp [strtok, suffix] at found
  | cons first others =>
      have differs := drop_head_differs suffix
      have shorter := (List.dropWhile_suffix (fun c => decide (c = delim)) (l := text)).length_le
      rw [suffix] at shorter
      rw [strtok, suffix] at found
      obtain ⟨rfl, rfl⟩ := Prod.mk.inj (Option.some.inj found)
      constructor
      · rw [← pieces_drop, suffix, pieces_token others differs]
      · rw [List.dropWhile_cons_of_pos (by simpa using differs), List.length_drop]
        have left := (List.dropWhile_suffix (fun c => decide (c ≠ delim)) (l := others)).length_le
        rw [List.length_cons] at shorter
        omega

theorem pieces_length_le (delim : Char) (text : List Char) :
    (pieces delim text).length ≤ text.count delim + 1 := by
  have split : ∀ text : List Char, (text.splitOn delim).length = text.count delim + 1 := by
    intro text
    induction text with
    | nil => rfl
    | cons c text ih =>
        rw [List.splitOn_eq_splitOnP] at ih ⊢
        rw [List.splitOnP_cons_eq_if_modifyHead, List.count_cons]
        split <;> simp_all
  exact (List.length_filter_le _ _).trans_eq (split text)

theorem pieces_eq_nil_iff {delim : Char} {text : List Char} :
    pieces delim text = [] ↔ ∀ c ∈ text, c = delim := by
  constructor
  · intro none
    rw [← pieces_drop] at none
    cases suffix : text.dropWhile (· = delim) with
    | nil => simpa using List.dropWhile_eq_nil_iff.mp suffix
    | cons first others =>
        have differs := drop_head_differs suffix
        rw [suffix, pieces_token others differs] at none
        simp at none
  · intro all
    have ended : text.dropWhile (· = delim) = [] :=
      List.dropWhile_eq_nil_iff.mpr fun c member => decide_eq_true (all c member)
    rw [← pieces_drop, ended]
    rfl

/-- The calls return the pieces of the text in order. -/
theorem strtok_all_pieces {delim : Char} {text : List Char} {fuel : Nat}
    (enough : text.length < fuel) : strtokAll delim fuel text = pieces delim text := by
  induction fuel generalizing text with
  | zero => exact absurd enough (Nat.not_lt_zero _)
  | succ fuel ih =>
      rw [strtokAll]
      cases found : strtok delim text with
      | none => exact (strtok_pieces_none found).symm
      | some result =>
          obtain ⟨first, shorter⟩ := strtok_pieces_some found
          rw [first]
          exact congrArg (result.1 :: ·) (ih (by omega))

theorem pieces_joined {delim : Char} {items : List (List Char)}
    (nonempty : ∀ item ∈ items, item ≠ []) (free : ∀ item ∈ items, delim ∉ item) :
    pieces delim (joined delim items) = items := by
  induction items with
  | nil => rfl
  | cons item items ih =>
      have itemNonempty := nonempty item (by simp)
      have itemFree := free item (by simp)
      cases items with
      | nil => exact pieces_single itemNonempty itemFree
      | cons next items =>
          have others := ih
            (fun other member => nonempty other (List.mem_cons_of_mem _ member))
            (fun other member => free other (List.mem_cons_of_mem _ member))
          rw [joined, pieces_split _ itemNonempty itemFree, others]
          simp

theorem strtok_all_joined {delim : Char} {items : List (List Char)}
    (nonempty : ∀ item ∈ items, item ≠ []) (free : ∀ item ∈ items, delim ∉ item) :
    strtokAll delim ((joined delim items).length + 1) (joined delim items) = items :=
  (strtok_all_pieces (Nat.lt_succ_self _)).trans (pieces_joined nonempty free)

/-! ## Decimals -/

def isSpace (c : Char) : Bool := c = ' ' || (9 ≤ c.toNat && c.toNat ≤ 13)

/-- `atoi`: blanks, a sign and digits, read as a 64-bit `long` that saturates and
is then cut to an `int`. -/
def atoi (text : List Char) : Int :=
  match text.dropWhile isSpace with
  | '-' :: rest =>
      int32 (max (-(2 ^ 63)) (-(Nat.ofDigitChars 10 (rest.takeWhile Char.isDigit) 0 : Int)))
  | '+' :: rest =>
      int32 (min (2 ^ 63 - 1) (Nat.ofDigitChars 10 (rest.takeWhile Char.isDigit) 0 : Int))
  | rest => int32 (min (2 ^ 63 - 1) (Nat.ofDigitChars 10 (rest.takeWhile Char.isDigit) 0 : Int))

def decimal (value : Int) : List Char :=
  if value < 0 then '-' :: Nat.toDigits 10 value.natAbs else Nat.toDigits 10 value.natAbs

def IsInt32 (value : Int) : Prop := -2 ^ 31 ≤ value ∧ value < 2 ^ 31

instance (value : Int) : Decidable (IsInt32 value) := inferInstanceAs (Decidable (_ ∧ _))

theorem int32_of_range {value : Int} (range : IsInt32 value) : int32 value = value := by
  obtain ⟨lower, upper⟩ := range
  exact Int.bmod_eq_of_le (by omega) (by omega)

theorem digits_are_digits (value : Nat) {c : Char} (member : c ∈ Nat.toDigits 10 value) :
    c.isDigit = true :=
  Nat.isDigit_of_mem_toDigits (by decide) (by decide) member

theorem digit_range {c : Char} (digit : c.isDigit = true) : 48 ≤ c.toNat ∧ c.toNat ≤ 57 := by
  simp only [Char.isDigit, ge_iff_le, Bool.and_eq_true, decide_eq_true_eq] at digit
  exact ⟨digit.1, digit.2⟩

section Digits

variable {digits tail : List Char}

theorem take_digits (all : ∀ c ∈ digits, c.isDigit = true)
    (stops : ∀ c ∈ tail.head?, c.isDigit = false) :
    (digits ++ tail).takeWhile Char.isDigit = digits := by
  have ended : tail.takeWhile Char.isDigit = [] := by
    cases tail with
    | nil => rfl
    | cons c tail => simp [stops c rfl]
  rw [List.takeWhile_append_of_pos all, ended, List.append_nil]

/-- The value of a text of digits. -/
def digitsValue (digits : List Char) : Int := (Nat.ofDigitChars 10 digits 0 : Nat)

theorem digits_value (value : Nat) : digitsValue (Nat.toDigits 10 value) = value :=
  congrArg Int.ofNat (Nat.ofDigitChars_toDigits (by decide) (by decide))

theorem atoi_minus (all : ∀ c ∈ digits, c.isDigit = true)
    (stops : ∀ c ∈ tail.head?, c.isDigit = false) :
    atoi ('-' :: (digits ++ tail)) = int32 (max (-(2 ^ 63)) (-digitsValue digits)) := by
  have skipped : ('-' :: (digits ++ tail)).dropWhile isSpace = '-' :: (digits ++ tail) :=
    List.dropWhile_cons_of_neg (by decide)
  rw [atoi, skipped]
  simp only
  rw [take_digits all stops, digitsValue]

theorem atoi_plus (all : ∀ c ∈ digits, c.isDigit = true)
    (stops : ∀ c ∈ tail.head?, c.isDigit = false) :
    atoi ('+' :: (digits ++ tail)) = int32 (min (2 ^ 63 - 1) (digitsValue digits)) := by
  have skipped : ('+' :: (digits ++ tail)).dropWhile isSpace = '+' :: (digits ++ tail) :=
    List.dropWhile_cons_of_neg (by decide)
  rw [atoi, skipped]
  simp only
  rw [take_digits all stops, digitsValue]

theorem atoi_digits (nonempty : digits ≠ []) (all : ∀ c ∈ digits, c.isDigit = true)
    (stops : ∀ c ∈ tail.head?, c.isDigit = false) :
    atoi (digits ++ tail) = int32 (min (2 ^ 63 - 1) (digitsValue digits)) := by
  have taken := take_digits all stops
  obtain ⟨first, others, rfl⟩ := List.exists_cons_of_ne_nil nonempty
  have firstDigit := digit_range (all first List.mem_cons_self)
  have unblank : ¬isSpace first = true := by
    have other : first ≠ ' ' := by
      rintro rfl
      exact absurd firstDigit.1 (by decide)
    simp only [isSpace, other, decide_false, Bool.false_or, Bool.and_eq_true,
      decide_eq_true_eq, not_and]
    omega
  have skipped : (first :: others ++ tail).dropWhile isSpace = first :: (others ++ tail) :=
    List.dropWhile_cons_of_neg unblank
  rw [atoi, skipped]
  split
  case h_1 rest same =>
      obtain ⟨rfl, -⟩ := List.cons.inj same
      exact absurd firstDigit.1 (by decide)
  case h_2 rest same =>
      obtain ⟨rfl, -⟩ := List.cons.inj same
      exact absurd firstDigit.1 (by decide)
  case h_3 => rw [← List.cons_append, taken, digitsValue]

end Digits

/-- A 32-bit decimal in front of a non-digit is read back. -/
theorem atoi_decimal {value : Int} (range : IsInt32 value) {tail : List Char}
    (stops : ∀ c ∈ tail.head?, c.isDigit = false) : atoi (decimal value ++ tail) = value := by
  have all : ∀ c ∈ Nat.toDigits 10 value.natAbs, c.isDigit = true :=
    fun c member => digits_are_digits value.natAbs member
  have digits := digits_value value.natAbs
  have bounds := range
  unfold IsInt32 at bounds
  by_cases negative : value < 0
  · rw [decimal, if_pos negative, List.cons_append, atoi_minus all stops, digits]
    rw [Int.max_eq_right (by omega), show -(value.natAbs : Int) = value by omega]
    exact int32_of_range range
  · rw [decimal, if_neg negative, atoi_digits Nat.toDigits_ne_nil all stops, digits]
    rw [Int.min_eq_right (by omega), show (value.natAbs : Int) = value by omega]
    exact int32_of_range range

/-- A decimal has a sign and digits only. -/
theorem mem_decimal {value : Int} {c : Char} (member : c ∈ decimal value) :
    c = '-' ∨ c.isDigit = true := by
  unfold decimal at member
  split at member
  · rcases List.mem_cons.mp member with sign | digit
    · exact .inl sign
    · exact .inr (digits_are_digits _ digit)
  · exact .inr (digits_are_digits _ member)

end Ribabari.CLibrary

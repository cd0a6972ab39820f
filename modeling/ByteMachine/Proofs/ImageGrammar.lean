import ByteMachine.Proofs.CheckedReading
import Mathlib.Data.List.TakeWhile
import Mathlib.Data.Nat.Digits.Defs
import Mathlib.Tactic.Ring

/-!
The grammar of image texts. A text is a sequence of lines, a line may hold a number in base 2 of
any length, and an image has one byte for each number, which is the number modulo 256.
-/

namespace ByteMachine

namespace Text

/-- The lines of a text, by how they end: with a line feed, with a carriage return and a line feed,
or with the text. -/
inductive Lines : List Char → List (List Char) → Prop where
  | nil : Lines [] []
  | last {line : List Char} (nonempty : line ≠ []) (unbroken : lineFeed ∉ line) : Lines line [line]
  | feed {line text : List Char} {lines : List (List Char)} (unbroken : lineFeed ∉ line)
      (feedOnly : line.getLast? ≠ some carriageReturn) (rest : Lines text lines) :
      Lines (line ++ lineFeed :: text) (line :: lines)
  | returnAndFeed {line text : List Char} {lines : List (List Char)} (unbroken : lineFeed ∉ line)
      (rest : Lines text lines) :
      Lines (line ++ carriageReturn :: lineFeed :: text) (line :: lines)

theorem lines_of_unbroken {line : List Char} (unbroken : lineFeed ∉ line) :
    lines line = if line.isEmpty then [] else [line] := by
  rw [lines, List.splitOn_eq_singleton unbroken]
  rfl

theorem lines_append {line : List Char} (unbroken : lineFeed ∉ line) (text : List Char) :
    lines (line ++ lineFeed :: text) = dropCarriageReturn line :: lines text := by
  have nonempty := List.splitOn_ne_nil lineFeed text
  have pieces := List.splitOn_append_cons_self_of_not_mem unbroken text
  cases rest : text.splitOn lineFeed with
  | nil => exact absurd rest nonempty
  | cons first others => simp [lines, pieces, rest]

theorem unbroken_return {line : List Char} (unbroken : lineFeed ∉ line) :
    lineFeed ∉ line ++ [carriageReturn] := by
  rw [List.mem_append, List.mem_singleton, not_or]
  exact ⟨unbroken, by decide⟩

theorem dropCarriageReturn_append (line : List Char) :
    dropCarriageReturn (line ++ [carriageReturn]) = line := by
  simp [dropCarriageReturn, carriageReturn]

theorem dropCarriageReturn_other {line : List Char}
    (other : line.getLast? ≠ some carriageReturn) : dropCarriageReturn line = line := by
  unfold dropCarriageReturn
  split
  · contradiction
  · rfl

theorem lines_of_grammar {text : List Char} {split : List (List Char)}
    (grammar : Lines text split) : lines text = split := by
  induction grammar with
  | nil => rfl
  | last nonempty unbroken =>
    rw [lines_of_unbroken unbroken, List.isEmpty_eq_false_iff.mpr nonempty]
    rfl
  | feed unbroken feedOnly _ ih =>
    rw [lines_append unbroken, dropCarriageReturn_other feedOnly, ih]
  | @returnAndFeed line text _ unbroken _ ih =>
    have regroup : line ++ carriageReturn :: lineFeed :: text =
        (line ++ [carriageReturn]) ++ lineFeed :: text := List.append_cons line _ _
    rw [regroup, lines_append (unbroken_return unbroken), dropCarriageReturn_append, ih]

theorem exists_lines (text : List Char) : ∃ split, Lines text split := by
  induction size : text.length using Nat.strong_induction_on generalizing text with
  | _ length ih =>
    by_cases broken : lineFeed ∈ text
    · obtain ⟨line, rest, rfl, unbroken⟩ := List.eq_append_cons_of_mem broken
      have shorter : rest.length < length := by
        simp only [List.length_append, List.length_cons] at size
        omega
      obtain ⟨split, grammar⟩ := ih rest.length shorter rest rfl
      by_cases returned : line.getLast? = some carriageReturn
      · obtain ⟨front, rfl⟩ := List.getLast?_eq_some_iff.mp returned
        rw [List.mem_append, not_or] at unbroken
        rw [← List.append_cons]
        exact ⟨_, .returnAndFeed unbroken.1 grammar⟩
      · exact ⟨_, .feed unbroken returned grammar⟩
    · by_cases empty : text = []
      · rw [empty]
        exact ⟨_, .nil⟩
      · exact ⟨_, .last empty broken⟩

theorem lines_iff {text : List Char} {split : List (List Char)} :
    Lines text split ↔ lines text = split := by
  constructor
  · exact lines_of_grammar
  · rintro rfl
    obtain ⟨split, grammar⟩ := exists_lines text
    rw [lines_of_grammar grammar]
    exact grammar

end Text

namespace Image
open Text (isWhiteSpace)

inductive Sign : List Char → Int → Prop where
  | none : Sign [] 1
  | plus : Sign ['+'] 1
  | minus : Sign ['-'] (-1)

def binary (digits : List Char) : Nat :=
  Nat.ofDigits 2 (digits.reverse.map fun c => if c = '1' then 1 else 0)

/-- A line that holds a number: white space, a sign or none, all the digits that follow, and
whatever else. -/
inductive Numeral : List Char → Int → Prop where
  | mk {blanks sign digits rest : List Char} {factor : Int}
      (blank : ∀ c ∈ blanks, isWhiteSpace c = true) (signed : Sign sign factor)
      (nonempty : digits ≠ []) (binaryDigits : ∀ c ∈ digits, c = '0' ∨ c = '1')
      (longest : ∀ c ∈ rest.head?, c ≠ '0' ∧ c ≠ '1') :
      Numeral (blanks ++ (sign ++ (digits ++ rest))) (factor * binary digits)

def valueOfLine? (line : List Char) : Option Int :=
  let (negative, rest) := sign (line.dropWhile isWhiteSpace)
  match rest.takeWhile isDigit with
  | [] => none
  | digits => some ((if negative then -1 else 1) * binary digits)

theorem foldl_digits (digits : List Char) (high : Nat) :
    digits.foldl (fun value c => 2 * value + digit c) (BitVec.ofNat 8 high) =
      BitVec.ofNat 8 (2 ^ digits.length * high + binary digits) := by
  induction digits generalizing high with
  | nil => simp [binary]
  | cons c digits ih =>
    have next : 2 * BitVec.ofNat 8 high + digit c =
        BitVec.ofNat 8 (2 * high + if c = '1' then 1 else 0) := by
      rw [BitVec.ofNat_add, BitVec.ofNat_mul, digit]
      split <;> rfl
    have split : binary (c :: digits) =
        binary digits + 2 ^ digits.length * if c = '1' then 1 else 0 := by
      simp [binary, Nat.ofDigits_append]
    rw [List.foldl_cons, next, ih, split, List.length_cons]
    congr 1
    ring

theorem number_eq (digits : List Char) : number digits = BitVec.ofNat 8 (binary digits) := by
  have fold := foldl_digits digits 0
  rw [Nat.mul_zero, Nat.zero_add] at fold
  exact fold

theorem byteOfLine?_eq (line : List Char) :
    byteOfLine? line = (valueOfLine? line).map (BitVec.ofInt 8) := by
  simp only [byteOfLine?, valueOfLine?]
  generalize sign (line.dropWhile isWhiteSpace) = signed
  cases (signed.2.takeWhile isDigit) with
  | nil => rfl
  | cons c digits =>
    cases signed.1 <;> simp [number_eq, BitVec.ofInt_neg, BitVec.ofInt_natCast]

theorem cut_append {p : Char → Bool} {front back : List Char} (passes : ∀ c ∈ front, p c = true)
    (stops : ∀ c ∈ back.head?, p c = false) :
    (front ++ back).takeWhile p = front ∧ (front ++ back).dropWhile p = back := by
  rw [List.takeWhile_append_of_pos passes, List.dropWhile_append_of_pos passes]
  cases back with
  | nil => exact ⟨List.append_nil front, rfl⟩
  | cons c back =>
    have stop : ¬ p c = true := ne_true_of_eq_false (stops c rfl)
    rw [List.takeWhile_cons_of_neg stop, List.dropWhile_cons_of_neg stop]
    exact ⟨List.append_nil front, rfl⟩

theorem valueOfLine?_append {blanks text : List Char} (blank : ∀ c ∈ blanks, isWhiteSpace c = true)
    (start : ∀ c ∈ text.head?, isWhiteSpace c = false) :
    valueOfLine? (blanks ++ text) =
      match (sign text).2.takeWhile isDigit with
      | [] => none
      | digits => some ((if (sign text).1 then -1 else 1) * binary digits) := by
  simp only [valueOfLine?, (cut_append blank start).2]

theorem sign_digit {written : List Char} {factor : Int} {c : Char} (text : List Char)
    (signed : Sign written factor) (digit : c = '0' ∨ c = '1') :
    (∀ d ∈ (written ++ c :: text).head?, isWhiteSpace d = false) ∧
      ∃ negative, sign (written ++ c :: text) = (negative, c :: text) ∧
        factor = if negative then -1 else 1 := by
  cases signed with
  | none =>
    rcases digit with rfl | rfl
    · exact ⟨by rintro d ⟨⟩; decide, false, rfl, rfl⟩
    · exact ⟨by rintro d ⟨⟩; decide, false, rfl, rfl⟩
  | plus => exact ⟨by rintro d ⟨⟩; decide, false, rfl, rfl⟩
  | minus => exact ⟨by rintro d ⟨⟩; decide, true, rfl, rfl⟩

theorem valueOfLine?_of_numeral {line : List Char} {value : Int} (numeral : Numeral line value) :
    valueOfLine? line = some value := by
  cases numeral with
  | @mk blanks written digits rest factor blank signed nonempty binaryDigits longest =>
    obtain ⟨c, more, rfl⟩ := List.exists_cons_of_ne_nil nonempty
    have run : ((c :: more) ++ rest).takeWhile isDigit = c :: more := by
      refine (cut_append (fun d member => isDigit_iff.mpr (binaryDigits d member)) ?_).1
      intro d first
      have other := not_or.mpr (longest d first)
      exact Bool.eq_false_iff.mpr fun digit => other (isDigit_iff.mp digit)
    obtain ⟨start, negative, cut, rfl⟩ :=
      sign_digit (more ++ rest) signed (binaryDigits c (List.mem_cons_self ..))
    rw [List.cons_append, valueOfLine?_append blank start, cut, ← List.cons_append, run]

theorem exists_sign (text : List Char) :
    ∃ written, text = written ++ (sign text).2 ∧
      Sign written (if (sign text).1 then -1 else 1) := by
  unfold sign
  split
  · exact ⟨_, rfl, .minus⟩
  · exact ⟨_, rfl, .plus⟩
  · exact ⟨[], rfl, .none⟩

theorem numeral_of_valueOfLine? {line : List Char} {value : Int}
    (read : valueOfLine? line = some value) : Numeral line value := by
  obtain ⟨written, cut, signed⟩ := exists_sign (line.dropWhile isWhiteSpace)
  simp only [valueOfLine?] at read
  generalize sign (line.dropWhile isWhiteSpace) = s at cut signed read
  split at read
  · cases read
  · rename_i nonempty
    cases read
    have stop : ∀ c ∈ (s.2.dropWhile isDigit).head?, c ≠ '0' ∧ c ≠ '1' := by
      intro c first
      have other := List.head?_dropWhile_not isDigit s.2
      rw [first] at other
      exact not_or.mp fun digit => Bool.eq_false_iff.mp other (isDigit_iff.mpr digit)
    have blank : ∀ c ∈ line.takeWhile isWhiteSpace, isWhiteSpace c = true :=
      fun _ => List.mem_takeWhile_imp
    have digits : ∀ c ∈ s.2.takeWhile isDigit, c = '0' ∨ c = '1' :=
      fun _ member => isDigit_iff.mp (List.mem_takeWhile_imp member)
    have numeral := Numeral.mk blank signed nonempty digits stop
    rwa [List.takeWhile_append_dropWhile, ← cut, List.takeWhile_append_dropWhile] at numeral

theorem numeral_iff {line : List Char} {value : Int} :
    Numeral line value ↔ valueOfLine? line = some value :=
  ⟨valueOfLine?_of_numeral, numeral_of_valueOfLine?⟩

theorem byteOfLine?_of_numeral {line : List Char} {value : Int} (numeral : Numeral line value) :
    byteOfLine? line = some (BitVec.ofInt 8 value) := by
  rw [byteOfLine?_eq, numeral_iff.mp numeral]
  rfl

theorem byteOfLine?_of_other {line : List Char} (without : ∀ value, ¬ Numeral line value) :
    byteOfLine? line = none := by
  rw [byteOfLine?_eq, Option.map_eq_none_iff, Option.eq_none_iff_forall_ne_some]
  intro value read
  exact without value (numeral_iff.mpr read)

/-- A sign must have a digit directly behind it. -/
theorem not_numeral_of_sign {blanks text : List Char} {c : Char} {value : Int}
    (blank : ∀ d ∈ blanks, isWhiteSpace d = true) (signed : c = '+' ∨ c = '-')
    (noDigit : ∀ d ∈ text.head?, isDigit d = false) : ¬ Numeral (blanks ++ c :: text) value := by
  intro numeral
  have read := valueOfLine?_of_numeral numeral
  have start : ∀ d ∈ (c :: text).head?, isWhiteSpace d = false := by
    rintro d ⟨⟩
    rcases signed with rfl | rfl <;> decide
  have behind : (sign (c :: text)).2 = text := by
    rcases signed with rfl | rfl <;> rfl
  have none : text.takeWhile isDigit = [] := (cut_append (fun _ => List.not_mem_nil.elim) noDigit).1
  rw [valueOfLine?_append blank start, behind, none] at read
  cases read

inductive Reads : List (List Char) → List Byte → Prop where
  | nil : Reads [] []
  | number {line : List Char} {lines : List (List Char)} {value : Int} {bytes : List Byte}
      (numeral : Numeral line value) (rest : Reads lines bytes) :
      Reads (line :: lines) (BitVec.ofInt 8 value :: bytes)
  | other {line : List Char} {lines : List (List Char)} {bytes : List Byte}
      (without : ∀ value, ¬ Numeral line value) (rest : Reads lines bytes) :
      Reads (line :: lines) bytes

theorem reads_iff {lines : List (List Char)} {bytes : List Byte} :
    Reads lines bytes ↔ lines.filterMap byteOfLine? = bytes := by
  constructor
  · intro reads
    induction reads with
    | nil => rfl
    | number numeral _ ih => rw [List.filterMap_cons_some (byteOfLine?_of_numeral numeral), ih]
    | other without _ ih => rw [List.filterMap_cons_none (byteOfLine?_of_other without), ih]
  · rintro rfl
    induction lines with
    | nil => exact .nil
    | cons line lines ih =>
      by_cases holds : ∃ value, Numeral line value
      · obtain ⟨value, numeral⟩ := holds
        rw [List.filterMap_cons_some (byteOfLine?_of_numeral numeral)]
        exact .number numeral ih
      · have without := not_exists.mp holds
        rw [List.filterMap_cons_none (byteOfLine?_of_other without)]
        exact .other without ih

end Image

/-- What is read from a text is given by the grammar, and nothing that is done to read it fails. -/
theorem image_grammar_exact (text : List Char) :
    (∀ bytes, (Image.ofText text).bytes = bytes ↔
      ∃ split, Text.Lines text split ∧ Image.Reads split bytes) ∧
    (∀ (blanks rest : List Char) (c behind : Char), (∀ d ∈ blanks, Text.isWhiteSpace d = true) →
      (c = '+' ∨ c = '-') → (behind = '+' ∨ behind = '-' ∨ Text.isWhiteSpace behind = true) →
      Image.byteOfLine? (blanks ++ c :: behind :: rest) = none) ∧
    Image.Checked.ofText? text = some (Image.ofText text) := by
  refine ⟨?_, ?_, Image.Checked.ofText?_eq text⟩
  · intro bytes
    constructor
    · rintro rfl
      exact ⟨Text.lines text, Text.lines_iff.mpr rfl, Image.reads_iff.mpr rfl⟩
    · rintro ⟨split, grammar, reads⟩
      obtain rfl := Text.lines_iff.mp grammar
      exact Image.reads_iff.mp reads
  · intro blanks rest c behind blank signed unwanted
    apply Image.byteOfLine?_of_other
    intro value
    apply Image.not_numeral_of_sign blank signed
    rintro d ⟨⟩
    apply Bool.eq_false_iff.mpr
    intro digit
    rcases Image.isDigit_iff.mp digit with rfl | rfl <;> revert unwanted <;> decide

def signedNumbers : List Char :=
  "  -101 # five\r\n+ 1\n\u00A0+11x\n\n-+1\n100000001".toList

theorem image_grammar_exact_signedNumbers :
    (∃ split, Text.Lines signedNumbers split ∧ Image.Reads split [0xFB, 0x03, 0x01]) ∧
      Image.byteOfLine? "\t+ 1".toList = none ∧
      Image.Checked.ofText? signedNumbers = some ⟨[0xFB, 0x03, 0x01]⟩ := by
  obtain ⟨grammar, signs, checked⟩ := image_grammar_exact signedNumbers
  have read : Image.ofText signedNumbers = ⟨[0xFB, 0x03, 0x01]⟩ := by decide +kernel
  refine ⟨(grammar _).mp (congrArg Image.bytes read), ?_, checked.trans (congrArg some read)⟩
  exact signs ['\t'] ['1'] '+' ' ' (List.forall_mem_singleton.mpr (by decide)) (.inl rfl)
    (.inr (.inr (by decide)))

end ByteMachine

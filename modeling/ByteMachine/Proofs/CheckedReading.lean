import ByteMachine.Image
import Mathlib.Data.List.TakeWhile

/-!
Reading an image with operations that can fail: a line is cut at a byte of its UTF-8 encoding, which
fails inside a character, and a digit is taken from its code by a subtraction, which fails below
zero. On no text does any of them fail, and what is read is the same.
-/

namespace ByteMachine.Image.Checked

def encode (c : Char) : List Byte := (String.utf8EncodeChar c).map UInt8.toBitVec

def bytes (text : List Char) : List Byte := text.flatMap encode

/-- What is left of a text behind so many bytes, if they end with a character. -/
def behind? : Nat → List Char → Option (List Char)
  | 0, text => some text
  | _ + 1, [] => none
  | n + 1, c :: text =>
    if (encode c).length ≤ n + 1 then behind? (n + 1 - (encode c).length) text else none

def subtract? (a b : Byte) : Option Byte := if b.toNat ≤ a.toNat then some (a - b) else none

def isDigitCode (b : Byte) : Bool := b == 0x30 || b == 0x31

def sign? (line : List Char) : Option (Bool × List Char) :=
  let first := (bytes line).head?
  if first = some 0x2D then (behind? 1 line).map fun rest => (true, rest)
  else if first = some 0x2B then (behind? 1 line).map fun rest => (false, rest)
  else some (false, line)

def push (value : Option Byte) (digit : Byte) : Option Byte := some (value.getD 0 <<< 1 ||| digit)

def number? (text : List Char) : Option (Option Byte) :=
  (((bytes text).takeWhile isDigitCode).mapM fun b => subtract? b 0x30).map fun digits =>
    digits.foldl push none

def byteOfLine? (line : List Char) : Option (Option Byte) :=
  (sign? (line.dropWhile Text.isWhiteSpace)).bind fun (negative, rest) =>
    (number? rest).map fun value => if negative then value.map fun b => -b else value

def ofText? (text : List Char) : Option Image :=
  ((Text.lines text).mapM byteOfLine?).map fun read => ⟨read.filterMap id⟩

theorem lead_large (n : Nat) {low base : Nat} (positive : 0 < low) (fits : low + base ≤ 256)
    (high : 128 ≤ base) : 128 ≤ (UInt8.ofNat (n % low + base)).toBitVec.toNat := by
  have small := Nat.mod_lt n positive
  simp only [UInt8.toNat_toBitVec, UInt8.toNat_ofNat']
  omega

theorem encode_cases (c : Char) :
    (c.toNat < 128 ∧ encode c = [BitVec.ofNat 8 c.toNat]) ∨
      (128 ≤ c.toNat ∧ ∃ first rest, encode c = first :: rest ∧ 128 ≤ first.toNat) := by
  by_cases small : c.val.toNat ≤ 127
  · refine .inl ⟨Nat.lt_succ_of_le small, ?_⟩
    simp only [encode, String.utf8EncodeChar, if_pos small]
    rfl
  · refine .inr ⟨Nat.not_le.mp small, ?_⟩
    simp only [encode, String.utf8EncodeChar, if_neg small]
    split
    · exact ⟨_, _, rfl, lead_large _ (by decide) (by decide) (by decide)⟩
    · split
      · exact ⟨_, _, rfl, lead_large _ (by decide) (by decide) (by decide)⟩
      · exact ⟨_, _, rfl, lead_large _ (by decide) (by decide) (by decide)⟩

theorem bytes_cons (c : Char) (text : List Char) : bytes (c :: text) = encode c ++ bytes text :=
  List.flatMap_cons

theorem code_inj {n k : Nat} (left : n < 128) (right : k < 128) :
    BitVec.ofNat 8 n = BitVec.ofNat 8 k ↔ n = k := by
  constructor
  · intro same
    have values := congrArg BitVec.toNat same
    simp only [BitVec.toNat_ofNat] at values
    omega
  · rintro rfl
    rfl

theorem head?_bytes (c : Char) (text : List Char) {a : Char} (ascii : a.toNat < 128) :
    (bytes (c :: text)).head? = some (BitVec.ofNat 8 a.toNat) ↔ c = a := by
  rw [bytes_cons]
  rcases encode_cases c with ⟨small, code⟩ | ⟨large, first, rest, code, high⟩
  · rw [code, List.singleton_append, List.head?_cons, Option.some.injEq, code_inj small ascii,
      Char.toNat_inj]
  · rw [code, List.cons_append, List.head?_cons, Option.some.injEq]
    constructor
    · rintro rfl
      rw [BitVec.toNat_ofNat] at high
      omega
    · rintro rfl
      exact absurd ascii (Nat.not_lt.mpr large)

theorem sign_other {c : Char} (minus : c ≠ '-') (plus : c ≠ '+') (text : List Char) :
    sign (c :: text) = (false, c :: text) := by
  unfold sign
  split
  · rename_i same
    exact absurd (List.cons.inj same).1 minus
  · rename_i same
    exact absurd (List.cons.inj same).1 plus
  · rfl

theorem sign?_eq (line : List Char) : sign? line = some (sign line) := by
  cases line with
  | nil => rfl
  | cons c text =>
    have minus : (bytes (c :: text)).head? = some 0x2D ↔ c = '-' :=
      head?_bytes c text (a := '-') (by decide)
    have plus : (bytes (c :: text)).head? = some 0x2B ↔ c = '+' :=
      head?_bytes c text (a := '+') (by decide)
    have single {a : Char} (one : (encode a).length = 1) : behind? 1 (a :: text) = some text := by
      rw [behind?, one, if_pos (Nat.le_refl 1), Nat.sub_self, behind?]
    simp only [sign?, minus, plus]
    by_cases isMinus : c = '-'
    · subst isMinus
      rw [if_pos rfl, single (by decide)]
      rfl
    · rw [if_neg isMinus]
      by_cases isPlus : c = '+'
      · subst isPlus
        rw [if_pos rfl, single (by decide)]
        rfl
      · rw [if_neg isPlus, sign_other isMinus isPlus]

theorem isDigitCode_code {c : Char} (small : c.toNat < 128) :
    isDigitCode (BitVec.ofNat 8 c.toNat) = isDigit c := by
  have all : ∀ n < 128, isDigitCode (BitVec.ofNat 8 n) = isDigit (Char.ofNat n) := by decide
  have code := all c.toNat small
  rwa [Char.ofNat_toNat] at code

theorem not_isDigitCode {b : Byte} (high : 128 ≤ b.toNat) : ¬ isDigitCode b = true := by
  intro digit
  simp only [isDigitCode, Bool.or_eq_true, beq_iff_eq] at digit
  rcases digit with rfl | rfl <;> exact absurd high (by decide)

theorem not_isDigit {c : Char} (large : 128 ≤ c.toNat) : ¬ isDigit c = true := by
  intro digit
  rcases isDigit_iff.mp digit with rfl | rfl <;> exact absurd large (by decide)

theorem takeWhile_bytes (text : List Char) :
    (bytes text).takeWhile isDigitCode =
      (text.takeWhile isDigit).map fun c => BitVec.ofNat 8 c.toNat := by
  induction text with
  | nil => rfl
  | cons c text ih =>
    rw [bytes_cons]
    rcases encode_cases c with ⟨small, code⟩ | ⟨large, first, rest, code, high⟩
    · rw [code, List.singleton_append, List.takeWhile_cons, List.takeWhile_cons,
        isDigitCode_code small, ih]
      cases isDigit c <;> rfl
    · rw [code, List.cons_append, List.takeWhile_cons_of_neg (not_isDigitCode high),
        List.takeWhile_cons_of_neg (not_isDigit large)]
      rfl

theorem subtract?_digit {c : Char} (binary : isDigit c = true) :
    subtract? (BitVec.ofNat 8 c.toNat) 0x30 = some (digit c) := by
  rcases isDigit_iff.mp binary with rfl | rfl <;> decide

theorem push_digit (value : Option Byte) (c : Char) :
    push value (digit c) = some (2 * value.getD 0 + digit c) := by
  have shift : ∀ b : Byte, b <<< 1 ||| 0 = 2 * b + 0 ∧ b <<< 1 ||| 1 = 2 * b + 1 := by
    decide +kernel
  unfold push digit
  split
  · rw [(shift _).2]
  · rw [(shift _).1]

/-- The first digit starts from zero. -/
theorem foldl_push (digits : List Char) (value : Option Byte) :
    (digits.map digit).foldl push value =
      match digits with
      | [] => value
      | _ => some (digits.foldl (fun sum c => 2 * sum + digit c) (value.getD 0)) := by
  induction digits generalizing value with
  | nil => rfl
  | cons c digits ih =>
    rw [List.map_cons, List.foldl_cons, push_digit, ih]
    cases digits <;> rfl

theorem number?_eq (text : List Char) :
    number? text = some (match text.takeWhile isDigit with
      | [] => none
      | digits => some (number digits)) := by
  have digits : ((bytes text).takeWhile isDigitCode).mapM (fun b => subtract? b 0x30) =
      some ((text.takeWhile isDigit).map digit) := by
    rw [takeWhile_bytes, List.mapM_map]
    exact Text.mapM_eq_some fun c member => subtract?_digit (List.mem_takeWhile_imp member)
  rw [number?, digits, Option.map_some, foldl_push]
  cases text.takeWhile isDigit <;> rfl

theorem byteOfLine?_eq (line : List Char) : byteOfLine? line = some (Image.byteOfLine? line) := by
  unfold byteOfLine? Image.byteOfLine?
  rw [sign?_eq]
  simp only [Option.bind_some, number?_eq, Option.map_some]
  generalize sign (line.dropWhile Text.isWhiteSpace) = signed
  cases signed.2.takeWhile isDigit with
  | nil => cases signed.1 <;> rfl
  | cons => cases signed.1 <;> rfl

theorem ofText?_eq (text : List Char) : ofText? text = some (ofText text) := by
  rw [ofText?, Text.mapM_eq_some fun line _ => byteOfLine?_eq line, Option.map_some, List.filterMap_map]
  rfl

end ByteMachine.Image.Checked

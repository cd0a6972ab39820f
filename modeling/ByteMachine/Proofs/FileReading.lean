import ByteMachine.Proofs.LineEdits
import ByteMachine.Proofs.Utf8Decoding

/-!
Reading a file without decoding it. The bytes are cut at each line feed, and in each piece white
space, a sign and the digits are looked for as bytes. The image is the same as that of the decoded
text, also where the bytes are not UTF-8.
-/

namespace ByteMachine

namespace Image

namespace Bytewise
open Checked (encode isDigitCode)
open Text (isWhiteSpace whiteSpaceRanges)

def whiteSpace : List Char :=
  whiteSpaceRanges.flatMap fun range =>
    (List.range' range.1 (range.2 + 1 - range.1)).map Char.ofNat

def blankSize (bytes : List Byte) : Nat :=
  match whiteSpace.find? fun c => (encode c).isPrefixOf bytes with
  | some c => (encode c).length
  | none => 0

/-- What is left behind the bytes that belong to white space already seen, and behind the white
space that follows. -/
def skipFrom : Nat → List Byte → List Byte
  | _, [] => []
  | due + 1, _ :: bytes => skipFrom due bytes
  | 0, b :: bytes =>
    match blankSize (b :: bytes) with
    | 0 => b :: bytes
    | due + 1 => skipFrom due bytes

def skipBlanks (bytes : List Byte) : List Byte := skipFrom 0 bytes

def sign : List Byte → Bool × List Byte
  | [] => (false, [])
  | b :: bytes =>
    if b = 0x2D then (true, bytes) else if b = 0x2B then (false, bytes) else (false, b :: bytes)

def binary (digits : List Byte) : Nat :=
  Nat.ofDigits 2 (digits.reverse.map fun b => b.toNat - 0x30)

def byteOfSegment? (segment : List Byte) : Option Byte :=
  let (negative, rest) := sign (skipBlanks segment)
  match rest.takeWhile isDigitCode with
  | [] => none
  | digits => some (BitVec.ofInt 8 ((if negative then -1 else 1) * binary digits))

def image (contents : List Byte) : Image :=
  ⟨(contents.splitOn Byte.newline).filterMap byteOfSegment?⟩

theorem mem_whiteSpace {c : Char} : c ∈ whiteSpace ↔ isWhiteSpace c = true := by
  have scalar : ∀ range ∈ whiteSpaceRanges, range.1 ≤ range.2 ∧ range.2 < 0xD800 := by decide
  simp only [whiteSpace, isWhiteSpace, List.mem_flatMap, List.mem_map, List.mem_range'_1,
    List.any_eq_true, Bool.and_eq_true, decide_eq_true_eq]
  constructor
  · rintro ⟨range, member, code, ⟨least, most⟩, rfl⟩
    have bounds := scalar range member
    refine ⟨range, member, ?_⟩
    rw [Text.Utf8.toNat_ofNat (.inl (by omega))]
    omega
  · rintro ⟨range, member, least, most⟩
    exact ⟨range, member, c.toNat, by omega, Char.ofNat_toNat c⟩

theorem skipFrom_append (seen bytes : List Byte) :
    skipFrom seen.length (seen ++ bytes) = skipBlanks bytes := by
  induction seen with
  | nil => rfl
  | cons b seen ih => exact ih

theorem skipBlanks_other {bytes : List Byte}
    (other : ∀ c, isWhiteSpace c = true → ¬ encode c <+: bytes) : skipBlanks bytes = bytes := by
  cases bytes with
  | nil => rfl
  | cons b bytes =>
    have absent : (whiteSpace.find? fun c => (encode c).isPrefixOf (b :: bytes)) = none := by
      rw [List.find?_eq_none]
      intro c member here
      exact other c (mem_whiteSpace.mp member) (List.isPrefixOf_iff_prefix.mp here)
    rw [skipBlanks, skipFrom, blankSize, absent]

theorem blankSize_encode {c : Char} (blank : isWhiteSpace c = true) (bytes : List Byte) :
    blankSize (encode c ++ bytes) = (encode c).length := by
  have here : encode c <+: encode c ++ bytes := List.prefix_append _ _
  unfold blankSize
  split
  · rename_i d found
    have there := List.find?_some (p := fun c => List.isPrefixOf (encode c) _) found
    rw [Text.Utf8.encode_unique here (List.isPrefixOf_iff_prefix.mp there)]
  · rename_i absent
    exact absurd (List.isPrefixOf_iff_prefix.mpr here)
      (List.find?_eq_none.mp absent c (mem_whiteSpace.mpr blank))

theorem skipBlanks_encode {c : Char} (blank : isWhiteSpace c = true) (bytes : List Byte) :
    skipBlanks (encode c ++ bytes) = skipBlanks bytes := by
  have size := blankSize_encode blank bytes
  obtain ⟨first, others, form⟩ : ∃ first others, encode c = first :: others :=
    ⟨_, _, Text.Utf8.encode_eq c⟩
  rw [form, List.cons_append] at size ⊢
  rw [skipBlanks, skipFrom, size]
  exact skipFrom_append others bytes

theorem skipBlanks_bytes {blanks : List Char} (blank : ∀ c ∈ blanks, isWhiteSpace c = true)
    (rest : List Byte) : skipBlanks (Checked.bytes blanks ++ rest) = skipBlanks rest := by
  induction blanks with
  | nil => rfl
  | cons c blanks ih =>
    rw [List.forall_mem_cons] at blank
    rw [Checked.bytes_cons, List.append_assoc, skipBlanks_encode blank.1, ih blank.2]

theorem exists_blanks (segment : List Byte) :
    ∃ blanks, (∀ c ∈ blanks, isWhiteSpace c = true) ∧
      segment = Checked.bytes blanks ++ skipBlanks segment := by
  induction size : segment.length using Nat.strong_induction_on generalizing segment with
  | _ length ih =>
    by_cases begins : ∃ c, isWhiteSpace c = true ∧ encode c <+: segment
    · obtain ⟨c, blank, rest, rfl⟩ := begins
      have shorter : rest.length < length := by
        rw [← size, List.length_append, Text.Utf8.encode_eq, List.length_cons]
        omega
      obtain ⟨blanks, all, form⟩ := ih _ shorter rest rfl
      refine ⟨c :: blanks, List.forall_mem_cons.mpr ⟨blank, all⟩, ?_⟩
      rw [skipBlanks_encode blank, Checked.bytes_cons, List.append_assoc, ← form]
    · have other := skipBlanks_other fun c blank here => begins ⟨c, blank, here⟩
      exact ⟨[], List.forall_mem_nil _, by rw [other]; rfl⟩

theorem skipBlanks_longest {blanks : List Char} {segment rest : List Byte}
    (blank : ∀ c ∈ blanks, isWhiteSpace c = true) (form : segment = Checked.bytes blanks ++ rest) :
    skipBlanks segment <:+ rest := by
  obtain ⟨others, _, same⟩ := exists_blanks rest
  rw [form, skipBlanks_bytes blank]
  exact ⟨Checked.bytes others, same.symm⟩

section Decoding
open Text.Utf8 (Decodes decode)
variable {bytes : List Byte} {text : List Char}

theorem decodes_skipBlanks (decodes : Decodes bytes text) :
    Decodes (skipBlanks bytes) (text.dropWhile isWhiteSpace) := by
  induction decodes with
  | nil => exact .nil
  | @character c bytes text rest ih =>
    by_cases blank : isWhiteSpace c = true
    · rw [skipBlanks_encode blank, List.dropWhile_cons_of_pos blank]
      exact ih
    · have other : skipBlanks (encode c ++ bytes) = encode c ++ bytes := by
        apply skipBlanks_other
        intro d white here
        obtain rfl := Text.Utf8.encode_unique here (List.prefix_append _ _)
        exact blank white
      rw [other, List.dropWhile_cons_of_neg blank]
      exact .character c rest
  | malformed nonempty foreign broken rest =>
    rw [skipBlanks_other fun c _ => broken c, List.dropWhile_cons_of_neg (by decide)]
    exact .malformed nonempty foreign broken rest

theorem sign_other {b : Byte} (minus : b ≠ 0x2D) (plus : b ≠ 0x2B) (bytes : List Byte) :
    sign (b :: bytes) = (false, b :: bytes) := by
  rw [sign, if_neg minus, if_neg plus]

theorem decodes_sign (decodes : Decodes bytes text) :
    (sign bytes).1 = (Image.sign text).1 ∧ Decodes (sign bytes).2 (Image.sign text).2 := by
  rcases decodes.head_cases with ⟨rfl, rfl⟩ | ⟨c, rest, others, ascii, rfl, rfl, further⟩ |
    ⟨b, rest, c, others, high, rfl, foreign, rfl⟩
  · exact ⟨rfl, decodes⟩
  · have letter {a : Char} (small : a.toNat < 128) (other : c ≠ a) :
        BitVec.ofNat 8 c.toNat ≠ BitVec.ofNat 8 a.toNat := fun same =>
      other (Char.toNat_inj.mp ((Checked.code_inj ascii small).mp same))
    by_cases minus : c = '-'
    · subst minus
      exact ⟨rfl, further⟩
    · by_cases plus : c = '+'
      · subst plus
        exact ⟨rfl, further⟩
      · rw [Checked.sign_other minus plus,
          sign_other (letter (a := '-') (by decide) minus) (letter (a := '+') (by decide) plus)]
        exact ⟨rfl, decodes⟩
  · have minus : c ≠ '-' ∧ b ≠ 0x2D := ⟨by rintro rfl; exact absurd foreign (by decide),
      by rintro rfl; exact absurd high (by decide)⟩
    have plus : c ≠ '+' ∧ b ≠ 0x2B := ⟨by rintro rfl; exact absurd foreign (by decide),
      by rintro rfl; exact absurd high (by decide)⟩
    rw [Checked.sign_other minus.1 plus.1, sign_other minus.2 plus.2]
    exact ⟨rfl, decodes⟩

theorem takeWhile_decodes (decodes : Decodes bytes text) :
    bytes.takeWhile isDigitCode =
      (text.takeWhile isDigit).map fun c => BitVec.ofNat 8 c.toNat := by
  induction text generalizing bytes with
  | nil =>
    rcases decodes.head_cases with ⟨rfl, _⟩ | ⟨_, _, _, _, _, impossible, _⟩ |
      ⟨_, _, _, _, _, _, _, impossible⟩
    · rfl
    · cases impossible
    · cases impossible
  | cons c text ih =>
    rcases decodes.head_cases with ⟨_, impossible⟩ | ⟨_, rest, _, ascii, rfl, same, further⟩ |
      ⟨b, rest, _, _, high, rfl, foreign, same⟩
    · cases impossible
    · cases same
      rw [List.takeWhile_cons, List.takeWhile_cons, Checked.isDigitCode_code ascii, ih further]
      cases isDigit c <;> rfl
    · cases same
      rw [List.takeWhile_cons_of_neg (Checked.not_isDigitCode high),
        List.takeWhile_cons_of_neg (Checked.not_isDigit foreign)]
      rfl

theorem binary_codes {digits : List Char} (all : ∀ c ∈ digits, isDigit c = true) :
    binary (digits.map fun c => BitVec.ofNat 8 c.toNat) = Image.binary digits := by
  have value (c : Char) (digit : isDigit c = true) :
      (BitVec.ofNat 8 c.toNat).toNat - 0x30 = if c = '1' then 1 else 0 := by
    rcases isDigit_iff.mp digit with rfl | rfl <;> rfl
  rw [binary, Image.binary, ← List.map_reverse, List.map_map]
  congr 1
  exact List.map_congr_left fun c member => value c (all c (List.mem_reverse.mp member))

/-- What is read from the bytes is what is read from the line that they are decoded to. -/
theorem byteOfSegment?_eq (decodes : Decodes bytes text) :
    byteOfSegment? bytes = byteOfLine? text := by
  obtain ⟨signs, further⟩ := decodes_sign (decodes_skipBlanks decodes)
  rw [byteOfLine?_eq]
  simp only [byteOfSegment?, valueOfLine?, signs, takeWhile_decodes further]
  have binaryDigits : ∀ c ∈ (Image.sign (text.dropWhile isWhiteSpace)).2.takeWhile isDigit,
      isDigit c = true := fun _ => List.mem_takeWhile_imp
  have value := binary_codes binaryDigits
  generalize (Image.sign (text.dropWhile isWhiteSpace)).2.takeWhile isDigit = digits at value ⊢
  cases digits with
  | nil => rfl
  | cons c digits =>
    rw [List.map_cons] at value ⊢
    simp only [value, Option.map_some]

end Decoding

end Bytewise

theorem ofBytes_eq (contents : List Byte) : ofBytes contents = Bytewise.image contents := by
  have cut : (Text.Utf8.decode contents).splitOn Text.lineFeed =
      (contents.splitOn Byte.newline).map Text.Utf8.decode :=
    Text.Utf8.splitOn_decode (by decide : Byte.newline.toNat < 0x80) contents
  rw [ofBytes, ofText_eq, cut, List.filterMap_map, Bytewise.image]
  congr 2
  funext segment
  exact (Bytewise.byteOfSegment?_eq (Text.Utf8.decodes_decode segment)).symm

theorem bytes_append (front back : List Byte) :
    ofBytes (front ++ Byte.newline :: back) = ⟨(ofBytes front).bytes ++ (ofBytes back).bytes⟩ := by
  simp only [ofBytes_eq, Bytewise.image, List.splitOn_append_cons_self, List.filterMap_append]

end Image

open Image (Bytewise.byteOfSegment? Bytewise.skipBlanks)

/-- The image in a file is read from its bytes, whatever they are. A line feed separates what is
before it from what is behind it, and decoding leaves each character of ASCII in its place and makes
no others. -/
theorem file_reading_exact :
    (∀ (read : String → Except ReadFailure (List Byte)) (path : String) (contents : List Byte),
      read path = .ok contents → (Image.ofFile read path).value =
        .ok ⟨(contents.splitOn Byte.newline).filterMap Bytewise.byteOfSegment?⟩) ∧
    (∀ segment, ∃ blanks, (∀ c ∈ blanks, Text.isWhiteSpace c = true) ∧
      segment = Image.Checked.bytes blanks ++ Bytewise.skipBlanks segment ∧
      ∀ fewer rest, (∀ c ∈ fewer, Text.isWhiteSpace c = true) →
        segment = Image.Checked.bytes fewer ++ rest → Bytewise.skipBlanks segment <:+ rest) ∧
    (∀ front back, Image.ofBytes (front ++ Byte.newline :: back) =
      ⟨(Image.ofBytes front).bytes ++ (Image.ofBytes back).bytes⟩) ∧
    ∀ (c : Char) (contents : List Byte) (front back : List Char), c.toNat < 0x80 →
      (Text.Utf8.decode contents = front ++ c :: back ↔
        ∃ before after, contents = before ++ BitVec.ofNat 8 c.toNat :: after ∧
          Text.Utf8.decode before = front ∧ Text.Utf8.decode after = back) := by
  refine ⟨?_, ?_, Image.bytes_append, ?_⟩
  · intro read path contents readable
    have parsed : (Image.ofFile read path).value = .ok (Image.ofBytes contents) := by
      rw [Image.ofFile, readable]
    rw [parsed, Image.ofBytes_eq]
    rfl
  · intro segment
    obtain ⟨blanks, blank, form⟩ := Image.Bytewise.exists_blanks segment
    exact ⟨blanks, blank, form, fun _ _ => Image.Bytewise.skipBlanks_longest⟩
  · exact fun c contents front back ascii => Text.Utf8.decode_eq_append_iff ascii

/-- A number behind a space of two bytes and before a character that is cut off, one behind a byte
that is no character, and one behind a line that is only a cut character. -/
def brokenText : List Byte :=
  [0xC2, 0xA0, 0x2D, 0x31, 0x30, 0xE2, 0x80, 0x0A, 0xFF, 0x31, 0x0A, 0xF0, 0x9F, 0x0A, 0x31, 0x31]

theorem file_reading_exact_brokenText :
    (Image.ofFile (fun _ => .ok brokenText) "a.ls8").value = .ok ⟨[0xFE, 0x03]⟩ ∧
    Bytewise.skipBlanks [0xC2, 0xA0, 0x31] <:+ [0x31] ∧
    Image.ofBytes ([0xE2, 0x80] ++ Byte.newline :: [0x31]) = ⟨[0x01]⟩ ∧
    Text.Utf8.decode [0xE2, 0x80, 0x31] = [Text.Utf8.replacement, '1'] := by
  obtain ⟨reading, blanks, cut, inPlace⟩ := file_reading_exact
  refine ⟨?_, ?_, ?_, ?_⟩
  · have bytes : (brokenText.splitOn Byte.newline).filterMap Bytewise.byteOfSegment? =
        [0xFE, 0x03] := by decide +kernel
    rw [reading _ _ brokenText rfl, bytes]
  · obtain ⟨_, _, _, longest⟩ := blanks [0xC2, 0xA0, 0x31]
    exact longest ['\u00A0'] [0x31] (List.forall_mem_singleton.mpr (by decide)) (by decide +kernel)
  · rw [cut]
    decide +kernel
  · refine (inPlace '1' _ [Text.Utf8.replacement] [] (by decide)).mpr ?_
    exact ⟨[0xE2, 0x80], [], rfl, by decide +kernel, rfl⟩

end ByteMachine

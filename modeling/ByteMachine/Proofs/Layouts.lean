import ByteMachine.Proofs.InPlace
import ByteMachine.Proofs.LineEdits

/-!
The ways of writing an image down. A byte has many numbers, a number has many digits, and around
them a line leaves room for white space, a sign, and a comment; lines without a number may stand
anywhere. Whatever is chosen for each line, the bytes are read back and get into memory.
-/

namespace ByteMachine

namespace Image
open Text (isWhiteSpace lineFeed carriageReturn)

def eightDigits (b : Byte) : List Char :=
  (List.range 8).reverse.map fun k => if b.getLsbD k then '1' else '0'

inductive Written (b : Byte) : List Char → Prop where
  /-- Zeros and higher digits may come before the last eight. -/
  | whole {plus higher : List Char} (unsigned : plus = [] ∨ plus = ['+'])
      (binaryDigits : ∀ c ∈ higher, c = '0' ∨ c = '1') :
      Written b (plus ++ (higher ++ eightDigits b))
  /-- The significant digits, of which zero has one, may be enough. -/
  | short {plus : List Char} (unsigned : plus = [] ∨ plus = ['+']) (zeros : Nat) :
      Written b (plus ++ (List.replicate zeros '0' ++ Nat.toDigits 2 b.toNat))
  | negative {digits : List Char} (nonempty : digits ≠ [])
      (binaryDigits : ∀ c ∈ digits, c = '0' ∨ c = '1')
      (congruent : (b.toNat + binary digits) % 256 = 0) : Written b ('-' :: digits)

/-- A line in which no digit follows the white space at its front and the sign, if it has one. -/
inductive Noise : List Char → Prop where
  | unsigned {blanks rest : List Char} (blank : ∀ c ∈ blanks, isWhiteSpace c = true)
      (other : ∀ c ∈ rest.head?,
        isWhiteSpace c = false ∧ c ≠ '-' ∧ c ≠ '+' ∧ c ≠ '0' ∧ c ≠ '1') :
      Noise (blanks ++ rest)
  | signed {blanks rest : List Char} {sign : Char} (blank : ∀ c ∈ blanks, isWhiteSpace c = true)
      (signed : sign = '+' ∨ sign = '-') (other : ∀ c ∈ rest.head?, c ≠ '0' ∧ c ≠ '1') :
      Noise (blanks ++ sign :: rest)

/-- A line without its end, and the byte that is written in it if there is one. -/
inductive Holds : Option Byte → List Char → Prop where
  | byte {b : Byte} {blanks written rest : List Char}
      (blank : ∀ c ∈ blanks, isWhiteSpace c = true) (writes : Written b written)
      (ends : ∀ c ∈ rest.head?, c ≠ '0' ∧ c ≠ '1') :
      Holds (some b) (blanks ++ (written ++ rest))
  | noise {line : List Char} (noise : Noise line) : Holds none line

inductive Layout : List Byte → List Char → Prop where
  | nil : Layout [] []
  | last {content : Option Byte} {line : List Char} (unbroken : lineFeed ∉ line)
      (holds : Holds content line) : Layout content.toList line
  | feed {content : Option Byte} {line text : List Char} {bytes : List Byte}
      (unbroken : lineFeed ∉ line) (holds : Holds content line) (rest : Layout bytes text) :
      Layout (content.toList ++ bytes) (line ++ lineFeed :: text)
  | returnAndFeed {content : Option Byte} {line text : List Char} {bytes : List Byte}
      (unbroken : lineFeed ∉ line) (holds : Holds content line) (rest : Layout bytes text) :
      Layout (content.toList ++ bytes) (line ++ carriageReturn :: lineFeed :: text)

theorem digits_of_all {digits : List Char} (all : digits.all isDigit = true) :
    ∀ c ∈ digits, c = '0' ∨ c = '1' :=
  fun c member => isDigit_iff.mp (List.all_eq_true.mp all c member)

section Digits
variable (b : Byte)

theorem binary_append (front back : List Char) :
    binary (front ++ back) = 2 ^ back.length * binary front + binary back := by
  simp only [binary, List.reverse_append, List.map_append, Nat.ofDigits_append, List.length_map,
    List.length_reverse]
  exact Nat.add_comm _ _

theorem binary_zeros (zeros : Nat) (digits : List Char) :
    binary (List.replicate zeros '0' ++ digits) = binary digits := by
  have none : binary (List.replicate zeros '0') = 0 := by
    induction zeros with
    | zero => rfl
    | succ zeros ih =>
      rw [List.replicate_succ, ← List.singleton_append, binary_append, ih]
      rfl
  rw [binary_append, none, Nat.mul_zero, Nat.zero_add]

theorem eightDigits_exact :
    binary (eightDigits b) = b.toNat ∧ (eightDigits b).length = 8 ∧
      (eightDigits b).all isDigit = true := by
  revert b
  decide +kernel

theorem significant_exact :
    binary (Nat.toDigits 2 b.toNat) = b.toNat ∧ Nat.toDigits 2 b.toNat ≠ [] ∧
      (Nat.toDigits 2 b.toNat).all isDigit = true := by
  revert b
  decide +kernel

end Digits

theorem Written.exists_digits {b : Byte} {written : List Char} (writes : Written b written) :
    ∃ sign digits factor, written = sign ++ digits ∧ Sign sign factor ∧ digits ≠ [] ∧
      (∀ c ∈ digits, c = '0' ∨ c = '1') ∧ BitVec.ofInt 8 (factor * binary digits) = b := by
  have positive {plus : List Char} (unsigned : plus = [] ∨ plus = ['+']) : Sign plus 1 := by
    rcases unsigned with rfl | rfl
    · exact .none
    · exact .plus
  have modulo (n : Nat) (same : n % 256 = b.toNat) : BitVec.ofInt 8 (1 * n) = b := by
    rw [Int.one_mul, BitVec.ofInt_natCast]
    apply BitVec.eq_of_toNat_eq
    rw [BitVec.toNat_ofNat, same]
  cases writes with
  | @whole plus higher unsigned binaryDigits =>
    obtain ⟨value, length, digits⟩ := eightDigits_exact b
    refine ⟨plus, higher ++ eightDigits b, 1, rfl, positive unsigned, ?_, ?_, modulo _ ?_⟩
    · intro empty
      rw [(List.append_eq_nil_iff.mp empty).2] at length
      cases length
    · intro c member
      rcases List.mem_append.mp member with high | low
      · exact binaryDigits c high
      · exact digits_of_all digits c low
    · rw [binary_append, value, length]
      have small := b.isLt
      omega
  | @short plus unsigned zeros =>
    obtain ⟨value, nonempty, digits⟩ := significant_exact b
    refine ⟨plus, _, 1, rfl, positive unsigned, ?_, ?_, modulo _ ?_⟩
    · exact List.append_ne_nil_of_right_ne_nil _ nonempty
    · intro c member
      rcases List.mem_append.mp member with zero | digit
      · exact .inl (List.eq_of_mem_replicate zero)
      · exact digits_of_all digits c digit
    · rw [binary_zeros, value]
      exact Nat.mod_eq_of_lt b.isLt
  | @negative digits nonempty binaryDigits congruent =>
    refine ⟨['-'], digits, -1, rfl, .minus, nonempty, binaryDigits, ?_⟩
    rw [Int.neg_mul, Int.one_mul, BitVec.ofInt_neg, BitVec.ofInt_natCast]
    apply BitVec.eq_of_toNat_eq
    rw [BitVec.toNat_neg, BitVec.toNat_ofNat]
    have small := b.isLt
    omega

theorem isDigit_other {c : Char} (other : c ≠ '0' ∧ c ≠ '1') : isDigit c = false :=
  Bool.eq_false_iff.mpr fun digit => not_or.mpr other (isDigit_iff.mp digit)

theorem byteOfLine?_of_noise {line : List Char} (noise : Noise line) : byteOfLine? line = none := by
  cases noise with
  | unsigned blank other =>
    refine byteOfLine?_unsigned blank ?_
    intro c first
    obtain ⟨black, minus, plus, noDigit⟩ := other c first
    exact ⟨black, minus, plus, isDigit_other noDigit⟩
  | signed blank signed other =>
    apply byteOfLine?_of_other
    intro value
    exact not_numeral_of_sign blank signed fun c first => isDigit_other (other c first)

theorem byteOfLine?_of_holds {content : Option Byte} {line : List Char}
    (holds : Holds content line) : byteOfLine? line = content := by
  cases holds with
  | @byte b blanks written rest blank writes ends =>
    obtain ⟨sign, digits, factor, rfl, signed, nonempty, binaryDigits, value⟩ :=
      writes.exists_digits
    have numeral := Numeral.mk blank signed nonempty binaryDigits ends
    rw [List.append_assoc, byteOfLine?_of_numeral numeral, value]
  | noise noise => exact byteOfLine?_of_noise noise

theorem bytes_of_layout {bytes : List Byte} {text : List Char} (layout : Layout bytes text) :
    (ofText text).bytes = bytes := by
  induction layout with
  | nil => rfl
  | last unbroken holds => rw [bytes_ofText_of_unbroken unbroken, byteOfLine?_of_holds holds]
  | feed unbroken holds _ ih =>
    rw [bytes_ofText_feed unbroken, byteOfLine?_of_holds holds, ih]
  | returnAndFeed unbroken holds _ ih =>
    rw [bytes_ofText_returnAndFeed unbroken, byteOfLine?_of_holds holds, ih]

def plainly (bytes : List Byte) : List Char := bytes.flatMap fun b => eightDigits b ++ [lineFeed]

theorem layout_plainly (bytes : List Byte) : Layout bytes (plainly bytes) := by
  induction bytes with
  | nil => exact .nil
  | cons b bytes ih =>
    obtain ⟨-, -, digits⟩ := eightDigits_exact b
    have unbroken : lineFeed ∉ eightDigits b := by
      intro member
      rcases digits_of_all digits _ member with same | same <;> exact absurd same (by decide)
    have holds : Holds (some b) ([] ++ (([] ++ ([] ++ eightDigits b)) ++ [])) :=
      .byte (List.forall_mem_nil _) (.whole (.inl rfl) (List.forall_mem_nil _)) nofun
    rw [List.append_nil] at holds
    have split : plainly (b :: bytes) = eightDigits b ++ lineFeed :: plainly bytes :=
      List.append_assoc (eightDigits b) [lineFeed] (plainly bytes)
    rw [split]
    exact .feed unbroken holds ih

end Image

/-- Every image can be written down, and however that is done, the bytes are read back. They are
loaded as far as there is memory for all of them, and otherwise not at all. -/
theorem layout_read_back (bytes : List Byte) :
    (∃ text, Image.Layout bytes text) ∧
    ∀ text, Image.Layout bytes text →
      Image.ofText text = ⟨bytes⟩ ∧
      ∀ m : Machine,
        (bytes.length ≤ 256 → ∃ after, (m.load (Image.ofText text)).value = .ok after ∧
          (∀ c, c.toNat < bytes.length → bytes[c.toNat]? = some (after.read c)) ∧
          (∀ c, bytes.length ≤ c.toNat → after.read c = m.read c) ∧
          after = { m with memory := after.memory }) ∧
        (256 < bytes.length →
          (m.load (Image.ofText text)).value = .error (.tooLarge bytes.length) ∧
          ∀ {σ : Type} (sink : σ), (InPlace.load (Image.ofText text)).call m sink =
            (.error (.tooLarge bytes.length), ⟨m, sink, [], []⟩)) := by
  refine ⟨⟨_, Image.layout_plainly bytes⟩, ?_⟩
  intro text layout
  have read : Image.ofText text = ⟨bytes⟩ := congrArg Image.mk (Image.bytes_of_layout layout)
  rw [read]
  refine ⟨rfl, ?_⟩
  intro m
  constructor
  · intro fits
    refine ⟨m.withImage ⟨bytes⟩, congrArg Recorded.value (m.load_of_fits fits), ?_, ?_, rfl⟩
    · exact fun _ inside => m.read_withImage_inside inside
    · exact fun _ behind => m.read_withImage_behind behind
  · intro large
    have load : m.load ⟨bytes⟩ = ⟨.error (.tooLarge bytes.length), []⟩ := m.load_of_large large
    refine ⟨congrArg Recorded.value load, ?_⟩
    intro σ sink
    rw [InPlace.call_load, load]

/-- Higher digits, noise, a number below zero, and zero with more digits than it needs. -/
def mixed : List Char := "\u3000+1100000101 # five\r\n\n- 1\n-1x\n0000\r\n".toList

theorem layout_mixed : Image.Layout [0x05, 0xFF, 0x00] mixed := by
  have five : Image.Holds (some 0x05) "\u3000+1100000101 # five".toList :=
    @Image.Holds.byte _ ['\u3000'] _ " # five".toList (List.forall_mem_singleton.mpr (by decide))
      (@Image.Written.whole _ ['+'] ['1', '1'] (.inr rfl) (Image.digits_of_all rfl))
      (by rintro c ⟨⟩; decide)
  have blank : Image.Holds none [] := .noise (.unsigned (List.forall_mem_nil _) nofun)
  have apart : Image.Holds none "- 1".toList :=
    .noise (.signed (List.forall_mem_nil _) (.inr rfl) (by rintro c ⟨⟩; decide))
  have below : Image.Holds (some 0xFF) "-1x".toList :=
    @Image.Holds.byte _ [] _ ['x'] (List.forall_mem_nil _)
      (@Image.Written.negative _ ['1'] nofun (Image.digits_of_all rfl) (by decide))
      (by rintro c ⟨⟩; decide)
  have zero : Image.Holds (some 0x00) "0000".toList :=
    @Image.Holds.byte _ [] _ [] (List.forall_mem_nil _) (.short (.inl rfl) 3) nofun
  exact .returnAndFeed (by decide) five (.feed (by decide) blank (.feed (by decide) apart
    (.feed (by decide) below (.returnAndFeed (by decide) zero .nil))))

theorem layout_read_back_mixed :
    Image.ofText mixed = ⟨[0x05, 0xFF, 0x00]⟩ ∧
    (∃ after, (Machine.initial.load (Image.ofText mixed)).value = .ok after ∧
      after.read 0x01 = 0xFF ∧ after.read 0x03 = 0) ∧
    ∃ text, Image.Layout (List.replicate 257 0x01) text ∧
      (Machine.initial.load (Image.ofText text)).value = .error (.tooLarge 257) := by
  obtain ⟨-, readBack⟩ := layout_read_back [0x05, 0xFF, 0x00]
  obtain ⟨⟨text, layout⟩, refused⟩ := layout_read_back (List.replicate 257 0x01)
  obtain ⟨read, load⟩ := readBack mixed layout_mixed
  obtain ⟨after, loaded, inside, behind, -⟩ := (load Machine.initial).1 (by decide)
  obtain ⟨-, tooLarge⟩ := (refused text layout).2 Machine.initial
  have size : (List.replicate 257 (0x01 : Byte)).length = 257 := List.length_replicate
  rw [size] at tooLarge
  refine ⟨read, ⟨after, loaded, ?_, ?_⟩, text, layout, (tooLarge (by decide)).1⟩
  · exact (Option.some.inj (inside 0x01 (by decide))).symm
  · exact (behind 0x03 (by decide)).trans (Memory.read_zero _)

end ByteMachine

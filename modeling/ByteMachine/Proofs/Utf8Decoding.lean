import ByteMachine.Proofs.CheckedReading
import ByteMachine.Text.Utf8
import Mathlib.Algebra.Group.Nat.Defs

/-!
What the decoder makes of any bytes. Where the encoding of a character stands it reads this
character, and nowhere else; all other bytes are taken in pieces, none of which holds a byte of
ASCII, and each piece is replaced. So the bytes of ASCII are the same before and after, and what
stands between two of them is decoded by itself.
-/

namespace ByteMachine.Text.Utf8

open Image.Checked (encode encode_cases)

def decodeWith (pending : Option Pending) (bytes : List Byte) : List Char :=
  (decodeFrom #[] pending bytes).toList

@[simp] theorem decodeWith_nil (pending : Option Pending) :
    decodeWith pending [] = finish pending := by
  simp [decodeWith, decodeFrom]

theorem decodeWith_cons (pending : Option Pending) (b : Byte) (bytes : List Byte) :
    decodeWith pending (b :: bytes) =
      (next pending b).known ++ decodeWith (next pending b).pending bytes := by
  rw [decodeWith, decodeFrom, decodeFrom_append]
  simp [decodeWith]

theorem decode_eq (bytes : List Byte) : decode bytes = decodeWith none bytes := rfl

/-! The encoding of a character by the digits of its code in base 64. -/
section Encoding

def tail : Nat → Nat → List Byte
  | 0, _ => []
  | k + 1, code => BitVec.ofNat 8 (0x80 + code / 64 ^ k % 64) :: tail k code

theorem toBitVec_ofNat {n k : Nat} (same : n % 256 = k % 256) :
    (UInt8.ofNat n).toBitVec = BitVec.ofNat 8 k := by
  apply BitVec.eq_of_toNat_eq
  simpa using same

theorem ofNat_eq {n : Nat} {b : Byte} (value : n = b.toNat) : BitVec.ofNat 8 n = b := by
  rw [value, BitVec.ofNat_toNat, BitVec.setWidth_eq]

/-- The first byte of an encoding: the number of bytes is in its high bits. -/
def lead (code : Nat) : Nat :=
  if code < 0x80 then code
  else if code < 0x800 then 0xC0 + code / 64
  else if code < 0x10000 then 0xE0 + code / 4096
  else 0xF0 + code / 262144

def more (code : Nat) : Nat :=
  if code < 0x80 then 0 else if code < 0x800 then 1 else if code < 0x10000 then 2 else 3

theorem encode_eq (c : Char) :
    encode c = BitVec.ofNat 8 (lead c.toNat) :: tail (more c.toNat) c.toNat := by
  have code : c.val.toNat = c.toNat := rfl
  have scalar : c.toNat.isValidChar := c.valid
  simp only [Nat.isValidChar] at scalar
  simp only [encode, String.utf8EncodeChar, code, lead, more, Nat.lt_succ_iff]
  split
  · exact congrArg (· :: []) (toBitVec_ofNat rfl)
  · split
    · simp only [List.map_cons, List.map_nil, tail, Nat.reducePow, List.cons.injEq, and_true]
      exact ⟨toBitVec_ofNat (by omega), toBitVec_ofNat (by omega)⟩
    · split
      · simp only [List.map_cons, List.map_nil, tail, Nat.reducePow, List.cons.injEq, and_true]
        exact ⟨toBitVec_ofNat (by omega), toBitVec_ofNat (by omega), toBitVec_ofNat (by omega)⟩
      · simp only [List.map_cons, List.map_nil, tail, Nat.reducePow, List.cons.injEq, and_true]
        exact ⟨toBitVec_ofNat (by omega), toBitVec_ofNat (by omega), toBitVec_ofNat (by omega),
          toBitVec_ofNat (by omega)⟩

theorem lead_lt {code : Nat} (scalar : code.isValidChar) : lead code < 256 := by
  simp only [Nat.isValidChar] at scalar
  unfold lead
  split_ifs <;> omega

theorem decodeChar?_encode (c : Char) (bytes : List Byte) :
    ((encode c ++ bytes).map UInt8.ofBitVec).toByteArray.utf8DecodeChar? 0 = some c := by
  have same : (encode c).map UInt8.ofBitVec = String.utf8EncodeChar c := by
    rw [encode, List.map_map]
    exact List.map_id _
  rw [List.map_append, same, List.toByteArray_append]
  exact ByteArray.utf8DecodeChar?_utf8EncodeChar_append

theorem encode_unique {c d : Char} {bytes : List Byte} (one : encode c <+: bytes)
    (other : encode d <+: bytes) : c = d := by
  obtain ⟨rest, rfl⟩ := one
  obtain ⟨others, same⟩ := other
  have read := decodeChar?_encode d others
  rw [same, decodeChar?_encode c rest] at read
  exact Option.some.inj read

end Encoding

/-! Sequences that lack bytes. -/
section Pending

def Pending.Covers (p : Pending) (code : Nat) : Prop :=
  code / 64 ^ (p.after + 1) = p.bits ∧ p.low ≤ 0x80 + code / 64 ^ p.after % 64 ∧
    0x80 + code / 64 ^ p.after % 64 ≤ p.high

/-- The bytes seen so far begin exactly the encodings of the characters that the state covers, and
the rest of each encoding is what the state waits for. -/
structure Opens (seen : List Byte) (p : Pending) : Prop where
  nonempty : seen ≠ []
  foreign : ∀ b ∈ seen, 0x80 ≤ b.toNat
  low : 0x80 ≤ p.low
  high : p.high ≤ 0xBF
  incomplete : ∀ c, ¬ encode c <+: seen
  scalar : ∀ code, p.Covers code → code.isValidChar
  covers : ∀ c, seen <+: encode c → p.Covers c.toNat
  rest : ∀ c, p.Covers c.toNat → encode c = seen ++ tail (p.after + 1) c.toNat

theorem toNat_ofNat {code : Nat} (scalar : code.isValidChar) : (Char.ofNat code).toNat = code := by
  unfold Char.ofNat
  rw [dif_pos scalar]
  rfl

theorem Opens.digit {seen : List Byte} {p : Pending} {b : Byte} (opens : Opens seen p)
    (fits : p.fits b = true) :
    0x80 + b.toNat % 64 = b.toNat ∧ p.low ≤ b.toNat ∧ b.toNat ≤ p.high := by
  have low := opens.low
  have high := opens.high
  simp only [Pending.fits, Bool.and_eq_true, decide_eq_true_eq] at fits
  omega

theorem Opens.fits_of_begun {seen : List Byte} {p : Pending} {b : Byte} {c : Char}
    (opens : Opens seen p) (begun : seen ++ [b] <+: encode c) :
    p.fits b = true ∧ b.toNat % 64 = c.toNat / 64 ^ p.after % 64 := by
  have covered := opens.covers c ((List.prefix_append seen [b]).trans begun)
  rw [opens.rest c covered, List.prefix_append_right_inj, tail, List.cons_prefix_cons] at begun
  obtain ⟨_, low, high⟩ := covered
  have value := congrArg BitVec.toNat begun.1
  rw [BitVec.toNat_ofNat] at value
  simp only [Pending.fits, Bool.and_eq_true, decide_eq_true_eq]
  omega

theorem Opens.longer {seen : List Byte} {b : Byte} {bits low high after : Nat}
    (opens : Opens seen ⟨bits, low, high, after + 1⟩)
    (fits : Pending.fits ⟨bits, low, high, after + 1⟩ b = true) :
    Opens (seen ++ [b]) ⟨bits * 64 + b.toNat % 64, 0x80, 0xBF, after⟩ := by
  have digit : 0x80 + b.toNat % 64 = b.toNat ∧ low ≤ b.toNat ∧ b.toNat ≤ high := opens.digit fits
  -- the digits up to this one are those before it and this one
  have split (code : Nat) : code / 64 ^ (after + 1) = code / 64 ^ (after + 1 + 1) * 64 +
      code / 64 ^ (after + 1) % 64 := by
    rw [Nat.pow_succ 64 (after + 1), ← Nat.div_div_eq_div_mul]
    omega
  have before {code : Nat}
      (covered : Pending.Covers ⟨bits * 64 + b.toNat % 64, 0x80, 0xBF, after⟩ code) :
      Pending.Covers ⟨bits, low, high, after + 1⟩ code ∧
        code / 64 ^ (after + 1) % 64 = b.toNat % 64 := by
    have whole := split code
    simp only [Pending.Covers] at covered ⊢
    omega
  refine ⟨List.concat_ne_nil b seen, ?_, Nat.le_refl _, Nat.le_refl _, ?_, ?_, ?_, ?_⟩
  · intro d member
    rcases List.mem_append.mp member with early | here
    · exact opens.foreign d early
    · rw [List.mem_singleton.mp here]
      omega
  · intro c complete
    rcases List.prefix_concat_iff.mp complete with whole | inside
    · have begun := opens.covers c (whole ▸ List.prefix_append seen [b])
      have size := congrArg List.length (whole.symm.trans (opens.rest c begun))
      simp [tail] at size
    · exact opens.incomplete c inside
  · exact fun code covered => opens.scalar code (before covered).1
  · intro c begun
    obtain ⟨_, same⟩ := opens.fits_of_begun begun
    have covered := opens.covers c ((List.prefix_append seen [b]).trans begun)
    have whole := split c.toNat
    dsimp only at same
    simp only [Pending.Covers] at covered ⊢
    omega
  · intro c covered
    obtain ⟨early, same⟩ := before covered
    have last : BitVec.ofNat 8 (0x80 + c.toNat / 64 ^ (after + 1) % 64) = b :=
      ofNat_eq (by omega)
    rw [opens.rest c early, tail, last, List.append_cons]

theorem Opens.last {seen : List Byte} {b : Byte} {bits low high : Nat}
    (opens : Opens seen ⟨bits, low, high, 0⟩) (fits : Pending.fits ⟨bits, low, high, 0⟩ b = true) :
    encode (Char.ofNat (bits * 64 + b.toNat % 64)) = seen ++ [b] := by
  have digit := opens.digit fits
  have covered : Pending.Covers ⟨bits, low, high, 0⟩ (bits * 64 + b.toNat % 64) := by
    simp only [Pending.Covers] at digit ⊢
    omega
  have code := toNat_ofNat (opens.scalar _ covered)
  have whole := opens.rest _ (code.symm ▸ covered)
  have last : BitVec.ofNat 8 (0x80 + (bits * 64 + b.toNat % 64) / 64 ^ 0 % 64) = b :=
    ofNat_eq (by omega)
  rw [whole, code, tail, last, tail]

theorem Opens.broken {seen : List Byte} {p : Pending} (opens : Opens seen p) (bytes : List Byte)
    (stops : ∀ b ∈ bytes.head?, p.fits b = false) (c : Char) : ¬ encode c <+: seen ++ bytes := by
  intro whole
  rcases List.prefix_or_prefix_of_prefix whole (List.prefix_append seen bytes) with inside | begun
  · exact opens.incomplete c inside
  · have covered := opens.covers c begun
    rw [opens.rest c covered, List.prefix_append_right_inj] at whole
    cases bytes with
    | nil => simp [tail] at whole
    | cons b bytes =>
      have here : seen ++ [b] <+: encode c := by
        rw [opens.rest c covered, List.prefix_append_right_inj, tail, List.cons_prefix_cons]
        rw [tail, List.cons_prefix_cons] at whole
        exact ⟨whole.1.symm, List.nil_prefix⟩
      exact Bool.eq_false_iff.mp (stops b rfl) (opens.fits_of_begun here).1

theorem begins_iff {b : Byte} {c : Char} : [b] <+: encode c ↔ lead c.toNat = b.toNat := by
  have small : lead c.toNat < 2 ^ 8 := lead_lt c.valid
  rw [encode_eq, List.cons_prefix_cons, ← BitVec.toNat_inj, BitVec.toNat_ofNat,
    Nat.mod_eq_of_lt small, and_iff_left List.nil_prefix, eq_comm]

theorem begins_of_whole {b : Byte} {bytes : List Byte} {c : Char}
    (whole : encode c <+: b :: bytes) : [b] <+: encode c := by
  rw [encode_eq] at whole ⊢
  rw [(List.cons_prefix_cons.mp whole).1]
  exact List.prefix_append [b] _

theorem opens_of_lead {b : Byte} {p : Pending} (foreign : 0x80 ≤ b.toNat) (low : 0x80 ≤ p.low)
    (high : p.high ≤ 0xBF)
    (covers : ∀ code, p.Covers code ↔ code.isValidChar ∧ lead code = b.toNat)
    (rest : ∀ code, p.Covers code → more code = p.after + 1) : Opens [b] p := by
  have begun {c : Char} (begins : [b] <+: encode c) : p.Covers c.toNat :=
    (covers c.toNat).mpr ⟨c.valid, begins_iff.mp begins⟩
  have scalar (code : Nat) (covered : p.Covers code) : code.isValidChar :=
    ((covers code).mp covered).1
  refine ⟨List.cons_ne_nil b [], List.forall_mem_singleton.mpr foreign, low, high, ?_, scalar,
    fun c => begun, ?_⟩
  · intro c complete
    have long := rest c.toNat (begun (begins_of_whole complete))
    rw [encode_eq, long, List.cons_prefix_cons, List.prefix_nil] at complete
    cases complete.2
  · intro c covered
    rw [encode_eq, rest _ covered, ofNat_eq ((covers _).mp covered).2]
    rfl

theorem opens_two {b : Byte} (least : 0xC2 ≤ b.toNat) (most : b.toNat < 0xE0) :
    Opens [b] ⟨b.toNat - 0xC0, 0x80, 0xBF, 0⟩ := by
  refine opens_of_lead (by omega) (Nat.le_refl 0x80) (Nat.le_refl 0xBF) ?_ ?_
  · intro code
    simp only [Pending.Covers, Nat.isValidChar, lead]
    split_ifs <;> omega
  · intro code covered
    simp only [Pending.Covers, more] at covered ⊢
    split_ifs <;> omega

/-- The range of the second byte leaves out what has two bytes, and the surrogates. -/
theorem opens_three {b : Byte} (least : 0xE0 ≤ b.toNat) (most : b.toNat < 0xF0) :
    Opens [b] ⟨b.toNat - 0xE0, if b.toNat = 0xE0 then 0xA0 else 0x80,
      if b.toNat = 0xED then 0x9F else 0xBF, 1⟩ := by
  apply opens_of_lead
  · omega
  · dsimp only
    split_ifs <;> decide
  · dsimp only
    split_ifs <;> decide
  · intro code
    simp only [Pending.Covers, Nat.isValidChar, lead]
    split_ifs <;> omega
  · intro code covered
    simp only [Pending.Covers, more] at covered ⊢
    split_ifs at covered ⊢ <;> omega

/-- The range of the second byte leaves out what has three bytes, and what is no code. -/
theorem opens_four {b : Byte} (least : 0xF0 ≤ b.toNat) (most : b.toNat < 0xF5) :
    Opens [b] ⟨b.toNat - 0xF0, if b.toNat = 0xF0 then 0x90 else 0x80,
      if b.toNat = 0xF4 then 0x8F else 0xBF, 2⟩ := by
  apply opens_of_lead
  · omega
  · dsimp only
    split_ifs <;> decide
  · dsimp only
    split_ifs <;> decide
  · intro code
    simp only [Pending.Covers, Nat.isValidChar, lead]
    split_ifs <;> omega
  · intro code covered
    simp only [Pending.Covers, more] at covered ⊢
    split_ifs at covered ⊢ <;> omega

theorem first_cases (b : Byte) :
    (b.toNat < 0x80 ∧ first b = ⟨[Char.ofNat b.toNat], none⟩) ∨
    ((0x80 ≤ b.toNat ∧ ∀ c, ¬ [b] <+: encode c) ∧ first b = ⟨[replacement], none⟩) ∨
    ∃ p, first b = ⟨[], some p⟩ ∧ Opens [b] p := by
  have none (stray : 0x80 ≤ b.toNat ∧ b.toNat < 0xC2 ∨ 0xF5 ≤ b.toNat) :
      0x80 ≤ b.toNat ∧ ∀ c, ¬ [b] <+: encode c := by
    refine ⟨by omega, ?_⟩
    intro c
    have scalar : c.toNat.isValidChar := c.valid
    rw [begins_iff, lead]
    simp only [Nat.isValidChar] at scalar
    split_ifs <;> omega
  unfold first
  dsimp only
  split
  · rename_i ascii
    exact .inl ⟨ascii, rfl⟩
  split
  · exact .inr (.inl ⟨none (.inl ⟨by omega, by omega⟩), rfl⟩)
  split
  · exact .inr (.inr ⟨_, rfl, opens_two (by omega) (by omega)⟩)
  split
  · exact .inr (.inr ⟨_, rfl, opens_three (by omega) (by omega)⟩)
  split
  · exact .inr (.inr ⟨_, rfl, opens_four (by omega) (by omega)⟩)
  · exact .inr (.inl ⟨none (.inr (by omega)), rfl⟩)

end Pending

/-! The whole of the bytes. -/
section Decoding

/-- What a text has for bytes: each character where its encoding stands, and the replacement for a
piece where none stands; such a piece holds no byte of ASCII. -/
inductive Decodes : List Byte → List Char → Prop where
  | nil : Decodes [] []
  | character (c : Char) {bytes : List Byte} {text : List Char} (rest : Decodes bytes text) :
      Decodes (encode c ++ bytes) (c :: text)
  | malformed {piece bytes : List Byte} {text : List Char} (nonempty : piece ≠ [])
      (foreign : ∀ b ∈ piece, 0x80 ≤ b.toNat) (broken : ∀ c, ¬ encode c <+: piece ++ bytes)
      (rest : Decodes bytes text) :
      Decodes (piece ++ bytes) (replacement :: text)

/-- The bytes seen since the last character that is known. -/
inductive Stands : List Byte → Option Pending → Prop where
  | between : Stands [] none
  | within {seen : List Byte} {p : Pending} (opens : Opens seen p) : Stands seen (some p)

theorem code_of_ascii {b : Byte} (ascii : b.toNat < 0x80) : (Char.ofNat b.toNat).toNat = b.toNat :=
  toNat_ofNat (.inl (by omega))

theorem encode_ascii {b : Byte} (ascii : b.toNat < 0x80) : encode (Char.ofNat b.toNat) = [b] := by
  have single : lead b.toNat = b.toNat := if_pos ascii
  rw [encode_eq, code_of_ascii ascii, ofNat_eq single, more, if_pos ascii, tail]

section Step
variable {bytes : List Byte}
  (rest : ∀ seen pending, Stands seen pending → Decodes (seen ++ bytes) (decodeWith pending bytes))
include rest

theorem decodes_first (b : Byte) : Decodes (b :: bytes) (decode (b :: bytes)) := by
  rw [decode_eq, decodeWith_cons, next]
  rcases first_cases b with ⟨ascii, form⟩ | ⟨stray, form⟩ | ⟨p, form, opens⟩
  · have here := Decodes.character (Char.ofNat b.toNat) (rest [] none .between)
    rw [form]
    rwa [encode_ascii ascii] at here
  · rw [form]
    obtain ⟨foreign, starts⟩ := stray
    refine .malformed (List.cons_ne_nil b []) (List.forall_mem_singleton.mpr foreign) ?_
      (rest [] none .between)
    exact fun c whole => starts c (begins_of_whole whole)
  · rw [form]
    exact rest [b] (some p) (.within opens)

theorem decodes_continuation {seen : List Byte} {p : Pending} (opens : Opens seen p) (b : Byte) :
    Decodes (seen ++ b :: bytes) (decodeWith (some p) (b :: bytes)) := by
  rw [decodeWith_cons, next, continuation]
  by_cases fits : p.fits b = true
  · rw [if_pos fits, List.append_cons]
    obtain ⟨bits, low, high, after⟩ := p
    cases after with
    | zero =>
      rw [← opens.last fits]
      exact .character _ (rest [] none .between)
    | succ after => exact rest _ _ (.within (opens.longer fits))
  -- what has been seen is replaced, and the byte that broke it is read again
  · rw [if_neg fits]
    refine .malformed opens.nonempty opens.foreign (opens.broken _ ?_) ?_
    · rintro c ⟨⟩
      exact Bool.eq_false_iff.mpr fits
    · have again := decodes_first rest b
      rwa [decode_eq, decodeWith_cons, next] at again

end Step

theorem decodes_decodeWith {seen : List Byte} {pending : Option Pending}
    (stands : Stands seen pending) (bytes : List Byte) :
    Decodes (seen ++ bytes) (decodeWith pending bytes) := by
  induction bytes generalizing seen pending with
  | nil =>
    rw [decodeWith_nil]
    cases stands with
    | between => exact .nil
    | within opens =>
      exact .malformed opens.nonempty opens.foreign (opens.broken [] fun _ => nofun) .nil
  | cons b bytes ih =>
    cases stands with
    | between => exact decodes_first (fun _ _ => ih) b
    | within opens => exact decodes_continuation (fun _ _ => ih) opens b

theorem decodes_decode (bytes : List Byte) : Decodes bytes (decode bytes) :=
  decodes_decodeWith .between bytes

/-- The first byte and the first character are both in ASCII, and the same, or neither is. -/
theorem Decodes.head_cases {bytes : List Byte} {text : List Char} (decodes : Decodes bytes text) :
    (bytes = [] ∧ text = []) ∨
    (∃ c rest others, c.toNat < 0x80 ∧ bytes = BitVec.ofNat 8 c.toNat :: rest ∧
      text = c :: others ∧ Decodes rest others) ∨
    ∃ b rest c others, 0x80 ≤ b.toNat ∧ bytes = b :: rest ∧ 0x80 ≤ c.toNat ∧ text = c :: others := by
  cases decodes with
  | nil => exact .inl ⟨rfl, rfl⟩
  | @character c bytes text rest =>
    rcases encode_cases c with ⟨ascii, form⟩ | ⟨foreign, first, others, form, high⟩
    · rw [form]
      exact .inr (.inl ⟨c, bytes, text, ascii, rfl, rfl, rest⟩)
    · rw [form]
      exact .inr (.inr ⟨first, _, c, text, high, rfl, foreign, rfl⟩)
  | @malformed piece bytes text nonempty foreign broken rest =>
    obtain ⟨b, others, rfl⟩ := List.exists_cons_of_ne_nil nonempty
    have high := foreign b (List.mem_cons_self ..)
    exact .inr (.inr ⟨b, _, replacement, text, high, rfl, by decide, rfl⟩)

theorem Decodes.mem_of_mem {bytes : List Byte} {text : List Char} (decodes : Decodes bytes text)
    {c : Char} (ascii : c.toNat < 0x80) (member : c ∈ text) : BitVec.ofNat 8 c.toNat ∈ bytes := by
  induction decodes with
  | nil => cases member
  | character d _ ih =>
    rw [List.mem_append]
    rcases List.mem_cons.mp member with rfl | member
    · rcases encode_cases c with ⟨_, form⟩ | ⟨foreign, _⟩
      · exact .inl (form ▸ List.mem_singleton_self _)
      · omega
    · exact .inr (ih member)
  | malformed _ _ _ _ ih =>
    rcases List.mem_cons.mp member with rfl | member
    · exact absurd ascii (by decide)
    · exact List.mem_append_right _ (ih member)

theorem next_ascii {seen : List Byte} {pending : Option Pending} {a : Byte}
    (stands : Stands seen pending) (ascii : a.toNat < 0x80) :
    next pending a = ⟨finish pending ++ [Char.ofNat a.toNat], none⟩ := by
  have here : first a = ⟨[Char.ofNat a.toNat], none⟩ := if_pos ascii
  cases stands with
  | between => exact here
  | @within _ p opens =>
    have low := opens.low
    have unfit : ¬ p.fits a = true := by
      simp only [Pending.fits, Bool.and_eq_true, decide_eq_true_eq]
      omega
    rw [next, continuation, if_neg unfit, here]
    rfl

theorem stands_first (b : Byte) : ∃ seen, Stands seen (first b).pending := by
  rcases first_cases b with ⟨_, form⟩ | ⟨_, form⟩ | ⟨p, form, opens⟩
  · exact ⟨[], form ▸ .between⟩
  · exact ⟨[], form ▸ .between⟩
  · exact ⟨[b], form ▸ .within opens⟩

theorem stands_next {seen : List Byte} {pending : Option Pending} (stands : Stands seen pending)
    (b : Byte) : ∃ seen, Stands seen (next pending b).pending := by
  cases stands with
  | between => exact stands_first b
  | @within _ p opens =>
    rw [next, continuation]
    by_cases fits : p.fits b = true
    · rw [if_pos fits]
      obtain ⟨bits, low, high, after⟩ := p
      cases after with
      | zero => exact ⟨[], .between⟩
      | succ after => exact ⟨_, .within (opens.longer fits)⟩
    · rw [if_neg fits]
      exact stands_first b

theorem decodeWith_append {seen : List Byte} {pending : Option Pending} {a : Byte}
    (stands : Stands seen pending) (ascii : a.toNat < 0x80) (front back : List Byte) :
    decodeWith pending (front ++ a :: back) =
      decodeWith pending front ++ Char.ofNat a.toNat :: decode back := by
  induction front generalizing seen pending with
  | nil =>
    rw [List.nil_append, decodeWith_cons, next_ascii stands ascii, decodeWith_nil, decode_eq,
      List.append_assoc]
    rfl
  | cons b front ih =>
    obtain ⟨_, further⟩ := stands_next stands b
    rw [List.cons_append, decodeWith_cons, decodeWith_cons, ih further, List.append_assoc]

/-- A byte of ASCII ends whatever stands before it, and what is behind it starts anew. -/
theorem decode_append {a : Byte} (ascii : a.toNat < 0x80) (front back : List Byte) :
    decode (front ++ a :: back) = decode front ++ Char.ofNat a.toNat :: decode back :=
  decodeWith_append .between ascii front back

theorem cut_induction {α : Type} (cut : α → Bool) {motive : List α → Prop}
    (whole : ∀ xs, (∀ x ∈ xs, cut x = false) → motive xs)
    (split : ∀ front x back, (∀ y ∈ front, cut y = false) → cut x = true → motive back →
      motive (front ++ x :: back)) (xs : List α) : motive xs := by
  induction size : xs.length using Nat.strong_induction_on generalizing xs with
  | _ length ih =>
    cases found : xs.find? cut with
    | none =>
      exact whole xs fun x member => Bool.eq_false_iff.mpr (List.find?_eq_none.mp found x member)
    | some x =>
      obtain ⟨here, front, back, rfl, before⟩ := List.find?_eq_some_iff_append.mp found
      have shorter : back.length < length := by
        simp only [List.length_append, List.length_cons] at size
        omega
      refine split front x back ?_ here (ih _ shorter back rfl)
      exact fun y member => by simpa using before y member

theorem foreign_of_foreign {bytes : List Byte} (foreign : ∀ b ∈ bytes, 0x80 ≤ b.toNat) :
    ∀ c ∈ decode bytes, 0x80 ≤ c.toNat := by
  intro c member
  by_contra ascii
  have small : c.toNat < 0x80 := Nat.not_le.mp ascii
  have high := foreign _ ((decodes_decode bytes).mem_of_mem small member)
  rw [BitVec.toNat_ofNat] at high
  omega

/-- Where a character of ASCII stands in the text, its byte stands in what was decoded. -/
theorem ascii_of_decode {c : Char} (ascii : c.toNat < 0x80) {bytes : List Byte}
    {front back : List Char} (text : decode bytes = front ++ c :: back) :
    ∃ before after, bytes = before ++ BitVec.ofNat 8 c.toNat :: after ∧
      decode before = front ∧ decode after = back := by
  -- the induction goes from one byte of ASCII to the next
  induction bytes using cut_induction (fun b : Byte => decide (b.toNat < 0x80))
    generalizing front with
  | whole bytes foreign =>
    have high := foreign_of_foreign (fun b member => by simpa using foreign b member) c
      (text ▸ List.mem_append_right front (List.mem_cons_self ..))
    omega
  | split start a rest foreign here ih =>
    have small : a.toNat < 0x80 := of_decide_eq_true here
    have first (same : decode start = front) (letter : Char.ofNat a.toNat :: decode rest = c :: back) :
        ∃ before after, start ++ a :: rest = before ++ BitVec.ofNat 8 c.toNat :: after ∧
          decode before = front ∧ decode after = back := by
      obtain ⟨rfl, rfl⟩ := List.cons.inj letter
      rw [code_of_ascii small, ofNat_eq rfl]
      exact ⟨start, rest, rfl, same, rfl⟩
    rw [decode_append small] at text
    rcases List.append_eq_append_iff.mp text with ⟨between, cut, later⟩ | ⟨between, cut, later⟩
    · cases between with
      | nil => exact first (cut.trans (List.append_nil _)).symm later
      | cons d between =>
        obtain ⟨rfl, deeper⟩ := List.cons.inj later
        obtain ⟨before, after, rfl, same, rest⟩ := ih deeper
        refine ⟨start ++ a :: before, after, ?_, ?_, rest⟩
        · rw [List.append_assoc, List.cons_append]
        · rw [decode_append small, same, cut]
    · cases between with
      | nil => exact first (cut.trans (List.append_nil front)) later.symm
      | cons d between =>
        obtain ⟨rfl, _⟩ := List.cons.inj later
        have high := foreign_of_foreign (fun b member => by simpa using foreign b member) c
          (cut ▸ List.mem_append_right front (List.mem_cons_self ..))
        omega

theorem decode_eq_append_iff {c : Char} (ascii : c.toNat < 0x80) {bytes : List Byte}
    {front back : List Char} :
    decode bytes = front ++ c :: back ↔
      ∃ before after, bytes = before ++ BitVec.ofNat 8 c.toNat :: after ∧
        decode before = front ∧ decode after = back := by
  refine ⟨ascii_of_decode ascii, ?_⟩
  rintro ⟨before, after, rfl, rfl, rfl⟩
  have small : (BitVec.ofNat 8 c.toNat).toNat = c.toNat := by
    rw [BitVec.toNat_ofNat]
    omega
  rw [decode_append (small.symm ▸ ascii), small, Char.ofNat_toNat]

theorem splitOn_decode_of_unbroken {separator : Byte} (ascii : separator.toNat < 0x80)
    {bytes : List Byte} (unbroken : separator ∉ bytes) :
    (decode bytes).splitOn (Char.ofNat separator.toNat) = [decode bytes] := by
  have code := code_of_ascii ascii
  apply List.splitOn_eq_singleton
  intro member
  have source := (decodes_decode bytes).mem_of_mem (code.symm ▸ ascii) member
  rw [code, ofNat_eq rfl] at source
  exact unbroken source

theorem splitOn_decode {separator : Byte} (ascii : separator.toNat < 0x80) (bytes : List Byte) :
    (decode bytes).splitOn (Char.ofNat separator.toNat) =
      (bytes.splitOn separator).map decode := by
  induction bytes using cut_induction (fun b => decide (b = separator)) with
  | whole bytes other =>
    have unbroken : separator ∉ bytes := fun member => by simpa using other separator member
    rw [splitOn_decode_of_unbroken ascii unbroken, List.splitOn_eq_singleton unbroken,
      List.map_singleton]
  | split front b back other here ih =>
    obtain rfl := of_decide_eq_true here
    have unbroken : b ∉ front := fun member => by simpa using other b member
    rw [decode_append ascii, List.splitOn_append_cons_self_of_not_mem unbroken,
      List.splitOn_append_cons_self, splitOn_decode_of_unbroken ascii unbroken, ih, List.map_cons,
      List.singleton_append]

end Decoding

end ByteMachine.Text.Utf8

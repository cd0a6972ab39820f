import ByteMachine.Byte

/-!
Reading bytes as UTF-8 where some of them may not be. A sequence that starts well and cannot be
completed is replaced by one U+FFFD, and so is each byte that starts no sequence; the byte that
breaks a sequence is read again as the start of the next. Overlong forms, surrogates and code
points above U+10FFFF are excluded by the range of the second byte.
-/

namespace ByteMachine.Text.Utf8

def replacement : Char := '\uFFFD'

/-- A sequence that lacks bytes: the bits collected so far, the range that the next byte must lie
in, and how many bytes are due after it. -/
structure Pending where
  bits : Nat
  low : Nat
  high : Nat
  after : Nat
  deriving DecidableEq, Repr

/-- What a byte does: the characters that are now known and the sequence that is now open. -/
structure Reading where
  known : List Char
  pending : Option Pending
  deriving DecidableEq, Repr

def first (b : Byte) : Reading :=
  let n := b.toNat
  if n < 0x80 then ⟨[Char.ofNat n], none⟩
  else if n < 0xC2 then ⟨[replacement], none⟩
  else if n < 0xE0 then ⟨[], some ⟨n - 0xC0, 0x80, 0xBF, 0⟩⟩
  else if n < 0xF0 then
    ⟨[], some ⟨n - 0xE0, if n = 0xE0 then 0xA0 else 0x80, if n = 0xED then 0x9F else 0xBF, 1⟩⟩
  else if n < 0xF5 then
    ⟨[], some ⟨n - 0xF0, if n = 0xF0 then 0x90 else 0x80, if n = 0xF4 then 0x8F else 0xBF, 2⟩⟩
  else ⟨[replacement], none⟩

def Pending.fits (p : Pending) (b : Byte) : Bool :=
  decide (p.low ≤ b.toNat) && decide (b.toNat ≤ p.high)

def continuation (p : Pending) (b : Byte) : Reading :=
  if p.fits b then
    let bits := p.bits * 64 + b.toNat % 64
    match p.after with
    | 0 => ⟨[Char.ofNat bits], none⟩
    | after + 1 => ⟨[], some ⟨bits, 0x80, 0xBF, after⟩⟩
  else
    let again := first b
    ⟨replacement :: again.known, again.pending⟩

def next : Option Pending → Byte → Reading
  | none, b => first b
  | some p, b => continuation p b

/-- The end of the bytes leaves an open sequence incomplete. -/
def finish : Option Pending → List Char
  | none => []
  | some _ => [replacement]

def decodeFrom (known : Array Char) (pending : Option Pending) : List Byte → Array Char
  | [] => known ++ finish pending
  | b :: bytes =>
    let reading := next pending b
    decodeFrom (known ++ reading.known) reading.pending bytes

def decode (bytes : List Byte) : List Char := (decodeFrom #[] none bytes).toList

theorem decodeFrom_append (known : Array Char) (pending : Option Pending) (bytes : List Byte) :
    (decodeFrom known pending bytes).toList =
      known.toList ++ (decodeFrom #[] pending bytes).toList := by
  induction bytes generalizing known pending with
  | nil => simp [decodeFrom]
  | cons b bytes ih =>
    rw [decodeFrom, decodeFrom, ih, ih (#[] ++ (next pending b).known)]
    simp

end ByteMachine.Text.Utf8

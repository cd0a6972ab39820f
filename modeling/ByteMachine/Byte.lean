/-!
Bytes and the two ways they are written: in base 16 with two digits (addresses, opcodes and
operands in messages) and in base 10 without leading zeros (values that a program prints).
Arithmetic on bytes is arithmetic modulo 256. The arithmetic unit has a name for eight operations,
two of them are wired: sum and product. Asking for any other is an error that names the operation.
-/

namespace ByteMachine

abbrev Byte := BitVec 8

namespace Byte

/-- Two digits of base 16 in lower case, the high one first. -/
def hexDigits (b : Byte) : String :=
  String.ofList [Nat.digitChar (b.toNat / 16), Nat.digitChar (b.toNat % 16)]

def hex (b : Byte) : String := "0x" ++ b.hexDigits

def ofDigit (d : Nat) : Byte := BitVec.ofNat 8 (48 + d)

/-- The ASCII text of a byte in base 10: one to three digits, none of them a leading zero. -/
def decimal (b : Byte) : List Byte :=
  let n := b.toNat
  if n < 10 then [ofDigit n]
  else if n < 100 then [ofDigit (n / 10), ofDigit (n % 10)]
  else [ofDigit (n / 100), ofDigit (n / 10 % 10), ofDigit (n % 10)]

def newline : Byte := 10

end Byte

inductive ArithmeticOp where
  | add | sub | mul | div | mod | and | or | xor
  deriving DecidableEq, Repr

namespace ArithmeticOp

def all : List ArithmeticOp := [.add, .sub, .mul, .div, .mod, .and, .or, .xor]

def name : ArithmeticOp → String
  | .add => "ADD"
  | .sub => "SUB"
  | .mul => "MUL"
  | .div => "DIV"
  | .mod => "MOD"
  | .and => "AND"
  | .or => "OR"
  | .xor => "XOR"

def ofName? (name : String) : Option ArithmeticOp := all.find? fun op => op.name == name

structure Unimplemented where
  op : ArithmeticOp
  deriving DecidableEq, Repr

def Unimplemented.message (e : Unimplemented) : String :=
  "ALU operation `" ++ e.op.name ++ "` is not implemented"

def apply : ArithmeticOp → Byte → Byte → Except Unimplemented Byte
  | .add, l, r => .ok (l + r)
  | .mul, l, r => .ok (l * r)
  | op, _, _ => .error ⟨op⟩

@[simp] theorem apply_add (l r : Byte) : apply .add l r = .ok (l + r) := rfl

@[simp] theorem apply_mul (l r : Byte) : apply .mul l r = .ok (l * r) := rfl

end ArithmeticOp
end ByteMachine

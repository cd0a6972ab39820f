import ByteMachine.Byte

/-!
The thirteen opcodes. The byte of an opcode is laid out `AABCDDDD`: `AA` counts its operand
bytes and `C` says that the instruction may set the program counter itself.
-/

namespace ByteMachine

inductive Opcode where
  | halt
  | ret
  | push
  | pop
  | print
  | call
  | jump
  | jumpIfEqual
  | jumpIfNotEqual
  | loadImmediate
  | add
  | multiply
  | compare
  deriving DecidableEq, Repr

namespace Opcode

def all : List Opcode :=
  [.halt, .ret, .push, .pop, .print, .call, .jump, .jumpIfEqual, .jumpIfNotEqual,
    .loadImmediate, .add, .multiply, .compare]

def toByte : Opcode → Byte
  | .halt => 0x01
  | .ret => 0x11
  | .push => 0x45
  | .pop => 0x46
  | .print => 0x47
  | .call => 0x50
  | .jump => 0x54
  | .jumpIfEqual => 0x55
  | .jumpIfNotEqual => 0x56
  | .loadImmediate => 0x82
  | .add => 0xA0
  | .multiply => 0xA2
  | .compare => 0xA7

def ofByte? (b : Byte) : Option Opcode := all.find? fun op => op.toByte == b

def operands : Opcode → Nat
  | .halt | .ret => 0
  | .push | .pop | .print | .call | .jump | .jumpIfEqual | .jumpIfNotEqual => 1
  | .loadImmediate | .add | .multiply | .compare => 2

def setsPc : Opcode → Bool
  | .ret | .call | .jump | .jumpIfEqual | .jumpIfNotEqual => true
  | _ => false

/-- Bytes of the whole instruction. -/
def width (op : Opcode) : Nat := 1 + op.operands

def mnemonic : Opcode → String
  | .halt => "HLT"
  | .ret => "RET"
  | .push => "PUSH"
  | .pop => "POP"
  | .print => "PRN"
  | .call => "CALL"
  | .jump => "JMP"
  | .jumpIfEqual => "JEQ"
  | .jumpIfNotEqual => "JNE"
  | .loadImmediate => "LDI"
  | .add => "ADD"
  | .multiply => "MUL"
  | .compare => "CMP"

theorem mem_all (op : Opcode) : op ∈ all := by cases op <;> decide

theorem ofByte?_toByte (op : Opcode) : ofByte? op.toByte = some op := by cases op <;> rfl

theorem toByte_of_ofByte? {b : Byte} {op : Opcode} (h : ofByte? b = some op) : op.toByte = b :=
  beq_iff_eq.mp (List.find?_some h :)

theorem ofByte?_eq_some_iff {b : Byte} {op : Opcode} : ofByte? b = some op ↔ op.toByte = b :=
  ⟨toByte_of_ofByte?, fun h => h ▸ ofByte?_toByte op⟩

-- The table says nothing that the byte's own layout does not say.
theorem operands_eq_high_bits (op : Opcode) : op.operands = op.toByte.toNat / 64 := by
  cases op <;> rfl

theorem setsPc_eq_bit (op : Opcode) : op.setsPc = op.toByte.getLsbD 4 := by cases op <;> rfl

end Opcode
end ByteMachine

import ByteMachine.Instruction.Opcode
import ByteMachine.Registers

/-!
Decoded instructions: an opcode together with the registers and the immediate value that it takes
from the two bytes after it. Operand bytes beyond the instruction's width are not part of it.
-/

namespace ByteMachine

inductive Instruction where
  | halt
  | ret
  | push (a : Register)
  | pop (a : Register)
  | print (a : Register)
  | call (a : Register)
  | jump (a : Register)
  | jumpIfEqual (a : Register)
  | jumpIfNotEqual (a : Register)
  | loadImmediate (a : Register) (value : Byte)
  | add (a b : Register)
  | multiply (a b : Register)
  | compare (a b : Register)
  deriving DecidableEq, Repr

namespace Instruction

def ofOpcode (op : Opcode) (first second : Byte) : Instruction :=
  let a := Register.ofOperand first
  let b := Register.ofOperand second
  match op with
  | .halt => .halt
  | .ret => .ret
  | .push => .push a
  | .pop => .pop a
  | .print => .print a
  | .call => .call a
  | .jump => .jump a
  | .jumpIfEqual => .jumpIfEqual a
  | .jumpIfNotEqual => .jumpIfNotEqual a
  | .loadImmediate => .loadImmediate a second
  | .add => .add a b
  | .multiply => .multiply a b
  | .compare => .compare a b

def opcode : Instruction → Opcode
  | .halt => .halt
  | .ret => .ret
  | .push _ => .push
  | .pop _ => .pop
  | .print _ => .print
  | .call _ => .call
  | .jump _ => .jump
  | .jumpIfEqual _ => .jumpIfEqual
  | .jumpIfNotEqual _ => .jumpIfNotEqual
  | .loadImmediate _ _ => .loadImmediate
  | .add _ _ => .add
  | .multiply _ _ => .multiply
  | .compare _ _ => .compare

@[simp] theorem opcode_ofOpcode (op : Opcode) (first second : Byte) :
    (ofOpcode op first second).opcode = op := by cases op <;> rfl

end Instruction
end ByteMachine

import ByteMachine.Flags
import ByteMachine.Memory
import ByteMachine.Registers

/-!
The machine: a program counter, 256 cells that hold code and stack alike, eight registers, the
flags of the last comparison, and whether it still runs. The stack grows downwards; register 7
holds the address of its top, and both directions wrap around. A step that fails leaves the machine
as it was and says why.
-/

namespace ByteMachine

inductive Fault where
  | illegalInstruction (address opcode : Byte)
  | unimplemented (operation : ArithmeticOp.Unimplemented)
  | halted
  | output
  deriving DecidableEq, Repr

def Fault.message : Fault → String
  | .illegalInstruction address opcode =>
    "illegal instruction at " ++ address.hex ++ ": " ++ opcode.hex
  | .unimplemented operation => operation.message
  | .halted => "machine is halted"
  | .output => "failed to write program output"

inductive Status where
  | running | halted
  deriving DecidableEq, Repr

structure Machine where
  pc : Byte
  memory : Memory
  registers : Registers
  flags : Flags
  status : Status
  deriving DecidableEq, Repr

namespace Machine

/-- The stack pointer of a machine that has pushed nothing. -/
def emptyStack : Byte := 0xF4

def programEntry : Byte := 0x00

def initial : Machine :=
  { pc := programEntry
    memory := .zero
    registers := .withStackAt emptyStack
    flags := .clear
    status := .running }

variable (m : Machine)

def read (a : Byte) : Byte := m.memory.read a

def write (a value : Byte) : Machine := { m with memory := m.memory.write a value }

def register (r : Register) : Byte := m.registers.get r

def setRegister (r : Register) (value : Byte) : Machine :=
  { m with registers := m.registers.set r value }

def sp : Byte := m.register .stackPointer

def push (value : Byte) : Machine := (m.setRegister .stackPointer (m.sp - 1)).write (m.sp - 1) value

def pop : Byte × Machine := (m.read m.sp, m.setRegister .stackPointer (m.sp + 1))

/-- The first register becomes the result of the operation on both. -/
def combine (op : ArithmeticOp) (a b : Register) : Except Fault Machine :=
  match op.apply (m.register a) (m.register b) with
  | .ok value => .ok (m.setRegister a value)
  | .error e => .error (.unimplemented e)

def jump (target : Byte) : Machine := { m with pc := target }

-- A machine is what can be observed of it.
theorem eq_of_observed {m n : Machine} (pc : m.pc = n.pc) (memory : ∀ a, m.read a = n.read a)
    (registers : ∀ r, m.register r = n.register r) (flags : m.flags = n.flags)
    (status : m.status = n.status) : m = n := by
  have sameMemory : m.memory = n.memory := Memory.ext memory
  have sameRegisters : m.registers = n.registers := Registers.ext registers
  cases m
  cases n
  simp_all

variable (a c value : Byte) (r q : Register)

@[simp] theorem pc_jump : (m.jump a).pc = a := rfl
@[simp] theorem read_jump : (m.jump a).read c = m.read c := rfl
@[simp] theorem register_jump : (m.jump a).register r = m.register r := rfl
@[simp] theorem sp_jump : (m.jump a).sp = m.sp := rfl
@[simp] theorem flags_jump : (m.jump a).flags = m.flags := rfl
@[simp] theorem status_jump : (m.jump a).status = m.status := rfl

@[simp] theorem pc_setRegister : (m.setRegister r value).pc = m.pc := rfl
@[simp] theorem read_setRegister : (m.setRegister r value).read c = m.read c := rfl
@[simp] theorem flags_setRegister : (m.setRegister r value).flags = m.flags := rfl
@[simp] theorem status_setRegister : (m.setRegister r value).status = m.status := rfl

theorem register_setRegister :
    (m.setRegister r value).register q = if q = r then value else m.register q :=
  Registers.get_set m.registers r q value

theorem sp_setRegister_other {r : Register} (general : r ≠ .stackPointer) :
    (m.setRegister r value).sp = m.sp :=
  Registers.get_set_other m.registers value general.symm

@[simp] theorem pc_write : (m.write a value).pc = m.pc := rfl
@[simp] theorem register_write : (m.write a value).register r = m.register r := rfl
@[simp] theorem sp_write : (m.write a value).sp = m.sp := rfl
@[simp] theorem flags_write : (m.write a value).flags = m.flags := rfl
@[simp] theorem status_write : (m.write a value).status = m.status := rfl

theorem read_write : (m.write a value).read c = if c = a then value else m.read c :=
  Memory.read_write m.memory a c value

@[simp] theorem pc_push : (m.push value).pc = m.pc := rfl
@[simp] theorem flags_push : (m.push value).flags = m.flags := rfl
@[simp] theorem status_push : (m.push value).status = m.status := rfl

theorem read_push : (m.push value).read c = if c = m.sp - 1 then value else m.read c :=
  read_write (m.setRegister .stackPointer (m.sp - 1)) (m.sp - 1) c value

theorem register_push :
    (m.push value).register r = if r = .stackPointer then m.sp - 1 else m.register r :=
  register_setRegister m (m.sp - 1) .stackPointer r

@[simp] theorem sp_push : (m.push value).sp = m.sp - 1 := by
  simp [sp, register_push]

@[simp] theorem fst_pop : m.pop.1 = m.read m.sp := rfl
@[simp] theorem pc_pop : m.pop.2.pc = m.pc := rfl
@[simp] theorem read_pop : m.pop.2.read c = m.read c := rfl
@[simp] theorem flags_pop : m.pop.2.flags = m.flags := rfl
@[simp] theorem status_pop : m.pop.2.status = m.status := rfl

theorem register_pop :
    m.pop.2.register r = if r = .stackPointer then m.sp + 1 else m.register r :=
  register_setRegister m (m.sp + 1) .stackPointer r

@[simp] theorem sp_pop : m.pop.2.sp = m.sp + 1 := by
  simp [sp, register_pop]

end Machine
end ByteMachine

import ByteMachine.Event
import ByteMachine.Instruction
import ByteMachine.Machine

/-!
One step: fetch, decode, record, execute, print. A program prints to a sink, which is offered a line
and says how many of its bytes it took, from the front. What an instruction does to the machine does
not depend on the sink; a line that the sink does not take whole undoes the instruction, so that a
step either has its whole effect or leaves the machine alone.
-/

namespace ByteMachine

class Sink (σ : Type) where
  offer : σ → List Byte → Nat × σ

inductive Room where
  | unlimited
  | bytes (left : Nat)
  deriving DecidableEq, Repr

namespace Room

def offer : Room → List Byte → Nat × Room
  | .unlimited, line => (line.length, .unlimited)
  | .bytes left, line => (min left line.length, .bytes (left - line.length))

instance : Sink Room := ⟨offer⟩

end Room

structure Effect where
  machine : Machine
  printed : Option Byte
  deriving DecidableEq, Repr

namespace Effect

def quiet (m : Machine) : Effect := ⟨m, none⟩

/-- A value is printed in base 10 on a line of its own. -/
def line (value : Byte) : List Byte := value.decimal ++ [Byte.newline]

end Effect

namespace Machine
variable (m : Machine)

def fetch? : Option Instruction :=
  (Opcode.ofByte? (m.read m.pc)).map fun op =>
    .ofOpcode op (m.read (m.pc + 1)) (m.read (m.pc + 2))

def next (i : Instruction) : Byte := m.pc + BitVec.ofNat 8 i.opcode.width

-- The order of reads and writes shows when an operand names the stack pointer: PUSH reads its
-- register before the stack pointer moves, POP writes its register after it has moved, CALL reads
-- its register after the return address has been pushed.
def execute (i : Instruction) : Except Fault Effect :=
  let next := m.next i
  match i with
  | .halt => .ok (.quiet { m.jump next with status := .halted })
  | .ret => .ok (.quiet (m.pop.2.jump m.pop.1))
  | .push a => .ok (.quiet ((m.push (m.register a)).jump next))
  | .pop a => .ok (.quiet ((m.pop.2.setRegister a m.pop.1).jump next))
  | .print a => .ok ⟨m.jump next, some (m.register a)⟩
  | .call a => .ok (.quiet ((m.push next).jump ((m.push next).register a)))
  | .jump a => .ok (.quiet (m.jump (m.register a)))
  | .jumpIfEqual a => .ok (.quiet (m.jump (if m.flags.equal then m.register a else next)))
  | .jumpIfNotEqual a => .ok (.quiet (m.jump (if m.flags.equal then next else m.register a)))
  | .loadImmediate a value => .ok (.quiet ((m.setRegister a value).jump next))
  | .add a b => (m.combine .add a b).map fun after => .quiet (after.jump next)
  | .multiply a b => (m.combine .mul a b).map fun after => .quiet (after.jump next)
  | .compare a b =>
    .ok (.quiet { m.jump next with flags := .compare (m.register a) (m.register b) })

def executing (i : Instruction) : Event :=
  .executing m.pc i.opcode (m.read (m.pc + 1)) (m.read (m.pc + 2)) m.flags

end Machine

structure Step (σ : Type) where
  result : Except Fault Status
  machine : Machine
  output : List Byte
  events : List Event
  sink : σ

namespace Machine
variable {σ : Type} [Sink σ]

/-- A sink that takes a value's line whole lets the step succeed; otherwise the part taken is out
and nothing else has happened. -/
def deliver (before : Machine) (i : Instruction) (e : Effect) (sink : σ) : Step σ :=
  let recorded := match e.machine.status with
    | .halted => [before.executing i, .halting before.pc]
    | .running => [before.executing i]
  match e.printed with
  | none => ⟨.ok e.machine.status, e.machine, [], recorded, sink⟩
  | some value =>
    let line := Effect.line value
    let (taken, after) := Sink.offer sink line
    if taken < line.length then
      ⟨.error .output, before, line.take taken, [before.executing i], after⟩
    else ⟨.ok e.machine.status, e.machine, line, recorded, after⟩

def step (m : Machine) (sink : σ) : Step σ :=
  match m.status with
  | .halted => ⟨.error .halted, m, [], [], sink⟩
  | .running =>
    match m.fetch? with
    | none => ⟨.error (.illegalInstruction m.pc (m.read m.pc)), m, [], [], sink⟩
    | some i =>
      match m.execute i with
      | .error fault => ⟨.error fault, m, [], [m.executing i], sink⟩
      | .ok effect => m.deliver i effect sink

end Machine
end ByteMachine

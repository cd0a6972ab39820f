import ByteMachine.Proofs.Transition

/-!
The instruction set as transfers between registers and memory. An opcode has an entry of one or two
statements, in which `sp` is another name for register 7. They are made from left to right, and a
program counter that they do not assign goes on behind the instruction. The machine does what the
entries say with two exceptions: a PUSH or a POP of the stack pointer itself never does.
-/

namespace ByteMachine.Transfer

/-- What an entry can read; `a` and `b` are the bytes behind the opcode. -/
inductive Term where
  | number (n : Byte)
  | a
  | b
  | pc
  | sp
  | register (index : Term)
  | cell (address : Term)
  | sum (left right : Term)
  | difference (left right : Term)
  | product (left right : Term)

inductive Target where
  | pc
  | sp
  | register (index : Term)
  | cell (address : Term)

inductive Statement where
  | assign (target : Target) (value : Term)
  | push (value : Term)
  | compare (left right : Term)
  | print (value : Term)
  | stop
  /-- Only if the flag for equal is as given. -/
  | ifEqual (raised : Bool) (statement : Statement)

def entry : Opcode → List Statement
  | .halt => [.stop]
  | .ret => [.assign .pc (.cell .sp), .assign .sp (.sum .sp (.number 1))]
  | .push => [.assign .sp (.difference .sp (.number 1)), .assign (.cell .sp) (.register .a)]
  | .pop => [.assign (.register .a) (.cell .sp), .assign .sp (.sum .sp (.number 1))]
  | .print => [.print (.register .a)]
  | .call => [.push (.sum .pc (.number 2)), .assign .pc (.register .a)]
  | .jump => [.assign .pc (.register .a)]
  | .jumpIfEqual => [.ifEqual true (.assign .pc (.register .a))]
  | .jumpIfNotEqual => [.ifEqual false (.assign .pc (.register .a))]
  | .loadImmediate => [.assign (.register .a) .b]
  | .add => [.assign (.register .a) (.sum (.register .a) (.register .b))]
  | .multiply => [.assign (.register .a) (.product (.register .a) (.register .b))]
  | .compare => [.compare (.register .a) (.register .b)]

structure State where
  machine : Machine
  /-- The bytes behind the opcode, as they were before the first statement. -/
  a : Byte
  b : Byte
  moved : Bool
  printed : List Byte

def Term.value (s : State) : Term → Byte
  | .number n => n
  | .a => s.a
  | .b => s.b
  | .pc => s.machine.pc
  | .sp => s.machine.register .stackPointer
  | .register index => s.machine.register (.ofOperand (index.value s))
  | .cell address => s.machine.read (address.value s)
  | .sum left right => left.value s + right.value s
  | .difference left right => left.value s - right.value s
  | .product left right => left.value s * right.value s

namespace State

def start (m : Machine) : State := ⟨m, m.read (m.pc + 1), m.read (m.pc + 2), false, []⟩

def assign (s : State) (value : Byte) : Target → State
  | .pc => { s with machine := s.machine.jump value, moved := true }
  | .sp => { s with machine := s.machine.setRegister .stackPointer value }
  | .register index =>
    { s with machine := s.machine.setRegister (.ofOperand (index.value s)) value }
  | .cell address => { s with machine := s.machine.write (address.value s) value }

def exec (s : State) : Statement → State
  | .assign target value => s.assign (value.value s) target
  | .push value =>
    let lowered := s.assign (s.machine.register .stackPointer - 1) .sp
    lowered.assign (value.value s) (.cell .sp)
  | .compare left right =>
    { s with machine := { s.machine with flags := .compare (left.value s) (right.value s) } }
  | .print value => { s with printed := s.printed ++ [value.value s] }
  | .stop => { s with machine := { s.machine with status := .halted } }
  | .ifEqual raised statement =>
    if s.machine.flags.equal = raised then s.exec statement else s

/-- After the entry the program counter goes on, unless it has been assigned. -/
def finish (s : State) (op : Opcode) : State :=
  if s.moved then s else s.assign (s.machine.pc + BitVec.ofNat 8 op.width) .pc

end State

def execute (op : Opcode) (m : Machine) : State :=
  ((entry op).foldl State.exec (.start m)).finish op

/-- The stack pointer is itself what is saved or delivered. -/
def SavesPointer (op : Opcode) (first : Byte) : Prop :=
  (op = .push ∨ op = .pop) ∧ first.toNat % 8 = 7

theorem savesPointer_iff {op : Opcode} {first : Byte} :
    SavesPointer op first ↔
      (op = .push ∨ op = .pop) ∧ Register.ofOperand first = .stackPointer := by
  unfold SavesPointer
  rw [Fin.ext_iff]
  rfl

def instruction (m : Machine) (op : Opcode) : Instruction :=
  .ofOpcode op (m.read (m.pc + 1)) (m.read (m.pc + 2))

section Entries
variable (m : Machine)

theorem lowered_write (value : Machine → Byte) :
    let lowered := m.setRegister .stackPointer (m.sp - 1)
    lowered.write lowered.sp (value lowered) = m.push (value lowered) := by
  intro lowered
  have top : lowered.sp = m.sp - 1 := m.registers.get_set_same .stackPointer (m.sp - 1)
  rw [top]
  rfl

theorem execute_push :
    (execute .push m).machine =
      (m.push ((m.setRegister .stackPointer (m.sp - 1)).register
        (.ofOperand (m.read (m.pc + 1))))).jump (m.pc + 2) :=
  congrArg (fun pushed => pushed.jump (m.pc + 2))
    (lowered_write m fun lowered => lowered.register (.ofOperand (m.read (m.pc + 1))))

theorem execute_call :
    (execute .call m).machine = (m.effect (instruction m .call)).machine :=
  congrArg (fun pushed => pushed.jump (pushed.register (.ofOperand (m.read (m.pc + 1)))))
    (lowered_write m fun _ => m.pc + 2)

theorem push_agrees_iff :
    (m.effect (instruction m .push)).machine = (execute .push m).machine ↔
      Register.ofOperand (m.read (m.pc + 1)) ≠ .stackPointer := by
  rw [execute_push]
  change (m.push (m.register (.ofOperand (m.read (m.pc + 1))))).jump (m.pc + 2) = _ ↔ _
  generalize Register.ofOperand (m.read (m.pc + 1)) = r
  constructor
  · rintro same rfl
    have saved := congrArg (fun after => after.read (m.sp - 1)) same
    simp only [Machine.read_jump, Machine.read_push, if_true, Machine.register_setRegister] at saved
    change m.sp = m.sp - 1 at saved
    bv_omega
  · intro general
    rw [Machine.register_setRegister, if_neg general]

theorem setRegister_comm {q r : Register} (apart : q ≠ r) (x y : Byte) :
    (m.setRegister q x).setRegister r y = (m.setRegister r y).setRegister q x := by
  refine Machine.eq_of_observed rfl (fun _ => rfl) ?_ rfl rfl
  intro p
  simp only [Machine.register_setRegister]
  by_cases same : p = r
  · rw [if_pos same, if_pos same, if_neg (same ▸ apart.symm)]
  · rw [if_neg same, if_neg same]

theorem pop_agrees_iff :
    (m.effect (instruction m .pop)).machine = (execute .pop m).machine ↔
      Register.ofOperand (m.read (m.pc + 1)) ≠ .stackPointer := by
  let delivered (r : Register) := m.setRegister r (m.read m.sp)
  change (m.pop.2.setRegister (.ofOperand (m.read (m.pc + 1))) (m.read m.sp)).jump (m.pc + 2) =
    ((delivered (.ofOperand (m.read (m.pc + 1)))).setRegister .stackPointer
      ((delivered (.ofOperand (m.read (m.pc + 1)))).sp + 1)).jump (m.pc + 2) ↔ _
  generalize Register.ofOperand (m.read (m.pc + 1)) = r
  constructor
  · rintro same rfl
    have twice : (delivered .stackPointer).sp = m.read m.sp :=
      m.registers.get_set_same .stackPointer (m.read m.sp)
    have pointer := congrArg (fun after => after.register .stackPointer) same
    simp only [twice, Machine.register_jump, Machine.register_setRegister, if_true] at pointer
    bv_omega
  · intro general
    have kept : (delivered r).sp = m.sp := m.sp_setRegister_other (m.read m.sp) general
    have machine : m.pop.2.setRegister r (m.read m.sp) =
        (delivered r).setRegister .stackPointer (m.sp + 1) :=
      setRegister_comm m general.symm (m.sp + 1) (m.read m.sp)
    rw [kept, machine]

theorem execute_conditional {op : Opcode} (conditional : op = .jumpIfEqual ∨ op = .jumpIfNotEqual) :
    execute op m =
      ⟨(m.effect (instruction m op)).machine, m.read (m.pc + 1), m.read (m.pc + 2), true, []⟩ := by
  obtain ⟨pc, memory, registers, ⟨less, greater, equal⟩, status⟩ := m
  rcases conditional with rfl | rfl <;> cases equal <;> rfl

theorem agrees_iff (op : Opcode) :
    (m.effect (instruction m op)).machine = (execute op m).machine ↔
      ¬ SavesPointer op (m.read (m.pc + 1)) := by
  have ordinary (other : op ≠ .push ∧ op ≠ .pop) : ¬ SavesPointer op (m.read (m.pc + 1)) :=
    fun saves => saves.1.elim other.1 other.2
  cases op with
  | push => simpa [savesPointer_iff] using push_agrees_iff m
  | pop => simpa [savesPointer_iff] using pop_agrees_iff m
  | call => exact iff_of_true (execute_call m).symm (ordinary (by decide))
  | jumpIfEqual | jumpIfNotEqual =>
    refine iff_of_true ?_ (ordinary (by decide))
    rw [execute_conditional m (by decide)]
  | halt | ret | print | jump | loadImmediate | add | multiply | compare =>
    exact iff_of_true rfl (ordinary (by decide))

theorem printed_execute (op : Opcode) :
    (execute op m).printed = (m.effect (instruction m op)).printed.toList := by
  cases op with
  | jumpIfEqual | jumpIfNotEqual =>
    rw [execute_conditional m (by decide)]
    rfl
  | _ => rfl

end Entries

/-- A step of a running machine does what the entry of its opcode says when its statements are made
from left to right, but for PUSH and POP of the stack pointer: there it never does. -/
theorem step_entry_iff {σ : Type} [Sink σ] (m : Machine) (sink : σ) (op : Opcode)
    (running : m.status = .running) (decodes : Opcode.ofByte? (m.read m.pc) = some op)
    (accepts : Sink.Accepts sink) :
    ((m.step sink).machine = (execute op m).machine ↔
      ¬ ((op = .push ∨ op = .pop) ∧ (m.read (m.pc + 1)).toNat % 8 = 7)) ∧
    (m.step sink).output = (execute op m).printed.flatMap Effect.line := by
  have fetched : m.fetch? = some (instruction m op) := by
    rw [Machine.fetch?, decodes]
    rfl
  obtain ⟨-, machine, output, -⟩ :=
    Machine.step_of_fits running fetched (Effect.fits_of_accepts _ accepts)
  rw [machine, output, printed_execute]
  refine ⟨agrees_iff m op, ?_⟩
  unfold Effect.output
  cases (m.effect (instruction m op)).printed with
  | none => rfl
  | some value => exact (List.append_nil _).symm

/-- `PUSH` and `CALL` with R7 as their operand and an empty stack at 0. -/
def atPointer (opcode : Byte) : Machine :=
  ((Machine.initial.setRegister .stackPointer 0x00).write 0x00 opcode).write 0x01 0x0F

-- CALL goes to the lowered pointer in the entry as in the machine; PUSH saves different bytes.
theorem step_entry_iff_atPointer :
    Opcode.ofByte? ((atPointer 0x50).read 0x00) = some .call ∧
    ((atPointer 0x50).step Room.unlimited).machine = (execute .call (atPointer 0x50)).machine ∧
    (execute .call (atPointer 0x50)).machine.pc = 0xFF ∧
    Opcode.ofByte? ((atPointer 0x45).read 0x00) = some .push ∧
    ((atPointer 0x45).step Room.unlimited).machine ≠ (execute .push (atPointer 0x45)).machine := by
  obtain ⟨call, -⟩ := step_entry_iff (atPointer 0x50) Room.unlimited .call rfl (by decide +kernel)
    Sink.accepts_unlimited
  obtain ⟨push, -⟩ := step_entry_iff (atPointer 0x45) Room.unlimited .push rfl (by decide +kernel)
    Sink.accepts_unlimited
  refine ⟨by decide +kernel, call.mpr ?_, by decide +kernel, by decide +kernel, ?_⟩
  · exact fun saves => absurd saves.1 (by decide)
  · exact fun same => push.mp same ⟨.inl rfl, by decide +kernel⟩

end ByteMachine.Transfer

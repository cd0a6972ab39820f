import ByteMachine.Machine.Load
import ByteMachine.Proofs.Transition

/-!
The machine changed in place. A call is a sequence of reads, assignments and offers to the sink, in
the order in which an instruction makes them, and nothing takes an assignment back: a call that
fails leaves behind all that it did before. The pure functions of the machine give exactly what
these calls leave behind, result and place alike, so their failures undo nothing.
-/

namespace ByteMachine.InPlace

/-- What a call works on; output and events are those of the call so far. -/
structure Place (σ : Type) where
  machine : Machine
  sink : σ
  output : List Byte
  events : List Event

def Procedure (σ ε α : Type) := Place σ → Except ε α × Place σ

namespace Procedure
variable {σ ε α β : Type}

instance : Monad (Procedure σ ε) where
  pure value := fun p => (.ok value, p)
  bind first next := fun p =>
    match first p with
    | (.ok value, q) => next value q
    | (.error e, q) => (.error e, q)

theorem bind_of_ok {first : Procedure σ ε α} {p q : Place σ} {value : α}
    (done : first p = (.ok value, q)) (next : α → Procedure σ ε β) :
    (first >>= next) p = next value q := by
  change (match first p with
    | (.ok value, q) => next value q
    | (.error e, q) => (.error e, q)) = _
  rw [done]

theorem bind_of_error {first : Procedure σ ε α} {p q : Place σ} {e : ε}
    (failed : first p = (.error e, q)) (next : α → Procedure σ ε β) :
    (first >>= next) p = (.error e, q) := by
  change (match first p with
    | (.ok value, q) => next value q
    | (.error e, q) => (.error e, q)) = _
  rw [failed]

def call (procedure : Procedure σ ε α) (m : Machine) (sink : σ) : Except ε α × Place σ :=
  procedure ⟨m, sink, [], []⟩

end Procedure

variable {σ ε : Type}

def fail {α : Type} (e : ε) : Procedure σ ε α := fun p => (.error e, p)

def machine : Procedure σ ε Machine := fun p => (.ok p.machine, p)

def change (f : Machine → Machine) : Procedure σ ε Unit :=
  fun p => (.ok (), { p with machine := f p.machine })

def record (e : Event) : Procedure σ ε Unit :=
  fun p => (.ok (), { p with events := p.events ++ [e] })

def register (r : Register) : Procedure σ ε Byte := return (← machine).register r

def setRegister (r : Register) (value : Byte) : Procedure σ ε Unit :=
  change fun m => m.setRegister r value

def write (a value : Byte) : Procedure σ ε Unit := change fun m => m.write a value

def jump (target : Byte) : Procedure σ ε Unit := change fun m => m.jump target

def push (value : Byte) : Procedure σ ε Unit := do
  let top := (← register .stackPointer) - 1
  setRegister .stackPointer top
  write top value

def pop : Procedure σ ε Byte := do
  let top ← register .stackPointer
  let value := (← machine).read top
  setRegister .stackPointer (top + 1)
  return value

def load (image : Image) : Procedure σ LoadError Unit := do
  if memorySize < image.size then fail (.tooLarge image.size)
  change fun m => { m with memory := m.memory.copy image.bytes }
  record (.loaded image.size)

def arithmetic (op : ArithmeticOp) (a b : Register) : Procedure σ Fault Unit := do
  match op.apply (← register a) (← register b) with
  | .ok value => setRegister a value
  | .error e => fail (.unimplemented e)

inductive Flow where
  | advance
  | jump (target : Byte)
  | halt

section Steps
variable [Sink σ]

/-- The part of the line that the sink takes is out, also when it is not all of it. -/
def print (line : List Byte) : Procedure σ Fault Unit := fun p =>
  let (taken, after) := Sink.offer p.sink line
  (if taken < line.length then .error .output else .ok (),
    { p with sink := after, output := p.output ++ line.take taken })

def handle (pc : Byte) : Instruction → Procedure σ Fault Flow
  | .halt => return .halt
  | .ret => return .jump (← pop)
  | .push a => do
    push (← register a)
    return .advance
  | .pop a => do
    setRegister a (← pop)
    return .advance
  | .print a => do
    print (Effect.line (← register a))
    return .advance
  | .call a => do
    push (pc + 2)
    return .jump (← register a)
  | .jump a => return .jump (← register a)
  | .jumpIfEqual a => do
    if (← machine).flags.equal then return .jump (← register a)
    return .advance
  | .jumpIfNotEqual a => do
    if (← machine).flags.equal then return .advance
    return .jump (← register a)
  | .loadImmediate a value => do
    setRegister a value
    return .advance
  | .add a b => do
    arithmetic .add a b
    return .advance
  | .multiply a b => do
    arithmetic .mul a b
    return .advance
  | .compare a b => do
    let outcome := Flags.compare (← register a) (← register b)
    change fun m => { m with flags := outcome }
    return .advance

/-- The program counter moves after everything else. -/
def follow (pc behind : Byte) : Flow → Procedure σ Fault Unit
  | .advance => jump behind
  | .jump target => jump target
  | .halt => do
    jump behind
    change fun m => { m with status := .halted }
    record (.halting pc)

def execute (m : Machine) (i : Instruction) : Procedure σ Fault Status := do
  record (m.executing i)
  follow m.pc (m.next i) (← handle m.pc i)
  return (← machine).status

def attempt (m : Machine) : Procedure σ Fault Status :=
  match m.status with
  | .halted => fail .halted
  | .running =>
    match m.fetch? with
    | none => fail (.illegalInstruction m.pc (m.read m.pc))
    | some i => execute m i

def step : Procedure σ Fault Status := do attempt (← machine)

end Steps

/-! The calls and the pure functions leave the same behind. -/
section Agreement

theorem call_load (m : Machine) (sink : σ) (image : Image) :
    (load image).call m sink =
      match (m.load image).value with
      | .ok after => (.ok (), ⟨after, sink, [], (m.load image).events⟩)
      | .error e => (.error e, ⟨m, sink, [], (m.load image).events⟩) := by
  by_cases large : memorySize < image.size
  · rw [load, if_pos large, m.load_of_large large]
    rfl
  · rw [load, if_neg large, m.load_of_fits (Nat.not_lt.mp large)]
    rfl

theorem call_arithmetic (m : Machine) (sink : σ) (op : ArithmeticOp) (a b : Register) :
    (arithmetic op a b).call m sink =
      match m.combine op a b with
      | .ok after => (.ok (), ⟨after, sink, [], []⟩)
      | .error e => (.error e, ⟨m, sink, [], []⟩) := by
  cases op <;> rfl

variable [Sink σ] {m : Machine}

theorem print_of_short (p : Place σ) (line : List Byte)
    (short : (Sink.offer p.sink line).1 < line.length) :
    print line p = (.error .output,
      { p with
        sink := (Sink.offer p.sink line).2
        output := p.output ++ line.take (Sink.offer p.sink line).1 }) := by
  simp only [print, if_pos short]

theorem print_of_taken (p : Place σ) (line : List Byte)
    (whole : ¬(Sink.offer p.sink line).1 < line.length) :
    print line p = (.ok (),
      { p with
        sink := (Sink.offer p.sink line).2
        output := p.output ++ line }) := by
  simp only [print, if_neg whole, List.take_of_length_le (Nat.not_lt.mp whole)]

theorem call_execute_print (running : m.status = .running) (a : Register) (sink : σ) :
    (execute m (.print a)).call m sink =
      let s := m.deliver (.print a) (m.effect (.print a)) sink
      (s.result, ⟨s.machine, s.sink, s.output, s.events⟩) := by
  obtain ⟨pc, memory, registers, flags, status⟩ := m
  obtain rfl : status = .running := running
  let m : Machine := ⟨pc, memory, registers, flags, .running⟩
  let p : Place σ := ⟨m, sink, [], [m.executing (.print a)]⟩
  let line := Effect.line (m.register a)
  have printed : (m.effect (.print a)).printed = some (m.register a) := rfl
  change (execute m (.print a)).call m sink = _
  rw [Machine.deliver, printed]
  by_cases short : (Sink.offer sink line).1 < line.length
  · have refused : handle pc (.print a) p = (.error .output, _) :=
      Procedure.bind_of_error (print_of_short p line short) _
    simp only
    rw [if_pos short]
    exact Procedure.bind_of_error refused _
  · have written : handle pc (.print a) p = (.ok .advance, _) :=
      Procedure.bind_of_ok (print_of_taken p line short) _
    simp only
    rw [if_neg short]
    exact Procedure.bind_of_ok written _

theorem call_execute (running : m.status = .running) (i : Instruction) (sink : σ) :
    (execute m i).call m sink =
      let s := m.deliver i (m.effect i) sink
      (s.result, ⟨s.machine, s.sink, s.output, s.events⟩) := by
  cases i with
  | print a => exact call_execute_print running a sink
  | jumpIfEqual | jumpIfNotEqual =>
    obtain ⟨pc, memory, registers, ⟨less, greater, equal⟩, status⟩ := m
    obtain rfl : status = .running := running
    cases equal <;> rfl
  | _ =>
    obtain ⟨pc, memory, registers, flags, status⟩ := m
    obtain rfl : status = .running := running
    rfl

theorem call_step (m : Machine) (sink : σ) :
    step.call m sink =
      ((m.step sink).result,
        ⟨(m.step sink).machine, (m.step sink).sink, (m.step sink).output,
          (m.step sink).events⟩) := by
  change (attempt m).call m sink = _
  cases status : m.status with
  | halted =>
    rw [Machine.step_of_halted status, attempt, status]
    rfl
  | running =>
    cases fetched : m.fetch? with
    | none =>
      rw [Machine.step_of_unknown status fetched, attempt, status, fetched]
      rfl
    | some i =>
      rw [Machine.step_of_fetch status fetched, attempt, status, fetched]
      exact call_execute status i sink

end Agreement
end ByteMachine.InPlace

import ByteMachine.Machine.Load
import ByteMachine.Proofs.Transition

/-!
Programs without jumps, beside a machine that has no memory: seven registers, a list for the
stack, the last comparison and the values printed so far. Encoded one behind the other and closed
by HLT, such a program does on the byte machine what it does there, as long as code and stack
together leave the cells from 0xF4 on alone.
-/

namespace ByteMachine.StraightLine

/-- An operand byte that does not name the stack pointer. -/
structure Operand where
  byte : Byte
  general : byte.toNat % 8 ≠ 7

def Operand.index (o : Operand) : Fin 7 :=
  ⟨o.byte.toNat % 8, by
    have bound := Nat.mod_lt o.byte.toNat (Nat.zero_lt_succ 7)
    have general := o.general
    omega⟩

inductive Command where
  | loadImmediate (a : Operand) (value : Byte)
  | add (a b : Operand)
  | multiply (a b : Operand)
  | compare (a b : Operand)
  | print (a : Operand)
  | push (a : Operand)
  | pop (a : Operand)

def Command.encode : Command → List Byte
  | .loadImmediate a value => [0x82, a.byte, value]
  | .add a b => [0xA0, a.byte, b.byte]
  | .multiply a b => [0xA2, a.byte, b.byte]
  | .compare a b => [0xA7, a.byte, b.byte]
  | .print a => [0x47, a.byte]
  | .push a => [0x45, a.byte]
  | .pop a => [0x46, a.byte]

def Command.instruction : Command → Instruction
  | .loadImmediate a value => .loadImmediate (.ofOperand a.byte) value
  | .add a b => .add (.ofOperand a.byte) (.ofOperand b.byte)
  | .multiply a b => .multiply (.ofOperand a.byte) (.ofOperand b.byte)
  | .compare a b => .compare (.ofOperand a.byte) (.ofOperand b.byte)
  | .print a => .print (.ofOperand a.byte)
  | .push a => .push (.ofOperand a.byte)
  | .pop a => .pop (.ofOperand a.byte)

theorem Command.length_encode (c : Command) :
    c.encode.length = c.instruction.opcode.width := by cases c <;> rfl

def encode (program : List Command) : List Byte := program.flatMap Command.encode

def image (program : List Command) : Image := ⟨encode program ++ [0x01]⟩

structure StackMachine where
  registers : Fin 7 → Byte
  stack : List Byte
  comparison : Option Ordering
  printed : List Byte

namespace StackMachine

def initial : StackMachine := ⟨fun _ => 0, [], none, []⟩

variable (s : StackMachine)

def assign (r : Fin 7) (value : Byte) : StackMachine :=
  { s with registers := fun q => if q = r then value else s.registers q }

/-- Only POP can fail, on an empty stack. -/
def exec? : Command → Option StackMachine
  | .loadImmediate a value => some (s.assign a.index value)
  | .add a b => some (s.assign a.index (s.registers a.index + s.registers b.index))
  | .multiply a b => some (s.assign a.index (s.registers a.index * s.registers b.index))
  | .compare a b =>
    some { s with
      comparison := some (compare (s.registers a.index).toNat (s.registers b.index).toNat) }
  | .print a => some { s with printed := s.printed ++ [s.registers a.index] }
  | .push a => some { s with stack := s.registers a.index :: s.stack }
  | .pop a =>
    match s.stack with
    | [] => none
    | top :: rest => some ({ s with stack := rest }.assign a.index top)

def run? : List Command → StackMachine → Option StackMachine
  | [], s => some s
  | c :: rest, s => (s.exec? c).bind (run? rest)

def deepest : List Command → StackMachine → Nat
  | [], s => s.stack.length
  | c :: rest, s => max s.stack.length ((s.exec? c).elim 0 (deepest rest))

theorem stack_le_deepest (program : List Command) : s.stack.length ≤ deepest program s := by
  cases program with
  | nil => exact Nat.le_refl _
  | cons => exact Nat.le_max_left _ _

theorem deepest_rest {s next : StackMachine} {c : Command} (exec : s.exec? c = some next)
    (rest : List Command) : deepest rest next ≤ deepest (c :: rest) s := by
  simp only [deepest, exec, Option.elim_some]
  exact Nat.le_max_right _ _

theorem final_le_deepest {s final : StackMachine} {program : List Command}
    (runs : run? program s = some final) : final.stack.length ≤ deepest program s := by
  induction program generalizing s with
  | nil =>
    obtain rfl := Option.some.inj runs
    exact Nat.le_refl _
  | cons c rest ih =>
    obtain ⟨next, exec, later⟩ := Option.bind_eq_some_iff.mp runs
    exact Nat.le_trans (ih later) (deepest_rest exec rest)

end StackMachine

def flags : Option Ordering → Flags
  | none => .clear
  | some .lt => ⟨true, false, false⟩
  | some .gt => ⟨false, true, false⟩
  | some .eq => ⟨false, false, true⟩

theorem flags_compare (l r : Byte) :
    flags (some (compare l.toNat r.toNat)) = Flags.compare l r := by
  simp only [Flags.compare, BitVec.lt_def, ← BitVec.toNat_inj]
  rcases Nat.lt_trichotomy l.toNat r.toNat with less | same | greater
  · rw [Nat.compare_eq_lt.mpr less]
    simp [flags, less, Nat.lt_asymm less, Nat.ne_of_lt less]
  · rw [Nat.compare_eq_eq.mpr same]
    simp [flags, same]
  · rw [Nat.compare_eq_gt.mpr greater]
    simp [flags, greater, Nat.lt_asymm greater, Nat.ne_of_gt greater]

theorem general_castSucc (r : Fin 7) : r.castSucc ≠ Register.stackPointer :=
  Fin.ne_of_lt r.castSucc_lt_last

theorem address_ne {i j : Nat} (different : i ≠ j) (left : i < 256) (right : j < 256) :
    BitVec.ofNat 8 i ≠ BitVec.ofNat 8 j := by
  intro same
  have values := congrArg BitVec.toNat same
  rw [BitVec.toNat_ofNat, BitVec.toNat_ofNat, Nat.mod_eq_of_lt left, Nat.mod_eq_of_lt right]
    at values
  exact different values

structure Holds (m : Machine) (stack : List Byte) : Prop where
  sp : m.sp = BitVec.ofNat 8 (0xF4 - stack.length)
  cells : ∀ k (inside : k < stack.length),
    m.read (BitVec.ofNat 8 (0xF4 - stack.length + k)) = stack[k]

namespace Holds
variable {m : Machine} {value : Byte} {stack : List Byte}

theorem sp_lowered (holds : Holds m stack) (room : stack.length < 0xF4) :
    m.sp - 1 = BitVec.ofNat 8 (0xF4 - (stack.length + 1)) := by
  rw [holds.sp]
  bv_omega

theorem push (holds : Holds m stack) (room : stack.length < 0xF4) (value : Byte) :
    Holds (m.push value) (value :: stack) := by
  have lowered := holds.sp_lowered room
  constructor
  · rw [Machine.sp_push, lowered, List.length_cons]
  · intro k inside
    rw [Machine.read_push, lowered, List.length_cons]
    cases k with
    | zero => exact if_pos rfl
    | succ k =>
      have above : 0xF4 - (stack.length + 1) + (k + 1) = 0xF4 - stack.length + k := by omega
      rw [List.length_cons] at inside
      rw [if_neg (address_ne (by omega) (by omega) (by omega)), above]
      exact holds.cells k (Nat.lt_of_succ_lt_succ inside)

theorem read_sp (holds : Holds m (value :: stack)) : m.read m.sp = value := by
  rw [holds.sp]
  exact holds.cells 0 (Nat.zero_lt_succ _)

theorem pop (holds : Holds m (value :: stack)) (room : stack.length < 0xF4) :
    Holds m.pop.2 stack := by
  constructor
  · rw [Machine.sp_pop, holds.sp, List.length_cons]
    bv_omega
  · intro k inside
    have above : 0xF4 - (stack.length + 1) + (k + 1) = 0xF4 - stack.length + k := by omega
    have deeper := holds.cells (k + 1) (Nat.succ_lt_succ inside)
    rw [List.length_cons, above] at deeper
    exact deeper

end Holds

/-- The machine stands at `offset` in the code and holds what the stack machine holds. -/
structure Simulates (code : List Byte) (s : StackMachine) (offset : Nat) (m : Machine) : Prop where
  running : m.status = .running
  pc : m.pc = BitVec.ofNat 8 offset
  code : ∀ i (inside : i < code.length), m.read (BitVec.ofNat 8 i) = code[i]
  registers : ∀ r : Fin 7, m.register r.castSucc = s.registers r
  flags : m.flags = flags s.comparison
  stack : Holds m s.stack

namespace Simulates
variable {code : List Byte} {s : StackMachine} {offset : Nat} {m : Machine}

theorem jump (sim : Simulates code s offset m) (target : Nat) :
    Simulates code s target (m.jump (BitVec.ofNat 8 target)) :=
  ⟨sim.running, rfl, sim.code, sim.registers, sim.flags, ⟨sim.stack.sp, sim.stack.cells⟩⟩

theorem register_operand (sim : Simulates code s offset m) (o : Operand) :
    m.register (.ofOperand o.byte) = s.registers o.index := sim.registers o.index

theorem assign (sim : Simulates code s offset m) (o : Operand) (value : Byte) :
    Simulates code (s.assign o.index value) offset (m.setRegister (.ofOperand o.byte) value) := by
  have general : Register.ofOperand o.byte ≠ .stackPointer := by
    intro same
    exact o.general (congrArg Fin.val same)
  have top := Machine.sp_setRegister_other m value general
  refine ⟨sim.running, sim.pc, sim.code, ?_, sim.flags, ⟨top.trans sim.stack.sp, sim.stack.cells⟩⟩
  intro r
  have named : r.castSucc = Register.ofOperand o.byte ↔ r = o.index := by
    rw [Fin.ext_iff, Fin.ext_iff]
    rfl
  simp only [Machine.register_setRegister, named, StackMachine.assign, sim.registers r]

theorem push (sim : Simulates code s offset m) (value : Byte)
    (room : code.length + s.stack.length < 0xF4) :
    Simulates code { s with stack := value :: s.stack } offset (m.push value) := by
  have lowered := sim.stack.sp_lowered (by omega)
  refine ⟨sim.running, sim.pc, ?_, ?_, sim.flags, sim.stack.push (by omega) value⟩
  · intro i inside
    have below : BitVec.ofNat 8 i ≠ m.sp - 1 := by
      rw [lowered]
      exact address_ne (by omega) (by omega) (by omega)
    rw [Machine.read_push, if_neg below]
    exact sim.code i inside
  · intro r
    rw [Machine.register_push, if_neg (general_castSucc r)]
    exact sim.registers r

theorem pop {value : Byte} {rest : List Byte} (sim : Simulates code s offset m)
    (top : s.stack = value :: rest) (room : s.stack.length ≤ 0xF4) :
    m.pop.1 = value ∧ Simulates code { s with stack := rest } offset m.pop.2 := by
  have holds := sim.stack
  rw [top] at holds room
  refine ⟨holds.read_sp, sim.running, sim.pc, sim.code, ?_, sim.flags, holds.pop room⟩
  intro r
  rw [Machine.register_pop, if_neg (general_castSucc r)]
  exact sim.registers r

theorem next_eq (sim : Simulates code s offset m) (i : Instruction) :
    m.next i = BitVec.ofNat 8 (offset + i.opcode.width) := by
  rw [Machine.next, sim.pc, ← BitVec.ofNat_add]

theorem goOn {next : StackMachine} {after : Machine} (sim : Simulates code s offset m)
    (c : Command) (done : Simulates code next offset after) :
    Simulates code next (offset + c.encode.length) (after.jump (m.next c.instruction)) := by
  rw [sim.next_eq, ← c.length_encode]
  exact done.jump (offset + c.encode.length)

theorem read_placed {bytes rest : List Byte} (sim : Simulates code s offset m)
    (placed : code.drop offset = bytes ++ rest) (j : Nat) (inside : j < bytes.length) :
    m.read (m.pc + BitVec.ofNat 8 j) = bytes[j] := by
  have extent := congrArg List.length placed
  rw [List.length_drop, List.length_append] at extent
  have cell := sim.code (offset + j) (by omega)
  have shown : (code.drop offset)[j]? = (bytes ++ rest)[j]? := congrArg (fun l => l[j]?) placed
  rw [List.getElem?_drop, List.getElem?_append_left inside, List.getElem?_eq_getElem (by omega),
    List.getElem?_eq_getElem inside, Option.some.injEq] at shown
  rw [sim.pc, ← BitVec.ofNat_add, cell, shown]

theorem fetch (sim : Simulates code s offset m) {c : Command} {rest : List Byte}
    (placed : code.drop offset = c.encode ++ rest) : m.fetch? = some c.instruction := by
  have byte (j : Nat) (inside : j < c.encode.length) := sim.read_placed placed j inside
  have opcode : m.read m.pc = c.instruction.opcode.toByte := by
    have first := byte 0 (by cases c <;> exact Nat.zero_lt_succ _)
    rw [BitVec.add_zero] at first
    rw [first]
    cases c <;> rfl
  have operand := byte 1 (by cases c <;> simp [Command.encode])
  rw [Machine.fetch?_of_opcode opcode]
  cases c with
  | print | push | pop => exact congrArg (fun b => some (Instruction.ofOpcode _ b _)) operand
  | loadImmediate | add | multiply | compare =>
    have second := byte 2 (by simp [Command.encode])
    refine (congrArg (fun b => some (Instruction.ofOpcode _ b _)) operand).trans ?_
    exact congrArg (fun b => some (Instruction.ofOpcode _ _ b)) second

theorem step {c : Command} {next : StackMachine} (sim : Simulates code s offset m)
    (exec : s.exec? c = some next) (room : code.length + s.stack.length ≤ 0xF4)
    (roomAfter : code.length + next.stack.length ≤ 0xF4) :
    Simulates code next (offset + c.encode.length) (m.effect c.instruction).machine ∧
    next.printed.flatMap Effect.line =
      s.printed.flatMap Effect.line ++ (m.effect c.instruction).output := by
  have silent := (List.append_nil (s.printed.flatMap Effect.line)).symm
  cases c with
  | loadImmediate a value =>
    obtain rfl := Option.some.inj exec
    exact ⟨sim.goOn (.loadImmediate a value) (sim.assign a value), silent⟩
  | add a b =>
    obtain rfl := Option.some.inj exec
    rw [← sim.register_operand a, ← sim.register_operand b]
    exact ⟨sim.goOn (.add a b) (sim.assign a _), silent⟩
  | multiply a b =>
    obtain rfl := Option.some.inj exec
    rw [← sim.register_operand a, ← sim.register_operand b]
    exact ⟨sim.goOn (.multiply a b) (sim.assign a _), silent⟩
  | compare a b =>
    obtain rfl := Option.some.inj exec
    have compared := flags_compare (s.registers a.index) (s.registers b.index)
    rw [← sim.register_operand a, ← sim.register_operand b] at compared ⊢
    have moved := sim.goOn (.compare a b) sim
    exact ⟨⟨sim.running, moved.pc, sim.code, sim.registers, compared.symm,
      ⟨sim.stack.sp, sim.stack.cells⟩⟩, silent⟩
  | print a =>
    obtain rfl := Option.some.inj exec
    have moved := sim.goOn (.print a) sim
    refine ⟨⟨sim.running, moved.pc, sim.code, sim.registers, sim.flags,
      ⟨sim.stack.sp, sim.stack.cells⟩⟩, ?_⟩
    rw [← sim.register_operand a, List.flatMap_append, List.flatMap_singleton]
    rfl
  | push a =>
    obtain rfl := Option.some.inj exec
    rw [← sim.register_operand a]
    exact ⟨sim.goOn (.push a) (sim.push _ roomAfter), silent⟩
  | pop a =>
    cases top : s.stack with
    | nil => simp [StackMachine.exec?, top] at exec
    | cons value rest =>
      simp only [StackMachine.exec?, top, Option.some.injEq] at exec
      obtain ⟨popped, after⟩ := sim.pop top (by omega)
      subst exec popped
      exact ⟨sim.goOn (.pop a) (after.assign a _), silent⟩

end Simulates

/-- A run in step with the stack machine: what is out is what the stack machine has printed. -/
structure Tracks {σ : Type} [Sink σ] (code : List Byte) (s : StackMachine) (offset : Nat)
    (r : Run σ) : Prop where
  goesOn : r.outcome = .unfinished
  machine : Simulates code s offset r.machine
  output : r.output.toList = s.printed.flatMap Effect.line
  accepts : Sink.Accepts r.sink

namespace Tracks
variable {σ : Type} [Sink σ] {code : List Byte} {s final : StackMachine} {offset : Nat} {r : Run σ}

theorem advance {c : Command} {next : StackMachine} {rest : List Byte}
    (tracks : Tracks code s offset r) (placed : code.drop offset = c.encode ++ rest)
    (exec : s.exec? c = some next) (room : code.length + s.stack.length ≤ 0xF4)
    (roomAfter : code.length + next.stack.length ≤ 0xF4) :
    Tracks code next (offset + c.encode.length) r.advance := by
  have fetched := tracks.machine.fetch placed
  obtain ⟨after, printed⟩ := tracks.machine.step exec room roomAfter
  obtain ⟨outcome, machine, output, accepts⟩ :=
    Run.advance_of_fetch tracks.machine.running fetched tracks.accepts
  rw [after.running] at outcome
  refine ⟨outcome, ?_, ?_, accepts⟩
  · rw [machine]
    exact after
  · rw [output, printed, tracks.output]

theorem within {tail : List Byte} (program : List Command) (tracks : Tracks code s offset r)
    (placed : code.drop offset = encode program ++ tail)
    (runs : StackMachine.run? program s = some final)
    (room : code.length + StackMachine.deepest program s ≤ 0xF4) :
    Tracks code final (offset + (encode program).length) (r.within program.length) := by
  -- The depth still to come bounds the stack before and after every command on the way.
  induction program generalizing s offset r with
  | nil =>
    obtain rfl := Option.some.inj runs
    exact tracks
  | cons c rest ih =>
    obtain ⟨next, exec, later⟩ := Option.bind_eq_some_iff.mp runs
    have here := s.stack_le_deepest (c :: rest)
    have below := StackMachine.deepest_rest exec rest
    have there := next.stack_le_deepest rest
    have first : code.drop offset = c.encode ++ (encode rest ++ tail) := by
      rw [placed, encode, List.flatMap_cons, List.append_assoc]
      rfl
    have behind : code.drop (offset + c.encode.length) = encode rest ++ tail := by
      rw [← List.drop_drop, first, List.drop_left]
    have stepped := tracks.advance first exec (by omega) (by omega)
    have done := ih stepped behind later (by omega)
    rw [Nat.add_assoc, ← List.length_append] at done
    rw [List.length_cons, Run.within_succ tracks.goesOn]
    exact done

theorem halt (tracks : Tracks code s offset r) (placed : code.drop offset = [0x01]) :
    r.advance.outcome = .halted ∧ r.advance.machine.status = .halted ∧
    r.advance.machine.pc = BitVec.ofNat 8 code.length ∧
    (∀ i (inside : i < code.length), r.advance.machine.read (BitVec.ofNat 8 i) = code[i]) ∧
    (∀ q : Fin 7, r.advance.machine.register q.castSucc = s.registers q) ∧
    r.advance.machine.flags = flags s.comparison ∧ Holds r.advance.machine s.stack ∧
    r.advance.output.toList = s.printed.flatMap Effect.line := by
  have sim := tracks.machine
  have opcode : r.machine.read r.machine.pc = Opcode.halt.toByte := by
    have last : code.drop offset = [0x01] ++ [] := placed
    have byte := sim.read_placed last 0 (Nat.zero_lt_succ 0)
    rwa [BitVec.add_zero] at byte
  have fetched : r.machine.fetch? = some .halt := Machine.fetch?_of_opcode opcode
  have extent : code.length = offset + 1 := by
    have behind := congrArg List.length placed
    rw [List.length_drop, List.length_singleton] at behind
    omega
  obtain ⟨outcome, machine, output, -⟩ :=
    Run.advance_of_fetch sim.running fetched tracks.accepts
  have stopped : r.advance.machine =
      { r.machine.jump (BitVec.ofNat 8 code.length) with status := .halted } := by
    rw [machine, extent]
    exact congrArg (fun target => { r.machine.jump target with status := .halted })
      (sim.next_eq .halt)
  rw [stopped]
  refine ⟨outcome, rfl, rfl, sim.code, sim.registers, sim.flags,
    ⟨sim.stack.sp, sim.stack.cells⟩, ?_⟩
  rw [output, tracks.output]
  exact List.append_nil _

end Tracks

def loaded (program : List Command) : Machine := Machine.initial.withImage (image program)

theorem tracks_start {σ : Type} [Sink σ] {sink : σ} (accepts : Sink.Accepts sink)
    {program : List Command} (fits : (image program).size ≤ memorySize) :
    Tracks (image program).bytes .initial 0 (Run.start (loaded program) sink) := by
  have cells (i : Nat) (inside : i < (image program).bytes.length) :
      (loaded program).read (BitVec.ofNat 8 i) = (image program).bytes[i] := by
    have address : (BitVec.ofNat 8 i).toNat = i :=
      (BitVec.toNat_ofNat i 8).trans (Nat.mod_eq_of_lt (Nat.lt_of_lt_of_le inside fits))
    rw [loaded, Machine.read_withImage, address, List.getElem?_eq_getElem inside, Option.getD_some]
  have zeros (r : Fin 7) : (loaded program).register r.castSucc = 0 := by
    rw [loaded, Machine.register_withImage]
    change (Registers.withStackAt Machine.emptyStack).get r.castSucc = 0
    rw [Registers.withStackAt, Registers.get_set_other _ _ (general_castSucc r)]
    revert r
    decide
  have empty : Holds (loaded program) [] :=
    ⟨Registers.get_set_same _ _ _, fun k inside => absurd inside (Nat.not_lt_zero k)⟩
  exact ⟨rfl, ⟨rfl, rfl, cells, zeros, rfl, empty⟩, rfl, accepts⟩

/-- A program that never pops an empty stack and leaves enough room between its code and 0xF4 is
loaded into a new machine and halts there after one step for each command and one for the HLT. What
the stack machine holds then is in the byte machine, and the code is as it was loaded. -/
theorem straight_line_exact {σ : Type} [Sink σ] {sink : σ} (accepts : Sink.Accepts sink)
    {program : List Command} {final : StackMachine}
    (runs : StackMachine.run? program .initial = some final)
    (room : (image program).size + StackMachine.deepest program .initial ≤ 0xF4) :
    ∃ start, (Machine.initial.load (image program)).value = .ok start ∧
      (∀ k ≤ program.length, ((Run.start start sink).within k).outcome = .unfinished) ∧
      ∀ limit > program.length,
        let last := (Run.start start sink).within limit
        last.outcome = .halted ∧ last.machine.status = .halted ∧
        last.machine.pc.toNat = (image program).size ∧
        (∀ r : Fin 7, last.machine.register r.castSucc = final.registers r) ∧
        last.machine.flags = flags final.comparison ∧
        last.output.toList =
          final.printed.flatMap (fun value => Effect.ascii (Effect.text value)) ∧
        last.machine.sp.toNat + final.stack.length = 0xF4 ∧
        (∀ k (inside : k < final.stack.length),
          last.machine.read (last.machine.sp + BitVec.ofNat 8 k) = final.stack[k]) ∧
        ∀ i (inside : i < (image program).bytes.length),
          last.machine.read (BitVec.ofNat 8 i) = (image program).bytes[i] := by
  have fits : (image program).size ≤ memorySize := by
    change _ ≤ 256
    omega
  have before := Tracks.within program (tracks_start accepts fits) rfl runs room
  refine ⟨loaded program, Machine.load_eq_ok_iff.mpr ⟨fits, rfl⟩, ?_, ?_⟩
  · intro k inside
    exact Run.unfinished_of_le inside before.goesOn
  · intro limit beyond last
    have behind : (image program).bytes.drop (0 + (encode program).length) = [0x01] := by
      rw [Nat.zero_add]
      exact List.drop_left
    obtain ⟨outcome, status, pc, code, registers, compared, stack, output⟩ := before.halt behind
    have ended : last =
        ((Run.start (loaded program) sink).within program.length).advance := by
      obtain ⟨rest, rfl⟩ := Nat.exists_eq_add_of_lt beyond
      change Run.within (program.length + rest + 1) _ = _
      rw [Nat.add_right_comm, Run.within_add, Run.within_succ_last before.goesOn]
      apply Run.within_of_ended
      rw [outcome]
      exact Outcome.noConfusion
    rw [← ended] at outcome status pc code registers compared stack output
    have extent : (image program).bytes.length ≤ 0xF4 := Nat.le_of_add_right_le room
    have depth : final.stack.length ≤ 0xF4 :=
      Nat.le_trans (StackMachine.final_le_deepest runs) (Nat.le_of_add_left_le room)
    refine ⟨outcome, status, ?_, registers, compared, ?_, ?_, ?_, code⟩
    · rw [pc, BitVec.toNat_ofNat, Nat.mod_eq_of_lt (by omega)]
      rfl
    · rw [output]
      exact congrArg final.printed.flatMap (funext Effect.line_eq_ascii)
    · rw [stack.sp, BitVec.toNat_ofNat, Nat.mod_eq_of_lt (by omega)]
      exact Nat.sub_add_cancel depth
    · intro k inside
      rw [stack.sp, ← BitVec.ofNat_add]
      exact stack.cells k inside

def product : List Command :=
  [.loadImmediate ⟨0xF9, by decide⟩ 0x07, .push ⟨0x01, by decide⟩,
    .loadImmediate ⟨0x02, by decide⟩ 0x06, .multiply ⟨0x0A, by decide⟩ ⟨0x01, by decide⟩,
    .compare ⟨0x02, by decide⟩ ⟨0x01, by decide⟩, .print ⟨0x02, by decide⟩,
    .push ⟨0x02, by decide⟩, .pop ⟨0x80, by decide⟩]

theorem straight_line_exact_product :
    ∃ final start, StackMachine.run? product .initial = some final ∧
      (Machine.initial.load (image product)).value = .ok start ∧
      final.stack = [0x07] ∧
      ((Run.start start Room.unlimited).within 8).outcome = .unfinished ∧
      ((Run.start start Room.unlimited).within 9).outcome = .halted ∧
      ((Run.start start Room.unlimited).within 9).machine.flags = ⟨false, true, false⟩ ∧
      ((Run.start start Room.unlimited).within 9).output.toList = [52, 50, 10] ∧
      ((Run.start start Room.unlimited).within 9).machine.sp.toNat + 1 = 0xF4 := by
  obtain ⟨final, runs, stack, printed, compared⟩ : ∃ final,
      StackMachine.run? product .initial = some final ∧ final.stack = [0x07] ∧
      final.printed = [0x2A] ∧ final.comparison = some .gt :=
    ⟨_, rfl, rfl, rfl, rfl⟩
  obtain ⟨start, load, going, ended⟩ :=
    straight_line_exact Sink.accepts_unlimited runs (by decide)
  obtain ⟨outcome, _, _, _, flags, output, sp, _⟩ := ended 9 (by decide)
  rw [compared] at flags
  rw [printed] at output
  rw [stack] at sp
  exact ⟨final, start, runs, load, stack, going 8 (by decide), outcome, flags,
    output.trans (by decide), sp⟩

end ByteMachine.StraightLine

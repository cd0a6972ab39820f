import ByteMachine.Proofs.Transition

/-!
The instruction set as its table gives it, over natural numbers. An address or a value counts
modulo 256 and a register number modulo 8, the flags are the three low bits LGE of a number, and
a row of the table is a sequence of assignments. Every step of a running machine is the row of the
byte at its program counter; a byte without a row is reported and nothing changes.
-/

namespace ByteMachine.InstructionSet

structure State where
  pc : Nat
  memory : Nat → Nat
  registers : Nat → Nat
  flags : Nat
  halted : Bool

def comparison (left right : Nat) : Nat :=
  if left < right then 0b100 else if right < left then 0b010 else 0b001

namespace State
variable (s : State)

def store (address value : Nat) : State :=
  { s with memory := fun a => if a % 256 = address % 256 then value % 256 else s.memory a }

def assign (number value : Nat) : State :=
  { s with registers := fun n => if n % 8 = number % 8 then value % 256 else s.registers n }

def goto (address : Nat) : State := { s with pc := address % 256 }

def setFlags (flags : Nat) : State := { s with flags }

def stop : State := { s with halted := true }

def sp : Nat := s.registers 7

/-- The stack pointer goes down by one, modulo 256, before the value is stored where it points. -/
def push (value : Nat) : State :=
  let lowered := s.assign 7 (s.sp + 255)
  lowered.store lowered.sp value

def pop : Nat × State := (s.memory s.sp, s.assign 7 (s.sp + 1))

end State

/-- The row of an opcode, with the two bytes behind it, and the text that it prints. -/
def row? (s : State) (opcode a b : Nat) : Option (State × List Char) :=
  match opcode with
  | 0x82 => some ((s.assign a b).goto (s.pc + 3), [])
  | 0xA0 => some ((s.assign a (s.registers a + s.registers b)).goto (s.pc + 3), [])
  | 0xA2 => some ((s.assign a (s.registers a * s.registers b)).goto (s.pc + 3), [])
  | 0xA7 => some ((s.setFlags (comparison (s.registers a) (s.registers b))).goto (s.pc + 3), [])
  | 0x47 => some (s.goto (s.pc + 2), Nat.toDigits 10 (s.registers a) ++ ['\n'])
  | 0x45 => some ((s.push (s.registers a)).goto (s.pc + 2), [])
  | 0x46 => some ((s.pop.2.assign a s.pop.1).goto (s.pc + 2), [])
  | 0x50 => some ((s.push (s.pc + 2)).goto ((s.push (s.pc + 2)).registers a), [])
  | 0x11 => some (s.pop.2.goto s.pop.1, [])
  | 0x54 => some (s.goto (s.registers a), [])
  | 0x55 => some (s.goto (if s.flags % 2 = 1 then s.registers a else s.pc + 2), [])
  | 0x56 => some (s.goto (if s.flags % 2 = 1 then s.pc + 2 else s.registers a), [])
  | 0x01 => some (s.stop.goto (s.pc + 1), [])
  | _ => none

def step? (s : State) : Option (State × List Char) :=
  row? s (s.memory s.pc) (s.memory (s.pc + 1)) (s.memory (s.pc + 2))

def numbered (n : Nat) : Register := ⟨n % 8, Nat.mod_lt n (Nat.zero_lt_succ 7)⟩

theorem numbered_val (r : Register) : numbered r.val = r := Fin.ext (Nat.mod_eq_of_lt r.isLt)

def view (m : Machine) : State where
  pc := m.pc.toNat
  memory a := (m.read (BitVec.ofNat 8 a)).toNat
  registers n := (m.register (numbered n)).toNat
  flags := m.flags.bits.toNat
  halted := m.status == .halted

theorem bits_injective : Function.Injective Flags.bits := by
  rintro ⟨_ | _, _ | _, _ | _⟩ ⟨_ | _, _ | _, _ | _⟩ same <;>
    first | rfl | exact absurd same (by decide)

-- The view forgets nothing: what the table says of it, it says of the whole machine.
theorem view_injective : Function.Injective view := by
  intro m n same
  simp only [view, State.mk.injEq] at same
  obtain ⟨pc, memory, registers, flags, halted⟩ := same
  apply Machine.eq_of_observed
  · exact BitVec.eq_of_toNat_eq pc
  · intro a
    have cell := congrFun memory a.toNat
    simpa using BitVec.eq_of_toNat_eq cell
  · intro r
    have cell := congrFun registers r.val
    rw [numbered_val] at cell
    exact BitVec.eq_of_toNat_eq cell
  · exact bits_injective (BitVec.eq_of_toNat_eq flags)
  · cases left : m.status <;> cases right : n.status <;> simp [left, right] at halted ⊢

/-! Only residues count, whatever numbers a row computes. -/
section Residues
variable (s : State) (k value : Nat)

@[simp] theorem goto_mod : s.goto (k % 256) = s.goto k := by simp [State.goto]

@[simp] theorem assign_mod : s.assign k (value % 256) = s.assign k value := by simp [State.assign]

@[simp] theorem assign_number_mod : s.assign (k % 8) value = s.assign k value := by
  simp [State.assign]

@[simp] theorem store_mod : s.store k (value % 256) = s.store k value := by simp [State.store]

@[simp] theorem store_address_mod : s.store (k % 256) value = s.store k value := by
  simp [State.store]

@[simp] theorem push_mod : s.push (value % 256) = s.push value := by simp [State.push]

@[simp] theorem sp_assign : (s.assign 7 value).sp = value % 256 := by
  simp [State.assign, State.sp]

end Residues

/-! The view commutes with what a machine is changed by. -/
section Commutation
variable (m : Machine)

theorem view_memory (a : Byte) (k : Nat) :
    (view m).memory (a.toNat + k) = (m.read (a + BitVec.ofNat 8 k)).toNat := by
  simp [view, BitVec.ofNat_add]

theorem view_registers (operand : Byte) :
    (view m).registers operand.toNat = (m.register (.ofOperand operand)).toNat := rfl

theorem view_sp : (view m).sp = m.sp.toNat := rfl

theorem view_jump (target : Byte) : view (m.jump target) = (view m).goto target.toNat := by
  have inRange : target.toNat % 256 = target.toNat := Nat.mod_eq_of_lt target.isLt
  simp [view, State.goto, inRange]

theorem view_setRegister (r : Register) (value : Byte) :
    view (m.setRegister r value) = (view m).assign r.val value.toNat := by
  have inRange : value.toNat % 256 = value.toNat := Nat.mod_eq_of_lt value.isLt
  have cells : (fun n => ((m.setRegister r value).register (numbered n)).toNat) =
      fun n => if n % 8 = r.val % 8 then value.toNat % 256
        else (m.register (numbered n)).toNat := by
    funext n
    have named : numbered n = r ↔ n % 8 = r.val % 8 := by
      rw [Nat.mod_eq_of_lt r.isLt]
      exact Fin.ext_iff
    rw [Machine.register_setRegister, apply_ite BitVec.toNat, inRange]
    simp only [named]
  simp only [view, State.assign, State.mk.injEq]
  exact ⟨rfl, rfl, cells, rfl, rfl⟩

theorem view_write (a value : Byte) :
    view (m.write a value) = (view m).store a.toNat value.toNat := by
  have inRange : value.toNat % 256 = value.toNat := Nat.mod_eq_of_lt value.isLt
  have cells : (fun k => ((m.write a value).read (BitVec.ofNat 8 k)).toNat) =
      fun k => if k % 256 = a.toNat % 256 then value.toNat % 256
        else (m.read (BitVec.ofNat 8 k)).toNat := by
    funext k
    have addressed : BitVec.ofNat 8 k = a ↔ k % 256 = a.toNat % 256 := by
      rw [← BitVec.toNat_inj, BitVec.toNat_ofNat, Nat.mod_eq_of_lt a.isLt]
    rw [Machine.read_write, apply_ite BitVec.toNat, inRange]
    simp only [addressed]
  simp only [view, State.store, State.mk.injEq]
  exact ⟨rfl, cells, rfl, rfl, rfl⟩

theorem view_push (value : Byte) : view (m.push value) = (view m).push value.toNat := by
  have lowered : (m.sp - 1).toNat = (m.sp.toNat + 255) % 256 := by
    rw [BitVec.toNat_sub]
    exact congrArg (· % 256) (Nat.add_comm 255 m.sp.toNat)
  rw [Machine.push, view_write, view_setRegister, lowered, assign_mod, store_address_mod,
    State.push, sp_assign, store_address_mod]
  rfl

theorem view_popped : (view m).pop.1 = m.pop.1.toNat := by
  have top := view_memory m m.sp 0
  simpa [State.pop, view_sp] using top

theorem view_pop : view m.pop.2 = (view m).pop.2 := by
  have raised : (m.sp + 1).toNat = (m.sp.toNat + 1) % 256 := BitVec.toNat_add m.sp 1
  rw [Machine.pop, view_setRegister, raised, assign_mod]
  rfl

theorem equal_eq_bit (f : Flags) : f.equal = decide (f.bits.toNat % 2 = 1) := by
  rcases f with ⟨_ | _, _ | _, _ | _⟩ <;> rfl

theorem bits_compare (l r : Byte) :
    (Flags.compare l r).bits.toNat = comparison l.toNat r.toNat := by
  unfold Flags.compare comparison
  simp only [BitVec.lt_def, ← BitVec.toNat_inj]
  rcases Nat.lt_trichotomy l.toNat r.toNat with less | same | greater
  · simp [less, Nat.lt_asymm less, Nat.ne_of_lt less]
    rfl
  · simp [same]
    rfl
  · simp [greater, Nat.lt_asymm greater, Nat.ne_of_gt greater]
    rfl

theorem toNat_next (i : Instruction) :
    (m.next i).toNat = (m.pc.toNat + i.opcode.width) % 256 := by
  simp [Machine.next, BitVec.toNat_add]

theorem view_goto_next (after : Machine) (i : Instruction) :
    view (after.jump (m.next i)) = (view after).goto (m.pc.toNat + i.opcode.width) := by
  rw [view_jump, toNat_next, goto_mod]

theorem view_setOperand (operand value : Byte) :
    view (m.setRegister (.ofOperand operand) value) =
      (view m).assign operand.toNat value.toNat := by
  rw [view_setRegister]
  exact assign_number_mod (view m) operand.toNat value.toNat

def text (e : Effect) : List Char := (e.printed.map Effect.text).getD []

theorem row_next (i : Instruction) {after : Machine} {row : State} (printed : List Char)
    (done : view after = row) :
    some (row.goto (m.pc.toNat + i.opcode.width), printed) =
      some (view (after.jump (m.next i)), printed) := by
  rw [view_goto_next, done]

theorem row_effect (op : Opcode) (first second : Byte) :
    row? (view m) op.toByte.toNat first.toNat second.toNat =
      some (view (m.effect (.ofOpcode op first second)).machine,
        text (m.effect (.ofOpcode op first second))) := by
  have left := view_registers m first
  have right := view_registers m second
  have equal := equal_eq_bit m.flags
  cases op with
  | halt =>
    have stopped : view { m with status := .halted } = (view m).stop := rfl
    exact row_next m .halt [] stopped
  | ret =>
    have popped := view_jump m.pop.2 m.pop.1
    rw [view_pop, ← view_popped] at popped
    exact congrArg (fun after => some (after, [])) popped.symm
  | push =>
    have pushed := view_push m (m.register (.ofOperand first))
    exact row_next m (.push (.ofOperand first)) [] pushed
  | pop =>
    have delivered := view_setOperand m.pop.2 first m.pop.1
    rw [view_pop, ← view_popped] at delivered
    exact row_next m (.pop (.ofOperand first)) [] delivered
  | print =>
    exact row_next m (.print (.ofOperand first)) _ rfl
  | call =>
    let pushed := m.push (m.next (.call (.ofOperand first)))
    have saved : view pushed = (view m).push (m.pc.toNat + 2) := by
      rw [view_push, toNat_next, push_mod]
      rfl
    -- The operand is read after the push.
    have entered := view_jump pushed (pushed.register (.ofOperand first))
    rw [← view_registers, saved] at entered
    exact congrArg (fun after => some (after, [])) entered.symm
  | jump =>
    have jumped := view_jump m (m.register (.ofOperand first))
    rw [← left] at jumped
    exact congrArg (fun after => some (after, [])) jumped.symm
  | jumpIfEqual =>
    change some ((view m).goto (if m.flags.bits.toNat % 2 = 1 then (view m).registers first.toNat
        else m.pc.toNat + 2), []) =
      some (view (m.jump (if m.flags.equal then m.register (.ofOperand first)
        else m.next (.jumpIfEqual _))), [])
    rw [view_jump, left, equal]
    by_cases taken : m.flags.bits.toNat % 2 = 1
    · simp [taken]
    · simp [taken, toNat_next]
      rfl
  | jumpIfNotEqual =>
    change some ((view m).goto (if m.flags.bits.toNat % 2 = 1 then m.pc.toNat + 2
        else (view m).registers first.toNat), []) =
      some (view (m.jump (if m.flags.equal then m.next (.jumpIfNotEqual _)
        else m.register (.ofOperand first))), [])
    rw [view_jump, left, equal]
    by_cases untaken : m.flags.bits.toNat % 2 = 1
    · simp [untaken, toNat_next]
      rfl
    · simp [untaken]
  | loadImmediate =>
    have loaded := view_setOperand m first second
    exact row_next m (.loadImmediate (.ofOperand first) second) [] loaded
  | add =>
    have sum := view_setOperand m first
      (m.register (.ofOperand first) + m.register (.ofOperand second))
    rw [BitVec.toNat_add, assign_mod, ← left, ← right] at sum
    exact row_next m (.add (.ofOperand first) (.ofOperand second)) [] sum
  | multiply =>
    have product := view_setOperand m first
      (m.register (.ofOperand first) * m.register (.ofOperand second))
    rw [BitVec.toNat_mul, assign_mod, ← left, ← right] at product
    exact row_next m (.multiply (.ofOperand first) (.ofOperand second)) [] product
  | compare =>
    let outcome := Flags.compare (m.register (.ofOperand first)) (m.register (.ofOperand second))
    have compared : view { m with flags := outcome } = (view m).setFlags
        (comparison ((view m).registers first.toNat) ((view m).registers second.toNat)) := by
      rw [left, right, ← bits_compare]
      rfl
    exact row_next m (.compare (.ofOperand first) (.ofOperand second)) [] compared

end Commutation

/-! The step reads the table at its program counter. -/
section Steps
variable {m : Machine}

theorem output_eq_ascii (e : Effect) : e.output = Effect.ascii (text e) := by
  cases printed : e.printed with
  | none => simp [Effect.output, text, printed, Effect.ascii]
  | some value => simp [Effect.output, text, printed, Effect.line_eq_ascii]

theorem sinkAfter_eq {σ : Type} [Sink σ] (e : Effect) (sink : σ) :
    e.sinkAfter sink =
      if text e = [] then sink else (Sink.offer sink (Effect.ascii (text e))).2 := by
  cases printed : e.printed with
  | none => simp [Effect.sinkAfter, text, printed]
  | some value => simp [Effect.sinkAfter, text, printed, Effect.line_eq_ascii, Effect.text]

theorem step?_view (m : Machine) :
    step? (view m) = row? (view m) (m.read m.pc).toNat (m.read (m.pc + 1)).toNat
      (m.read (m.pc + 2)).toNat := by
  have opcode := view_memory m m.pc 0
  have first := view_memory m m.pc 1
  have second := view_memory m m.pc 2
  simp only [Nat.add_zero, BitVec.add_zero] at opcode
  change row? (view m) ((view m).memory m.pc.toNat) ((view m).memory (m.pc.toNat + 1))
    ((view m).memory (m.pc.toNat + 2)) = _
  rw [opcode, first, second]
  rfl

theorem step?_of_fetch {i : Instruction} (fetched : m.fetch? = some i) :
    step? (view m) = some (view (m.effect i).machine, text (m.effect i)) := by
  obtain ⟨op, decoded, rfl⟩ := Option.map_eq_some_iff.mp fetched
  have opcode := Opcode.toByte_of_ofByte? decoded
  rw [step?_view, ← opcode]
  exact row_effect m op _ _

theorem ofByte?_of_row {s after : State} {b : Byte} {first second : Nat} {printed : List Char}
    (row : row? s b.toNat first second = some (after, printed)) : Opcode.ofByte? b ≠ none := by
  have byte (n : Nat) (same : b.toNat = n) : b = BitVec.ofNat 8 n := by
    rw [← same, BitVec.ofNat_toNat, BitVec.setWidth_eq]
  unfold row? at row
  split at row
  all_goals first
    | contradiction
    | (rename_i same; rw [byte _ same]; decide)

theorem step?_of_unknown (unknown : m.fetch? = none) : step? (view m) = none := by
  have undecoded : Opcode.ofByte? (m.read m.pc) = none := Option.map_eq_none_iff.mp unknown
  cases row : step? (view m) with
  | none => rfl
  | some found =>
    rw [step?_view] at row
    exact absurd undecoded (ofByte?_of_row row)

end Steps

/-- One step of a running machine whose output is taken is the row of the byte at the program
counter: state, status and text are the row's, and all else is as before. A byte without a row is
reported with its address, and nothing changes. -/
theorem step_table_exact {σ : Type} [Sink σ] (m : Machine) (sink : σ)
    (running : m.status = .running) (accepts : Sink.Accepts sink) :
    Function.Injective view ∧
    (∀ after printed, step? (view m) = some (after, printed) →
      view (m.step sink).machine = after ∧
      (m.step sink).result = .ok (if after.halted then .halted else .running) ∧
      (m.step sink).output = Effect.ascii printed ∧
      (m.step sink).sink =
        if printed = [] then sink else (Sink.offer sink (Effect.ascii printed)).2) ∧
    (step? (view m) = none →
      (m.step sink).machine = m ∧
      (m.step sink).result = .error (.illegalInstruction m.pc (m.read m.pc)) ∧
      (m.step sink).output = [] ∧ (m.step sink).sink = sink) := by
  refine ⟨view_injective, ?_, ?_⟩
  · intro after printed row
    cases fetched : m.fetch? with
    | none => simp [step?_of_unknown fetched] at row
    | some i =>
      rw [step?_of_fetch fetched, Option.some.injEq, Prod.mk.injEq] at row
      obtain ⟨rfl, rfl⟩ := row
      obtain ⟨result, machine, output, offered⟩ :=
        Machine.step_of_fits running fetched ((m.effect i).fits_of_accepts accepts)
      refine ⟨congrArg view machine, ?_, ?_, ?_⟩
      · rw [result]
        cases status : (m.effect i).machine.status <;> simp [view, status]
      · rw [output, output_eq_ascii]
      · rw [offered, sinkAfter_eq]
  · intro noRow
    cases fetched : m.fetch? with
    | none => simp [Machine.step_of_unknown running fetched]
    | some i => simp [step?_of_fetch fetched] at noRow

/-- `CALL R7` at the last but one address with an empty stack at 0: the return address goes over
its own operand and the jump is to the new stack pointer. -/
def callAtWrap : Machine :=
  let code := (({ Machine.initial with pc := 0xFE }).write 0xFE 0x50).write 0xFF 0x0F
  code.setRegister .stackPointer 0x00

theorem step_table_exact_callAtWrap :
    callAtWrap.status = .running ∧ Sink.Accepts Room.unlimited ∧
    (view (callAtWrap.step Room.unlimited).machine).pc = 0xFF ∧
    (view (callAtWrap.step Room.unlimited).machine).memory 0xFF = 0x00 ∧
    (callAtWrap.step Room.unlimited).result = .ok .running := by
  obtain ⟨_, row, _⟩ := step_table_exact callAtWrap Room.unlimited rfl Sink.accepts_unlimited
  obtain ⟨state, result, _⟩ := row _ _ rfl
  exact ⟨rfl, Sink.accepts_unlimited, by rw [state]; rfl, by rw [state]; rfl, result⟩

end ByteMachine.InstructionSet

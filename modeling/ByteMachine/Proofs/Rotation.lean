import ByteMachine.Proofs.Transition

/-!
No address is special. Code, stack and program counter can be moved together by any distance, round
the end of memory if need be, and as long as no instruction takes an address for a value or a value
for an address, the machine at its new place does step by step what it did at the old one. What it
reports names the new addresses.
-/

namespace ByteMachine

namespace Memory

def rotate (m : Memory) (k : Byte) : Memory := ⟨Vector.ofFn fun i => m.read (.ofFin i - k)⟩

theorem read_rotate (m : Memory) (k a : Byte) : (m.rotate k).read a = m.read (a - k) := by
  simp [rotate, read]

end Memory

def Fault.rotate (k : Byte) : Fault → Fault
  | .illegalInstruction address opcode => .illegalInstruction (address + k) opcode
  | other => other

def Outcome.rotate (k : Byte) : Outcome → Outcome
  | .fault reason => .fault (reason.rotate k)
  | other => other

def Event.rotate (k : Byte) : Event → Event
  | .executing pc op first second flags => .executing (pc + k) op first second flags
  | .halting address => .halting (address + k)
  | .ended pc => .ended (pc + k)
  | other => other

namespace Machine

/-- The machine at its new place; the stack pointer goes along with what it points to. -/
def rotate (m : Machine) (k : Byte) : Machine :=
  { m with
    pc := m.pc + k
    memory := m.memory.rotate k
    registers := m.registers.set .stackPointer (m.sp + k) }

/-- Whether what the instruction does is the same at every place. Jumps go to a fixed address, CALL
leaves its own address on the stack and RET takes one from there. -/
def Placeless (m : Machine) : Instruction → Prop
  | .halt => True
  | .loadImmediate a _ | .print a | .push a | .pop a => a ≠ .stackPointer
  | .add a b | .multiply a b | .compare a b => a ≠ .stackPointer ∧ b ≠ .stackPointer
  | .jumpIfEqual _ => m.flags.equal = false
  | .jumpIfNotEqual _ => m.flags.equal = true
  | .jump _ | .call _ | .ret => False

/-- What the next step executes, if anything, is placeless. A PRN counts even if the sink refuses
its line, of which a part may be out. -/
def Portable (m : Machine) : Prop := m.status = .running → ∀ i ∈ m.fetch?, m.Placeless i

instance (m : Machine) : DecidablePred m.Placeless
  | .halt => inferInstanceAs (Decidable True)
  | .loadImmediate .. | .print _ | .push _ | .pop _ => inferInstanceAs (Decidable (_ ≠ _))
  | .add .. | .multiply .. | .compare .. => inferInstanceAs (Decidable (_ ∧ _))
  | .jumpIfEqual _ | .jumpIfNotEqual _ => inferInstanceAs (Decidable (_ = _))
  | .jump _ | .call _ | .ret => inferInstanceAs (Decidable False)

instance (m : Machine) : Decidable m.Portable :=
  inferInstanceAs (Decidable (m.status = .running → ∀ i ∈ m.fetch?, m.Placeless i))

variable (m : Machine) (k : Byte)

@[simp] theorem pc_rotate : (m.rotate k).pc = m.pc + k := rfl
@[simp] theorem status_rotate : (m.rotate k).status = m.status := rfl

theorem read_rotate (a : Byte) : (m.rotate k).read a = m.read (a - k) :=
  m.memory.read_rotate k a

theorem read_rotate_add (a : Byte) : (m.rotate k).read (a + k) = m.read a := by
  rw [read_rotate, BitVec.add_sub_cancel]

theorem read_behind_rotate (offset : Byte) :
    (m.rotate k).read (m.pc + k + offset) = m.read (m.pc + offset) := by
  have moved : m.pc + k + offset = m.pc + offset + k := by bv_omega
  rw [moved, read_rotate_add]

theorem register_rotate (r : Register) :
    (m.rotate k).register r = if r = .stackPointer then m.sp + k else m.register r :=
  m.registers.get_set .stackPointer r (m.sp + k)

@[simp] theorem sp_rotate : (m.rotate k).sp = m.sp + k :=
  m.registers.get_set_same .stackPointer (m.sp + k)

theorem register_rotate_general {r : Register} (general : r ≠ .stackPointer) :
    (m.rotate k).register r = m.register r := by
  rw [register_rotate, if_neg general]

/-! Rotation commutes with what a machine is changed by. -/

theorem jump_rotate (target : Byte) : (m.rotate k).jump (target + k) = (m.jump target).rotate k :=
  rfl

theorem setRegister_rotate {r : Register} (general : r ≠ .stackPointer) (value : Byte) :
    (m.rotate k).setRegister r value = (m.setRegister r value).rotate k := by
  refine eq_of_observed rfl (fun _ => rfl) ?_ rfl rfl
  intro q
  rw [register_setRegister, register_rotate, register_rotate, sp_setRegister_other m value general,
    register_setRegister]
  by_cases same : q = r
  · rw [if_pos same, if_neg (same ▸ general), if_pos same]
  · rw [if_neg same, if_neg same]

theorem push_rotate (value : Byte) : (m.rotate k).push value = (m.push value).rotate k := by
  refine eq_of_observed rfl ?_ ?_ rfl rfl
  · intro c
    have top : c = m.sp + k - 1 ↔ c - k = m.sp - 1 := by
      constructor <;> intro same <;> bv_omega
    rw [read_push, read_rotate, read_rotate, read_push, sp_rotate]
    simp only [top]
  · intro r
    have lowered : m.sp + k - 1 = m.sp - 1 + k := by bv_omega
    rw [register_push, register_rotate, register_rotate, register_push, sp_rotate, sp_push, lowered]
    split <;> rfl

theorem pop_rotate : (m.rotate k).pop = (m.pop.1, m.pop.2.rotate k) := by
  refine Prod.ext ?_ (eq_of_observed rfl (fun _ => rfl) ?_ rfl rfl)
  · rw [fst_pop, sp_rotate, read_rotate_add, fst_pop]
  · intro r
    have raised : m.sp + k + 1 = m.sp + 1 + k := by bv_omega
    rw [register_pop, register_rotate, register_rotate, register_pop, sp_rotate, sp_pop, raised]
    split <;> rfl

theorem next_rotate (i : Instruction) : (m.rotate k).next i = m.next i + k := by
  rw [next, next, pc_rotate]
  bv_omega

theorem fetch?_rotate : (m.rotate k).fetch? = m.fetch? := by
  rw [fetch?, fetch?, pc_rotate, read_rotate_add, read_behind_rotate, read_behind_rotate]

theorem executing_rotate (i : Instruction) :
    (m.rotate k).executing i = (m.executing i).rotate k := by
  rw [executing, executing, pc_rotate, read_behind_rotate, read_behind_rotate]
  rfl

end Machine

def Effect.rotate (e : Effect) (k : Byte) : Effect := ⟨e.machine.rotate k, e.printed⟩

def Step.rotate {σ : Type} (s : Step σ) (k : Byte) : Step σ :=
  { s with
    result := s.result.mapError (Fault.rotate k)
    machine := s.machine.rotate k
    events := s.events.map (Event.rotate k) }

def Run.rotate {σ : Type} (r : Run σ) (k : Byte) : Run σ :=
  { r with
    outcome := r.outcome.rotate k
    machine := r.machine.rotate k
    events := r.events.map (Event.rotate k) }

namespace Machine
variable {m : Machine} {i : Instruction} (k : Byte)

theorem jump_next_rotate (i : Instruction) {here there : Machine} (same : there = here.rotate k) :
    there.jump ((m.rotate k).next i) = (here.jump (m.next i)).rotate k := by
  rw [same, next_rotate, jump_rotate]

theorem effect_jumpIfEqual_of_untaken (a : Register) (untaken : m.flags.equal = false) :
    m.effect (.jumpIfEqual a) = .quiet (m.jump (m.next (.jumpIfEqual a))) := by
  simp only [effect, execute, untaken]
  rfl

theorem effect_jumpIfNotEqual_of_untaken (a : Register) (untaken : m.flags.equal = true) :
    m.effect (.jumpIfNotEqual a) = .quiet (m.jump (m.next (.jumpIfNotEqual a))) := by
  simp only [effect, execute, untaken, if_true]

theorem effect_rotate (placeless : m.Placeless i) :
    (m.rotate k).effect i = (m.effect i).rotate k := by
  cases i with
  | halt =>
    have behind := jump_next_rotate (m := m) k .halt (Eq.refl (m.rotate k))
    exact congrArg (fun after => Effect.quiet { after with status := .halted }) behind
  | print a =>
    have value := m.register_rotate_general k placeless
    have behind := jump_next_rotate (m := m) k (.print a) (Eq.refl (m.rotate k))
    exact congr (congrArg Effect.mk behind) (congrArg some value)
  | push a =>
    have pushed : (m.rotate k).push ((m.rotate k).register a) =
        (m.push (m.register a)).rotate k := by
      rw [m.register_rotate_general k placeless, push_rotate]
    exact congrArg Effect.quiet (jump_next_rotate k (.push a) pushed)
  | pop a =>
    have delivered : (m.rotate k).pop.2.setRegister a (m.rotate k).pop.1 =
        (m.pop.2.setRegister a m.pop.1).rotate k := by
      rw [pop_rotate, setRegister_rotate m.pop.2 k placeless]
    exact congrArg Effect.quiet (jump_next_rotate k (.pop a) delivered)
  | loadImmediate a value =>
    have loaded := m.setRegister_rotate k placeless value
    exact congrArg Effect.quiet (jump_next_rotate k (.loadImmediate a value) loaded)
  | add a b =>
    have sum : (m.rotate k).setRegister a ((m.rotate k).register a + (m.rotate k).register b) =
        (m.setRegister a (m.register a + m.register b)).rotate k := by
      rw [m.register_rotate_general k placeless.1, m.register_rotate_general k placeless.2,
        setRegister_rotate m k placeless.1]
    exact congrArg Effect.quiet (jump_next_rotate k (.add a b) sum)
  | multiply a b =>
    have product : (m.rotate k).setRegister a ((m.rotate k).register a * (m.rotate k).register b) =
        (m.setRegister a (m.register a * m.register b)).rotate k := by
      rw [m.register_rotate_general k placeless.1, m.register_rotate_general k placeless.2,
        setRegister_rotate m k placeless.1]
    exact congrArg Effect.quiet (jump_next_rotate k (.multiply a b) product)
  | compare a b =>
    have left := m.register_rotate_general k placeless.1
    have right := m.register_rotate_general k placeless.2
    have outcome := congr (congrArg Flags.compare left) right
    have behind := jump_next_rotate (m := m) k (.compare a b) (Eq.refl (m.rotate k))
    exact congr (congrArg (fun after flags => Effect.quiet { after with flags }) behind) outcome
  | jumpIfEqual a =>
    have behind := jump_next_rotate (m := m) k (.jumpIfEqual a) (Eq.refl (m.rotate k))
    rw [effect_jumpIfEqual_of_untaken (m := m) a placeless,
      effect_jumpIfEqual_of_untaken (m := m.rotate k) a placeless]
    exact congrArg Effect.quiet behind
  | jumpIfNotEqual a =>
    have behind := jump_next_rotate (m := m) k (.jumpIfNotEqual a) (Eq.refl (m.rotate k))
    rw [effect_jumpIfNotEqual_of_untaken (m := m) a placeless,
      effect_jumpIfNotEqual_of_untaken (m := m.rotate k) a placeless]
    exact congrArg Effect.quiet behind
  | jump | call | ret => exact placeless.elim

variable {σ : Type} [Sink σ]

theorem deliver_rotate (m : Machine) (k : Byte) (i : Instruction) (e : Effect) (sink : σ) :
    (m.rotate k).deliver i (e.rotate k) sink = (m.deliver i e sink).rotate k := by
  obtain ⟨after, printed⟩ := e
  have executing := m.executing_rotate k i
  cases printed with
  | none =>
    simp only [deliver, Effect.rotate, executing, status_rotate, Step.rotate]
    cases after.status <;> rfl
  | some value =>
    simp only [deliver, Effect.rotate, executing, status_rotate]
    by_cases short : (Sink.offer sink (Effect.line value)).1 < (Effect.line value).length
    · rw [if_pos short, if_pos short]
      rfl
    · rw [if_neg short, if_neg short]
      cases after.status <;> rfl

theorem step_rotate (portable : m.Portable) (k : Byte) (sink : σ) :
    (m.rotate k).step sink = (m.step sink).rotate k := by
  cases status : m.status with
  | halted =>
    rw [step_of_halted status, step_of_halted (m := m.rotate k) status]
    rfl
  | running =>
    have found := m.fetch?_rotate k
    cases fetched : m.fetch? with
    | none =>
      rw [step_of_unknown status fetched,
        step_of_unknown (m := m.rotate k) status (found.trans fetched), pc_rotate, read_rotate_add]
      rfl
    | some i =>
      rw [step_of_fetch status fetched,
        step_of_fetch (m := m.rotate k) status (found.trans fetched),
        effect_rotate k (portable status i fetched), deliver_rotate]

end Machine

theorem Outcome.ofResult_rotate (k : Byte) (result : Except Fault Status) :
    ofResult (result.mapError (Fault.rotate k)) = (ofResult result).rotate k := by
  rcases result with reason | (_ | _) <;> rfl

namespace Run
variable {σ : Type} [Sink σ] {r : Run σ}

theorem advance_rotate (portable : r.machine.Portable) (k : Byte) :
    (r.rotate k).advance = r.advance.rotate k := by
  have step := Machine.step_rotate portable k r.sink
  have events (later : List Event) : (r.events ++ later).map (Event.rotate k) =
      r.events.map (Event.rotate k) ++ later.map (Event.rotate k) := by
    apply Array.ext'
    simp
  simp only [advance, rotate, step, Step.rotate, Outcome.ofResult_rotate, events]

omit [Sink σ] in
theorem rotate_start (m : Machine) (sink : σ) (k : Byte) :
    (start m sink).rotate k = start (m.rotate k) sink := by
  simp [rotate, start, Outcome.rotate]

theorem outcome_rotate_iff {k : Byte} {outcome : Outcome} :
    outcome.rotate k = .unfinished ↔ outcome = .unfinished := by
  cases outcome <;> simp [Outcome.rotate]

theorem within_rotate (n : Nat) (k : Byte)
    (portable : ∀ j < n, (r.within j).outcome = .unfinished → (r.within j).machine.Portable) :
    (r.rotate k).within n = (r.within n).rotate k := by
  induction n with
  | zero => rfl
  | succ n ih =>
    have soFar := ih fun j inside => portable j (Nat.lt_succ_of_lt inside)
    by_cases going : (r.within n).outcome = .unfinished
    · have alsoGoing : ((r.rotate k).within n).outcome = .unfinished := by
        rw [soFar]
        exact outcome_rotate_iff.mpr going
      rw [within_succ_last going, within_succ_last alsoGoing, soFar]
      exact advance_rotate (portable n (Nat.lt_succ_self n) going) k
    · have alsoEnded : ((r.rotate k).within n).outcome ≠ .unfinished := by
        rw [soFar]
        exact fun goesOn => going (outcome_rotate_iff.mp goesOn)
      rw [within_add, within_add, within_of_ended going, within_of_ended alsoEnded, soFar]

end Run

/-- Moving a machine before a run or after it comes to the same, for runs of any length on any sink,
and so it does for each of the steps. -/
theorem rotation_equivariance {σ : Type} [Sink σ] (m : Machine) (sink : σ) (k : Byte) (n : Nat) :
    let r := Run.start m sink
    (∀ j < n, (r.within j).outcome = .unfinished → (r.within j).machine.Portable) →
    ∀ j ≤ n,
      let here := r.within j
      let there := (Run.start (m.rotate k) sink).within j
      there = here.rotate k ∧
      (j < n → here.outcome = .unfinished →
        there.machine.step there.sink = (here.machine.step here.sink).rotate k) := by
  intro r portable j inside here there
  have same : there = here.rotate k := by
    have moved := Run.within_rotate j k fun i before =>
      portable i (Nat.lt_of_lt_of_le before inside)
    rwa [Run.rotate_start] at moved
  refine ⟨same, ?_⟩
  intro more going
  rw [same]
  exact Machine.step_rotate (portable j more going) k here.sink

/-- Loads R1, prints it, saves it, takes it back into R2, passes a conditional jump and comes to a
byte that is no opcode. -/
def portableProgram : Machine :=
  { Machine.initial with
    memory := Memory.zero.copy
      [0x82, 0x01, 0x05, 0x47, 0x01, 0x45, 0x01, 0x46, 0x02, 0x55, 0x07, 0xFF] }

-- Moved by 0xFB, the first instruction goes round the end of memory.
theorem rotation_equivariance_roundTheEnd :
    let r := Run.start portableProgram Room.unlimited
    let moved := Run.start (portableProgram.rotate 0xFB) Room.unlimited
    (∀ j < 9, (r.within j).outcome = .unfinished → (r.within j).machine.Portable) ∧
    moved.machine.pc = 0xFB ∧ moved.machine.sp = 0xEF ∧
    (r.within 9).outcome = .fault (.illegalInstruction 0x0B 0xFF) ∧
    (moved.within 9).outcome = .fault (.illegalInstruction 0x06 0xFF) ∧
    (moved.within 9).output.toList = [53, 10] := by
  intro r moved
  have portable : ∀ j < 9, (r.within j).outcome = .unfinished → (r.within j).machine.Portable := by
    decide +kernel
  have moves := rotation_equivariance portableProgram Room.unlimited 0xFB 9
  obtain ⟨same, -⟩ := moves portable 9 (Nat.le_refl 9)
  change moved.within 9 = (r.within 9).rotate 0xFB at same
  have outcome : (r.within 9).outcome = .fault (.illegalInstruction 0x0B 0xFF) := by
    decide +kernel
  have output : (r.within 9).output.toList = [53, 10] := by decide +kernel
  refine ⟨portable, by decide +kernel, by decide +kernel, outcome, ?_, ?_⟩
  · rw [same, Run.rotate, outcome]
    rfl
  · rw [same, Run.rotate, output]

end ByteMachine

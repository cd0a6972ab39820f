import ByteMachine.Proofs.Iteration

/-!
Why a loop has ended can be read off the machine it leaves. The step that ends it writes nothing to
memory: before the program counter of a halted machine stands the byte of HLT, and a step that fails
leaves the program counter at the byte that it could not decode or at the PRN that could not print.
-/

namespace ByteMachine

variable {σ : Type} [Sink σ]

namespace Machine
variable {m : Machine} {i : Instruction} {sink : σ} {made : List (Step σ)}

theorem read_pc_of_fetch (fetched : m.fetch? = some i) : m.read m.pc = i.opcode.toByte := by
  obtain ⟨op, decoded, rfl⟩ := Option.map_eq_some_iff.mp fetched
  rw [Instruction.opcode_ofOpcode]
  exact (Opcode.toByte_of_ofByte? decoded).symm

theorem not_toByte_of_unknown (unknown : m.fetch? = none) (op : Opcode) :
    op.toByte ≠ m.read m.pc := by
  intro encoded
  rw [fetch?_of_opcode encoded.symm] at unknown
  cases unknown

def Explains (m : Machine) : Outcome → Prop
  | .unfinished => m.status = .running
  | .halted => m.status = .halted ∧ m.read (m.pc - 1) = Opcode.halt.toByte
  | .fault (.illegalInstruction address opcode) =>
    m.status = .running ∧ address = m.pc ∧ opcode = m.read m.pc ∧ ∀ op : Opcode, op.toByte ≠ opcode
  | .fault .output => m.status = .running ∧ m.read m.pc = Opcode.print.toByte
  | .fault .halted | .fault (.unimplemented _) => False

theorem status_effect (other : i ≠ .halt) : (m.effect i).machine.status = m.status := by
  cases i with
  | halt => exact absurd rfl other
  | _ => rfl

theorem explains_halt (fetched : m.fetch? = some .halt) :
    (m.effect .halt).machine.Explains .halted := by
  have behind : m.pc + 1 - 1 = m.pc := BitVec.add_sub_cancel m.pc 1
  refine ⟨rfl, ?_⟩
  change m.read (m.pc + 1 - 1) = _
  rw [behind]
  exact read_pc_of_fetch fetched

theorem explains_effect (running : m.status = .running) (fetched : m.fetch? = some i) :
    (m.effect i).machine.Explains (.ofResult (.ok (m.effect i).machine.status)) := by
  by_cases halts : i = .halt
  · subst halts
    exact explains_halt fetched
  · have still := (status_effect (m := m) halts).trans running
    rw [still]
    exact still

/-- Whatever a step of a running machine answers, the machine bears it out. -/
theorem explains_step (running : m.status = .running) (sink : σ) :
    (m.step sink).machine.Explains (.ofResult (m.step sink).result) := by
  cases fetched : m.fetch? with
  | none =>
    rw [step_of_unknown running fetched]
    exact ⟨running, rfl, rfl, not_toByte_of_unknown fetched⟩
  | some i =>
    by_cases fits : (m.effect i).Fits sink
    · obtain ⟨result, machine, -, -⟩ := step_of_fits running fetched fits
      rw [result, machine]
      exact explains_effect running fetched
    · obtain ⟨a, rfl, printed, short⟩ := print_of_not_fits fits
      rw [step_of_refused running fetched printed short]
      exact ⟨running, read_pc_of_fetch fetched⟩

theorem running_of_goesOn (running : m.status = .running) (goesOn : (m.step sink).ends = false) :
    (m.step sink).machine.status = .running := by
  have explained := explains_step running sink
  rwa [Step.ofResult_eq_unfinished_iff.mpr goesOn] at explained

/-- All steps of a loop but the last leave the machine running, and the last one explains the
ending. -/
theorem Loop.explained (loop : m.Loop sink made) (running : m.status = .running) :
    ∃ front last, made = front ++ [last] ∧
      (∀ s ∈ front, s.result = .ok .running ∧ s.machine.status = .running) ∧
      last.machine.Explains (.ofResult last.result) := by
  induction loop with
  | @last m sink ends =>
    exact ⟨[], m.step sink, rfl, List.forall_mem_nil _, explains_step running sink⟩
  | @again m sink made goesOn rest ih =>
    have next := running_of_goesOn running goesOn
    obtain ⟨front, last, rfl, before, explained⟩ := ih next
    refine ⟨m.step sink :: front, last, rfl, ?_, explained⟩
    exact List.forall_mem_cons.mpr ⟨⟨Step.ends_eq_false_iff.mp goesOn, next⟩, before⟩

theorem explained_within {limit : Nat} (running : m.status = .running)
    (ended : ((Run.start m sink).within limit).outcome ≠ .unfinished) :
    ((Run.start m sink).within limit).machine.Explains ((Run.start m sink).within limit).outcome ∧
      ∀ s ∈ (m.stepsToEnd sink limit).dropLast,
        s.result = .ok .running ∧ s.machine.status = .running := by
  have loop : m.Loop sink (m.stepsToEnd sink limit) := loop_iff.mpr ⟨limit, ended, rfl⟩
  obtain ⟨front, last, made, before, explained⟩ := loop.explained running
  rw [Run.within_eq_ofSteps, made, List.dropLast_concat]
  refine ⟨?_, before⟩
  rwa [Run.ofSteps, List.getLast?_concat]

theorem within_of_halted (halted : m.status = .halted) (sink : σ) (limit : Nat) :
    (Run.start m sink).within (limit + 1) = ⟨.fault .halted, m, #[], #[], sink⟩ := by
  have step := step_of_halted halted sink
  have ends : (m.step sink).ends = true := by
    rw [step]
    rfl
  rw [Run.within_of_last ends, Run.advance]
  simp [Run.start, step, Outcome.ofResult]

end Machine

/-- How a run ended can be told from what it leaves: a running machine comes to a halt, to a byte
that is no opcode or to a PRN that could not print, and the machine shows which; a machine that had
halted before is left alone. -/
theorem ending_explained (m : Machine) (sink : σ) (limit : Nat) :
    let last := (Run.start m sink).within limit
    (m.status = .running → last.outcome ≠ .unfinished →
      last.outcome ≠ .fault .halted ∧ (∀ op, last.outcome ≠ .fault (.unimplemented op)) ∧
      (last.outcome = .halted →
        last.machine.status = .halted ∧ last.machine.read (last.machine.pc - 1) = 0x01 ∧
        ∀ s ∈ (m.stepsToEnd sink limit).dropLast,
          s.result = .ok .running ∧ s.machine.status = .running) ∧
      (∀ address opcode, last.outcome = .fault (.illegalInstruction address opcode) →
        last.machine.status = .running ∧ address = last.machine.pc ∧
        opcode = last.machine.read last.machine.pc ∧ ∀ op : Opcode, op.toByte ≠ opcode) ∧
      (last.outcome = .fault .output →
        last.machine.status = .running ∧ last.machine.read last.machine.pc = 0x47)) ∧
    (m.status = .halted → 0 < limit → last = ⟨.fault .halted, m, #[], #[], sink⟩) := by
  intro last
  constructor
  · intro running ended
    obtain ⟨explained, before⟩ := Machine.explained_within running ended
    refine ⟨?_, ?_, ?_, ?_, ?_⟩
    · intro outcome
      rw [outcome] at explained
      exact explained
    · intro op outcome
      rw [outcome] at explained
      exact explained
    · intro outcome
      rw [outcome] at explained
      exact ⟨explained.1, explained.2, before⟩
    · intro address opcode outcome
      rw [outcome] at explained
      exact explained
    · intro outcome
      rw [outcome] at explained
      exact explained
  · intro halted positive
    obtain ⟨limit, rfl⟩ := Nat.exists_eq_succ_of_ne_zero (Nat.ne_of_gt positive)
    exact Machine.within_of_halted halted sink limit

/-- Pushes the opcode of HLT to the address that it executes next. -/
def pushesItsHalt : Machine :=
  { Machine.initial with
    memory := Memory.zero.copy [0x45, 0x00, 0xFF]
    registers := (Registers.withStackAt 0x03).set (.ofOperand 0x00) 0x01 }

theorem ending_explained_pushesItsHalt :
    ∃ last, (Run.start pushesItsHalt Room.unlimited).within 2 = last ∧ last.outcome = .halted ∧
      last.machine.status = .halted ∧ last.machine.read (last.machine.pc - 1) = 0x01 ∧
      (Run.start last.machine Room.unlimited).within 1 =
        ⟨.fault .halted, last.machine, #[], #[], .unlimited⟩ := by
  have explained := (ending_explained pushesItsHalt Room.unlimited 2).1 rfl
  have outcome : ((Run.start pushesItsHalt Room.unlimited).within 2).outcome = .halted := by
    decide +kernel
  generalize (Run.start pushesItsHalt Room.unlimited).within 2 = last at explained outcome ⊢
  have ended : last.outcome ≠ .unfinished := by
    rw [outcome]
    exact Outcome.noConfusion
  obtain ⟨-, -, halted, -, -⟩ := explained ended
  obtain ⟨status, byte, -⟩ := halted outcome
  obtain ⟨-, alone⟩ := ending_explained last.machine Room.unlimited 1
  exact ⟨last, rfl, outcome, status, byte, alone status Nat.one_pos⟩

end ByteMachine

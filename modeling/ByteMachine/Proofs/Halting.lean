import ByteMachine.Proofs.Endings
import ByteMachine.Proofs.Operations

/-!
A machine halts once. Its status is moved by executed instructions alone, so no other call can halt
a machine or set a halted one going again, and since nothing is executed by a halted machine, HLT is
the last instruction of every history in which it occurs.
-/

namespace ByteMachine

namespace Execution
variable {σ : Type} [Sink σ] {sink : σ} {e : Execution}

theorem halt_iff (fetched : e.before.fetch? = some e.instruction) :
    e.instruction = .halt ↔ e.before.read e.before.pc = Opcode.halt.toByte := by
  constructor
  · intro halt
    rw [Machine.read_pc_of_fetch fetched, halt]
    rfl
  · intro opcode
    rw [Machine.fetch?_of_opcode opcode] at fetched
    exact (Option.some.inj fetched).symm

/-- An execution halts the machine if its opcode is that of HLT, and then changes nothing else but
the program counter. -/
theorem halts (made : e.before.execution? sink = some e) :
    (e.after.status = .halted ↔ e.before.read e.before.pc = Opcode.halt.toByte) ∧
      (e.after.status = .halted →
        e.after = { e.before with pc := e.before.pc + 1, status := .halted }) := by
  obtain ⟨-, running, fetched, after, -⟩ := Machine.step_of_execution? made
  rw [← halt_iff fetched, after]
  by_cases halt : e.instruction = .halt
  · rw [halt]
    exact ⟨⟨fun _ => rfl, fun _ => rfl⟩, fun _ => rfl⟩
  · rw [Machine.status_effect halt, running]
    exact ⟨⟨nofun, fun is => absurd is halt⟩, nofun⟩

end Execution

namespace Moves
variable {c d : Control} {earlier later history : List Execution}

theorem nothing_of_halted (moves : Moves c history d) (halted : c.status = .halted) :
    history = [] ∧ d = c := by
  cases moves with
  | nil => exact ⟨rfl, rfl⟩
  | @cons e _ _ _ _ _ made _ =>
    have running : e.before.status = .running := (Machine.step_of_execution? made).2.1
    exact absurd (running.symm.trans halted) nofun

theorem cut {e : Execution} (moves : Moves c (earlier ++ e :: later) d) :
    (∃ (σ : Type) (_ : Sink σ) (sink : σ), e.before.execution? sink = some e) ∧
      (e.after.status = .halted → later = [] ∧ d = e.after.control) := by
  obtain ⟨_, -, here⟩ := moves.split
  cases here with
  | @cons _ _ _ σ inst sink made rest => exact ⟨⟨σ, inst, sink, made⟩, rest.nothing_of_halted⟩

theorem halted_iff (moves : Moves c history d) (running : c.status = .running) :
    d.status = .halted ↔ ∃ e ∈ history, e.after.status = .halted := by
  induction moves with
  | nil => simp [running]
  | @cons e rest d _ _ _ made later ih =>
    simp only [List.mem_cons, exists_eq_or_imp]
    cases after : e.after.status with
    | halted =>
      obtain ⟨rfl, rfl⟩ := later.nothing_of_halted after
      simp [Machine.control, after]
    | running => simp [ih after]

end Moves

/-- Only a step that executes HLT halts a machine, and nothing that is done afterwards has it
execute another instruction or moves it. -/
theorem halted_for_good (m : Machine) (operations : List Operation) :
    let last := m.performAll operations
    let history := m.history operations
    (m.status = .running →
      (last.status = .halted ↔ ∃ e ∈ history, e.after.status = .halted)) ∧
    (∀ earlier e later, history = earlier ++ e :: later →
      (∃ (σ : Type) (_ : Sink σ) (sink : σ),
        (e.before.step sink).result = .ok e.after.status ∧ (e.before.step sink).machine = e.after) ∧
      e.before.status = .running ∧
      (e.after.status = .halted ↔ e.before.read e.before.pc = 0x01) ∧
      (e.after.status = .halted →
        e.after = { e.before with pc := e.before.pc + 1, status := .halted } ∧
        later = [] ∧ last.pc = e.before.pc + 1 ∧ last.flags = e.before.flags)) ∧
    (m.status = .halted →
      history = [] ∧ last.status = .halted ∧ last.pc = m.pc ∧ last.flags = m.flags) ∧
    (last.status = .halted → ∀ {σ : Type} [Sink σ] (sink : σ),
      last.step sink = ⟨.error .halted, last, [], [], sink⟩ ∧
      ∀ limit, 0 < limit →
        (Run.start last sink).within limit = ⟨.fault .halted, last, #[], #[], sink⟩) := by
  intro last history
  have moves : Moves m.control history last.control := .performAll m operations
  refine ⟨moves.halted_iff, ?_, ?_, ?_⟩
  · intro earlier e later cut
    rw [cut] at moves
    obtain ⟨⟨σ, inst, sink, made⟩, ends⟩ := moves.cut
    obtain ⟨-, running, -, -, step⟩ := Machine.step_of_execution? made
    obtain ⟨opcode, alone⟩ := Execution.halts made
    refine ⟨⟨σ, inst, sink, ?_, ?_⟩, running, opcode, ?_⟩
    · rw [step]
    · rw [step]
    · intro halted
      obtain ⟨nothing, same⟩ := ends halted
      have after := alone halted
      refine ⟨after, nothing, ?_, ?_⟩
      · refine (congrArg Control.pc same).trans ?_
        change e.after.pc = _
        rw [after]
      · refine (congrArg Control.flags same).trans ?_
        change e.after.flags = _
        rw [after]
  · intro halted
    obtain ⟨nothing, same⟩ := moves.nothing_of_halted halted
    refine ⟨nothing, ?_, congrArg Control.pc same, congrArg Control.flags same⟩
    exact (congrArg Control.status same).trans halted
  · intro halted σ _ sink
    refine ⟨Machine.step_of_halted halted sink, ?_⟩
    intro limit positive
    obtain ⟨limit, rfl⟩ := Nat.exists_eq_succ_of_ne_zero (Nat.ne_of_gt positive)
    exact Machine.within_of_halted halted sink limit

def reloadedAfterHalt : List Operation :=
  [.load ⟨[0x01]⟩, .run Room.unlimited 9, .load ⟨[0x47, 0x47, 0x00]⟩, .setRegister 0x07 0x01,
    .push 0x82, .arithmetic .sub 0x00 0x01, .step Room.unlimited, .run (Room.bytes 0) 9]

theorem halted_for_good_reloadedAfterHalt :
    let last := Machine.initial.performAll reloadedAfterHalt
    Machine.initial.status = .running ∧ last.status = .halted ∧
    (∃ e, Machine.initial.history reloadedAfterHalt = [e] ∧
      e.before.read e.before.pc = 0x01 ∧ last.pc = e.before.pc + 1 ∧
      e.after = { e.before with pc := e.before.pc + 1, status := .halted }) ∧
    last.step Room.unlimited = ⟨.error .halted, last, [], [], .unlimited⟩ ∧
    (Run.start last Room.unlimited).within 5 = ⟨.fault .halted, last, #[], #[], .unlimited⟩ ∧
    (last.performAll reloadedAfterHalt).status = .halted ∧
    (last.performAll reloadedAfterHalt).pc = last.pc := by
  intro last
  obtain ⟨ends, cuts, -, idle⟩ := halted_for_good Machine.initial reloadedAfterHalt
  have halts : (Machine.initial.history reloadedAfterHalt).map (fun e => e.after.status) =
      [.halted] := by
    decide +kernel
  obtain ⟨e, rest, history, halts, nothing⟩ := List.map_eq_cons_iff.mp halts
  obtain rfl := List.map_eq_nil_iff.mp nothing
  have halted : last.status = .halted := by
    apply (ends rfl).mpr
    rw [history]
    exact ⟨e, List.mem_singleton_self e, halts⟩
  obtain ⟨-, -, opcode, alone⟩ := cuts [] e [] history
  obtain ⟨after, -, pc, -⟩ := alone halts
  obtain ⟨step, run⟩ := idle halted Room.unlimited
  obtain ⟨-, -, again, -⟩ := halted_for_good last reloadedAfterHalt
  obtain ⟨-, status, samePc, -⟩ := again halted
  exact ⟨rfl, halted, ⟨e, history, opcode.mp halts, pc, after⟩, step, run 5 (by decide), status,
    samePc⟩

end ByteMachine

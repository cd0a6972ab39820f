import ByteMachine.Proofs.FlagsHistory
import ByteMachine.Proofs.Recurrence

/-!
Runs that only look, compare and jump. Such a run leaves memory and registers alone, so what it does
next depends on the program counter and the flags. A machine that calls have brought about has at
most one flag raised, which leaves 1024 places to be in: a run that has made as many steps without
doing anything else has been somewhere twice, and goes round for ever.
-/

namespace ByteMachine

/-- PRN, CMP, JMP, JEQ and JNE: the instructions that change nothing but the program counter and the
flags, and let the machine run on. -/
def Instruction.steers : Instruction → Bool
  | .print _ | .compare _ _ | .jump _ | .jumpIfEqual _ | .jumpIfNotEqual _ => true
  | _ => false

namespace Flags

def reachable : Finset Flags :=
  {clear, ⟨true, false, false⟩, ⟨false, true, false⟩, ⟨false, false, true⟩}

theorem mem_reachable_iff {f : Flags} :
    f ∈ reachable ↔ [f.less, f.greater, f.equal].count true ≤ 1 := by
  obtain ⟨less, greater, equal⟩ := f
  revert less greater equal
  decide

theorem after_mem_reachable {f : Flags} (before : f ∈ reachable) (last : Option (Byte × Byte)) :
    f.after last ∈ reachable := by
  cases last with
  | none => exact before
  | some values => exact mem_reachable_iff.mpr (count_compare values.1 values.2).le

end Flags

namespace Machine

def place (m : Machine) (flags : m.flags ∈ Flags.reachable) : Fin 256 × Flags.reachable :=
  (m.pc.toFin, ⟨m.flags, flags⟩)

theorem card_place : Fintype.card (Fin 256 × Flags.reachable) = 1024 := by
  rw [Fintype.card_prod, Fintype.card_fin, Fintype.card_coe]
  rfl

theorem flags_performAll_mem (operations : List Operation) :
    (initial.performAll operations).flags ∈ Flags.reachable := by
  have moved : (initial.performAll operations).flags = initial.flags.after _ :=
    (Moves.performAll initial operations).flags_eq
  rw [moved]
  exact Flags.after_mem_reachable (by decide) _

theorem effect_of_steers {i : Instruction} (m : Machine) (steers : i.steers = true) :
    (m.effect i).machine.memory = m.memory ∧ (m.effect i).machine.registers = m.registers ∧
      (m.effect i).machine.status = m.status := by
  cases i with
  | print | compare | jump | jumpIfEqual | jumpIfNotEqual => exact ⟨rfl, rfl, rfl⟩
  | _ => cases steers

end Machine

namespace Run
variable {σ : Type} [Sink σ] {r s : Run σ} {m : Machine} {sink : σ} {i : Instruction}

def Steers (r : Run σ) : Prop := ∃ i, i.steers = true ∧ r.Executes i

/-- What a run that has only been steering still has of the machine it started with. -/
structure Steered (m : Machine) (r : Run σ) : Prop where
  going : r.outcome = .unfinished
  memory : r.machine.memory = m.memory
  registers : r.machine.registers = m.registers
  status : r.machine.status = m.status
  accepts : Sink.Accepts r.sink

theorem executes_of_fetch (accepts : Sink.Accepts r.sink) (running : r.machine.status = .running)
    (fetched : r.machine.fetch? = some i) (steers : i.steers = true) : r.Executes i := by
  obtain ⟨outcome, -, -, -⟩ := advance_of_fetch running fetched accepts
  refine ⟨fetched, ?_⟩
  rw [outcome, (r.machine.effect_of_steers steers).2.2, running]
  rfl

theorem Steers.alike (steers : r.Steers) (same : s.machine = r.machine)
    (accepts : Sink.Accepts s.sink) : s.Steers ∧ s.advance.machine = r.advance.machine := by
  obtain ⟨i, only, executes⟩ := steers
  have running : s.machine.status = .running := same ▸ executes.running
  have fetched : s.machine.fetch? = some i := same ▸ executes.fetched
  have also := executes_of_fetch accepts running fetched only
  refine ⟨⟨i, only, also⟩, ?_⟩
  rw [also.machine_advance, executes.machine_advance, same]

theorem Steered.advance (steered : Steered m r) (steers : r.Steers) : Steered m r.advance := by
  obtain ⟨i, only, executes⟩ := steers
  obtain ⟨memory, registers, status⟩ := r.machine.effect_of_steers only
  obtain ⟨-, machine, -, accepts⟩ :=
    advance_of_fetch executes.running executes.fetched steered.accepts
  rw [← machine] at memory registers status
  exact {
    going := executes.goesOn
    memory := memory.trans steered.memory
    registers := registers.trans steered.registers
    status := status.trans steered.status
    accepts := accepts }

theorem steered_within (accepts : Sink.Accepts sink) {n : Nat}
    (steers : ∀ k < n, ((start m sink).within k).Steers) :
    Steered m ((start m sink).within n) := by
  induction n with
  | zero => exact ⟨rfl, rfl, rfl, rfl, accepts⟩
  | succ n ih =>
    have before := ih fun k inside => steers k (Nat.lt_succ_of_lt inside)
    rw [within_succ_last before.going]
    exact before.advance (steers n (Nat.lt_succ_self n))

theorem Steered.machine_eq (first : Steered m r) (second : Steered m s)
    (pc : r.machine.pc = s.machine.pc) (flags : r.machine.flags = s.machine.flags) :
    r.machine = s.machine := by
  refine Machine.eq_of_observed pc ?_ ?_ flags (first.status.trans second.status.symm)
  · intro a
    exact congrArg (Memory.read · a) (first.memory.trans second.memory.symm)
  · intro q
    exact congrArg (Registers.get · q) (first.registers.trans second.registers.symm)

/-- A run that has steered back to where it was keeps going round. -/
theorem steers_round (accepts : Sink.Accepts sink) {first period : Nat} (positive : 0 < period)
    (steers : ∀ k < first + period, ((start m sink).within k).Steers)
    (back : ((start m sink).within (first + period)).machine =
      ((start m sink).within first).machine) (n : Nat) :
    (∀ k < first + n + period, ((start m sink).within k).Steers) ∧
      ((start m sink).within (first + n + period)).machine =
        ((start m sink).within (first + n)).machine := by
  induction n with
  | zero => exact ⟨steers, back⟩
  | succ n ih =>
    obtain ⟨before, same⟩ := ih
    have here : ((start m sink).within (first + n)).Steers :=
      before (first + n) (Nat.lt_add_of_pos_right positive)
    have lap : Steered m ((start m sink).within (first + n + period)) :=
      steered_within accepts before
    have going : ((start m sink).within (first + n)).outcome = .unfinished :=
      unfinished_of_le (Nat.le_add_right _ _) lap.going
    -- One lap later the run is at the same machine, so it makes the same step there.
    obtain ⟨again, next⟩ := here.alike same lap.accepts
    constructor
    · intro k inside
      have early : k < first + n + period ∨ k = first + n + period := by omega
      rcases early with early | rfl
      · exact before k early
      · exact again
    · have shift : first + (n + 1) + period = first + n + period + 1 := by omega
      rw [shift, within_succ_last lap.going, ← Nat.add_assoc, within_succ_last going, next]

theorem exists_recurrence (accepts : Sink.Accepts sink) (flags : m.flags ∈ Flags.reachable)
    (steers : ∀ k < 1024, ((start m sink).within k).Steers) :
    ∃ first period, 0 < period ∧ first + period ≤ 1024 ∧
      ((start m sink).within (first + period)).machine =
        ((start m sink).within first).machine := by
  have reachable (k : Nat) : ((start m sink).within k).machine.flags ∈ Flags.reachable := by
    have moved : ((start m sink).within k).machine.flags = m.flags.after _ :=
      (Moves.run k (start m sink)).flags_eq
    rw [moved]
    exact Flags.after_mem_reachable flags _
  obtain ⟨first, last, before, early, same⟩ := exists_repeated fun k =>
    ((start m sink).within k).machine.place (reachable k)
  rw [Machine.card_place] at early
  have steered (k : Nat) (inside : k ≤ 1024) : Steered m ((start m sink).within k) :=
    steered_within accepts fun l behind => steers l (Nat.lt_of_lt_of_le behind inside)
  obtain ⟨pc, flags⟩ := Prod.mk.inj same
  have back : ((start m sink).within first).machine = ((start m sink).within last).machine :=
    (steered first (before.le.trans early)).machine_eq (steered last early)
      (BitVec.eq_of_toFin_eq pc) (congrArg Subtype.val flags)
  obtain ⟨period, rfl⟩ := Nat.exists_eq_add_of_lt before
  exact ⟨first, period + 1, Nat.succ_pos period, early, back.symm⟩

end Run

/-- A run on a machine that calls have brought about, with a sink that takes everything: if nothing
but PRN, CMP, JMP, JEQ and JNE is executed in 1024 steps, nothing else ever will be. The run neither
halts nor fails, memory and registers stay as they are, and by the last of these steps the machine
has begun to go round. -/
theorem steering_never_ends (operations : List Operation) {σ : Type} [Sink σ] (sink : σ) :
    let m := Machine.initial.performAll operations
    let r := Run.start m sink
    Sink.Accepts sink → (∀ k < 1024, (r.within k).Steers) →
    (∀ n, (r.within n).outcome = .unfinished ∧ (r.within n).Steers ∧
      (r.within n).machine.status = .running ∧ (r.within n).machine.memory = m.memory ∧
      (r.within n).machine.registers = m.registers) ∧
    (∀ made, ¬ m.Loop sink made) ∧
    ∃ first period, 0 < period ∧ first + period ≤ 1024 ∧
      ∀ n, first ≤ n → (r.within (n + period)).machine = (r.within n).machine := by
  intro m r accepts observed
  have flags : m.flags ∈ Flags.reachable := Machine.flags_performAll_mem operations
  obtain ⟨first, period, positive, early, back⟩ := Run.exists_recurrence accepts flags observed
  have round := Run.steers_round accepts positive
    (fun k inside => observed k (Nat.lt_of_lt_of_le inside early)) back
  have steers (n : Nat) : (r.within n).Steers := (round (n + 1)).1 n (by omega)
  have steered (n : Nat) : Run.Steered m (r.within n) :=
    Run.steered_within accepts fun k _ => steers k
  refine ⟨?_, ?_, first, period, positive, early, ?_⟩
  · intro n
    obtain ⟨i, -, executes⟩ := steers n
    exact ⟨(steered n).going, steers n, executes.running, (steered n).memory,
      (steered n).registers⟩
  · intro made loop
    obtain ⟨limit, ended, -⟩ := Machine.loop_iff.mp loop
    exact ended (steered limit).going
  · intro n reached
    obtain ⟨more, rfl⟩ := Nat.exists_eq_add_of_le reached
    exact (round more).2

/-- Compares R0 with R1, which is 5, and comes to a PRN that a full sink refuses. The PRN, a
comparison of R0 with itself and a jump back to the first comparison go round. -/
def refusedOnce : List Operation :=
  [.load ⟨[0xA7, 0x00, 0x01, 0x47, 0x00, 0xA7, 0x00, 0x00, 0x55, 0x02]⟩, .setRegister 0x01 0x05,
    .run (Room.bytes 1) 9]

-- The flags tell the two halves of the round apart.
theorem steering_never_ends_refusedOnce :
    let m := Machine.initial.performAll refusedOnce
    let r := Run.start m Room.unlimited
    Sink.Accepts Room.unlimited ∧ (∀ k < 1024, (r.within k).Steers) ∧
    (∀ n, (r.within n).outcome = .unfinished ∧ (r.within n).machine.registers = m.registers) ∧
    (∀ made, ¬ m.Loop Room.unlimited made) ∧ (r.within 3).machine.flags ≠ m.flags ∧
    ∃ first period, 0 < period ∧ first + period ≤ 1024 ∧
      ∀ n, first ≤ n → (r.within (n + period)).machine = (r.within n).machine := by
  intro m r
  have lap : ∀ k < 0 + 4, (r.within k).Steers := by
    have steps : ∀ k < 0 + 4, ∃ i ∈ (r.within k).machine.fetch?,
        i.steers = true ∧ (r.within k).advance.outcome = .unfinished := by
      decide +kernel
    intro k inside
    obtain ⟨i, fetched, only, goesOn⟩ := steps k inside
    exact ⟨i, only, fetched, goesOn⟩
  have steered : Run.Steered m (r.within (0 + 4)) := Run.steered_within Sink.accepts_unlimited lap
  have back : (r.within (0 + 4)).machine = (r.within 0).machine :=
    steered.machine_eq (Run.steered_within Sink.accepts_unlimited nofun) (by decide +kernel)
      (by decide +kernel)
  have round := Run.steers_round Sink.accepts_unlimited (by decide) lap back
  have observed : ∀ k < 1024, (r.within k).Steers := by
    intro k _
    have inside : k < 0 + (k + 1) + 4 := by omega
    exact (round (k + 1)).1 k inside
  obtain ⟨always, loop, goesRound⟩ :=
    steering_never_ends refusedOnce Room.unlimited Sink.accepts_unlimited observed
  have kept (n : Nat) : (r.within n).outcome = .unfinished ∧
      (r.within n).machine.registers = m.registers := by
    obtain ⟨going, -, -, -, registers⟩ := always n
    exact ⟨going, registers⟩
  exact ⟨Sink.accepts_unlimited, observed, kept, loop, by decide +kernel, goesRound⟩

end ByteMachine

import ByteMachine.Proofs.Operations

/-!
The flags are the memory of one thing: what the last CMP has compared. No other instruction and no
call touches them, whether it fails or not, so after any sequence of calls they can be computed from
the CMPs that were executed, and so can the way that every conditional jump has gone.
-/

namespace ByteMachine

def Execution.comparison? (e : Execution) : Option (Byte × Byte) :=
  match e.instruction with
  | .compare a b => some (e.before.register a, e.before.register b)
  | _ => none

def lastComparison? (history : List Execution) : Option (Byte × Byte) :=
  (history.filterMap Execution.comparison?).getLast?

def comparedEqual (history : List Execution) : Bool :=
  match lastComparison? history with
  | some (l, r) => l == r
  | none => false

/-- The flag bits by numbers: 4 for less, 2 for greater, 1 for equal, and 0 for no comparison. -/
def comparisonBits : Option (Byte × Byte) → Byte
  | none => 0
  | some (l, r) => if l.toNat < r.toNat then 4 else if r.toNat < l.toNat then 2 else 1

namespace Flags

def after (f : Flags) : Option (Byte × Byte) → Flags
  | none => f
  | some (l, r) => .compare l r

theorem bits_clear_after (last : Option (Byte × Byte)) :
    (clear.after last).bits = comparisonBits last := by
  cases last with
  | none => rfl
  | some values =>
    obtain ⟨l, r⟩ := values
    simp only [after, compare, bits, comparisonBits, BitVec.lt_def, BitVec.toNat_eq]
    rcases Nat.lt_trichotomy l.toNat r.toNat with less | same | greater
    · simp [less, Nat.lt_asymm less, Nat.ne_of_lt less, lessBit]
    · simp [same, equalBit]
    · simp [greater, Nat.lt_asymm greater, Nat.ne_of_gt greater, greaterBit]

theorem equal_clear_after (history : List Execution) :
    (clear.after (lastComparison? history)).equal = comparedEqual history := by
  unfold comparedEqual
  cases lastComparison? history with
  | none => rfl
  | some values => rfl

theorem count_compare (l r : Byte) :
    [(compare l r).less, (compare l r).greater, (compare l r).equal].count true = 1 := by
  simp only [compare, BitVec.lt_def, BitVec.toNat_eq]
  rcases Nat.lt_trichotomy l.toNat r.toNat with less | same | greater
  · simp [less, Nat.lt_asymm less, Nat.ne_of_lt less]
  · simp [same]
  · simp [greater, Nat.lt_asymm greater, Nat.ne_of_gt greater]

end Flags

theorem Execution.comparison?_eq_none_iff (e : Execution) :
    e.comparison? = none ↔ ∀ a b, e.instruction ≠ .compare a b := by
  unfold comparison?
  split
  · simp_all
  · simp_all

theorem comparisonBits_mem (last : Option (Byte × Byte)) :
    comparisonBits last ∈ ([0, 1, 2, 4] : List Byte) := by
  unfold comparisonBits
  split
  · decide
  · split
    · decide
    · split <;> decide

theorem comparisonBits_eq_zero_iff {last : Option (Byte × Byte)} :
    comparisonBits last = 0 ↔ last = none := by
  cases last with
  | none => simp [comparisonBits]
  | some values =>
    simp only [comparisonBits, reduceCtorEq, iff_false]
    split
    · decide
    · split <;> decide

theorem lastComparison?_cons (e : Execution) (rest : List Execution) :
    lastComparison? (e :: rest) = (lastComparison? rest).or e.comparison? := by
  unfold lastComparison?
  cases found : e.comparison? with
  | none => simp [found]
  | some values => simp [found, List.getLast?_cons]

theorem lastComparison?_eq_none_iff {history : List Execution} :
    lastComparison? history = none ↔ ∀ e ∈ history, e.comparison? = none := by
  simp [lastComparison?]

namespace Machine

theorem flags_effect (m : Machine) (i : Instruction) :
    (m.effect i).machine.flags =
      m.flags.after (Execution.comparison? ⟨m, i, (m.effect i).machine⟩) := by
  cases i <;> rfl

end Machine

/-- On the way from one control to another the flags are those of the last comparison. -/
theorem Moves.flags_eq {c d : Control} {history : List Execution} (moves : Moves c history d) :
    d.flags = c.flags.after (lastComparison? history) := by
  induction moves with
  | nil => rfl
  | @cons e rest d _ _ _ made _ ih =>
    obtain ⟨-, -, -, after, -⟩ := Machine.step_of_execution? made
    have first : e.after.flags = e.before.flags.after e.comparison? := by
      obtain ⟨before, i, next⟩ := e
      obtain rfl : next = (before.effect i).machine := after
      exact before.flags_effect i
    rw [ih, lastComparison?_cons]
    change e.after.flags.after _ = e.before.flags.after _
    rw [first]
    cases lastComparison? rest with
    | none => rfl
    | some values => rfl

/-- After any calls on a new machine the flags tell what the last executed CMP has compared, and
nothing if there has been none; each conditional jump has gone by the CMPs before it. -/
theorem flags_history (operations : List Operation) :
    let m := Machine.initial.performAll operations
    let history := Machine.initial.history operations
    m.flags.bits = comparisonBits (lastComparison? history) ∧
    m.flags.bits ∈ [0, 1, 2, 4] ∧
    (m.flags.bits = 0 ↔ ∀ e ∈ history, ∀ a b, e.instruction ≠ .compare a b) ∧
    ((∃ e ∈ history, ∃ a b, e.instruction = .compare a b) →
      [m.flags.less, m.flags.greater, m.flags.equal].count true = 1) ∧
    ∀ earlier e later, history = earlier ++ e :: later → ∀ a,
      (e.instruction = .jumpIfEqual a →
        e.after.pc = if comparedEqual earlier then e.before.register a else e.before.pc + 2) ∧
      (e.instruction = .jumpIfNotEqual a →
        e.after.pc = if comparedEqual earlier then e.before.pc + 2 else e.before.register a) := by
  intro m history
  have moves : Moves Machine.initial.control history m.control := .performAll _ operations
  have flags : m.flags = Flags.clear.after (lastComparison? history) := moves.flags_eq
  have bits : m.flags.bits = comparisonBits (lastComparison? history) := by
    rw [flags, Flags.bits_clear_after]
  refine ⟨bits, ?_, ?_, ?_, ?_⟩
  · rw [bits]
    exact comparisonBits_mem _
  · rw [bits, comparisonBits_eq_zero_iff, lastComparison?_eq_none_iff]
    exact forall₂_congr fun e _ => e.comparison?_eq_none_iff
  · rintro ⟨e, member, a, b, compares⟩
    cases last : lastComparison? history with
    | none =>
      have none := e.comparison?_eq_none_iff.mp (lastComparison?_eq_none_iff.mp last e member)
      exact absurd compares (none a b)
    | some values =>
      rw [flags, last]
      exact Flags.count_compare values.1 values.2
  · intro earlier e later cut a
    rw [cut] at moves
    obtain ⟨c, before, here⟩ := moves.split
    have equal : c.flags.equal = comparedEqual earlier := by
      rw [before.flags_eq]
      exact Flags.equal_clear_after earlier
    cases here with
    | @cons e rest d _ _ _ made _ =>
      obtain ⟨-, -, -, after, -⟩ := Machine.step_of_execution? made
      rw [after, ← equal]
      constructor
      · intro jumps
        rw [jumps]
        rfl
      · intro jumps
        rw [jumps]
        rfl

/-- A step on an empty memory and a subtraction fail; the program compares R0 with R1 and jumps to
the address in R2, where the run fails too. -/
def comparesAndJumps : List Operation :=
  [.step Room.unlimited, .load ⟨[0xA7, 0x00, 0x01, 0x55, 0x02]⟩, .setRegister 0x00 0x05,
    .setRegister 0x09 0x05, .setRegister 0x02 0x40, .arithmetic .sub 0x00 0x01,
    .run (Room.bytes 0) 9]

theorem flags_history_comparesAndJumps :
    ∃ flags, (Machine.initial.performAll comparesAndJumps).flags = flags ∧ flags.bits = 1 ∧
    [flags.less, flags.greater, flags.equal].count true = 1 ∧
    ∃ first second, Machine.initial.history comparesAndJumps = [first, second] ∧
      first.instruction = .compare 0 1 ∧ second.instruction = .jumpIfEqual 2 ∧
      second.after.pc = second.before.register 2 := by
  obtain ⟨bits, -, -, one, jumps⟩ := flags_history comparesAndJumps
  have last : lastComparison? (Machine.initial.history comparesAndJumps) = some (0x05, 0x05) := by
    decide +kernel
  have instructions : (Machine.initial.history comparesAndJumps).map Execution.instruction =
      [.compare 0 1, .jumpIfEqual 2] := by
    decide +kernel
  have before : comparedEqual ((Machine.initial.history comparesAndJumps).take 1) = true := by
    decide +kernel
  obtain ⟨first, rest, cut, compares, instructions⟩ := List.map_eq_cons_iff.mp instructions
  obtain ⟨second, rest, rfl, jumpsIfEqual, instructions⟩ := List.map_eq_cons_iff.mp instructions
  obtain rfl := List.map_eq_nil_iff.mp instructions
  rw [cut] at before
  have member : first ∈ Machine.initial.history comparesAndJumps := by
    rw [cut]
    exact List.mem_cons_self ..
  have value : comparisonBits (some (0x05, 0x05)) = 1 := by decide
  refine ⟨_, rfl, ?_, one ⟨first, member, 0, 1, compares⟩, first, second, cut, compares,
    jumpsIfEqual, ?_⟩
  · exact bits.trans ((congrArg comparisonBits last).trans value)
  · rw [(jumps [first] second [] cut 2).1 jumpsIfEqual]
    exact if_pos before

end ByteMachine

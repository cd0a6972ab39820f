import ByteMachine.Proofs.Transition

/-!
A sink with room for a number of bytes beside one without a limit. As long as everything printed
fits, nobody can tell the two runs apart. The first line that does not fit stops the bounded run
at the instruction that prints it, with as much of the line out as there was room for.
-/

namespace ByteMachine

namespace Machine
variable {m : Machine} {i : Instruction} {left : Nat}

theorem output_deliver_unlimited (m : Machine) (i : Instruction) (e : Effect) :
    (m.deliver i e Room.unlimited).output = e.output := by
  cases printed : e.printed <;>
    simp [deliver, Effect.output, printed, Sink.offer, Room.offer]

theorem deliver_bytes_of_le {e : Effect}
    (fits : (m.deliver i e Room.unlimited).output.length ≤ left) :
    m.deliver i e (Room.bytes left) =
      { m.deliver i e Room.unlimited with
        sink := Room.bytes (left - (m.deliver i e Room.unlimited).output.length) } := by
  rw [output_deliver_unlimited] at fits
  cases printed : e.printed with
  | none => simp [deliver, printed]
  | some value =>
    have whole : (Effect.line value).length ≤ left := by
      simpa [Effect.output, printed] using fits
    simp [deliver, printed, Sink.offer, Room.offer, whole]

theorem deliver_bytes_of_lt {e : Effect} (short : left < e.output.length) :
    m.deliver i e (Room.bytes left) =
      ⟨.error .output, m, e.output.take left, [m.executing i], Room.bytes 0⟩ := by
  cases printed : e.printed with
  | none => simp [Effect.output, printed] at short
  | some value =>
    simp only [Effect.output, printed, Option.map_some, Option.getD_some] at short ⊢
    have least := Nat.le_of_lt short
    have inside : min left (Effect.line value).length = left := Nat.min_eq_left least
    have nothingLeft : left - (Effect.line value).length = 0 := Nat.sub_eq_zero_of_le least
    simp [deliver, printed, Sink.offer, Room.offer, inside, nothingLeft, short]

theorem step_bytes_of_le (fits : (m.step Room.unlimited).output.length ≤ left) :
    m.step (Room.bytes left) =
      { m.step Room.unlimited with
        sink := Room.bytes (left - (m.step Room.unlimited).output.length) } := by
  cases status : m.status with
  | halted => simp [step_of_halted status]
  | running =>
    cases fetched : m.fetch? with
    | none => simp [step_of_unknown status fetched]
    | some i =>
      simp only [step_of_fetch status fetched] at fits ⊢
      exact deliver_bytes_of_le fits

theorem print_of_output (printed : (m.effect i).output ≠ []) : ∃ a, i = .print a := by
  cases i with
  | print a => exact ⟨a, rfl⟩
  | _ => exact absurd rfl printed

/-- Only PRN can want more room than there is; what fits is out, and the machine stays. -/
theorem step_bytes_of_lt (short : left < (m.step Room.unlimited).output.length) :
    (m.step (Room.bytes left)).result = .error .output ∧
    (m.step (Room.bytes left)).machine = m ∧
    (m.step (Room.bytes left)).output = (m.step Room.unlimited).output.take left ∧
    m.status = .running ∧ ∃ a, m.fetch? = some (.print a) := by
  cases status : m.status with
  | halted => simp [step_of_halted status] at short
  | running =>
    cases fetched : m.fetch? with
    | none => simp [step_of_unknown status fetched] at short
    | some i =>
      simp only [step_of_fetch status fetched, output_deliver_unlimited] at short ⊢
      obtain ⟨a, rfl⟩ := print_of_output (List.ne_nil_of_length_pos (Nat.zero_lt_of_lt short))
      rw [deliver_bytes_of_lt short]
      exact ⟨rfl, rfl, rfl, trivial, a, rfl⟩

end Machine

namespace Run
variable {left : Nat} {full cut : Run Room}

/-- The bounded run has done what the unlimited one has, and has `left` bytes of room. -/
structure Abreast (left : Nat) (full cut : Run Room) : Prop where
  outcome : cut.outcome = full.outcome
  machine : cut.machine = full.machine
  output : cut.output = full.output
  events : cut.events = full.events
  unlimited : full.sink = .unlimited
  room : cut.sink = .bytes left

theorem Abreast.advance (abreast : Abreast left full cut)
    (fits : (full.machine.step full.sink).output.length ≤ left) :
    Abreast (left - (full.machine.step full.sink).output.length) full.advance cut.advance := by
  have bounded : cut.machine.step cut.sink = { full.machine.step full.sink with
      sink := Room.bytes (left - (full.machine.step full.sink).output.length) } := by
    rw [abreast.unlimited] at fits ⊢
    rw [abreast.machine, abreast.room]
    exact Machine.step_bytes_of_le fits
  constructor
  · simp only [Run.advance, bounded]
  · simp only [Run.advance, bounded]
  · simp only [Run.advance, bounded, abreast.output]
  · simp only [Run.advance, bounded, abreast.events]
  · simp only [Run.advance, abreast.unlimited, Machine.sink_step_of_steady Sink.steady_unlimited]
  · simp only [Run.advance, bounded]

theorem Abreast.within_fits (abreast : Abreast left full cut) (n : Nat)
    (fits : (full.within n).output.size ≤ full.output.size + left) :
    ∃ rest, Abreast rest (full.within n) (cut.within n) := by
  induction n generalizing left full cut with
  | zero => exact ⟨left, abreast⟩
  | succ n ih =>
    by_cases going : full.outcome = .unfinished
    · have cutGoing : cut.outcome = .unfinished := abreast.outcome.trans going
      rw [within_succ going] at fits ⊢
      rw [within_succ cutGoing]
      have printed := size_output_advance full
      have grows := size_output_le n full.advance
      apply ih (abreast.advance (by omega))
      omega
    · have cutEnded : cut.outcome ≠ .unfinished := by
        rw [abreast.outcome]
        exact going
      rw [within_of_ended going, within_of_ended cutEnded]
      exact ⟨left, abreast⟩

theorem Abreast.advance_cut (abreast : Abreast left full cut)
    (short : left < (full.machine.step full.sink).output.length) :
    cut.advance.outcome = .fault .output ∧ cut.advance.machine = full.machine ∧
    cut.advance.output.toList = full.advance.output.toList.take (full.output.size + left) ∧
    full.machine.status = .running ∧ ∃ a, full.machine.fetch? = some (.print a) := by
  rw [abreast.unlimited] at short
  obtain ⟨result, machine, output, running, print⟩ := Machine.step_bytes_of_lt short
  refine ⟨?_, ?_, ?_, running, print⟩
  · simp only [Run.advance, abreast.machine, abreast.room, result, Outcome.ofResult]
  · simp only [Run.advance, abreast.machine, abreast.room, machine]
  · rw [toList_output_advance, toList_output_advance, abreast.machine, abreast.room, output,
      abreast.output, abreast.unlimited, ← Array.length_toList, List.take_length_add_append]

theorem Abreast.within_cut (abreast : Abreast left full cut) (n : Nat)
    (exceeds : full.output.size + left < (full.within n).output.size) :
    (cut.within n).outcome = .fault .output ∧
    (cut.within n).output.toList =
      (full.within n).output.toList.take (full.output.size + left) ∧
    ∃ k < n, (full.within k).outcome = .unfinished ∧
      (full.within k).output.size ≤ full.output.size + left ∧
      full.output.size + left < (full.within (k + 1)).output.size ∧
      (full.within k).machine.status = .running ∧
      (∃ a, (full.within k).machine.fetch? = some (.print a)) ∧
      (cut.within n).machine = (full.within k).machine := by
  induction n generalizing left full cut with
  | zero => exact absurd exceeds (Nat.not_lt.mpr (Nat.le_add_right _ _))
  | succ n ih =>
    have going : full.outcome = .unfinished := by
      apply Classical.byContradiction
      intro ended
      rw [within_of_ended ended] at exceeds
      exact absurd exceeds (Nat.not_lt.mpr (Nat.le_add_right _ _))
    have cutGoing : cut.outcome = .unfinished := abreast.outcome.trans going
    have printed := size_output_advance full
    rw [within_succ going] at exceeds ⊢
    rw [within_succ cutGoing]
    -- Either this step fits and a later one does not, or the room runs out here.
    by_cases fits : (full.machine.step full.sink).output.length ≤ left
    · have total : full.advance.output.size +
          (left - (full.machine.step full.sink).output.length) = full.output.size + left := by
        omega
      have later := ih (abreast.advance fits) (by rwa [total])
      rw [total] at later
      obtain ⟨outcome, output, k, inside, before⟩ := later
      refine ⟨outcome, output, k + 1, Nat.succ_lt_succ inside, ?_⟩
      rw [within_succ going, within_succ going]
      exact before
    · have short := Nat.lt_of_not_le fits
      obtain ⟨outcome, machine, output, running, print⟩ := abreast.advance_cut short
      have ended : cut.advance.outcome ≠ .unfinished := by
        rw [outcome]
        exact Outcome.noConfusion
      rw [within_of_ended ended]
      refine ⟨outcome, ?_, 0, Nat.zero_lt_succ n, going, Nat.le_add_right _ _, ?_, running, print,
        machine⟩
      · obtain ⟨rest, whole⟩ := output_kept n full.advance
        rw [output, ← whole, List.take_append_of_le_length]
        rw [Array.length_toList]
        omega
      · rw [within_succ going]
        change _ < full.advance.output.size
        omega

theorem abreast_start (m : Machine) (capacity : Nat) :
    Abreast capacity (start m Room.unlimited) (start m (Room.bytes capacity)) :=
  ⟨rfl, rfl, rfl, rfl, rfl, rfl⟩

end Run

/-- Two runs with the same limit on their steps, one with room for `capacity` bytes and one without
a limit on its output. They agree as long as the output fits; otherwise the bounded run fails, with
the first `capacity` bytes out, where the other one stood before the first PRN too long for it. -/
theorem bounded_output_exact (m : Machine) (limit capacity : Nat) :
    let full := Run.start m Room.unlimited
    let cut := (Run.start m (Room.bytes capacity)).within limit
    ((full.within limit).output.size ≤ capacity →
      cut.outcome = (full.within limit).outcome ∧ cut.machine = (full.within limit).machine ∧
      cut.output = (full.within limit).output ∧ cut.events = (full.within limit).events) ∧
    (capacity < (full.within limit).output.size →
      cut.outcome = .fault .output ∧
      cut.output.toList = (full.within limit).output.toList.take capacity ∧
      ∃ k < limit, (full.within k).outcome = .unfinished ∧
        (full.within k).output.size ≤ capacity ∧ capacity < (full.within (k + 1)).output.size ∧
        (full.within k).machine.status = .running ∧
        (∃ a, (full.within k).machine.fetch? = some (.print a)) ∧
        cut.machine = (full.within k).machine) := by
  intro full cut
  have abreast := Run.abreast_start m capacity
  have empty : full.output.size + capacity = capacity := Nat.zero_add capacity
  constructor
  · intro fits
    obtain ⟨rest, same⟩ := abreast.within_fits limit (by rwa [empty])
    exact ⟨same.outcome, same.machine, same.output, same.events⟩
  · intro exceeds
    have stopped := abreast.within_cut limit (by rwa [empty])
    rwa [empty] at stopped

def twoLines : Machine :=
  { Machine.initial with memory := Memory.zero.copy [0x47, 0x00, 0x47, 0x00, 0x01] }

-- With room for three bytes the number of the second line fits and its newline does not.
theorem bounded_output_exact_twoLines :
    ((Run.start twoLines Room.unlimited).within 9).output.size = 4 ∧
    ((Run.start twoLines (Room.bytes 4)).within 9).outcome = .halted ∧
    ((Run.start twoLines (Room.bytes 3)).within 9).outcome = .fault .output ∧
    ((Run.start twoLines (Room.bytes 3)).within 9).output.toList = [48, 10, 48] := by
  have whole : ((Run.start twoLines Room.unlimited).within 9).output = #[48, 10, 48, 10] := by
    decide +kernel
  have size : ((Run.start twoLines Room.unlimited).within 9).output.size = 4 :=
    congrArg Array.size whole
  have halted : ((Run.start twoLines Room.unlimited).within 9).outcome = .halted := by
    decide +kernel
  obtain ⟨together, _⟩ := bounded_output_exact twoLines 9 4
  obtain ⟨_, apart⟩ := bounded_output_exact twoLines 9 3
  obtain ⟨outcome, output, _⟩ := apart (Nat.lt_of_lt_of_eq (by decide) size.symm)
  refine ⟨size, (together (Nat.le_of_eq size)).1.trans halted, outcome, ?_⟩
  rw [output, whole]
  rfl

end ByteMachine

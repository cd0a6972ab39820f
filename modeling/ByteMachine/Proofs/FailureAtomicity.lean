import ByteMachine.Proofs.InPlace

/-!
A call that fails has not happened, except for what the sink took of a line. Loading, arithmetic
and a step leave the machine as it was, in the pure functions as in the calls that assign in place,
where an assignment before the failure would show. A run that ends in an error has the machine of
its successful steps, and goes on from there on a working sink as if nothing had failed.
-/

namespace ByteMachine

namespace Machine
variable {σ : Type} [Sink σ] (m : Machine)

/-- When a step fails for this reason, and what it may put out: nothing, or less than the one line
that it was printing. -/
def Leaves (sink after : σ) (output : List Byte) : Fault → Prop
  | .halted => m.status = .halted ∧ output = [] ∧ after = sink
  | .illegalInstruction address opcode =>
    m.status = .running ∧ address = m.pc ∧ opcode = m.read m.pc ∧ Opcode.ofByte? opcode = none ∧
      output = [] ∧ after = sink
  | .output =>
    ∃ a, m.status = .running ∧ m.fetch? = some (.print a) ∧
      output <+: Effect.line (m.register a) ∧ output ≠ Effect.line (m.register a)
  | .unimplemented _ => False

variable {m} {sink : σ} {reason : Fault}

theorem step_of_error (failed : (m.step sink).result = .error reason) :
    (m.step sink).machine = m ∧
      m.Leaves sink (m.step sink).sink (m.step sink).output reason := by
  have failure := fails_of_error failed
  generalize m.step sink = s at failed failure
  cases failure with
  | halted halted =>
    cases failed
    exact ⟨rfl, halted, rfl, rfl⟩
  | unknown running unknown =>
    cases failed
    exact ⟨rfl, running, rfl, rfl, Option.map_eq_none_iff.mp unknown, rfl, rfl⟩
  | refused running fetched short =>
    cases failed
    refine ⟨rfl, _, running, fetched, List.take_prefix _ _, ?_⟩
    intro whole
    have size := congrArg List.length whole
    rw [List.length_take] at size
    omega

theorem result_of_accepts (accepts : Sink.Accepts sink) :
    (m.step sink).result ≠ .error .output := by
  intro failed
  have failure := fails_of_error failed
  generalize m.step sink = s at failed failure
  cases failure with
  | halted | unknown => cases failed
  | refused _ _ short => exact Nat.not_lt.mpr (accepts.takes _) short

theorem step_of_accepts {τ : Type} [Sink τ] {working : τ} (accepts : Sink.Accepts working)
    (taken : (m.step sink).result ≠ .error .output) :
    (m.step working).result = (m.step sink).result ∧
      (m.step working).machine = (m.step sink).machine ∧
      (m.step working).output = (m.step sink).output ∧ Sink.Accepts (m.step working).sink := by
  cases status : m.status with
  | halted =>
    rw [step_of_halted status, step_of_halted status]
    exact ⟨rfl, rfl, rfl, accepts⟩
  | running =>
    cases fetched : m.fetch? with
    | none =>
      rw [step_of_unknown status fetched, step_of_unknown status fetched]
      exact ⟨rfl, rfl, rfl, accepts⟩
    | some i =>
      have fits := fits_of_result status fetched taken
      obtain ⟨result, machine, output, -⟩ := step_of_fits status fetched fits
      obtain ⟨result', machine', output', after'⟩ :=
        step_of_fits status fetched ((m.effect i).fits_of_accepts accepts)
      rw [result, machine, output, after']
      exact ⟨result', machine', output', (m.effect i).accepts_sinkAfter accepts⟩

end Machine

theorem Outcome.ofResult_eq_fault {result : Except Fault Status} {reason : Fault} :
    Outcome.ofResult result = .fault reason ↔ result = .error reason := by
  rcases result with other | (_ | _) <;> simp [Outcome.ofResult]

namespace Run
variable {σ τ : Type} [Sink τ] {earlier : List Byte} {r : Run σ} {s : Run τ}

/-- The second run, on a sink that takes everything, has come as far as the first, with some output
already out before the first began. -/
structure Matches (earlier : List Byte) (r : Run σ) (s : Run τ) : Prop where
  outcome : s.outcome = r.outcome
  machine : s.machine = r.machine
  output : s.output.toList = earlier ++ r.output.toList
  accepts : Sink.Accepts s.sink

theorem matches_start (m : Machine) (sink : σ) {working : τ} (accepts : Sink.Accepts working) :
    Matches [] (start m sink) (start m working) :=
  ⟨rfl, rfl, rfl, accepts⟩

/-- Starting anew from where a run stands is one more way to go on with it. -/
theorem Matches.restart {υ : Type} (same : Matches [] r s) (going : r.outcome = .unfinished)
    (sink : υ) : Matches r.output.toList (start r.machine sink) s := by
  refine ⟨same.outcome.trans going, same.machine, ?_, same.accepts⟩
  rw [same.output]
  exact (List.append_nil _).symm

theorem not_refused (accepts : Sink.Accepts s.sink) (unrefused : s.outcome ≠ .fault .output)
    (n : Nat) : (s.within n).outcome ≠ .fault .output := by
  induction n generalizing s with
  | zero => exact unrefused
  | succ n ih =>
    by_cases going : s.outcome = .unfinished
    · rw [within_succ going]
      have taken := Machine.result_of_accepts (m := s.machine) accepts
      obtain ⟨-, -, -, after⟩ := Machine.step_of_accepts accepts taken
      refine ih after ?_
      intro refused
      exact taken (Outcome.ofResult_eq_fault.mp refused)
    · rw [within_of_ended going]
      exact unrefused

variable [Sink σ]

theorem Matches.advance (same : Matches earlier r s)
    (taken : r.advance.outcome ≠ .fault .output) : Matches earlier r.advance s.advance := by
  have unrefused : (r.machine.step r.sink).result ≠ .error .output := by
    intro failed
    exact taken (congrArg Outcome.ofResult failed)
  obtain ⟨result, machine, output, accepts⟩ := Machine.step_of_accepts same.accepts unrefused
  constructor
  · simp only [Run.advance, same.machine, result]
  · simp only [Run.advance, same.machine, machine]
  · rw [toList_output_advance, toList_output_advance, same.output, same.machine, output,
      List.append_assoc]
  · simp only [Run.advance, same.machine]
    exact accepts

theorem Matches.within (same : Matches earlier r s) (n : Nat)
    (taken : (r.within n).outcome ≠ .fault .output) :
    Matches earlier (r.within n) (s.within n) := by
  induction n generalizing r s with
  | zero => exact same
  | succ n ih =>
    by_cases going : r.outcome = .unfinished
    · have alsoGoing : s.outcome = .unfinished := same.outcome.trans going
      rw [within_succ going] at taken ⊢
      rw [within_succ alsoGoing]
      refine ih (same.advance ?_) taken
      intro refused
      rw [within_of_ended fun goesOn => Outcome.not_fault goesOn .output refused] at taken
      exact taken refused
    · have alsoEnded : s.outcome ≠ .unfinished := by
        rw [same.outcome]
        exact going
      rw [within_of_ended going, within_of_ended alsoEnded]
      exact same

theorem exists_failed_step {n : Nat} {reason : Fault} (going : r.outcome = .unfinished)
    (failed : (r.within n).outcome = .fault reason) :
    ∃ made < n, (r.within made).outcome = .unfinished ∧
      (r.within n).machine = (r.within made).machine ∧
      ∃ part, (r.within n).output.toList = (r.within made).output.toList ++ part ∧
        (r.within made).machine.Leaves (r.within made).sink (r.within n).sink part reason := by
  have ended : (r.within n).outcome ≠ .unfinished := fun goesOn =>
    Outcome.not_fault goesOn reason failed
  obtain ⟨made, inside, before, last⟩ := exists_last_step going ended
  rw [last] at failed ⊢
  obtain ⟨machine, leaves⟩ := Machine.step_of_error (Outcome.ofResult_eq_fault.mp failed)
  exact ⟨made, inside, before, machine, _, toList_output_advance _, leaves⟩

end Run

/-- Calls that fail change nothing but what the sink has taken. -/
theorem failed_calls_atomic {σ : Type} [Sink σ] (m : Machine) (sink : σ) :
    (∀ image e, (m.load image).value = .error e →
      e = .tooLarge image.size ∧ memorySize < image.size ∧
      (InPlace.load image).call m sink = (.error e, ⟨m, sink, [], []⟩)) ∧
    (∀ op (a b : Byte) e,
      m.combine op (.ofOperand a) (.ofOperand b) = .error e →
      e = .unimplemented ⟨op⟩ ∧
      (InPlace.arithmetic op (.ofOperand a) (.ofOperand b)).call m sink =
        (.error e, ⟨m, sink, [], []⟩)) ∧
    (∀ reason, (m.step sink).result = .error reason →
      (m.step sink).machine = m ∧
      m.Leaves sink (m.step sink).sink (m.step sink).output reason ∧
      InPlace.step.call m sink =
        (.error reason,
          ⟨m, (m.step sink).sink, (m.step sink).output, (m.step sink).events⟩)) ∧
    (∀ limit reason, ((Run.start m sink).within limit).outcome = .fault reason →
      let last := (Run.start m sink).within limit
      ∃ made < limit,
        let before := (Run.start m sink).within made
        before.outcome = .unfinished ∧ last.machine = before.machine ∧
        (∃ part, last.output.toList = before.output.toList ++ part ∧
          before.machine.Leaves before.sink last.sink part reason) ∧
        ∀ {τ : Type} [Sink τ] (working : τ), Sink.Accepts working →
          let whole := Run.start m working
          let again := Run.start last.machine working
          (whole.within made).outcome = .unfinished ∧
          (whole.within made).machine = last.machine ∧
          ∀ more,
            (whole.within (made + more)).outcome = (again.within more).outcome ∧
            (whole.within (made + more)).machine = (again.within more).machine ∧
            (whole.within (made + more)).output.toList =
              before.output.toList ++ (again.within more).output.toList) := by
  refine ⟨?_, ?_, ?_, ?_⟩
  · intro image e failed
    obtain ⟨large, rfl⟩ := Machine.load_eq_error_iff.mp failed
    refine ⟨rfl, large, ?_⟩
    rw [InPlace.call_load, m.load_of_large large]
  · intro op a b e failed
    have called := InPlace.call_arithmetic m sink op (.ofOperand a) (.ofOperand b)
    rw [failed] at called
    refine ⟨?_, called⟩
    cases op <;> cases failed <;> rfl
  · intro reason failed
    obtain ⟨machine, leaves⟩ := Machine.step_of_error failed
    refine ⟨machine, leaves, ?_⟩
    rw [InPlace.call_step, failed, machine]
  · intro limit reason failed last
    obtain ⟨made, inside, going, machine, out⟩ := Run.exists_failed_step rfl failed
    refine ⟨made, inside, going, machine, out, ?_⟩
    intro τ _ working accepts whole again
    have unrefused := Outcome.not_fault going .output
    have before := (Run.matches_start m sink accepts).within made unrefused
    refine ⟨before.outcome.trans going, before.machine.trans machine.symm, ?_⟩
    intro more
    have restarted := before.restart going working
    rw [← machine] at restarted
    have after := restarted.within more (Run.not_refused accepts Outcome.noConfusion more)
    rw [Run.within_add]
    exact ⟨after.outcome, after.machine, after.output⟩

def twicePrinted : Machine :=
  { Machine.initial with
    memory := Memory.zero.copy [0xA0, 0x00, 0x08, 0x47, 0x00, 0x47, 0x00, 0x01] }

-- With room for three bytes the second line stops short of its newline, after two steps.
theorem failed_calls_atomic_twicePrinted :
    (InPlace.load ⟨List.replicate 257 0⟩).call twicePrinted Room.unlimited =
      (.error (.tooLarge 257), ⟨twicePrinted, .unlimited, [], []⟩) ∧
    (InPlace.arithmetic .div (.ofOperand 0x07) (.ofOperand 0x0F)).call twicePrinted
      Room.unlimited =
      (.error (.unimplemented ⟨.div⟩), ⟨twicePrinted, .unlimited, [], []⟩) ∧
    ((Run.start twicePrinted (Room.bytes 3)).within 9).outcome = .fault .output ∧
    ∃ made < 9, ∀ more,
      ((Run.start twicePrinted Room.unlimited).within (made + more)).machine =
        ((Run.start ((Run.start twicePrinted (Room.bytes 3)).within 9).machine
          Room.unlimited).within more).machine := by
  have size : (⟨List.replicate 257 0⟩ : Image).size = 257 := List.length_replicate
  have tooLarge : (twicePrinted.load ⟨List.replicate 257 0⟩).value = .error (.tooLarge 257) := by
    rw [Machine.load_eq_error_iff, size]
    decide
  obtain ⟨load, arithmetic, -, -⟩ := failed_calls_atomic twicePrinted Room.unlimited
  obtain ⟨-, -, -, run⟩ := failed_calls_atomic twicePrinted (Room.bytes 3)
  have failed : ((Run.start twicePrinted (Room.bytes 3)).within 9).outcome = .fault .output := by
    decide +kernel
  obtain ⟨made, inside, -, -, -, resumed⟩ := run 9 .output failed
  obtain ⟨-, -, same⟩ := resumed Room.unlimited Sink.accepts_unlimited
  refine ⟨(load _ _ tooLarge).2.2, (arithmetic .div 0x07 0x0F _ rfl).2, failed,
    made, inside, ?_⟩
  intro more
  exact (same more).2.1

end ByteMachine

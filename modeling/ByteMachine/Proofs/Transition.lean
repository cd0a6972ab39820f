import ByteMachine.Machine.Run

/-!
What one step can do. No instruction fails by itself, so a fetched instruction has an effect; the
sink only decides whether the line of a printing instruction gets out, and the effect with it.
-/

namespace ByteMachine

namespace Sink
variable {σ : Type} [Sink σ]

def after (sink : σ) (lines : List (List Byte)) : σ :=
  lines.foldl (fun now line => (offer now line).2) sink

/-- Every line is taken whole, whatever has been offered before it. -/
def Accepts (sink : σ) : Prop :=
  ∀ earlier line, line.length ≤ (offer (after sink earlier) line).1

theorem Accepts.takes {sink : σ} (accepts : Accepts sink) (line : List Byte) :
    line.length ≤ (offer sink line).1 := accepts [] line

theorem Accepts.offered {sink : σ} (accepts : Accepts sink) (line : List Byte) :
    Accepts (offer sink line).2 := fun earlier => accepts (line :: earlier)

theorem accepts_unlimited : Accepts Room.unlimited := by
  intro earlier line
  have stays : after Room.unlimited earlier = Room.unlimited := by
    induction earlier with
    | nil => rfl
    | cons _ rest ih => exact ih
  rw [stays]
  exact Nat.le_refl _

def Steady (sink : σ) : Prop := ∀ line, (offer sink line).2 = sink

theorem steady_unlimited : Steady Room.unlimited := fun _ => rfl

end Sink

namespace Effect
variable {σ : Type} [Sink σ] (e : Effect)

def ascii (text : List Char) : List Byte := text.map fun c => BitVec.ofNat 8 c.toNat

def text (value : Byte) : List Char := Nat.toDigits 10 value.toNat ++ ['\n']

theorem line_eq_ascii (value : Byte) : line value = ascii (text value) := by
  have all : ∀ n < 256, line (BitVec.ofNat 8 n) = ascii (Nat.toDigits 10 n ++ ['\n']) := by
    decide +kernel
  simpa [text] using all value.toNat value.isLt

def output : List Byte := (e.printed.map line).getD []

def sinkAfter (sink : σ) : σ :=
  match e.printed with
  | none => sink
  | some value => (Sink.offer sink (line value)).2

def Fits (sink : σ) : Prop :=
  ∀ value, e.printed = some value → (line value).length ≤ (Sink.offer sink (line value)).1

theorem fits_of_accepts {sink : σ} (accepts : Sink.Accepts sink) : e.Fits sink :=
  fun value _ => accepts.takes (line value)

theorem accepts_sinkAfter {sink : σ} (accepts : Sink.Accepts sink) :
    Sink.Accepts (e.sinkAfter sink) := by
  unfold sinkAfter
  cases e.printed with
  | none => exact accepts
  | some value => exact accepts.offered (line value)

end Effect

namespace Machine
variable {σ : Type} [Sink σ] {m : Machine} {i : Instruction} {sink : σ}

/-- What an instruction does if nothing stands in the way of its output. -/
def effect (m : Machine) (i : Instruction) : Effect :=
  match m.execute i with
  | .ok e => e
  | .error _ => .quiet m

theorem execute_eq_effect (m : Machine) (i : Instruction) : m.execute i = .ok (m.effect i) := by
  cases i <;> rfl

theorem fetch?_of_opcode {op : Opcode} (opcode : m.read m.pc = op.toByte) :
    m.fetch? = some (.ofOpcode op (m.read (m.pc + 1)) (m.read (m.pc + 2))) := by
  rw [fetch?, opcode, Opcode.ofByte?_toByte]
  rfl

theorem step_of_halted (halted : m.status = .halted) (sink : σ) :
    m.step sink = ⟨.error .halted, m, [], [], sink⟩ := by
  simp [step, halted]

theorem step_of_unknown (running : m.status = .running) (unknown : m.fetch? = none) (sink : σ) :
    m.step sink = ⟨.error (.illegalInstruction m.pc (m.read m.pc)), m, [], [], sink⟩ := by
  simp [step, running, unknown]

theorem step_of_fetch (running : m.status = .running) (fetched : m.fetch? = some i) (sink : σ) :
    m.step sink = m.deliver i (m.effect i) sink := by
  simp [step, running, fetched, execute_eq_effect]

def recorded (m : Machine) (i : Instruction) (e : Effect) : List Event :=
  match e.machine.status with
  | .halted => [m.executing i, .halting m.pc]
  | .running => [m.executing i]

theorem deliver_of_fits {e : Effect} (fits : e.Fits sink) :
    m.deliver i e sink =
      ⟨.ok e.machine.status, e.machine, e.output, m.recorded i e, e.sinkAfter sink⟩ := by
  cases printed : e.printed with
  | none =>
    simp only [deliver, Effect.output, Effect.sinkAfter, printed, Option.map_none, Option.getD_none]
    rfl
  | some value =>
    have whole := Nat.not_lt.mpr (fits value printed)
    simp only [deliver, Effect.output, Effect.sinkAfter, printed, if_neg whole, Option.map_some,
      Option.getD_some]
    rfl

theorem step_of_fits (running : m.status = .running) (fetched : m.fetch? = some i)
    (fits : (m.effect i).Fits sink) :
    (m.step sink).result = .ok (m.effect i).machine.status ∧
      (m.step sink).machine = (m.effect i).machine ∧
      (m.step sink).output = (m.effect i).output ∧
      (m.step sink).sink = (m.effect i).sinkAfter sink := by
  rw [step_of_fetch running fetched, deliver_of_fits fits]
  exact ⟨rfl, rfl, rfl, rfl⟩

/-- A line that the sink does not take whole: what it took is out, and that is all. -/
theorem step_of_refused {value : Byte} (running : m.status = .running)
    (fetched : m.fetch? = some i) (printed : (m.effect i).printed = some value)
    (short : (Sink.offer sink (Effect.line value)).1 < (Effect.line value).length) :
    m.step sink =
      ⟨.error .output, m, (Effect.line value).take (Sink.offer sink (Effect.line value)).1,
        [m.executing i], (Sink.offer sink (Effect.line value)).2⟩ := by
  rw [step_of_fetch running fetched]
  simp [deliver, printed, short]

theorem sink_step_of_steady (steady : Sink.Steady sink) (m : Machine) :
    (m.step sink).sink = sink := by
  cases status : m.status with
  | halted => rw [step_of_halted status]
  | running =>
    cases fetched : m.fetch? with
    | none => rw [step_of_unknown status fetched]
    | some i =>
      rw [step_of_fetch status fetched, deliver]
      cases (m.effect i).printed with
      | none => rfl
      | some value =>
        by_cases short : (Sink.offer sink (Effect.line value)).1 < (Effect.line value).length
        · simp [short, steady (Effect.line value)]
        · simp [short, steady (Effect.line value)]

def stored? (m : Machine) : Instruction → Option Byte
  | .push a => some (m.register a)
  | .call a => some (m.next (.call a))
  | _ => none

-- Memory is written by PUSH and CALL alone, in one cell.
theorem memory_effect (m : Machine) (i : Instruction) :
    (m.effect i).machine.memory =
      (m.stored? i).elim m.memory fun value => m.memory.write (m.sp - 1) value := by
  cases i <;> rfl

theorem read_effect (m : Machine) (i : Instruction) (c : Byte) :
    (m.effect i).machine.read c =
      (m.stored? i).elim (m.read c) fun value => if c = m.sp - 1 then value else m.read c := by
  rw [read, memory_effect]
  cases m.stored? i with
  | none => rfl
  | some value => exact Memory.read_write m.memory (m.sp - 1) c value

theorem print_of_printed {value : Byte} (printed : (m.effect i).printed = some value) :
    ∃ a, i = .print a ∧ value = m.register a := by
  cases i with
  | print a => exact ⟨a, rfl, (Option.some.inj printed).symm⟩
  | _ => cases printed

theorem print_of_not_fits (refused : ¬ (m.effect i).Fits sink) :
    ∃ a, i = .print a ∧ (m.effect i).printed = some (m.register a) ∧
      (Sink.offer sink (Effect.line (m.register a))).1 < (Effect.line (m.register a)).length := by
  simp only [Effect.Fits, Classical.not_forall, Nat.not_le] at refused
  obtain ⟨value, printed, short⟩ := refused
  obtain ⟨a, rfl, rfl⟩ := print_of_printed printed
  exact ⟨a, rfl, printed, short⟩

theorem fits_of_result (running : m.status = .running) (fetched : m.fetch? = some i)
    (taken : (m.step sink).result ≠ .error .output) : (m.effect i).Fits sink := by
  apply Classical.byContradiction
  intro refused
  obtain ⟨a, -, printed, short⟩ := print_of_not_fits refused
  apply taken
  rw [step_of_refused running fetched printed short]

theorem exists_fits (unfailed : ∀ reason, (m.step sink).result ≠ .error reason) :
    m.status = .running ∧ ∃ i, m.fetch? = some i ∧ (m.effect i).Fits sink := by
  cases status : m.status with
  | halted =>
    rw [step_of_halted status] at unfailed
    exact absurd rfl (unfailed .halted)
  | running =>
    cases fetched : m.fetch? with
    | none =>
      rw [step_of_unknown status fetched] at unfailed
      exact absurd rfl (unfailed _)
    | some i => exact ⟨rfl, i, rfl, fits_of_result status fetched (unfailed .output)⟩

/-- The three ways in which a step can fail. -/
inductive Fails (m : Machine) (sink : σ) : Step σ → Prop where
  | halted (halted : m.status = .halted) : Fails m sink ⟨.error .halted, m, [], [], sink⟩
  | unknown (running : m.status = .running) (unknown : m.fetch? = none) :
      Fails m sink ⟨.error (.illegalInstruction m.pc (m.read m.pc)), m, [], [], sink⟩
  | refused {a : Register} (running : m.status = .running) (fetched : m.fetch? = some (.print a))
      (short : (Sink.offer sink (Effect.line (m.register a))).1 <
        (Effect.line (m.register a)).length) :
      Fails m sink ⟨.error .output, m,
        (Effect.line (m.register a)).take (Sink.offer sink (Effect.line (m.register a))).1,
        [m.executing (.print a)], (Sink.offer sink (Effect.line (m.register a))).2⟩

theorem fails_of_error {reason : Fault} (failed : (m.step sink).result = .error reason) :
    Fails m sink (m.step sink) := by
  cases status : m.status with
  | halted =>
    rw [step_of_halted status]
    exact .halted status
  | running =>
    cases fetched : m.fetch? with
    | none =>
      rw [step_of_unknown status fetched]
      exact .unknown status fetched
    | some i =>
      by_cases fits : (m.effect i).Fits sink
      · rw [(step_of_fits status fetched fits).1] at failed
        cases failed
      · obtain ⟨a, rfl, printed, short⟩ := print_of_not_fits fits
        rw [step_of_refused status fetched printed short]
        exact .refused status fetched short

end Machine

theorem Outcome.not_fault {outcome : Outcome} (going : outcome = .unfinished) (reason : Fault) :
    outcome ≠ .fault reason := by
  rw [going]
  exact Outcome.noConfusion

namespace Run
variable {σ : Type} [Sink σ] {r : Run σ} {i : Instruction}

/-- The next step executes this instruction, and the run goes on after it. -/
structure Executes (r : Run σ) (i : Instruction) : Prop where
  fetched : r.machine.fetch? = some i
  goesOn : r.advance.outcome = .unfinished

theorem Executes.running (executes : r.Executes i) : r.machine.status = .running := by
  cases status : r.machine.status with
  | running => rfl
  | halted =>
    have ended := executes.goesOn
    simp [advance, Machine.step_of_halted status, Outcome.ofResult] at ended

theorem Executes.machine_advance (executes : r.Executes i) :
    r.advance.machine = (r.machine.effect i).machine := by
  have taken : (r.machine.step r.sink).result ≠ .error .output := by
    intro failed
    have ended := executes.goesOn
    simp [advance, failed, Outcome.ofResult] at ended
  have fits := Machine.fits_of_result executes.running executes.fetched taken
  exact (Machine.step_of_fits executes.running executes.fetched fits).2.1

theorem advance_of_fetch (running : r.machine.status = .running)
    (fetched : r.machine.fetch? = some i) (accepts : Sink.Accepts r.sink) :
    r.advance.outcome = .ofResult (.ok (r.machine.effect i).machine.status) ∧
    r.advance.machine = (r.machine.effect i).machine ∧
    r.advance.output.toList = r.output.toList ++ (r.machine.effect i).output ∧
    Sink.Accepts r.advance.sink := by
  obtain ⟨result, machine, output, sink⟩ :=
    Machine.step_of_fits running fetched ((r.machine.effect i).fits_of_accepts accepts)
  refine ⟨congrArg Outcome.ofResult result, machine, ?_, ?_⟩
  · simp [advance, output]
  · change Sink.Accepts (r.machine.step r.sink).sink
    rw [sink]
    exact (r.machine.effect i).accepts_sinkAfter accepts

theorem within_succ (going : r.outcome = .unfinished) (n : Nat) :
    within (n + 1) r = within n r.advance := by
  rw [within, going]

theorem within_succ_last {n : Nat} (going : (within n r).outcome = .unfinished) :
    within (n + 1) r = (within n r).advance := by
  rw [within_add, within_succ going]
  rfl

theorem unfinished_of_le {k n : Nat} (inside : k ≤ n)
    (going : (within n r).outcome = .unfinished) : (within k r).outcome = .unfinished := by
  apply Classical.byContradiction
  intro ended
  obtain ⟨rest, rfl⟩ := Nat.exists_eq_add_of_le inside
  rw [within_add, within_of_ended ended] at going
  exact ended going

theorem exists_last_step {n : Nat} (going : r.outcome = .unfinished)
    (ended : (within n r).outcome ≠ .unfinished) :
    ∃ k < n, (within k r).outcome = .unfinished ∧ within n r = (within k r).advance := by
  induction n with
  | zero => exact absurd going ended
  | succ n ih =>
    by_cases before : (within n r).outcome = .unfinished
    · exact ⟨n, Nat.lt_succ_self n, before, within_succ_last before⟩
    · obtain ⟨k, inside, last, same⟩ := ih before
      refine ⟨k, Nat.lt_succ_of_lt inside, last, ?_⟩
      rw [within_add, within_of_ended before, same]

theorem toList_output_advance (r : Run σ) :
    r.advance.output.toList = r.output.toList ++ (r.machine.step r.sink).output := by
  simp [advance]

theorem toList_events_advance (r : Run σ) :
    r.advance.events.toList = r.events.toList ++ (r.machine.step r.sink).events := by
  simp [advance]

-- What is out stays out.
theorem output_kept (n : Nat) (r : Run σ) :
    r.output.toList <+: (within n r).output.toList := by
  induction n generalizing r with
  | zero => exact List.prefix_rfl
  | succ n ih =>
    by_cases going : r.outcome = .unfinished
    · rw [within_succ going]
      have first : r.output.toList <+: r.advance.output.toList := by
        rw [toList_output_advance]
        exact List.prefix_append _ _
      exact first.trans (ih r.advance)
    · simp [within_of_ended going]

theorem size_output_advance (r : Run σ) :
    r.advance.output.size = r.output.size + (r.machine.step r.sink).output.length := by
  simpa using congrArg List.length (toList_output_advance r)

theorem size_output_le (n : Nat) (r : Run σ) : r.output.size ≤ (within n r).output.size := by
  simpa using (output_kept n r).length_le

end Run
end ByteMachine

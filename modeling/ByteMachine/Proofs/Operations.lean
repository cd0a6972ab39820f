import ByteMachine.Machine.Load
import ByteMachine.Proofs.Transition

/-!
The calls on one machine, in any order and with any arguments, and the instructions that they
execute. A call that fails leaves the machine as it was and is one of the calls like any other. A
run may have any limit, so that a machine can also be looked at in the middle of a run.

Program counter, flags and status are moved by executed instructions alone. What no call can do to
them is proved once, for all of them together.
-/

namespace ByteMachine

/-- A call with its arguments. A register is named by an operand byte, and a sink may be of any
kind. -/
inductive Operation : Type 1 where
  | load (image : Image)
  | read (address : Byte)
  | write (address value : Byte)
  | push (value : Byte)
  | pop
  | setRegister (operand value : Byte)
  | arithmetic (op : ArithmeticOp) (a b : Byte)
  | step {σ : Type} [Sink σ] (sink : σ)
  | run {σ : Type} [Sink σ] (sink : σ) (limit : Nat)

structure Execution where
  before : Machine
  instruction : Instruction
  after : Machine
  deriving DecidableEq, Repr

namespace Machine

/-- What the next step executes; a step that fails executes nothing. -/
def execution? {σ : Type} [Sink σ] (m : Machine) (sink : σ) : Option Execution :=
  match (m.step sink).result with
  | .ok _ => m.fetch?.map fun i => ⟨m, i, (m.step sink).machine⟩
  | .error _ => none

end Machine

def Run.executions {σ : Type} [Sink σ] : Nat → Run σ → List Execution
  | 0, _ => []
  | n + 1, r =>
    match r.outcome with
    | .unfinished => (r.machine.execution? r.sink).toList ++ executions n r.advance
    | _ => []

namespace Machine

def perform (m : Machine) : Operation → Machine
  | .load image =>
    match (m.load image).value with
    | .ok after => after
    | .error _ => m
  | .read _ => m
  | .write address value => m.write address value
  | .push value => m.push value
  | .pop => m.pop.2
  | .setRegister operand value => m.setRegister (.ofOperand operand) value
  | .arithmetic op a b =>
    match m.combine op (.ofOperand a) (.ofOperand b) with
    | .ok after => after
    | .error _ => m
  | @Operation.step _ _ sink => (m.step sink).machine
  | @Operation.run _ _ sink limit => ((Run.start m sink).within limit).machine

def executions (m : Machine) : Operation → List Execution
  | @Operation.step _ _ sink => (m.execution? sink).toList
  | @Operation.run _ _ sink limit => (Run.start m sink).executions limit
  | _ => []

def performAll (m : Machine) (operations : List Operation) : Machine := operations.foldl perform m

def history (m : Machine) : List Operation → List Execution
  | [] => []
  | operation :: rest => m.executions operation ++ (m.perform operation).history rest

theorem perform_load_of_fits (m : Machine) {image : Image} (fits : image.size ≤ memorySize) :
    m.perform (.load image) = m.withImage image := by
  rw [perform, m.load_of_fits fits]

theorem perform_load_of_large (m : Machine) {image : Image} (large : memorySize < image.size) :
    m.perform (.load image) = m := by
  rw [perform, m.load_of_large large]

section Steps
variable {σ : Type} [Sink σ] {m : Machine} {sink : σ}

theorem step_of_execution? {e : Execution} (made : m.execution? sink = some e) :
    e.before = m ∧ m.status = .running ∧ m.fetch? = some e.instruction ∧
      e.after = (m.effect e.instruction).machine ∧
      m.step sink = ⟨.ok e.after.status, e.after, (m.effect e.instruction).output,
        m.recorded e.instruction (m.effect e.instruction),
        (m.effect e.instruction).sinkAfter sink⟩ := by
  cases result : (m.step sink).result with
  | error reason => simp [execution?, result] at made
  | ok status =>
    have unfailed (reason : Fault) : (m.step sink).result ≠ .error reason := by simp [result]
    obtain ⟨running, i, fetched, fits⟩ := exists_fits unfailed
    have step := (step_of_fetch running fetched sink).trans (deliver_of_fits fits)
    rw [execution?, step, fetched] at made
    cases made
    exact ⟨rfl, running, fetched, rfl, step⟩

theorem result_of_not_executed (idle : m.execution? sink = none) :
    ∃ reason, (m.step sink).result = .error reason := by
  cases result : (m.step sink).result with
  | error reason => exact ⟨reason, rfl⟩
  | ok status =>
    have unfailed (reason : Fault) : (m.step sink).result ≠ .error reason := by simp [result]
    obtain ⟨running, i, fetched, fits⟩ := exists_fits unfailed
    simp [execution?, result, fetched] at idle

theorem machine_of_error {reason : Fault} (failed : (m.step sink).result = .error reason) :
    (m.step sink).machine = m := by
  have failure := fails_of_error failed
  generalize m.step sink = s at failure
  cases failure <;> rfl

end Steps

theorem step_executes {σ : Type} [Sink σ] (m : Machine) (sink : σ) :
    (m.execution? sink = none ∧ (m.step sink).machine = m) ∨
      ∃ e, m.execution? sink = some e ∧ (m.step sink).machine = e.after := by
  cases made : m.execution? sink with
  | none =>
    obtain ⟨reason, failed⟩ := result_of_not_executed made
    exact .inl ⟨rfl, machine_of_error failed⟩
  | some e =>
    obtain ⟨-, -, -, -, step⟩ := step_of_execution? made
    refine .inr ⟨e, rfl, ?_⟩
    rw [step]

end Machine

namespace Run
variable {σ : Type} [Sink σ] {r : Run σ}

theorem executions_of_ended (ended : r.outcome ≠ .unfinished) (n : Nat) : r.executions n = [] := by
  cases n with
  | zero => rfl
  | succ n =>
    unfold executions
    split
    · rename_i going
      exact absurd going ended
    · rfl

theorem executions_succ (going : r.outcome = .unfinished) (n : Nat) :
    r.executions (n + 1) = (r.machine.execution? r.sink).toList ++ r.advance.executions n := by
  rw [executions, going]

theorem executions_add (r : Run σ) (m n : Nat) :
    r.executions (m + n) = r.executions m ++ (r.within m).executions n := by
  induction m generalizing r with
  | zero => rw [Nat.zero_add, within, executions, List.nil_append]
  | succ m ih =>
    by_cases going : r.outcome = .unfinished
    · rw [Nat.succ_add, executions_succ going, executions_succ going, within_succ going, ih,
        List.append_assoc]
    · rw [within_of_ended going, executions_of_ended going, executions_of_ended going,
        executions_of_ended going, List.append_nil]

/-- A run executes one instruction after the other, until a step fails or there are no more. -/
theorem executions_induction {motive : Run σ → List Execution → Run σ → Prop}
    (stays : ∀ r, motive r [] r)
    (fails : ∀ r reason, r.outcome = .unfinished → (r.machine.step r.sink).result = .error reason →
      motive r [] r.advance)
    (executes : ∀ r e rest last, r.outcome = .unfinished →
      r.machine.execution? r.sink = some e → motive r.advance rest last → motive r (e :: rest) last)
    (n : Nat) (r : Run σ) : motive r (r.executions n) (r.within n) := by
  induction n generalizing r with
  | zero => exact stays r
  | succ n ih =>
    by_cases going : r.outcome = .unfinished
    · rw [within_succ going, executions_succ going]
      cases made : r.machine.execution? r.sink with
      | none =>
        obtain ⟨reason, failed⟩ := Machine.result_of_not_executed made
        have ended : r.advance.outcome ≠ .unfinished := by
          simp [advance, failed, Outcome.ofResult]
        have step := fails r reason going failed
        simpa [executions_of_ended ended, within_of_ended ended] using step
      | some e => exact executes r e _ _ going made (ih r.advance)
    · rw [within_of_ended going, executions_of_ended going]
      exact stays r

/-- Only what it executes takes a run from one machine to another. -/
theorem machines_induction {motive : Machine → List Execution → Machine → Prop}
    (stays : ∀ m, motive m [] m)
    (executes : ∀ (m : Machine) (sink : σ) e rest last,
      m.execution? sink = some e → motive e.after rest last → motive m (e :: rest) last)
    (n : Nat) (r : Run σ) : motive r.machine (r.executions n) (r.within n).machine := by
  refine executions_induction
    (motive := fun r made last => motive r.machine made last.machine) ?_ ?_ ?_ n r
  · intro r
    exact stays r.machine
  · intro r reason _ failed
    rw [advance, Machine.machine_of_error failed]
    exact stays r.machine
  · intro r e rest last _ made later
    have machine : r.advance.machine = e.after := by
      rw [advance, (Machine.step_of_execution? made).2.2.2.2]
    rw [machine] at later
    exact executes r.machine r.sink e rest last.machine made later

end Run

/-- Where a machine is in its program: what it has apart from memory and registers. -/
structure Control where
  pc : Byte
  flags : Flags
  status : Status
  deriving DecidableEq, Repr

namespace Machine

def control (m : Machine) : Control := ⟨m.pc, m.flags, m.status⟩

theorem control_eq {m n : Machine} (pc : m.pc = n.pc) (flags : m.flags = n.flags)
    (status : m.status = n.status) : m.control = n.control := by
  simp only [control, pc, flags, status]

end Machine

/-- Executed instructions that take the control from the first to the second. In between, calls may
change memory and registers. -/
inductive Moves : Control → List Execution → Control → Prop where
  | nil (c : Control) : Moves c [] c
  | cons {e : Execution} {rest : List Execution} {c : Control} {σ : Type} [Sink σ] {sink : σ}
      (made : e.before.execution? sink = some e) (later : Moves e.after.control rest c) :
      Moves e.before.control (e :: rest) c

namespace Moves
variable {c d k : Control} {earlier later : List Execution}

theorem append (first : Moves c earlier d) (second : Moves d later k) :
    Moves c (earlier ++ later) k := by
  induction first with
  | nil => exact second
  | cons made _ ih => exact .cons made (ih second)

theorem split (whole : Moves c (earlier ++ later) k) :
    ∃ d, Moves c earlier d ∧ Moves d later k := by
  induction earlier generalizing c with
  | nil => exact ⟨c, .nil c, whole⟩
  | cons e earlier ih =>
    cases whole with
    | cons made rest =>
      obtain ⟨d, first, second⟩ := ih rest
      exact ⟨d, .cons made first, second⟩

theorem one {σ : Type} [Sink σ] {m : Machine} {sink : σ} {e : Execution}
    (made : m.execution? sink = some e) : Moves m.control [e] e.after.control := by
  obtain ⟨rfl, -⟩ := Machine.step_of_execution? made
  exact .cons made (.nil _)

theorem run {σ : Type} [Sink σ] (n : Nat) (r : Run σ) :
    Moves r.machine.control (r.executions n) (r.within n).machine.control := by
  refine Run.machines_induction
    (motive := fun first made last => Moves first.control made last.control) ?_ ?_ n r
  · intro m
    exact .nil m.control
  · intro m sink e rest last made later
    exact (one made).append later

theorem perform (m : Machine) (operation : Operation) :
    Moves m.control (m.executions operation) (m.perform operation).control := by
  cases operation with
  | step sink =>
    change Moves m.control (m.execution? sink).toList (m.step sink).machine.control
    rcases m.step_executes sink with ⟨nothing, machine⟩ | ⟨e, made, machine⟩
    · rw [nothing, machine]
      exact .nil _
    · rw [made, machine]
      exact one made
  | run sink limit => exact run limit (.start m sink)
  | load image =>
    have kept : (m.perform (.load image)).control = m.control := by
      by_cases fits : image.size ≤ memorySize
      · rw [m.perform_load_of_fits fits]
        exact Machine.control_eq (by simp) (by simp) (by simp)
      · rw [m.perform_load_of_large (Nat.lt_of_not_le fits)]
    rw [kept]
    exact .nil _
  | arithmetic op a b =>
    have kept : (m.perform (.arithmetic op a b)).control = m.control := by
      cases op <;> rfl
    rw [kept]
    exact .nil _
  | read | write | push | pop | setRegister => exact .nil _

/-- No call moves the control but through the instructions that it executes. -/
theorem performAll (m : Machine) (operations : List Operation) :
    Moves m.control (m.history operations) (m.performAll operations).control := by
  induction operations generalizing m with
  | nil => exact .nil _
  | cons operation rest ih => exact (perform m operation).append (ih (m.perform operation))

end Moves
end ByteMachine

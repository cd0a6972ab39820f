import ByteMachine.Machine.Step

/-!
Runs: a machine is stepped until it halts or fails. A run in progress is a value, so that it can
be continued; `Run.within` makes at most a number of steps and leaves a run that has ended alone.
-/

namespace ByteMachine

inductive Outcome where
  | unfinished
  | halted
  | fault (reason : Fault)
  deriving DecidableEq, Repr

def Outcome.ofResult : Except Fault Status → Outcome
  | .ok .running => .unfinished
  | .ok .halted => .halted
  | .error reason => .fault reason

structure Run (σ : Type) where
  outcome : Outcome
  machine : Machine
  output : Array Byte
  events : Array Event
  sink : σ

namespace Run
variable {σ : Type} [Sink σ]

def start (m : Machine) (sink : σ) : Run σ := ⟨.unfinished, m, #[], #[], sink⟩

/-- Makes the next step, whatever the outcome so far. -/
def advance (r : Run σ) : Run σ :=
  let s := r.machine.step r.sink
  { outcome := .ofResult s.result
    machine := s.machine
    output := r.output ++ s.output
    events := r.events ++ s.events
    sink := s.sink }

def within : Nat → Run σ → Run σ
  | 0, r => r
  | n + 1, r =>
    match r.outcome with
    | .unfinished => within n r.advance
    | _ => r

theorem within_of_ended {r : Run σ} (ended : r.outcome ≠ .unfinished) (n : Nat) :
    within n r = r := by
  cases n with
  | zero => rfl
  | succ n =>
    rw [within]
    split
    · contradiction
    · rfl

theorem within_add (r : Run σ) (m n : Nat) : within (m + n) r = within n (within m r) := by
  induction m generalizing r with
  | zero => simp [within]
  | succ m ih =>
    by_cases going : r.outcome = .unfinished
    · simp [Nat.succ_add, within, going, ih]
    · simp [within_of_ended going]

end Run

namespace Machine

/-- How many different machines are running: a machine that is still running after so many steps
has been in one of its states twice and never stops. -/
def runningCount : Nat := 256 * Nat.pow 256 memorySize * Nat.pow 256 registerCount * Nat.pow 2 3

end Machine
end ByteMachine

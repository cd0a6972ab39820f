import ByteMachine.Proofs.Transition

/-!
A run is one step after the other. Steps can be asked for any number of times, whatever they
answer; a run makes them up to and including the first one that does not leave the machine running,
and no more of them than its limit. So a limit that is not reached makes no difference, a run that
was cut off can be continued from its machine and sink, and a loop without a limit ends with the
same steps as every run whose limit is large enough.
-/

namespace ByteMachine

section UpTo
variable {α : Type} {p : α → Bool} {x : α} {xs front : List α}

def upTo (p : α → Bool) : List α → List α
  | [] => []
  | x :: xs => if p x then [x] else x :: upTo p xs

theorem upTo_of_none (none : ∀ x ∈ xs, p x = false) : upTo p xs = xs := by
  induction xs with
  | nil => rfl
  | cons x xs ih =>
    rw [List.forall_mem_cons] at none
    simp [upTo, none.1, ih none.2]

theorem upTo_append_cons (before : ∀ x ∈ front, p x = false) (passes : p x = true)
    (back : List α) : upTo p (front ++ x :: back) = front ++ [x] := by
  induction front with
  | nil => simp [upTo, passes]
  | cons y front ih =>
    rw [List.forall_mem_cons] at before
    simp [upTo, before.1, ih before.2]

end UpTo

section Ends
variable {σ : Type}

/-- The machine does not run on after this step: it has halted, or the step has failed. -/
def Step.ends (s : Step σ) : Bool :=
  match s.result with
  | .ok .running => false
  | _ => true

theorem Step.ends_eq_false_iff {s : Step σ} : s.ends = false ↔ s.result = .ok .running := by
  rcases s with ⟨_ | _ | _⟩ <;> simp [ends]

theorem Step.ofResult_eq_unfinished_iff {s : Step σ} :
    Outcome.ofResult s.result = .unfinished ↔ s.ends = false := by
  rcases s with ⟨_ | _ | _⟩ <;> simp [ends, Outcome.ofResult]

end Ends

variable {σ : Type} [Sink σ]

namespace Machine
variable {m : Machine} {sink : σ} {n k : Nat}

/-- So many calls of `step`, each on the machine and the sink that the one before it has left. -/
def steps (m : Machine) (sink : σ) : Nat → List (Step σ)
  | 0 => []
  | n + 1 => m.step sink :: (m.step sink).machine.steps (m.step sink).sink n

def stepsToEnd (m : Machine) (sink : σ) (limit : Nat) : List (Step σ) :=
  upTo Step.ends (m.steps sink limit)

/-- A loop without a limit: a step, and the loop again if the machine still runs. -/
inductive Loop : Machine → σ → List (Step σ) → Prop where
  | last {m : Machine} {sink : σ} (ends : (m.step sink).ends = true) : Loop m sink [m.step sink]
  | again {m : Machine} {sink : σ} {made : List (Step σ)} (goesOn : (m.step sink).ends = false)
      (rest : Loop (m.step sink).machine (m.step sink).sink made) :
      Loop m sink (m.step sink :: made)

@[simp] theorem length_steps (m : Machine) (sink : σ) (n : Nat) : (m.steps sink n).length = n := by
  induction n generalizing m sink with
  | zero => rfl
  | succ n ih => simp [steps, ih]

theorem take_steps (inside : k ≤ n) : (m.steps sink n).take k = m.steps sink k := by
  induction k generalizing m sink n with
  | zero => rfl
  | succ k ih =>
    cases n with
    | zero => exact absurd inside (Nat.not_succ_le_zero k)
    | succ n => simp [steps, ih (Nat.le_of_succ_le_succ inside)]

theorem stepsToEnd_last (ends : (m.step sink).ends = true) (n : Nat) :
    m.stepsToEnd sink (n + 1) = [m.step sink] := by
  simp [stepsToEnd, steps, upTo, ends]

theorem stepsToEnd_again (goesOn : (m.step sink).ends = false) (n : Nat) :
    m.stepsToEnd sink (n + 1) =
      m.step sink :: (m.step sink).machine.stepsToEnd (m.step sink).sink n := by
  simp [stepsToEnd, steps, upTo, goesOn]

end Machine

namespace Run
variable {m : Machine} {sink : σ} {r : Run σ}

def followedBy (r next : Run σ) : Run σ :=
  { next with output := r.output ++ next.output, events := r.events ++ next.events }

def ofSteps (m : Machine) (sink : σ) (made : List (Step σ)) : Run σ :=
  match made.getLast? with
  | none => start m sink
  | some last =>
    { outcome := .ofResult last.result
      machine := last.machine
      output := (made.flatMap Step.output).toArray
      events := (made.flatMap Step.events).toArray
      sink := last.sink }

omit [Sink σ] in
theorem followedBy_assoc (r s t : Run σ) :
    (r.followedBy s).followedBy t = r.followedBy (s.followedBy t) := by
  simp [followedBy, Array.append_assoc]

/-- Every step appends to what is there, so it may as well begin with nothing. -/
theorem advance_eq_followedBy (r : Run σ) :
    r.advance = r.followedBy (start r.machine r.sink).advance := by
  have same {α : Type} (xs : Array α) (more : List α) :
      xs ++ more = xs ++ ((#[] : Array α) ++ more) := by
    apply Array.ext'
    simp
  simp only [advance, followedBy, start, ← same]

theorem within_eq_followedBy (going : r.outcome = .unfinished) (n : Nat) :
    r.within n = r.followedBy ((start r.machine r.sink).within n) := by
  induction n generalizing r with
  | zero => simp [within, followedBy, start, ← going]
  | succ n ih =>
    let fresh := start r.machine r.sink
    have first : r.advance = r.followedBy fresh.advance := advance_eq_followedBy r
    rw [within_succ going, within_succ (r := fresh) rfl]
    by_cases goesOn : r.advance.outcome = .unfinished
    · have alsoGoesOn : fresh.advance.outcome = .unfinished := goesOn
      rw [ih goesOn, ih alsoGoesOn, first, followedBy_assoc]
      rfl
    · have alsoEnds : fresh.advance.outcome ≠ .unfinished := goesOn
      rw [within_of_ended goesOn, within_of_ended alsoEnds, first]

theorem within_of_last (ends : (m.step sink).ends = true) (n : Nat) :
    (start m sink).within (n + 1) = (start m sink).advance := by
  rw [within_succ rfl, within_of_ended]
  intro going
  exact Bool.false_ne_true ((Step.ofResult_eq_unfinished_iff.mp going).symm.trans ends)

theorem within_of_again (goesOn : (m.step sink).ends = false) (n : Nat) :
    (start m sink).within (n + 1) = (start m sink).advance.followedBy
      ((start (m.step sink).machine (m.step sink).sink).within n) := by
  rw [within_succ rfl]
  exact within_eq_followedBy (Step.ofResult_eq_unfinished_iff.mpr goesOn) n

theorem ofSteps_last (m : Machine) (sink : σ) :
    ofSteps m sink [m.step sink] = (start m sink).advance := by
  simp [ofSteps, advance, start]

theorem ofSteps_again (goesOn : (m.step sink).ends = false) (made : List (Step σ)) :
    ofSteps m sink (m.step sink :: made) = (start m sink).advance.followedBy
      (ofSteps (m.step sink).machine (m.step sink).sink made) := by
  cases made with
  | nil =>
    have going := Step.ofResult_eq_unfinished_iff.mpr goesOn
    simp [ofSteps, advance, start, followedBy, going]
  | cons s made =>
    simp only [ofSteps, List.getLast?_cons]
    simp [advance, start, followedBy]

/-- A run is what the steps up to its end or its limit leave behind. -/
theorem within_eq_ofSteps (m : Machine) (sink : σ) (limit : Nat) :
    (start m sink).within limit = ofSteps m sink (m.stepsToEnd sink limit) := by
  induction limit generalizing m sink with
  | zero => rfl
  | succ limit ih =>
    cases ends : (m.step sink).ends with
    | true => rw [within_of_last ends, Machine.stepsToEnd_last ends, ofSteps_last]
    | false =>
      rw [within_of_again ends, Machine.stepsToEnd_again ends, ofSteps_again ends, ih]

omit [Sink σ] in
theorem outcome_ofSteps {made : List (Step σ)} (goOn : ∀ s ∈ made, s.ends = false) :
    (ofSteps m sink made).outcome = .unfinished := by
  unfold ofSteps
  split
  · rfl
  · rename_i last found
    exact Step.ofResult_eq_unfinished_iff.mpr (goOn last (List.mem_of_getLast? found))

end Run

namespace Machine
variable {m : Machine} {sink : σ} {n k limit : Nat}

structure EndsAt (m : Machine) (sink : σ) (k : Nat) (last : Step σ) : Prop where
  made : m.steps sink (k + 1) = m.steps sink k ++ [last]
  before : ∀ s ∈ m.steps sink k, s.ends = false
  ends : last.ends = true

theorem EndsAt.again {last : Step σ} (goesOn : (m.step sink).ends = false)
    (rest : (m.step sink).machine.EndsAt (m.step sink).sink k last) :
    m.EndsAt sink (k + 1) last := by
  constructor
  · rw [steps, rest.made]
    rfl
  · exact List.forall_mem_cons.mpr ⟨goesOn, rest.before⟩
  · exact rest.ends

theorem exists_endsAt (ended : ((Run.start m sink).within n).outcome ≠ .unfinished) :
    ∃ k < n, ∃ last, m.EndsAt sink k last := by
  induction n generalizing m sink with
  | zero => exact absurd rfl ended
  | succ n ih =>
    cases ends : (m.step sink).ends with
    | true => exact ⟨0, Nat.zero_lt_succ n, m.step sink, rfl, List.forall_mem_nil _, ends⟩
    | false =>
      rw [Run.within_of_again ends] at ended
      obtain ⟨k, inside, last, rest⟩ := ih ended
      exact ⟨k + 1, Nat.succ_lt_succ inside, last, rest.again ends⟩

theorem EndsAt.stepsToEnd_eq {last : Step σ} (ending : m.EndsAt sink k last) (beyond : k < limit) :
    m.stepsToEnd sink limit = m.steps sink (k + 1) := by
  have whole := List.take_append_drop (k + 1) (m.steps sink limit)
  rw [take_steps beyond, ending.made, List.append_assoc] at whole
  rw [stepsToEnd, ← whole, ending.made]
  exact upTo_append_cons ending.before ending.ends _

theorem EndsAt.goesOn {last : Step σ} (ending : m.EndsAt sink k last) (inside : limit ≤ k) :
    ∀ s ∈ m.steps sink limit, s.ends = false := by
  intro s member
  rw [← take_steps inside] at member
  exact ending.before s (List.mem_of_mem_take member)

theorem loop_iff {made : List (Step σ)} :
    m.Loop sink made ↔
      ∃ limit, ((Run.start m sink).within limit).outcome ≠ .unfinished ∧
        m.stepsToEnd sink limit = made := by
  constructor
  · intro loop
    induction loop with
    | @last m sink ends =>
      refine ⟨1, ?_, stepsToEnd_last ends 0⟩
      rw [Run.within_of_last ends]
      intro going
      exact Bool.false_ne_true ((Step.ofResult_eq_unfinished_iff.mp going).symm.trans ends)
    | again goesOn _ ih =>
      obtain ⟨limit, ended, rfl⟩ := ih
      refine ⟨limit + 1, ?_, stepsToEnd_again goesOn limit⟩
      rwa [Run.within_of_again goesOn]
  · rintro ⟨limit, ended, rfl⟩
    induction limit generalizing m sink with
    | zero => exact absurd rfl ended
    | succ limit ih =>
      cases ends : (m.step sink).ends with
      | true =>
        rw [stepsToEnd_last ends]
        exact .last ends
      | false =>
        rw [Run.within_of_again ends] at ended
        rw [stepsToEnd_again ends]
        exact .again ends (ih ended)

end Machine

/-- A run with a limit makes the steps that its calls would make one after the other, up to the
first that halts or fails. Behind that step the limit makes no difference, before it the limit is
used up; a run that was cut off can be continued, and a loop without a limit is a run whose limit
was large enough. -/
theorem run_iterates_step (m : Machine) (sink : σ) :
    let r := Run.start m sink
    (∀ limit, (m.steps sink limit).length = limit ∧
      r.within limit = Run.ofSteps m sink (m.stepsToEnd sink limit)) ∧
    (∀ n, (r.within n).outcome ≠ .unfinished →
      ∃ k < n, ∃ last,
        m.steps sink (k + 1) = m.steps sink k ++ [last] ∧
        (∀ s ∈ m.steps sink k, s.result = .ok .running) ∧ last.result ≠ .ok .running ∧
        (∀ limit, k + 1 ≤ limit →
          m.stepsToEnd sink limit = m.steps sink (k + 1) ∧ r.within limit = r.within n) ∧
        ∀ limit, limit < k + 1 →
          m.stepsToEnd sink limit = m.steps sink limit ∧
          (∀ s ∈ m.steps sink limit, s.result = .ok .running) ∧
          (r.within limit).outcome = .unfinished) ∧
    (∀ first, (r.within first).outcome = .unfinished → ∀ more,
      r.within (first + more) = (r.within first).followedBy
        ((Run.start (r.within first).machine (r.within first).sink).within more)) ∧
    ∀ made, m.Loop sink made ↔
      ∃ limit, (r.within limit).outcome ≠ .unfinished ∧ m.stepsToEnd sink limit = made := by
  intro r
  refine ⟨?_, ?_, ?_, fun _ => Machine.loop_iff⟩
  · intro limit
    exact ⟨Machine.length_steps m sink limit, Run.within_eq_ofSteps m sink limit⟩
  · intro n ended
    obtain ⟨k, inside, last, ending⟩ := Machine.exists_endsAt ended
    refine ⟨k, inside, last, ending.made, ?_, ?_, ?_, ?_⟩
    · intro s member
      exact Step.ends_eq_false_iff.mp (ending.before s member)
    · intro running
      exact Bool.false_ne_true ((Step.ends_eq_false_iff.mpr running).symm.trans ending.ends)
    · intro limit beyond
      have made := ending.stepsToEnd_eq beyond
      refine ⟨made, ?_⟩
      rw [Run.within_eq_ofSteps, Run.within_eq_ofSteps, made, ending.stepsToEnd_eq inside]
    · intro limit before
      have goOn := ending.goesOn (Nat.le_of_lt_succ before)
      have made : m.stepsToEnd sink limit = m.steps sink limit := upTo_of_none goOn
      refine ⟨made, ?_, ?_⟩
      · intro s member
        exact Step.ends_eq_false_iff.mp (goOn s member)
      · rw [Run.within_eq_ofSteps, made]
        exact Run.outcome_ofSteps goOn
  · intro first going more
    rw [Run.within_add]
    exact Run.within_eq_followedBy going more

def printsAndFails : Machine :=
  { Machine.initial with memory := Memory.zero.copy [0x47, 0x00, 0x47, 0x00, 0xFF] }

-- The step that fails is the third: a limit of two is used up, a limit of three is not.
theorem run_iterates_step_printsAndFails :
    let r := Run.start printsAndFails (Room.bytes 4)
    (r.within 3).outcome = .fault (.illegalInstruction 0x04 0xFF) ∧
    (∀ limit, 3 ≤ limit → r.within limit = r.within 3) ∧
    (r.within 2).outcome = .unfinished ∧
    (∀ more, r.within (2 + more) = (r.within 2).followedBy
      ((Run.start (r.within 2).machine (r.within 2).sink).within more)) ∧
    printsAndFails.Loop (Room.bytes 4) (printsAndFails.steps (Room.bytes 4) 3) := by
  intro r
  obtain ⟨-, ending, continued, loop⟩ := run_iterates_step printsAndFails (Room.bytes 4)
  have failed : (r.within 3).outcome = .fault (.illegalInstruction 0x04 0xFF) := by
    decide +kernel
  have going : (r.within 2).outcome = .unfinished := by decide +kernel
  have ended : (r.within 3).outcome ≠ .unfinished := by
    rw [failed]
    exact Outcome.noConfusion
  obtain ⟨k, inside, -, -, -, -, beyond, before⟩ := ending 3 ended
  have third : k = 2 := by
    by_cases early : k < 2
    · rw [(beyond 2 early).2] at going
      exact absurd going ended
    · omega
  subst third
  refine ⟨failed, fun limit reached => (beyond limit reached).2, going, continued 2 going, ?_⟩
  exact (loop _).mpr ⟨3, ended, (beyond 3 (Nat.le_refl 3)).1⟩

end ByteMachine

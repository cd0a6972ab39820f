import Mathlib.Data.Fintype.BigOperators
import Mathlib.Data.Fintype.Pigeonhole
import ByteMachine.Proofs.Endings

/-!
A run that comes back to a machine and a sink that it has left before goes round for ever. Running
machines differ in their program counter, memory, registers and flags, so there are only so many of
them; if the sink can also be in a limited number of conditions, a long run has come back.
-/

namespace ByteMachine

theorem exists_repeated {α : Type} [Fintype α] (f : Nat → α) :
    ∃ i j, i < j ∧ j ≤ Fintype.card α ∧ f i = f j := by
  obtain ⟨i, j, apart, same⟩ := Fintype.exists_ne_map_eq_of_card_lt
    (fun k : Fin (Fintype.card α + 1) => f k)
    (by rw [Fintype.card_fin]; exact Nat.lt_succ_self _)
  rcases Nat.lt_or_gt_of_ne (Fin.val_ne_of_ne apart) with before | before
  · exact ⟨i, j, before, Nat.le_of_lt_succ j.isLt, same⟩
  · exact ⟨j, i, before, Nat.le_of_lt_succ i.isLt, same.symm⟩

namespace Machine

def state (m : Machine) :
    Fin 256 × (Fin 256 → Fin 256) × (Register → Fin 256) × Bool × Bool × Bool :=
  (m.pc.toFin, fun a => (m.read (.ofFin a)).toFin, fun r => (m.register r).toFin,
    m.flags.less, m.flags.greater, m.flags.equal)

theorem eq_of_state {m n : Machine} (state : m.state = n.state) (status : m.status = n.status) :
    m = n := by
  simp only [Machine.state, Prod.mk.injEq] at state
  obtain ⟨pc, memory, registers, less, greater, equal⟩ := state
  refine eq_of_observed (BitVec.eq_of_toFin_eq pc) ?_ ?_ ?_ status
  · intro a
    exact BitVec.eq_of_toFin_eq (congrFun memory a.toFin)
  · intro r
    exact BitVec.eq_of_toFin_eq (congrFun registers r)
  · cases hm : m.flags
    cases hn : n.flags
    simp_all

theorem card_state :
    Fintype.card (Fin 256 × (Fin 256 → Fin 256) × (Register → Fin 256) × Bool × Bool × Bool) =
      runningCount := by
  simp only [Fintype.card_prod, Fintype.card_fun, Fintype.card_fin, Fintype.card_bool]
  rfl

end Machine

namespace Run
variable {σ : Type} [Sink σ] {r : Run σ} {m : Machine} {sink : σ} {i j : Nat}

theorem outcome_within_add (going : (r.within i).outcome = .unfinished) (more : Nat) :
    (r.within (i + more)).outcome =
      ((start (r.within i).machine (r.within i).sink).within more).outcome := by
  rw [within_add, within_eq_followedBy going]
  rfl

theorem endless_of_recurrence (apart : i < j) (going : (r.within j).outcome = .unfinished)
    (machine : (r.within i).machine = (r.within j).machine)
    (sink : (r.within i).sink = (r.within j).sink) (n : Nat) :
    (r.within n).outcome = .unfinished := by
  induction n using Nat.strong_induction_on with
  | _ n ih =>
    by_cases early : n ≤ j
    · exact unfinished_of_le early going
    · obtain ⟨more, rfl⟩ := Nat.exists_eq_add_of_le (Nat.le_of_not_le early)
      -- A run that is one lap shorter comes to the same.
      have lap := outcome_within_add (unfinished_of_le (Nat.le_of_lt apart) going) more
      rw [machine, sink] at lap
      rw [outcome_within_add going, ← lap]
      exact ih (i + more) (Nat.add_lt_add_right apart more)

theorem running_within (running : m.status = .running) {n : Nat}
    (going : ((start m sink).within n).outcome = .unfinished) :
    ((start m sink).within n).machine.status = .running := by
  induction n with
  | zero => exact running
  | succ n ih =>
    have before := unfinished_of_le (Nat.le_succ n) going
    rw [within_succ_last before] at going ⊢
    exact Machine.running_of_goesOn (ih before) (Step.ofResult_eq_unfinished_iff.mp going)

/-- If the sink can only be in so many conditions, then a run of as many steps as there are running
machines for each of them has ended, or it never does. -/
theorem endless_of_runningCount {α : Type} [Fintype α] (condition : σ → α)
    (told : ∀ i j, ((start m sink).within i).outcome = .unfinished →
      ((start m sink).within j).outcome = .unfinished →
      condition ((start m sink).within i).sink = condition ((start m sink).within j).sink →
      ((start m sink).within i).sink = ((start m sink).within j).sink)
    (running : m.status = .running)
    (going : ((start m sink).within (Machine.runningCount * Fintype.card α)).outcome = .unfinished)
    (n : Nat) : ((start m sink).within n).outcome = .unfinished := by
  -- The pairs before and after so many steps are one more than there are.
  obtain ⟨i, j, apart, last, same⟩ := exists_repeated fun k =>
    (((start m sink).within k).machine.state, condition ((start m sink).within k).sink)
  rw [Fintype.card_prod, Machine.card_state] at last
  obtain ⟨state, sinks⟩ := Prod.mk.inj same
  have goingLater : ((start m sink).within j).outcome = .unfinished := unfinished_of_le last going
  have goingBefore := unfinished_of_le (Nat.le_of_lt apart) goingLater
  have machine : ((start m sink).within i).machine = ((start m sink).within j).machine :=
    Machine.eq_of_state state
      ((running_within running goingBefore).trans (running_within running goingLater).symm)
  exact endless_of_recurrence apart goingLater machine (told i j goingBefore goingLater sinks) n

end Run
end ByteMachine

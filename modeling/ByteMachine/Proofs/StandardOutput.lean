import ByteMachine.Cli.Session
import ByteMachine.Proofs.FailureAtomicity
import ByteMachine.Proofs.Recurrence
import ByteMachine.Proofs.RunRecord

/-!
Standard output during a run. A line that finds a reader is taken whole, and afterwards nothing is
taken. So the output of a run consists of the lines of the PRNs that it has executed, and how many
there have been tells what standard output has become.
-/

namespace ByteMachine

namespace Cli.StandardOutput
variable {out : StandardOutput} {taken : Nat} {line : List Byte}

/-- What standard output is after so many lines that have found a reader. -/
def behind : StandardOutput → Nat → StandardOutput
  | .leaving lines, taken => .leaving (lines - taken)
  | out, _ => out

theorem behind_zero (out : StandardOutput) : out.behind 0 = out := by cases out <;> rfl

theorem behind_succ (out : StandardOutput) (taken : Nat) :
    (out.behind taken).behind 1 = out.behind (taken + 1) := by cases out <;> rfl

theorem lines?_behind (out : StandardOutput) (taken : Nat) :
    (out.behind taken).lines? = out.lines?.map (· - taken) := by
  cases out with
  | connected | leaving => rfl
  | closed => exact congrArg some (Nat.zero_sub taken).symm

theorem behind_inj {other : Nat}
    (same : (out.behind taken).lines?.getD 0 = (out.behind other).lines?.getD 0) :
    out.behind taken = out.behind other := by
  cases out with
  | connected | closed => rfl
  | leaving lines => exact congrArg StandardOutput.leaving same

theorem offer_of_short (short : (Sink.offer out line).1 < line.length) :
    (Sink.offer out line).1 = 0 ∧ out.lines? = some 0 := by
  cases out with
  | connected => exact absurd short (Nat.lt_irrefl _)
  | closed => exact ⟨rfl, rfl⟩
  | leaving lines =>
    cases lines with
    | zero => exact ⟨rfl, rfl⟩
    | succ lines => exact absurd short (Nat.lt_irrefl _)

theorem offer_of_whole (nonempty : 0 < line.length)
    (whole : line.length ≤ (Sink.offer out line).1) :
    (Sink.offer out line).2 = out.behind 1 ∧ out.lines? ≠ some 0 := by
  have none {n : Nat} (nothing : n = 0) : ¬ line.length ≤ n := by omega
  cases out with
  | connected => exact ⟨rfl, nofun⟩
  | closed => exact absurd whole (none rfl)
  | leaving lines =>
    cases lines with
    | zero => exact absurd whole (none rfl)
    | succ lines => exact ⟨rfl, by simp [lines?]⟩

def Serves (out : StandardOutput) (taken : Nat) : Prop := ∀ lines ∈ out.lines?, taken ≤ lines

theorem serves_zero (out : StandardOutput) : out.Serves 0 := fun lines _ => Nat.zero_le lines

theorem Serves.succ (serves : out.Serves taken) (more : (out.behind taken).lines? ≠ some 0) :
    out.Serves (taken + 1) := by
  intro lines member
  have inside := serves lines member
  rw [lines?_behind, Option.mem_def.mp member, Option.map_some, ne_eq, Option.some.injEq] at more
  omega

theorem Serves.exhausted (serves : out.Serves taken) (none : (out.behind taken).lines? = some 0) :
    out.lines? = some taken := by
  rw [lines?_behind] at none
  obtain ⟨lines, found, nothing⟩ := Option.map_eq_some_iff.mp none
  have inside := serves lines found
  rw [found, Option.some.injEq]
  omega

theorem Serves.execution {m : Machine} {e : Execution} (serves : out.Serves taken)
    (made : m.execution? (out.behind taken) = some e) :
    (m.step (out.behind taken)).sink = out.behind (taken + e.printed?.toList.length) ∧
      out.Serves (taken + e.printed?.toList.length) := by
  obtain ⟨before, i, after⟩ := e
  obtain ⟨rfl, running, fetched, -, step⟩ := Machine.step_of_execution? made
  have fits := Machine.fits_of_result running fetched (by rw [step]; exact nofun)
  rw [step, Execution.printed?_eq, Effect.sinkAfter]
  cases printed : (before.effect i).printed with
  | none => exact ⟨rfl, serves⟩
  | some value =>
    have whole := fits value printed
    obtain ⟨next, more⟩ := offer_of_whole (by simp [Effect.line]) whole
    exact ⟨next.trans (behind_succ out taken), serves.succ more⟩

theorem lines_behind_le (out : StandardOutput) (taken : Nat) :
    (out.behind taken).lines?.getD 0 ≤ out.lines?.getD 0 := by
  rw [lines?_behind]
  cases out.lines? with
  | none => exact Nat.le_refl 0
  | some lines => exact Nat.sub_le lines taken

end Cli.StandardOutput

namespace Run
open Cli (StandardOutput)
variable {out : StandardOutput} {m : Machine} {n : Nat}

/-- Every executed PRN has found a reader, and a PRN that is refused comes after the last of them. -/
theorem serves_within (n : Nat) (r : Run StandardOutput) (taken : Nat)
    (unrefused : r.outcome ≠ .fault .output) (sink : r.sink = out.behind taken)
    (serves : out.Serves taken) :
    let lines := taken + ((r.executions n).filterMap Execution.printed?).length
    ((r.within n).outcome ≠ .fault .output →
        (r.within n).sink = out.behind lines ∧ out.Serves lines) ∧
      ((r.within n).outcome = .fault .output → out.lines? = some lines) := by
  refine executions_induction
    (motive := fun r made last => ∀ taken, r.outcome ≠ .fault .output →
      r.sink = out.behind taken → out.Serves taken →
      let lines := taken + (made.filterMap Execution.printed?).length
      (last.outcome ≠ .fault .output → last.sink = out.behind lines ∧ out.Serves lines) ∧
        (last.outcome = .fault .output → out.lines? = some lines))
    ?_ ?_ ?_ n r taken unrefused sink serves
  · intro r taken unrefused sink serves
    exact ⟨fun _ => ⟨sink, serves⟩, fun refused => absurd refused unrefused⟩
  · intro r reason _ failed taken _ sink serves
    have failure := Machine.fails_of_error failed
    rw [advance]
    generalize r.machine.step r.sink = s at failure
    cases failure with
    | halted | unknown =>
      refine ⟨fun _ => ⟨sink, serves⟩, ?_⟩
      intro refused
      cases refused
    | refused _ _ short =>
      rw [sink] at short
      exact ⟨fun taken => absurd rfl taken,
        fun _ => serves.exhausted (StandardOutput.offer_of_short short).2⟩
  · intro r e rest last _ made ih taken _ sink serves
    have unrefused : r.advance.outcome ≠ .fault .output := by
      rw [advance, (Machine.step_of_execution? made).2.2.2.2]
      cases e.after.status <;> exact Outcome.noConfusion
    rw [sink] at made
    obtain ⟨next, serves⟩ := serves.execution made
    rw [← sink] at next
    have length : taken + ((e :: rest).filterMap Execution.printed?).length =
        taken + e.printed?.toList.length + (rest.filterMap Execution.printed?).length := by
      cases printed : e.printed? with
      | none => simp [printed]
      | some => simp [printed, Nat.add_assoc, Nat.add_comm 1]
    rw [length]
    exact ih _ unrefused next serves

theorem output_of_session (m : Machine) (out : StandardOutput) (n : Nat) :
    ((start m out).within n).output.toList =
      ((start m out).executions n).flatMap Execution.output := by
  obtain ⟨part, output, nothing⟩ := output_within (start m out) n
  have empty : part = [] := by
    obtain rfl | ⟨-, sink, line, short, rfl⟩ := nothing
    · rfl
    · rw [(StandardOutput.offer_of_short short).1, List.take_zero]
  rw [output, empty, List.append_nil]
  rfl

theorem lines_of_refused (refused : ((start m out).within n).outcome = .fault .output) :
    out.lines? = some (((start m out).executions n).filterMap Execution.printed?).length := by
  have served := serves_within n (start m out) 0 nofun out.behind_zero.symm out.serves_zero
  rw [Nat.zero_add] at served
  exact served.2 refused

/-- A session that has made so many steps and has not ended never will. -/
theorem endless_of_stepBound (running : m.status = .running)
    (going : ((start m out).within (Cli.stepBound out)).outcome = .unfinished) (n : Nat) :
    ((start m out).within n).outcome = .unfinished := by
  have become {i : Nat} (going : ((start m out).within i).outcome = .unfinished) :
      ∃ taken, ((start m out).within i).sink = out.behind taken := by
    have served := serves_within i (start m out) 0 nofun out.behind_zero.symm out.serves_zero
    exact ⟨_, (served.1 (Outcome.not_fault going .output)).1⟩
  refine endless_of_runningCount
    (fun now : StandardOutput => Fin.ofNat (out.lines?.getD 0 + 1) (now.lines?.getD 0)) ?_ running
    (by rwa [Fintype.card_fin]) n
  intro i j goingBefore goingLater same
  obtain ⟨taken, before⟩ := become goingBefore
  obtain ⟨other, later⟩ := become goingLater
  rw [before, later] at same ⊢
  have small (taken : Nat) := Nat.lt_succ_of_le (out.lines_behind_le taken)
  apply StandardOutput.behind_inj
  have lines := congrArg Fin.val same
  simp only [Fin.val_ofNat] at lines
  rwa [Nat.mod_eq_of_lt (small taken), Nat.mod_eq_of_lt (small other)] at lines

end Run
end ByteMachine

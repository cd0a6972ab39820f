import ByteMachine.Proofs.Halting

/-!
What a run leaves behind, by the instructions that it has executed: a line on its output for each
PRN, and an entry in the record for every instruction. Only the end of a run adds to that. HLT gets
a second entry, and a PRN whose line is refused gets one although it is not executed; what the sink
took of its line is out.
-/

namespace ByteMachine

namespace Execution

def trace (e : Execution) : Event := e.before.executing e.instruction

def output (e : Execution) : List Byte :=
  match e.instruction with
  | .print a => Effect.line (e.before.register a)
  | _ => []

theorem output_eq {m : Machine} {i : Instruction} (after : Machine) :
    output ⟨m, i, after⟩ = (m.effect i).output := by
  cases i <;> rfl

/-- The value that a PRN prints: what its operand register holds when it is executed. -/
def printed? (e : Execution) : Option Byte :=
  match e.instruction with
  | .print a => some (e.before.register a)
  | _ => none

theorem printed?_eq {m : Machine} {i : Instruction} (after : Machine) :
    printed? ⟨m, i, after⟩ = (m.effect i).printed := by
  cases i <;> rfl

theorem output_eq_lines (e : Execution) : e.output = e.printed?.toList.flatMap Effect.line := by
  obtain ⟨before, i, after⟩ := e
  cases i with
  | print a => exact (List.append_nil _).symm
  | _ => rfl

theorem flatMap_output (executed : List Execution) :
    executed.flatMap output = (executed.filterMap printed?).flatMap Effect.line := by
  induction executed with
  | nil => rfl
  | cons e executed ih =>
    rw [List.flatMap_cons, ih, output_eq_lines, List.filterMap_cons]
    cases e.printed? with
    | none => rfl
    | some value => simp

end Execution

/-- What the end of a run adds to the record. -/
def Run.closing {σ : Type} (r : Run σ) : List Event :=
  match r.outcome with
  | .halted => [.halting (r.machine.pc - 1)]
  | .fault .output => (r.machine.fetch?.map r.machine.executing).toList
  | _ => []

namespace Run
variable {σ : Type} [Sink σ] {r : Run σ} {e : Execution}

omit [Sink σ] in
theorem closing_of_unfinished (going : r.outcome = .unfinished) : r.closing = [] := by
  rw [closing, going]

/-- An executed instruction is recorded, then the end if it halts the machine. -/
theorem events_of_execution (made : r.machine.execution? r.sink = some e) :
    (r.machine.step r.sink).events = e.trace :: r.advance.closing := by
  obtain ⟨before, running, fetched, after, step⟩ := Machine.step_of_execution? made
  obtain ⟨-, alone⟩ := Execution.halts (e := e) (before ▸ made)
  rw [closing, advance, step, Execution.trace, before]
  cases status : e.after.status with
  | running => simp [Machine.recorded, ← after, status, Outcome.ofResult]
  | halted =>
    have pc : r.machine.pc = e.after.pc - 1 := by
      rw [alone status, before]
      exact (BitVec.add_sub_cancel _ _).symm
    simp only [Machine.recorded, ← after, status, Outcome.ofResult, pc]

theorem events_of_failure {reason : Fault}
    (failed : (r.machine.step r.sink).result = .error reason) :
    (r.machine.step r.sink).events = r.advance.closing := by
  have failure := Machine.fails_of_error failed
  rw [closing, advance]
  generalize r.machine.step r.sink = s at failure
  cases failure with
  | halted | unknown => rfl
  | refused _ fetched _ => simp [Outcome.ofResult, fetched]

theorem events_within (r : Run σ) (n : Nat) (earlier : List Event)
    (before : r.events.toList = earlier ++ r.closing) :
    (r.within n).events.toList =
      earlier ++ (r.executions n).map Execution.trace ++ (r.within n).closing := by
  refine executions_induction
    (motive := fun r made last => ∀ earlier, r.events.toList = earlier ++ r.closing →
      last.events.toList = earlier ++ made.map Execution.trace ++ last.closing)
    ?_ ?_ ?_ n r earlier before
  · intro r earlier before
    rw [before, List.map_nil, List.append_nil]
  · intro r reason going failed earlier before
    rw [toList_events_advance, events_of_failure failed, before, closing_of_unfinished going,
      List.append_nil, List.map_nil, List.append_nil]
  · intro r e rest last going made ih earlier before
    have next : r.advance.events.toList = (earlier ++ [e.trace]) ++ r.advance.closing := by
      rw [toList_events_advance, events_of_execution made, before, closing_of_unfinished going]
      simp
    rw [ih _ next]
    simp

theorem output_within (r : Run σ) (n : Nat) :
    ∃ part, (r.within n).output.toList =
        r.output.toList ++ (r.executions n).flatMap Execution.output ++ part ∧
      (part = [] ∨ (r.within n).outcome = .fault .output ∧ ∃ (sink : σ) (line : List Byte),
        (Sink.offer sink line).1 < line.length ∧ part = line.take (Sink.offer sink line).1) := by
  refine executions_induction
    (motive := fun r made last => ∃ part,
      last.output.toList = r.output.toList ++ made.flatMap Execution.output ++ part ∧
        (part = [] ∨ last.outcome = .fault .output ∧ ∃ (sink : σ) (line : List Byte),
          (Sink.offer sink line).1 < line.length ∧ part = line.take (Sink.offer sink line).1))
    ?_ ?_ ?_ n r
  · intro r
    exact ⟨[], by simp, .inl rfl⟩
  · intro r reason _ failed
    refine ⟨(r.machine.step r.sink).output, ?_, ?_⟩
    · rw [toList_output_advance]
      simp
    · have failure := Machine.fails_of_error failed
      rw [advance]
      generalize r.machine.step r.sink = s at failure
      cases failure with
      | halted | unknown => exact .inl rfl
      | refused _ _ short => exact .inr ⟨rfl, _, _, short, rfl⟩
  · rintro r ⟨m, i, after⟩ rest last _ made ⟨part, out, whole⟩
    obtain ⟨rfl, -, -, -, step⟩ := Machine.step_of_execution? made
    refine ⟨part, ?_, whole⟩
    rw [out, toList_output_advance, step, List.flatMap_cons, Execution.output_eq]
    simp

theorem events_start (m : Machine) (sink : σ) (n : Nat) :
    ((start m sink).within n).events.toList =
      ((start m sink).executions n).map Execution.trace ++ ((start m sink).within n).closing :=
  events_within (start m sink) n [] rfl

/-- A machine that starts running and comes to a halt has executed HLT, and that as the last of its
instructions. -/
theorem executions_of_halted {m : Machine} {sink : σ} {n : Nat} (running : m.status = .running)
    (halted : ((start m sink).within n).machine.status = .halted) :
    ∃ front last, (start m sink).executions n = front ++ [last] ∧
      last.before.read last.before.pc = Opcode.halt.toByte ∧
      ((start m sink).within n).machine.pc = last.before.pc + 1 ∧
      ∀ e ∈ front, e.before.read e.before.pc ≠ Opcode.halt.toByte := by
  have moves : Moves m.control ((start m sink).executions n) _ := Moves.run n (start m sink)
  obtain ⟨last, member, halts⟩ := (moves.halted_iff running).mp halted
  obtain ⟨front, later, cut⟩ := List.append_of_mem member
  have here := moves
  rw [cut] at here
  obtain ⟨⟨_, _, _, made⟩, ends⟩ := here.cut
  obtain ⟨rfl, same⟩ := ends halts
  obtain ⟨opcode, alone⟩ := Execution.halts made
  refine ⟨front, last, cut, opcode.mp halts, ?_, ?_⟩
  · refine (congrArg Control.pc same).trans ?_
    change last.after.pc = _
    rw [alone halts]
  · intro e earlier is
    obtain ⟨before, between, split⟩ := List.append_of_mem earlier
    rw [cut, split, List.append_assoc] at moves
    obtain ⟨⟨_, _, _, made⟩, ends⟩ := moves.cut
    obtain ⟨nothing, -⟩ := ends ((Execution.halts made).1.mpr is)
    exact List.append_ne_nil_of_right_ne_nil _ (List.cons_ne_nil _ _) nothing

end Run
end ByteMachine

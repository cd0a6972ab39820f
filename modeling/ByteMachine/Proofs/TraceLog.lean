import ByteMachine.Proofs.LogText
import ByteMachine.Proofs.RunRecord

/-!
The log of a run tells its steps. A step that gets as far as decoding its opcode is recorded with
what it has found, before it changes any of that and whether it succeeds or not; HLT is announced as
well, and a step that decodes nothing says nothing. So the steps can be counted in the log, and what
they have found can be read back from its text.
-/

namespace ByteMachine

namespace Machine
variable {σ : Type} [Sink σ] {m : Machine} {i : Instruction}

def fetched? (m : Machine) : Option Fetched :=
  match m.status with
  | .halted => none
  | .running => (Opcode.ofByte? (m.read m.pc)).map fun op =>
      ⟨m.pc, op, m.read (m.pc + 1), m.read (m.pc + 2), m.flags⟩

theorem fetched?_of_halted (halted : m.status = .halted) : m.fetched? = none := by
  rw [fetched?, halted]

theorem fetched?_of_unknown (running : m.status = .running) (unknown : m.fetch? = none) :
    m.fetched? = none := by
  rw [fetch?, Option.map_eq_none_iff] at unknown
  rw [fetched?, running, unknown]
  rfl

theorem fetched?_of_fetch (running : m.status = .running) (fetched : m.fetch? = some i) :
    m.fetched? = some ⟨m.pc, i.opcode, m.read (m.pc + 1), m.read (m.pc + 2), m.flags⟩ := by
  obtain ⟨op, found, rfl⟩ := Option.map_eq_some_iff.mp fetched
  rw [fetched?, running, found, Instruction.opcode_ofOpcode]
  rfl

theorem recorded_eq (running : m.status = .running) :
    m.recorded i (m.effect i) = Fetched.entries
      ⟨m.pc, i.opcode, m.read (m.pc + 1), m.read (m.pc + 2), m.flags⟩ := by
  by_cases halt : i = .halt
  · subst halt
    rfl
  · have status : (m.effect i).machine.status = .running := (status_effect halt).trans running
    rw [recorded, status]
    cases i with
    | halt => exact absurd rfl halt
    | _ => rfl

theorem events_step (m : Machine) (sink : σ) :
    (m.step sink).events = m.fetched?.toList.flatMap Fetched.entries := by
  cases status : m.status with
  | halted =>
    rw [step_of_halted status, fetched?_of_halted status]
    rfl
  | running =>
    cases fetched : m.fetch? with
    | none =>
      rw [step_of_unknown status fetched, fetched?_of_unknown status fetched]
      rfl
    | some i =>
      rw [fetched?_of_fetch status fetched, Option.toList_some, List.flatMap_singleton]
      by_cases fits : (m.effect i).Fits sink
      · rw [step_of_fetch status fetched, deliver_of_fits fits, recorded_eq status]
      · obtain ⟨a, rfl, printed, short⟩ := print_of_not_fits fits
        rw [step_of_refused status fetched printed short]
        rfl

/-- A step that decodes its opcode succeeds or cannot print. -/
theorem count_fetched? (m : Machine) (sink : σ) :
    m.fetched?.toList.length = (if (m.step sink).result.isOk then 1 else 0) +
      if Outcome.ofResult (m.step sink).result = .fault .output then 1 else 0 := by
  cases result : (m.step sink).result with
  | ok status =>
    have unfailed (reason : Fault) : (m.step sink).result ≠ .error reason := by simp [result]
    obtain ⟨running, i, fetched, -⟩ := exists_fits unfailed
    rw [fetched?_of_fetch running fetched]
    cases status <;> rfl
  | error reason =>
    have failure := fails_of_error result
    generalize m.step sink = s at failure result
    cases failure with
    | halted halted =>
      cases result
      rw [fetched?_of_halted halted]
      rfl
    | unknown running unknown =>
      cases result
      rw [fetched?_of_unknown running unknown]
      rfl
    | refused running fetched _ =>
      cases result
      rw [fetched?_of_fetch running fetched]
      rfl

end Machine

namespace Run
variable {σ : Type} [Sink σ]

/-- The run as it is before each of its steps. -/
def stages : Nat → Run σ → List (Run σ)
  | 0, _ => []
  | n + 1, r =>
    match r.outcome with
    | .unfinished => r :: stages n r.advance
    | _ => []

def next (r : Run σ) : Step σ := r.machine.step r.sink

def fetched (n : Nat) (r : Run σ) : List Fetched :=
  (r.stages n).filterMap fun s => s.machine.fetched?

variable {r : Run σ}

theorem stages_succ (going : r.outcome = .unfinished) (n : Nat) :
    r.stages (n + 1) = r :: r.advance.stages n := by
  rw [stages, going]

theorem stages_of_ended (ended : r.outcome ≠ .unfinished) (n : Nat) : r.stages n = [] := by
  cases n with
  | zero => rfl
  | succ n =>
    unfold stages
    split
    · contradiction
    · rfl

theorem fetched_succ (going : r.outcome = .unfinished) (n : Nat) :
    r.fetched (n + 1) = r.machine.fetched?.toList ++ r.advance.fetched n := by
  rw [fetched, stages_succ going, List.filterMap_cons]
  cases r.machine.fetched? <;> rfl

theorem getElem?_stages {n k : Nat} {s : Run σ} (here : (r.stages n)[k]? = some s) :
    s = r.within k := by
  induction n generalizing r k with
  | zero => cases here
  | succ n ih =>
    by_cases going : r.outcome = .unfinished
    · rw [stages_succ going] at here
      cases k with
      | zero => exact (Option.some.inj here).symm
      | succ k =>
        rw [within_succ going]
        exact ih here
    · rw [stages_of_ended going] at here
      cases here

theorem next_stages (going : r.outcome = .unfinished) (n : Nat) :
    (r.stages n).map next = r.machine.stepsToEnd r.sink n := by
  induction n generalizing r with
  | zero => rfl
  | succ n ih =>
    rw [stages_succ going, List.map_cons]
    cases ends : (r.machine.step r.sink).ends with
    | true =>
      have ended : r.advance.outcome ≠ .unfinished := by
        intro goesOn
        exact Bool.false_ne_true ((Step.ofResult_eq_unfinished_iff.mp goesOn).symm.trans ends)
      rw [stages_of_ended ended, Machine.stepsToEnd_last ends]
      rfl
    | false =>
      have goesOn : r.advance.outcome = .unfinished := Step.ofResult_eq_unfinished_iff.mpr ends
      rw [ih goesOn, Machine.stepsToEnd_again ends]
      rfl

theorem events_stages (n : Nat) (r : Run σ) :
    (r.within n).events.toList = r.events.toList ++ (r.fetched n).flatMap Fetched.entries := by
  induction n generalizing r with
  | zero => exact (List.append_nil _).symm
  | succ n ih =>
    by_cases going : r.outcome = .unfinished
    · rw [within_succ going, ih, toList_events_advance, Machine.events_step, fetched_succ going,
        List.flatMap_append, List.append_assoc]
    · rw [within_of_ended going, fetched, stages_of_ended going]
      exact (List.append_nil _).symm

theorem length_fetched (going : r.outcome = .unfinished) (n : Nat) :
    (r.fetched n).length = ((r.stages n).map next).countP (fun s => s.result.isOk) +
      if (r.within n).outcome = .fault .output then 1 else 0 := by
  induction n generalizing r with
  | zero =>
    rw [within, going]
    rfl
  | succ n ih =>
    have first : r.machine.fetched?.toList.length = (if r.next.result.isOk then 1 else 0) +
        if r.advance.outcome = .fault .output then 1 else 0 :=
      Machine.count_fetched? r.machine r.sink
    rw [fetched_succ going, List.length_append, first, within_succ going, stages_succ going,
      List.map_cons, List.countP_cons]
    by_cases goesOn : r.advance.outcome = .unfinished
    · rw [ih goesOn, if_neg (Outcome.not_fault goesOn .output)]
      omega
    · rw [within_of_ended goesOn, fetched, stages_of_ended goesOn, List.filterMap_nil,
        List.length_nil, List.map_nil, List.countP_nil]
      omega

omit [Sink σ] in
theorem length_closing (r : Run σ) : r.closing.length ≤ 1 := by
  unfold closing
  split
  · exact Nat.le_refl 1
  · exact Option.length_toList_le
  · exact Nat.zero_le 1

theorem halting_last {m : Machine} {sink : σ} {n : Nat} {front back : List Event} {address : Byte}
    (log : ((start m sink).within n).events.toList = front ++ .halting address :: back) :
    back = [] := by
  have short := length_closing ((start m sink).within n)
  have only (before : List Event)
      (cut : ((start m sink).within n).closing = before ++ .halting address :: back) :
      back = [] := by
    rw [cut, List.length_append, List.length_cons] at short
    exact List.eq_nil_of_length_eq_zero (by omega)
  -- no trace is the announcement, so it stands in what the end of the run has added
  rw [events_start] at log
  rcases List.append_eq_append_iff.mp log with ⟨before, -, cut⟩ | ⟨between, cut, later⟩
  · exact only before cut
  · cases between with
    | nil => exact only [] later.symm
    | cons e between =>
      obtain ⟨rfl, -⟩ := List.cons.inj later
      have member : Event.halting address ∈
          ((start m sink).executions n).map Execution.trace := by
        rw [cut]
        exact List.mem_append_right front (List.mem_cons_self ..)
      obtain ⟨e, -, same⟩ := List.mem_map.mp member
      cases same

theorem count_halting (m : Machine) (sink : σ) (n : Nat) :
    ((start m sink).within n).events.toList.countP (fun e => e.level = .debug) ≤ 1 := by
  have traces : (((start m sink).executions n).map Execution.trace).countP
      (fun e => e.level = .debug) = 0 := by
    rw [List.countP_map, List.countP_eq_zero]
    exact fun _ _ => Bool.false_ne_true
  rw [events_start, List.countP_append, traces, Nat.zero_add]
  exact List.countP_le_length.trans (length_closing _)

end Run

/-- The log of a run, step by step. Its steps are those up to the end of the run, and each is made
from the machine that the ones before it have left. -/
theorem trace_log_exact {σ : Type} [Sink σ] (m : Machine) (sink : σ) (n : Nat) :
    let r := Run.start m sink
    let log := (r.within n).events.toList
    let stages := r.stages n
    let fetched := stages.filterMap fun s => s.machine.fetched?
    (∀ k s, stages[k]? = some s → s = r.within k) ∧
    stages.map Run.next = m.stepsToEnd sink n ∧
    log = fetched.flatMap Fetched.entries ∧
    log.countP (fun e => e.level = .trace) =
      (m.stepsToEnd sink n).countP (fun s => s.result.isOk) +
        (if (r.within n).outcome = .fault .output then 1 else 0) ∧
    log.countP (fun e => e.level = .debug) ≤ 1 ∧
    (∀ front address back, log = front ++ .halting address :: back → back = []) ∧
    Text.lines (logText Event.message log) = log.map (fun e => e.message.toList) ∧
    Fetched.ofLog Fetched.ofMessage? (logText Event.message log) = fetched ∧
    Text.lines (logText Event.render log) = log.map (fun e => e.render.toList) ∧
    Fetched.ofLog Fetched.ofLine? (logText Event.render log) = fetched := by
  intro r log stages fetched
  have steps : stages.map Run.next = m.stepsToEnd sink n := Run.next_stages rfl n
  have recorded : log = fetched.flatMap Fetched.entries := Run.events_stages n r
  refine ⟨fun _ _ => Run.getElem?_stages, steps, recorded, ?_, Run.count_halting m sink n, ?_, ?_⟩
  · rw [← steps, recorded, Fetched.countP_entries]
    exact Run.length_fetched rfl n
  · exact fun _ _ _ => Run.halting_last
  · rw [recorded]
    exact ⟨Fetched.lines_messages fetched, Fetched.ofLog_messages fetched,
      Fetched.lines_entries fetched, Fetched.ofLog_entries fetched⟩

/-- A PUSH that overwrites its own operand, and a HLT behind it. -/
def overwritesItself : Machine :=
  { Machine.initial with
    memory := Memory.zero.copy [0x45, 0x07, 0x01]
    registers := .withStackAt 0x02 }

-- The operand is logged as it was, and the second PRN of the other machine although it fails.
theorem trace_log_exact_overwritesItself :
    let log := ((Run.start overwritesItself Room.unlimited).within 9).events.toList
    log = [.executing 0x00 .push 0x07 0x01 .clear, .executing 0x02 .halt 0x00 0x00 .clear,
      .halting 0x02] ∧
    (∀ front address back, log = front ++ .halting address :: back → back = []) ∧
    Fetched.ofLog Fetched.ofMessage? (logText Event.message log) =
      [⟨0x00, .push, 0x07, 0x01, .clear⟩, ⟨0x02, .halt, 0x00, 0x00, .clear⟩] ∧
    ((Run.start printsAndFails (Room.bytes 2)).within 9).events.toList.countP
      (fun e => e.level = .trace) = 1 + 1 := by
  intro log
  obtain ⟨-, -, recorded, -, -, last, -, readBack, -⟩ :=
    trace_log_exact overwritesItself Room.unlimited 9
  obtain ⟨-, -, -, count, -⟩ := trace_log_exact printsAndFails (Room.bytes 2) 9
  have fetched : ((Run.start overwritesItself Room.unlimited).stages 9).filterMap
      (fun s => s.machine.fetched?) =
      [⟨0x00, .push, 0x07, 0x01, .clear⟩, ⟨0x02, .halt, 0x00, 0x00, .clear⟩] := by
    decide +kernel
  rw [fetched] at recorded readBack
  have successes : (printsAndFails.stepsToEnd (Room.bytes 2) 9).countP
      (fun s => s.result.isOk) = 1 := by
    decide +kernel
  have failed : ((Run.start printsAndFails (Room.bytes 2)).within 9).outcome = .fault .output := by
    decide +kernel
  rw [successes, failed, if_pos rfl] at count
  exact ⟨recorded, last, readBack, count⟩

end ByteMachine

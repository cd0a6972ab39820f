import ByteMachine.Proofs.StandardOutput

/-!
How a use of the command line can end. The program does not get into memory, or it runs to HLT, or
it stops at an instruction that cannot be executed. The exit status tells which, and each of the
three comes with one form of the output, of the text on standard error, and of the record from its
first entry to its last.
-/

namespace ByteMachine

namespace Cli

variable (read : String → Except ReadFailure (List Byte)) (out : StandardOutput) (path : String)

/-- The image in the file fits into memory, and this is the new machine with it. -/
def Loads (image : Image) (m : Machine) : Prop :=
  ∃ contents, read path = .ok contents ∧ image = Image.ofBytes contents ∧
    image.size ≤ memorySize ∧ (Machine.initial.load image).value = .ok m

def levelled (events : List Event) : List (Level × Event) := events.map fun e => (e.level, e)

def preamble (image : Image) : List (Level × Event) :=
  [(.info, .loading path), (.debug, .parsed image.size path), (.debug, .loaded image.size)]

/-- What is said of a file that cannot be had; what the system says of it comes twice. -/
def refusal (path : String) : ReadFailure → String
  | .missing => "cannot open file " ++ path
  | .isDirectory => unreadable "Is a directory (os error 21)"
  | .notDirectory => unreadable "Not a directory (os error 20)"
  | .nameTooLong => unreadable "File name too long (os error 36)"
  | .nulInName => unreadable "file name contained an unexpected NUL byte"
  | .other description => unreadable description
where
  unreadable (cause : String) : String :=
    "cannot read file " ++ path ++ ": " ++ cause ++ ": " ++ cause

theorem complaint_illegalInstruction (address opcode : Byte) :
    (Verdict.ofFault brokenPipe (.illegalInstruction address opcode)).complaint =
      some ("execution stopped: illegal instruction at " ++ address.hex ++ ": " ++ opcode.hex) := by
  have chained : (Verdict.ofFault brokenPipe (.illegalInstruction address opcode)).complaint =
      some ("execution stopped" ++ ": " ++
        ("illegal instruction at " ++ address.hex ++ ": " ++ opcode.hex)) := rfl
  have begins : "execution stopped: illegal instruction at " =
      "execution stopped" ++ ": " ++ "illegal instruction at " := rfl
  rw [chained, begins]
  simp only [String.append_assoc]

theorem complaint_ofReadFailure (path : String) (failure : ReadFailure) :
    (Verdict.ofLoadError (.ofReadFailure path failure)).complaint =
      some (refusal path failure) := by
  cases failure <;> rfl

/-- The file cannot be read, or the image in it is too large; nothing is executed. -/
structure Unloaded (r : Report) : Prop where
  silent : r.output = #[]
  reason :
    (∃ failure, read path = .error failure ∧ levelled r.events = [(.info, .loading path)] ∧
      r.complaint = some (refusal path failure)) ∨
    ∃ contents, read path = .ok contents ∧
      let size := (Image.ofBytes contents).size
      memorySize < size ∧
      levelled r.events = [(.info, .loading path), (.debug, .parsed size path)] ∧
      r.complaint = some
        ("program image is " ++ toString size ++ " bytes, which does not fit in memory")

section Runs
variable (image : Image) (m : Machine) (limit : Nat)

def executed : List Execution := (Run.start m out).executions limit

def printed : List Byte := (executed out m limit).filterMap Execution.printed?

def traces : List (Level × Event) := (executed out m limit).map fun e => (.trace, e.trace)

/-- The machine comes to HLT, with the output that it has where everything is taken. -/
structure Halts (r : Report) : Prop where
  silent : r.complaint = none
  halted : ((Run.start m Room.unlimited).within limit).outcome = .halted
  output : r.output = ((Run.start m Room.unlimited).within limit).output
  lines : r.output.toList = (executed out m limit).flatMap Execution.output
  events : ∃ front last, executed out m limit = front ++ [last] ∧
    last.before.read last.before.pc = Opcode.halt.toByte ∧
    (∀ e ∈ front, e.before.read e.before.pc ≠ Opcode.halt.toByte) ∧
    levelled r.events = preamble path image ++ traces out m limit ++
      [(.debug, .halting last.before.pc), (.info, .ended (last.before.pc + 1))]

/-- The machine stops at a byte that is no opcode, or at the first PRN that finds no reader. -/
structure Stops (r : Report) : Prop where
  lines : r.output.toList = (executed out m limit).flatMap Execution.output
  reason :
    let last := ((Run.start m out).within limit).machine
    ((∀ op : Opcode, op.toByte ≠ last.read last.pc) ∧
      r.complaint = some ("execution stopped: illegal instruction at " ++ last.pc.hex ++ ": " ++
        (last.read last.pc).hex) ∧
      r.output = ((Run.start m Room.unlimited).within limit).output ∧
      levelled r.events = preamble path image ++ traces out m limit) ∨
    (out.lines? = some (printed out m limit).length ∧
      r.output.toList = (printed out m limit).flatMap Effect.line ∧
      r.complaint = some
        "execution stopped: failed to write program output: Broken pipe (os error 32)" ∧
      ∃ a, last.fetch? = some (.print a) ∧
        levelled r.events = preamble path image ++ traces out m limit ++
          [(.trace, last.executing (.print a))])

end Runs

variable {read out path} {image : Image} {m : Machine} {limit : Nat}

theorem Loads.running (loads : Loads read path image m) : m.status = .running := by
  obtain ⟨_, -, -, -, loaded⟩ := loads
  obtain ⟨-, rfl⟩ := Machine.load_eq_ok_iff.mp loaded
  exact Machine.status_withImage _ _

theorem session?_of_loads (loads : Loads read path image m) (out : StandardOutput) (limit : Nat) :
    session? read out limit path =
      let run := (Run.start m out).within limit
      (Verdict.ofOutcome? brokenPipe run.machine run.outcome).map fun verdict =>
        ⟨verdict.status, run.output, verdict.complaint,
          [.loading path, .parsed image.size path, .loaded image.size] ++ run.events.toList ++
            verdict.events⟩ := by
  obtain ⟨contents, found, rfl, fits, loaded⟩ := loads
  obtain ⟨-, rfl⟩ := Machine.load_eq_ok_iff.mp loaded
  simp only [session?, prepare, Image.ofFile, found, Machine.load_of_fits _ fits]
  rfl

theorem loads_or_unloaded (read : String → Except ReadFailure (List Byte)) (path : String) :
    (∃ image m, Loads read path image m) ∨
      ∃ r : Report, r.status.code = 2 ∧ Unloaded read path r ∧
        ∀ out limit, session? read out limit path = some r := by
  cases found : read path with
  | error failure =>
    right
    refine ⟨⟨.loadError, #[], some (refusal path failure), [.loading path]⟩, rfl, ?_, ?_⟩
    · exact ⟨rfl, .inl ⟨failure, found, rfl, rfl⟩⟩
    · intro out limit
      rw [← complaint_ofReadFailure]
      simp only [session?, prepare, Image.ofFile, found]
      rfl
  | ok contents =>
    by_cases fits : (Image.ofBytes contents).size ≤ memorySize
    · left
      exact ⟨_, _, contents, found, rfl, fits, Machine.load_eq_ok_iff.mpr ⟨fits, rfl⟩⟩
    · right
      have large := Nat.lt_of_not_le fits
      let size := (Image.ofBytes contents).size
      refine ⟨⟨.loadError, #[], some (LoadError.tooLarge size).message,
        [.loading path, .parsed size path]⟩, rfl, ?_, ?_⟩
      · exact ⟨rfl, .inr ⟨contents, found, large, rfl, rfl⟩⟩
      · intro out limit
        simp only [session?, prepare, Image.ofFile, found, Machine.load_of_large _ large]
        rfl

theorem unlimited_of_session
    (taken : ((Run.start m out).within limit).outcome ≠ .fault .output) :
    ((Run.start m Room.unlimited).within limit).outcome =
        ((Run.start m out).within limit).outcome ∧
      ((Run.start m Room.unlimited).within limit).output =
        ((Run.start m out).within limit).output := by
  have same := (Run.matches_start m out Sink.accepts_unlimited).within limit taken
  exact ⟨same.outcome, Array.ext' same.output⟩

theorem levelled_session (path : String) (image : Image) (m : Machine) (out : StandardOutput)
    (limit : Nat) (last : List Event) :
    levelled ([.loading path, .parsed image.size path, .loaded image.size] ++
        ((Run.start m out).within limit).events.toList ++ last) =
      preamble path image ++ traces out m limit ++
        levelled (((Run.start m out).within limit).closing ++ last) := by
  have events := Run.events_start m out limit
  rw [events]
  simp only [levelled, traces, executed, List.map_append, List.map_map, List.append_assoc]
  rfl

theorem halts_of_session (running : m.status = .running)
    (halted : ((Run.start m out).within limit).outcome = .halted) :
    let run := (Run.start m out).within limit
    Halts out path image m limit ⟨.success, run.output, none,
      [.loading path, .parsed image.size path, .loaded image.size] ++ run.events.toList ++
        [.ended run.machine.pc]⟩ := by
  intro run
  have ended : run.outcome ≠ .unfinished := by
    rw [halted]
    exact Outcome.noConfusion
  have taken : run.outcome ≠ .fault .output := by
    rw [halted]
    exact Outcome.noConfusion
  have explained := (Machine.explained_within running ended).1
  rw [halted] at explained
  obtain ⟨front, last, made, opcode, pc, before⟩ :=
    Run.executions_of_halted running explained.1
  obtain ⟨outcome, output⟩ := unlimited_of_session taken
  refine ⟨rfl, outcome.trans halted, output.symm, Run.output_of_session m out limit,
    front, last, made, opcode, before, ?_⟩
  -- The record names the address of HLT, the machine is left behind it.
  have back : run.machine.pc - 1 = last.before.pc := by
    rw [pc]
    exact BitVec.add_sub_cancel _ _
  have closing : run.closing = [.halting last.before.pc] := by
    rw [Run.closing, halted, ← back]
  refine (levelled_session path image m out limit _).trans ?_
  rw [closing, pc]
  rfl

theorem stops_of_session (running : m.status = .running) {reason : Fault}
    (failed : ((Run.start m out).within limit).outcome = .fault reason) :
    let run := (Run.start m out).within limit
    Stops out path image m limit
      ⟨.executionError, run.output, (Verdict.ofFault brokenPipe reason).complaint,
        [.loading path, .parsed image.size path, .loaded image.size] ++ run.events.toList ++
          []⟩ := by
  intro run
  have ended : run.outcome ≠ .unfinished := fun going => Outcome.not_fault going reason failed
  have explained := (Machine.explained_within running ended).1
  have events := levelled_session path image m out limit []
  rw [failed] at explained
  refine ⟨Run.output_of_session m out limit, ?_⟩
  cases reason with
  | illegalInstruction address opcode =>
    left
    obtain ⟨-, rfl, rfl, unknown⟩ := explained
    have taken : run.outcome ≠ .fault .output := by
      rw [failed]
      simp
    have closing : run.closing = [] := by
      rw [Run.closing, failed]
    rw [closing] at events
    exact ⟨unknown, complaint_illegalInstruction _ _, (unlimited_of_session taken).2.symm,
      events.trans (List.append_nil _)⟩
  | output =>
    right
    obtain ⟨a, fetched⟩ : ∃ a, run.machine.fetch? = some (.print a) :=
      ⟨_, Machine.fetch?_of_opcode explained.2⟩
    have closing : run.closing = [run.machine.executing (.print a)] := by
      rw [Run.closing, failed, fetched]
      rfl
    rw [closing] at events
    have lines : run.output.toList = (printed out m limit).flatMap Effect.line :=
      (Run.output_of_session m out limit).trans (Execution.flatMap_output _)
    exact ⟨Run.lines_of_refused failed, lines, rfl, a, fetched, events⟩
  | halted | unimplemented => exact explained.elim

theorem session?_eq_none_iff (loads : Loads read path image m) :
    session? read out limit path = none ↔
      ((Run.start m out).within limit).outcome = .unfinished := by
  rw [session?_of_loads loads]
  cases outcome : ((Run.start m out).within limit).outcome with
  | unfinished | halted | fault => simp [outcome, Verdict.ofOutcome?]

theorem session?_add {r : Report} (ended : session? read out limit path = some r) (more : Nat) :
    session? read out (limit + more) path = some r := by
  rcases loads_or_unloaded read path with ⟨image, m, loads⟩ | ⟨s, -, -, always⟩
  · have stopped : ((Run.start m out).within limit).outcome ≠ .unfinished := by
      intro going
      rw [(session?_eq_none_iff loads).mpr going] at ended
      cases ended
    rw [← ended, session?_of_loads loads, session?_of_loads loads, Run.within_add,
      Run.within_of_ended stopped]
  · rw [always, ← always out limit]
    exact ended

theorem session?_stepBound {r : Report} (ended : session? read out limit path = some r) :
    session? read out (stepBound out) path = some r := by
  cases within : session? read out (stepBound out) path with
  | some s =>
    have later := session?_add within limit
    rw [Nat.add_comm, session?_add ended] at later
    exact later.symm
  | none =>
    rcases loads_or_unloaded read path with ⟨image, m, loads⟩ | ⟨s, -, -, always⟩
    · have going := (session?_eq_none_iff loads).mp within
      have endless := Run.endless_of_stepBound loads.running going limit
      rw [(session?_eq_none_iff loads).mpr endless] at ended
      cases ended
    · rw [always] at within
      cases within

/-- A session ends in one of three ways, each with its own exit status, whatever the file system,
the file and the reader of its output are; it goes on only as long as the loaded program runs. -/
theorem session_endings (read : String → Except ReadFailure (List Byte)) (out : StandardOutput)
    (path : String) :
    (∀ limit, session? read out limit path = none ↔
      ∃ image m, Loads read path image m ∧
        ((Run.start m out).within limit).outcome = .unfinished) ∧
    ∀ limit r, session? read out limit path = some r →
      (∀ more, session? read out (limit + more) path = some r) ∧
      ((r.status.code = 2 ∧ Unloaded read path r) ∨
       (r.status.code = 0 ∧ ∃ image m, Loads read path image m ∧ Halts out path image m limit r) ∨
       (r.status.code = 3 ∧ ∃ image m, Loads read path image m ∧
          Stops out path image m limit r)) := by
  constructor
  · intro limit
    constructor
    · intro endless
      rcases loads_or_unloaded read path with ⟨image, m, loads⟩ | ⟨r, -, -, always⟩
      · exact ⟨image, m, loads, (session?_eq_none_iff loads).mp endless⟩
      · rw [always] at endless
        cases endless
    · rintro ⟨image, m, loads, going⟩
      exact (session?_eq_none_iff loads).mpr going
  · intro limit r ended
    refine ⟨session?_add ended, ?_⟩
    rcases loads_or_unloaded read path with ⟨image, m, loads⟩ | ⟨s, status, unloaded, always⟩
    · have whole := session?_of_loads loads out limit
      rw [ended] at whole
      right
      cases outcome : ((Run.start m out).within limit).outcome with
      | unfinished => simp [outcome, Verdict.ofOutcome?] at whole
      | halted =>
        left
        simp only [outcome, Verdict.ofOutcome?, Option.map_some, Option.some.injEq] at whole
        rw [whole]
        exact ⟨rfl, image, m, loads, halts_of_session loads.running outcome⟩
      | fault reason =>
        right
        simp only [outcome, Verdict.ofOutcome?, Option.map_some, Option.some.injEq] at whole
        rw [whole]
        exact ⟨rfl, image, m, loads, stops_of_session loads.running outcome⟩
    · rw [always] at ended
      cases ended
      exact .inl ⟨status, unloaded⟩

/-- Every path leads to a program that prints 0 twice and halts. -/
def printsZero (_ : String) : Except ReadFailure (List Byte) :=
  .ok [0x31, 0x30, 0x30, 0x30, 0x31, 0x31, 0x31, 0x0A, 0x30, 0x0A,
    0x31, 0x30, 0x30, 0x30, 0x31, 0x31, 0x31, 0x0A, 0x30, 0x0A, 0x31]

-- The same program ends well if somebody reads its output to the end, and with an error if the
-- reader leaves after the first line or has never been there.
theorem session_endings_printsZero :
    (∃ r image m, session? printsZero .connected 9 "zero.ls8" = some r ∧ r.status.code = 0 ∧
      (∀ more, session? printsZero .connected (9 + more) "zero.ls8" = some r) ∧
      Loads printsZero "zero.ls8" image m ∧ Halts .connected "zero.ls8" image m 9 r) ∧
    (∃ r image m, session? printsZero (.leaving 1) 9 "zero.ls8" = some r ∧ r.status.code = 3 ∧
      r.output.toList = Effect.line 0 ∧
      Loads printsZero "zero.ls8" image m ∧ Stops (.leaving 1) "zero.ls8" image m 9 r) ∧
    ∃ r image m, session? printsZero .closed 9 "zero.ls8" = some r ∧ r.status.code = 3 ∧
      Loads printsZero "zero.ls8" image m ∧ Stops .closed "zero.ls8" image m 9 r := by
  have stops {out : StandardOutput} {r : Report}
      (ended : session? printsZero out 9 "zero.ls8" = some r) (code : r.status.code = 3) :
      ∃ image m, Loads printsZero "zero.ls8" image m ∧ Stops out "zero.ls8" image m 9 r := by
    obtain ⟨-, endings⟩ := session_endings printsZero out "zero.ls8"
    obtain ⟨-, ⟨other, -⟩ | ⟨other, -⟩ | ⟨-, stops⟩⟩ := endings 9 r ended
    · exact absurd (other.symm.trans code) (by decide)
    · exact absurd (other.symm.trans code) (by decide)
    · exact stops
  refine ⟨?_, ?_, ?_⟩
  · obtain ⟨r, ended, code⟩ : ∃ r, session? printsZero .connected 9 "zero.ls8" = some r ∧
        r.status.code = 0 := Option.map_eq_some_iff.mp (by decide +kernel)
    obtain ⟨-, endings⟩ := session_endings printsZero .connected "zero.ls8"
    obtain ⟨more, ⟨other, -⟩ | ⟨-, image, m, loads, halts⟩ | ⟨other, -⟩⟩ := endings 9 r ended
    · exact absurd (other.symm.trans code) (by decide)
    · exact ⟨r, image, m, ended, code, more, loads, halts⟩
    · exact absurd (other.symm.trans code) (by decide)
  · obtain ⟨r, ended, left⟩ : ∃ r, session? printsZero (.leaving 1) 9 "zero.ls8" = some r ∧
        (r.status.code, r.output.toList) = (3, Effect.line 0) :=
      Option.map_eq_some_iff.mp (by decide +kernel)
    obtain ⟨code, output⟩ := Prod.mk.inj left
    obtain ⟨image, m, loads, stopped⟩ := stops ended code
    exact ⟨r, image, m, ended, code, output, loads, stopped⟩
  · obtain ⟨r, ended, code⟩ : ∃ r, session? printsZero .closed 9 "zero.ls8" = some r ∧
        r.status.code = 3 := Option.map_eq_some_iff.mp (by decide +kernel)
    obtain ⟨image, m, loads, stopped⟩ := stops ended code
    exact ⟨r, image, m, ended, code, loads, stopped⟩

end Cli
end ByteMachine

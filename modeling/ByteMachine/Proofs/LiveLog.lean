import ByteMachine.Proofs.InPlace
import ByteMachine.Proofs.Iteration
import ByteMachine.Proofs.Sessions

/-!
The log as it is written. A session in place asks its threshold at every event, where the event
happens and with the operands and flags as they are then, and keeps nothing of an event that is not
shown. All thresholds see the same session: a procedure that says less returns the same and does the
same to the machine, the sink and the output.
-/

namespace ByteMachine.InPlace
variable {σ ε α β : Type}

section Saying
variable (threshold : Level)

def say (e : Event) : Procedure σ ε Unit :=
  if threshold.shows e.level then record e else return ()

def readSaying (read : String → Except ReadFailure (List Byte)) (path : String) :
    Procedure σ LoadError Image := do
  match read path with
  | .error failure => fail (.ofReadFailure path failure)
  | .ok contents =>
    let image := Image.ofBytes contents
    say threshold (.parsed image.size path)
    return image

def loadSaying (image : Image) : Procedure σ LoadError Unit := do
  if memorySize < image.size then fail (.tooLarge image.size)
  change fun m => { m with memory := m.memory.copy image.bytes }
  say threshold (.loaded image.size)

def followSaying (pc behind : Byte) : Flow → Procedure σ Fault Unit
  | .advance => jump behind
  | .jump target => jump target
  | .halt => do
    jump behind
    change fun m => { m with status := .halted }
    say threshold (.halting pc)

variable [Sink σ]

def executeSaying (m : Machine) (i : Instruction) : Procedure σ Fault Status := do
  say threshold (m.executing i)
  followSaying threshold m.pc (m.next i) (← handle m.pc i)
  return (← machine).status

def attemptSaying (m : Machine) : Procedure σ Fault Status :=
  match m.status with
  | .halted => fail .halted
  | .running =>
    match m.fetch? with
    | none => fail (.illegalInstruction m.pc (m.read m.pc))
    | some i => executeSaying threshold m i

def stepSaying : Procedure σ Fault Status := do attemptSaying threshold (← machine)

def loopSaying : Nat → Procedure σ Fault Status
  | 0 => return .running
  | n + 1 => do
    match ← stepSaying threshold with
    | .running => loopSaying n
    | .halted => return .halted

end Saying

inductive Failure where
  | loading (e : LoadError)
  | execution (reason : Fault)

def Procedure.mapError {δ : Type} (f : ε → δ) (procedure : Procedure σ ε α) : Procedure σ δ α :=
  fun p =>
    match procedure p with
    | (.ok value, q) => (.ok value, q)
    | (.error e, q) => (.error (f e), q)

def runSaying [Sink σ] (threshold : Level) (limit : Nat) : Procedure σ Failure Status := do
  match ← (loopSaying threshold limit).mapError .execution with
  | .running => return .running
  | .halted =>
    say threshold (.ended (← machine).pc)
    return .halted

def session [Sink σ] (threshold : Level) (read : String → Except ReadFailure (List Byte))
    (limit : Nat) (path : String) : Procedure σ Failure Status := do
  say threshold (.loading path)
  let image ← (readSaying threshold read path).mapError .loading
  (loadSaying threshold image).mapError .loading
  runSaying threshold limit

def report? : Except Failure Status × Place σ → Option Cli.Report
  | (.error (.loading e), p) =>
    some ⟨.loadError, p.output.toArray, (Cli.Verdict.ofLoadError e).complaint, p.events⟩
  | (.error (.execution reason), p) =>
    some ⟨.executionError, p.output.toArray,
      (Cli.Verdict.ofFault Cli.brokenPipe reason).complaint, p.events⟩
  | (.ok .halted, p) => some ⟨.success, p.output.toArray, none, p.events⟩
  | (.ok .running, _) => none

section Filtering
variable {threshold : Level}

/-- The place with what was out and said before; of its own events only those that are shown. -/
def Place.behind (p : Place σ) (threshold : Level) (out : List Byte) (said : List Event) :
    Place σ :=
  { p with
    output := out ++ p.output
    events := said ++ p.events.filter fun e => threshold.shows e.level }

/-- The first procedure does what the second does, and says the part of it that is shown. -/
def Filters (threshold : Level) (quiet loud : Procedure σ ε α) : Prop :=
  ∀ out said p, quiet (p.behind threshold out said) =
    ((loud p).1, (loud p).2.behind threshold out said)

theorem filters_pure (value : α) :
    Filters threshold (return value : Procedure σ ε α) (return value) :=
  fun _ _ _ => rfl

theorem filters_fail (e : ε) : Filters threshold (fail e : Procedure σ ε α) (fail e) :=
  fun _ _ _ => rfl

theorem filters_machine : Filters threshold (machine : Procedure σ ε Machine) machine :=
  fun _ _ _ => rfl

theorem filters_change (f : Machine → Machine) :
    Filters threshold (change f : Procedure σ ε Unit) (change f) :=
  fun _ _ _ => rfl

theorem filters_say (e : Event) :
    Filters threshold (say threshold e : Procedure σ ε Unit) (record e) := by
  intro out said p
  by_cases shown : threshold.shows e.level = true
  · simp [say, record, Place.behind, shown]
  · simp [say, record, Place.behind, shown]
    rfl

theorem Filters.bind {quiet loud : Procedure σ ε α} {quietNext loudNext : α → Procedure σ ε β}
    (first : Filters threshold quiet loud)
    (next : ∀ value, Filters threshold (quietNext value) (loudNext value)) :
    Filters threshold (quiet >>= quietNext) (loud >>= loudNext) := by
  intro out said p
  have step := first out said p
  rcases done : loud p with ⟨e | value, q⟩
  · rw [done] at step
    rw [Procedure.bind_of_error step, Procedure.bind_of_error done]
  · rw [done] at step
    rw [Procedure.bind_of_ok step, Procedure.bind_of_ok done]
    exact next value out said q

variable [Sink σ]

theorem filters_print (line : List Byte) :
    Filters threshold (print line : Procedure σ Fault Unit) (print line) := by
  intro out said p
  by_cases short : (Sink.offer p.sink line).1 < line.length
  · rw [print_of_short p line short]
    refine (print_of_short (p.behind threshold out said) line short).trans ?_
    simp [Place.behind]
  · rw [print_of_taken p line short]
    refine (print_of_taken (p.behind threshold out said) line short).trans ?_
    simp [Place.behind]

theorem filters_handle (pc : Byte) (i : Instruction) :
    Filters threshold (handle pc i : Procedure σ Fault Flow) (handle pc i) := by
  cases i with
  | print a =>
    have operand : Filters threshold (register a : Procedure σ Fault Byte) (register a) :=
      fun _ _ _ => rfl
    exact operand.bind fun value => (filters_print _).bind fun _ => filters_pure _
  | jumpIfEqual a | jumpIfNotEqual a =>
    -- Both sides read the same flags, whatever they have said.
    refine filters_machine.bind fun m => ?_
    cases m.flags.equal
    · exact fun _ _ _ => rfl
    · exact fun _ _ _ => rfl
  | _ => exact fun _ _ _ => rfl

omit [Sink σ] in
theorem filters_follow (pc behind : Byte) (flow : Flow) :
    Filters threshold (followSaying threshold pc behind flow : Procedure σ Fault Unit)
      (follow pc behind flow) := by
  cases flow with
  | advance | jump => exact fun _ _ _ => rfl
  | halt =>
    refine (filters_change _).bind fun _ => ?_
    exact (filters_change _).bind fun _ => filters_say _

theorem filters_step :
    Filters threshold (stepSaying threshold : Procedure σ Fault Status) step := by
  refine filters_machine.bind fun m => ?_
  unfold attemptSaying attempt
  cases m.status with
  | halted => exact filters_fail _
  | running =>
    cases m.fetch? with
    | none => exact filters_fail _
    | some i =>
      refine (filters_say _).bind fun _ => ?_
      refine (filters_handle m.pc i).bind fun flow => ?_
      refine (filters_follow m.pc (m.next i) flow).bind fun _ => ?_
      exact filters_machine.bind fun after => filters_pure _

end Filtering

/-! What a session in place leaves is that of the pure functions, as far as it is shown. -/
section Sessions

def placeOfStep (s : Step σ) : Place σ := ⟨s.machine, s.sink, s.output, s.events⟩

def placeOfRun (r : Run σ) : Place σ := ⟨r.machine, r.sink, r.output.toList, r.events.toList⟩

def returned : Outcome → Except Fault Status
  | .unfinished => .ok .running
  | .halted => .ok .halted
  | .fault reason => .error reason

variable [Sink σ]

theorem stepSaying_eq (threshold : Level) (p : Place σ) :
    stepSaying threshold p = ((p.machine.step p.sink).result,
      (placeOfStep (p.machine.step p.sink)).behind threshold p.output p.events) := by
  -- A call on a place is one on an empty place, put behind what has been said and printed before.
  have start : p = Place.behind ⟨p.machine, p.sink, [], []⟩ threshold p.output p.events := by
    simp [Place.behind]
  have filtered := (filters_step : Filters threshold _ _) p.output p.events
    ⟨p.machine, p.sink, [], []⟩
  have called : step ⟨p.machine, p.sink, [], []⟩ = _ := call_step p.machine p.sink
  rwa [← start, called] at filtered

/-- A loop in place that filters its events as they come leaves what a run leaves. -/
theorem loopSaying_eq (threshold : Level) (n : Nat) (p : Place σ) :
    loopSaying threshold n p =
      (returned ((Run.start p.machine p.sink).within n).outcome,
        (placeOfRun ((Run.start p.machine p.sink).within n)).behind threshold p.output
          p.events) := by
  -- From any place, since the second step finds what the first has said and printed.
  induction n generalizing p with
  | zero =>
    change (Except.ok Status.running, p) = (Except.ok Status.running, _)
    simp [placeOfRun, Place.behind, Run.within, Run.start]
  | succ n ih =>
    have first := stepSaying_eq threshold p
    cases ends : (p.machine.step p.sink).ends with
    | true =>
      have last : placeOfRun (Run.start p.machine p.sink).advance =
          placeOfStep (p.machine.step p.sink) := by
        simp [placeOfRun, placeOfStep, Run.advance, Run.start]
      rw [Run.within_of_last ends, last]
      change _ = (returned (.ofResult (p.machine.step p.sink).result), _)
      cases result : (p.machine.step p.sink).result with
      | error reason =>
        rw [result] at first
        exact Procedure.bind_of_error first _
      | ok status =>
        rw [result] at first
        cases status with
        | running => exact absurd (Step.ends_eq_false_iff.mpr result) (by simp [ends])
        | halted => exact Procedure.bind_of_ok first _
    | false =>
      rw [Step.ends_eq_false_iff.mp ends] at first
      rw [Run.within_of_again ends, loopSaying, Procedure.bind_of_ok first]
      refine (ih _).trans ?_
      simp [placeOfRun, placeOfStep, Place.behind, Run.followedBy, Run.advance, Run.start]

end Sessions

section Reports

def Place.shown (p : Place σ) (threshold : Level) : Place σ := p.behind threshold [] []

def Place.after (p : Place σ) (e : Event) : Place σ := { p with events := p.events ++ [e] }

def Place.loaded (p : Place σ) (image : Image) : Place σ :=
  Place.after { p with machine := p.machine.withImage image } (.loaded image.size)

def Place.run [Sink σ] (p : Place σ) (limit : Nat) : Place σ :=
  let r := (Run.start p.machine p.sink).within limit
  ⟨r.machine, r.sink, p.output ++ r.output.toList, p.events ++ r.events.toList⟩

theorem Procedure.mapError_of_ok {δ : Type} {procedure : Procedure σ ε α} {p q : Place σ}
    {value : α} (f : ε → δ) (done : procedure p = (.ok value, q)) :
    procedure.mapError f p = (.ok value, q) := by
  rw [mapError, done]

theorem Procedure.mapError_of_error {δ : Type} {procedure : Procedure σ ε α} {p q : Place σ}
    {e : ε} (f : ε → δ) (failed : procedure p = (.error e, q)) :
    procedure.mapError f p = (.error (f e), q) := by
  rw [mapError, failed]

variable {read : String → Except ReadFailure (List Byte)} {path : String}

section Parts
variable (threshold : Level) (p : Place σ)

theorem say_shown (e : Event) :
    (say threshold e : Procedure σ ε Unit) (p.shown threshold) =
      (.ok (), (p.after e).shown threshold) := filters_say e [] [] p

theorem readSaying_of_error {failure : ReadFailure} (found : read path = .error failure) :
    readSaying threshold read path p = (.error (.ofReadFailure path failure), p) := by
  rw [readSaying, found]
  rfl

theorem readSaying_of_ok {contents : List Byte} (found : read path = .ok contents) :
    readSaying threshold read path (p.shown threshold) =
      (.ok (Image.ofBytes contents),
        (p.after (.parsed (Image.ofBytes contents).size path)).shown threshold) := by
  rw [readSaying, found]
  exact Procedure.bind_of_ok (say_shown threshold p _) _

theorem loadSaying_of_large {image : Image} (large : memorySize < image.size) :
    loadSaying threshold image p = (.error (.tooLarge image.size), p) := by
  rw [loadSaying, if_pos large]
  rfl

theorem loadSaying_of_fits {image : Image} (fits : image.size ≤ memorySize) :
    loadSaying threshold image (p.shown threshold) =
      (.ok (), (p.loaded image).shown threshold) := by
  rw [loadSaying, if_neg (Nat.not_lt.mpr fits)]
  exact say_shown threshold { p with machine := p.machine.withImage image } _

def concluded (p : Place σ) : Outcome → Except Failure Status × Place σ
  | .unfinished => (.ok .running, p)
  | .halted => (.ok .halted, p.after (.ended p.machine.pc))
  | .fault reason => (.error (.execution reason), p)

theorem report?_concluded (outcome : Outcome) :
    report? (concluded p outcome) =
      (Cli.Verdict.ofOutcome? Cli.brokenPipe p.machine outcome).map fun verdict =>
        ⟨verdict.status, p.output.toArray, verdict.complaint, p.events ++ verdict.events⟩ := by
  cases outcome with
  | unfinished => rfl
  | halted => rfl
  | fault reason => simp [concluded, report?, Cli.Verdict.ofOutcome?, Cli.Verdict.ofFault]

variable [Sink σ]

theorem loopSaying_shown (limit : Nat) :
    loopSaying threshold limit (p.shown threshold) =
      (returned ((Run.start p.machine p.sink).within limit).outcome,
        (p.run limit).shown threshold) := by
  refine (loopSaying_eq threshold limit (p.shown threshold)).trans ?_
  simp [Place.shown, Place.behind, Place.run, placeOfRun]

theorem runSaying_shown (limit : Nat) :
    let ended := concluded (p.run limit) ((Run.start p.machine p.sink).within limit).outcome
    runSaying threshold limit (p.shown threshold) = (ended.1, ended.2.shown threshold) := by
  have loop := loopSaying_shown threshold p limit
  cases outcome : ((Run.start p.machine p.sink).within limit).outcome with
  | unfinished =>
    rw [outcome] at loop
    exact Procedure.bind_of_ok (Procedure.mapError_of_ok Failure.execution loop) _
  | halted =>
    rw [outcome] at loop
    refine (Procedure.bind_of_ok (Procedure.mapError_of_ok Failure.execution loop) _).trans ?_
    exact Procedure.bind_of_ok (say_shown threshold (p.run limit) _) _
  | fault reason =>
    rw [outcome] at loop
    exact Procedure.bind_of_error (Procedure.mapError_of_error Failure.execution loop) _

end Parts

variable (read path) (out : Cli.StandardOutput) (limit : Nat)

/-- Every threshold gives this result and shows its part of this place; the whole place is what the
session is reported to leave. -/
structure Session (result : Except Failure Status) (p : Place Cli.StandardOutput) : Prop where
  shown : ∀ threshold, (session threshold read limit path).call .initial out =
    (result, p.shown threshold)
  whole : report? (result, p) = Cli.session? read out limit path

def opening : Place Cli.StandardOutput := ⟨.initial, out, [], []⟩

variable {read path}

theorem session_of_unread {failure : ReadFailure} (found : read path = .error failure) :
    Session read path out limit (.error (.loading (.ofReadFailure path failure)))
      ((opening out).after (.loading path)) := by
  constructor
  · intro threshold
    refine (Procedure.bind_of_ok (say_shown threshold (opening out) (.loading path)) _).trans ?_
    exact Procedure.bind_of_error
      (Procedure.mapError_of_error Failure.loading (readSaying_of_error threshold _ found)) _
  · simp only [Cli.session?, Cli.prepare, Image.ofFile, found]
    rfl

theorem session_of_large {contents : List Byte} (found : read path = .ok contents)
    (large : memorySize < (Image.ofBytes contents).size) :
    Session read path out limit (.error (.loading (.tooLarge (Image.ofBytes contents).size)))
      (((opening out).after (.loading path)).after
        (.parsed (Image.ofBytes contents).size path)) := by
  constructor
  · intro threshold
    refine (Procedure.bind_of_ok (say_shown threshold (opening out) (.loading path)) _).trans ?_
    refine (Procedure.bind_of_ok
      (Procedure.mapError_of_ok Failure.loading (readSaying_of_ok threshold _ found)) _).trans ?_
    exact Procedure.bind_of_error
      (Procedure.mapError_of_error Failure.loading (loadSaying_of_large threshold _ large)) _
  · simp only [Cli.session?, Cli.prepare, Image.ofFile, found, Machine.load_of_large _ large]
    rfl

theorem session_of_fits {contents : List Byte} (found : read path = .ok contents)
    (fits : (Image.ofBytes contents).size ≤ memorySize) :
    ∃ result p, Session read path out limit result p := by
  let image := Image.ofBytes contents
  let parsed := ((opening out).after (.loading path)).after (.parsed image.size path)
  let loaded := parsed.loaded image
  let run := (Run.start loaded.machine out).within limit
  have output : (loaded.run limit).output.toArray = run.output := Array.ext' (List.nil_append _)
  have loads : Cli.Loads read path image loaded.machine := by
    exact ⟨contents, found, rfl, fits, Machine.load_eq_ok_iff.mpr ⟨fits, rfl⟩⟩
  let ended := concluded (loaded.run limit) run.outcome
  refine ⟨ended.1, ended.2, ?_, ?_⟩
  · intro threshold
    refine (Procedure.bind_of_ok (say_shown threshold (opening out) (.loading path)) _).trans ?_
    refine (Procedure.bind_of_ok
      (Procedure.mapError_of_ok Failure.loading (readSaying_of_ok threshold _ found)) _).trans ?_
    refine (Procedure.bind_of_ok
      (Procedure.mapError_of_ok Failure.loading (loadSaying_of_fits threshold _ fits)) _).trans ?_
    exact runSaying_shown threshold loaded limit
  · refine (report?_concluded (loaded.run limit) run.outcome).trans ?_
    rw [output]
    exact (Cli.session?_of_loads loads out limit).symm

variable (read path) in
theorem exists_session : ∃ result p, Session read path out limit result p := by
  cases found : read path with
  | error failure => exact ⟨_, _, session_of_unread out limit found⟩
  | ok contents =>
    by_cases fits : (Image.ofBytes contents).size ≤ memorySize
    · exact session_of_fits out limit found fits
    · exact ⟨_, _, session_of_large out limit found (Nat.lt_of_not_le fits)⟩

theorem report?_shown (threshold : Level) (result : Except Failure Status) (p : Place σ) :
    report? (result, p.shown threshold) =
      (report? (result, p)).map (Cli.Report.filter threshold) := by
  rcases result with ⟨_ | _⟩ | ⟨_ | _⟩ <;> rfl

end Reports
end ByteMachine.InPlace

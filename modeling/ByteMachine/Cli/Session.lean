import ByteMachine.Cli.Arguments
import ByteMachine.Machine.Load
import ByteMachine.Machine.Run

/-!
One use of the command line: read the program's file, load it into a new machine, run it to its
end, and report. What the outside world contributes is a parameter: the contents of files and
how long anybody reads standard output. The threshold only chooses among the recorded events.
-/

namespace ByteMachine.Cli

inductive ExitStatus where
  | success
  | loadError
  | executionError
  deriving DecidableEq, Repr

def ExitStatus.code : ExitStatus → Nat
  | .success => 0
  | .loadError => 2
  | .executionError => 3

inductive StandardOutput where
  | connected
  /-- A pipe whose reader leaves after so many lines. -/
  | leaving (lines : Nat)
  | closed
  deriving DecidableEq, Repr

namespace StandardOutput

/-- How many lines find a reader, if not all of them do. -/
def lines? : StandardOutput → Option Nat
  | .connected => none
  | .leaving lines => some lines
  | .closed => some 0

def offer : StandardOutput → List Byte → Nat × StandardOutput
  | .connected, line => (line.length, .connected)
  | .leaving (lines + 1), line => (line.length, .leaving lines)
  | .leaving 0, _ | .closed, _ => (0, .closed)

instance : Sink StandardOutput := ⟨offer⟩

end StandardOutput

def brokenPipe : String := "Broken pipe (os error 32)"

/-- How a session ends: its status, the line on standard error and the last events. -/
structure Verdict where
  status : ExitStatus
  complaint : Option String
  events : List Event
  deriving DecidableEq, Repr

def chain (errors : List String) : String := ": ".intercalate errors

namespace Verdict

def ofLoadError (e : LoadError) : Verdict := ⟨.loadError, some (chain (e.message :: e.causes)), []⟩

/-- A failed write is explained by its own cause. -/
def ofFault (writeFailure : String) (reason : Fault) : Verdict :=
  let causes := match reason with
    | .output => [writeFailure]
    | _ => []
  ⟨.executionError, some (chain ("execution stopped" :: reason.message :: causes)), []⟩

def ofHalt (m : Machine) : Verdict := ⟨.success, none, [.ended m.pc]⟩

def ofOutcome? (writeFailure : String) (m : Machine) : Outcome → Option Verdict
  | .unfinished => none
  | .halted => some (ofHalt m)
  | .fault reason => some (ofFault writeFailure reason)

end Verdict

def prepare (read : String → Except ReadFailure (List Byte)) (path : String) :
    Recorded (Except LoadError Machine) :=
  let image := Image.ofFile read path
  match image.value with
  | .error e => ⟨.error e, .loading path :: image.events⟩
  | .ok found =>
    let loaded := Machine.initial.load found
    ⟨loaded.value, .loading path :: image.events ++ loaded.events⟩

structure Report where
  status : ExitStatus
  output : Array Byte
  complaint : Option String
  events : List Event
  deriving DecidableEq, Repr

def Report.filter (threshold : Level) (r : Report) : Report :=
  { r with events := r.events.filter fun e => threshold.shows e.level }

/-- The report with every event, or none if the program has not ended after so many steps. -/
def session? (read : String → Except ReadFailure (List Byte)) (out : StandardOutput)
    (limit : Nat) (path : String) : Option Report :=
  let prepared := prepare read path
  match prepared.value with
  | .error e =>
    let verdict := Verdict.ofLoadError e
    some ⟨verdict.status, #[], verdict.complaint, prepared.events ++ verdict.events⟩
  | .ok machine =>
    let run := (Run.start machine out).within limit
    (Verdict.ofOutcome? brokenPipe run.machine run.outcome).map fun verdict =>
      ⟨verdict.status, run.output, verdict.complaint,
        prepared.events ++ run.events.toList ++ verdict.events⟩

def helpLines : List String :=
  ["Run an LS8 program image",
    "",
    "Usage: ls8 [OPTIONS] <PROGRAM>",
    "",
    "Arguments:",
    "  <PROGRAM>  Path to the `.ls8` program image",
    "",
    "Options:",
    "  -v, --verbose...  Raise the log level (warn, info, debug, trace); logs go to stderr",
    "  -h, --help        Print help"]

def helpText : String := String.join (helpLines.map fun line => line ++ "\n")

inductive Response where
  | usageError
  | help
  | report (r : Report)
  | endless
  deriving DecidableEq, Repr

def usageErrorCode : Nat := 2

def invokeWithin (limit : Nat) (read : String → Except ReadFailure (List Byte))
    (out : StandardOutput) (arguments : List String) : Response :=
  match Invocation.ofArguments arguments with
  | .refused => .usageError
  | .help => .help
  | .run program verbosity =>
    match session? read out limit program with
    | none => .endless
    | some r => .report (r.filter (.ofVerbosity verbosity))

/-- A machine that still runs after so many steps has been in one of its states twice, with as many
lines left to its reader, and never stops; so this bound loses no report. -/
def stepBound (out : StandardOutput) : Nat := Machine.runningCount * (out.lines?.getD 0 + 1)

def invoke (read : String → Except ReadFailure (List Byte)) (out : StandardOutput)
    (arguments : List String) : Response := invokeWithin (stepBound out) read out arguments

end ByteMachine.Cli

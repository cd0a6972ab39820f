import ByteMachine.Cli.Session

/-!
The executable: arguments, files and the two output streams of the process around a session.
Steps are made one at a time, so that a line is out before the next instruction runs.
-/

namespace ByteMachine.Process

def cause? : IO.Error → Option (UInt32 × String)
  | .noFileOrDirectory _ code details | .inappropriateType _ code details
  | .invalidArgument _ code details | .permissionDenied _ code details
  | .resourceExhausted _ code details => some (code, details)
  | .resourceVanished code details | .hardwareFault code details | .otherError code details =>
    some (code, details)
  | _ => none

/-- Some errors carry their number negated. -/
def errorNumber (code : UInt32) : Nat := if code < 0x80000000 then code.toNat else (-code).toNat

def describe (e : IO.Error) : String :=
  match cause? e with
  | some (code, details) => details ++ " (os error " ++ toString (errorNumber code) ++ ")"
  | none => toString e

def readFailure (e : IO.Error) : ReadFailure :=
  match (cause? e).map fun found => errorNumber found.1 with
  | some 2 => .missing
  | some 20 => .notDirectory
  | some 21 => .isDirectory
  | some 36 => .nameTooLong
  | _ => .other (describe e)

def readFile (path : String) : IO (Except ReadFailure (List Byte)) := do
  if '\x00' ∈ path.toList then return .error .nulInName
  try
    let contents ← IO.FS.readBinFile path
    return .ok (contents.toList.map fun b => b.toBitVec)
  catch e => return .error (readFailure e)

def say (threshold : Level) (events : List Event) : IO Unit :=
  events.forM fun e => if threshold.shows e.level then IO.eprintln e.shown else pure ()

/-- The text of the failure if the bytes cannot be written. -/
def print (bytes : List Byte) : IO (Option String) := do
  if bytes.isEmpty then return none
  try
    let out ← IO.getStdout
    out.write (bytes.map fun b => UInt8.ofBitVec b).toByteArray
    out.flush
    return none
  catch e => return some (describe e)

partial def drive (threshold : Level) (m : Machine) : IO Cli.Verdict := do
  let step := m.step Room.unlimited
  say threshold step.events
  match ← print step.output with
  | some failure => return .ofFault failure .output
  | none =>
    match Cli.Verdict.ofOutcome? Cli.brokenPipe step.machine (.ofResult step.result) with
    | some verdict => return verdict
    | none => drive threshold step.machine

def runProgram (path : String) (threshold : Level) : IO UInt32 := do
  let contents ← readFile path
  let prepared := Cli.prepare (fun _ => contents) path
  say threshold prepared.events
  let verdict ← match prepared.value with
    | .error e => pure (Cli.Verdict.ofLoadError e)
    | .ok m => drive threshold m
  say threshold verdict.events
  verdict.complaint.forM IO.eprintln
  return verdict.status.code.toUInt32

def start (arguments : List String) : IO UInt32 := do
  match Cli.Invocation.ofArguments arguments with
  | .help =>
    IO.print Cli.helpText
    return Cli.ExitStatus.success.code.toUInt32
  | .refused =>
    IO.eprintln "Usage: ls8 [OPTIONS] <PROGRAM>"
    return Cli.usageErrorCode.toUInt32
  | .run path verbosity => runProgram path (.ofVerbosity verbosity)

end ByteMachine.Process

def main (arguments : List String) : IO UInt32 := ByteMachine.Process.start arguments

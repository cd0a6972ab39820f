/-!
The command line: one program to run, and options around it. Arguments are read from left to
right; the first one that asks for help or cannot be understood settles the matter, whatever
follows it. After `--` every argument is a program path.
-/

namespace ByteMachine.Cli

inductive Invocation where
  | help
  | refused
  | run (program : String) (verbosity : Nat)
  deriving DecidableEq, Repr

inductive Word where
  | verbose (times : Nat)
  | help
  | endOfOptions
  | unknown
  | path (text : String)
  deriving DecidableEq, Repr

namespace Word

/-- The letters behind a single hyphen: each `v` counts, the first other letter decides. -/
def ofLetters (times : Nat) : List Char → Word
  | [] => .verbose times
  | 'v' :: rest => ofLetters (times + 1) rest
  | 'h' :: _ => .help
  | _ :: _ => .unknown

/-- A single hyphen is a path. -/
def ofArgument (argument : String) : Word :=
  if argument = "--" then .endOfOptions
  else if argument = "--help" then .help
  else if argument = "--verbose" then .verbose 1
  else
    match argument.toList with
    | '-' :: '-' :: _ => .unknown
    | '-' :: letter :: rest => ofLetters 0 (letter :: rest)
    | _ => .path argument

end Word

namespace Invocation

/-- Reads the remaining arguments, given the program and the verbosity so far and whether options
are still recognised. -/
def interpret (program : Option String) (verbosity : Nat) (options : Bool) :
    List String → Invocation
  | [] =>
    match program with
    | none => .refused
    | some path => .run path verbosity
  | argument :: rest =>
    match if options then Word.ofArgument argument else .path argument with
    | .verbose times => interpret program (verbosity + times) options rest
    | .help => .help
    | .endOfOptions => interpret program verbosity false rest
    | .unknown => .refused
    | .path text =>
      if program.isSome ∨ text = "" then .refused
      else interpret (some text) verbosity options rest

def ofArguments (arguments : List String) : Invocation := interpret none 0 true arguments

end Invocation
end ByteMachine.Cli

/-!
Why a program does not get into memory: its file is missing, the file cannot be read, or the image
is larger than memory.
-/

namespace ByteMachine

inductive ReadFailure where
  | missing
  | isDirectory
  /-- A file stands where the path needs a directory. -/
  | notDirectory
  | nameTooLong
  /-- No file name contains a NUL character. -/
  | nulInName
  | other (description : String)
  deriving DecidableEq, Repr

def ReadFailure.description : ReadFailure → String
  | .missing => "No such file or directory (os error 2)"
  | .isDirectory => "Is a directory (os error 21)"
  | .notDirectory => "Not a directory (os error 20)"
  | .nameTooLong => "File name too long (os error 36)"
  | .nulInName => "file name contained an unexpected NUL byte"
  | .other description => description

inductive LoadError where
  | notFound (path : String)
  | unreadable (path : String) (cause : ReadFailure)
  | tooLarge (size : Nat)
  deriving DecidableEq, Repr

namespace LoadError

def ofReadFailure (path : String) : ReadFailure → LoadError
  | .missing => .notFound path
  | cause => .unreadable path cause

def message : LoadError → String
  | .notFound path => "cannot open file " ++ path
  | .unreadable path cause => "cannot read file " ++ path ++ ": " ++ cause.description
  | .tooLarge size =>
    "program image is " ++ toString size ++ " bytes, which does not fit in memory"

def causes : LoadError → List String
  | .unreadable _ cause => [cause.description]
  | _ => []

end LoadError
end ByteMachine

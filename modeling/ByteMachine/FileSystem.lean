import ByteMachine.Byte
import ByteMachine.LoadError

/-!
A file system as far as reading a file can tell: which places hold a file or a directory, and how
a path leads to one of them. A path is walked name by name; every place that is left by a further
name has to be a directory, also for the names `.` and `..` and for an empty name.
-/

namespace ByteMachine

inductive Entry where
  | file (bytes : List Byte)
  | directory
  deriving DecidableEq, Repr

abbrev Location := List String

/-- What is at each place below the root; the root is a directory. -/
structure FileSystem where
  entries : List (Location × Entry)
  deriving Repr

namespace FileSystem

/-- The longest name of a file or directory, in bytes of UTF-8. -/
def nameLimit : Nat := 255

def pathLimit : Nat := 4095

def lookup (fs : FileSystem) : Location → Option Entry
  | [] => some .directory
  | place => fs.entries.lookup place

def names (path : String) : List String :=
  (path.toList.splitOn '/').map String.ofList

def walk (fs : FileSystem) (place : Location) (entry : Entry) :
    List String → Except ReadFailure Entry
  | [] => .ok entry
  | name :: rest =>
    match entry with
    | .file _ => .error .notDirectory
    | .directory =>
      if name = "" ∨ name = "." then walk fs place .directory rest
      else if name = ".." then walk fs place.dropLast .directory rest
      else if nameLimit < name.utf8ByteSize then .error .nameTooLong
      else
        match fs.lookup (place ++ [name]) with
        | none => .error .missing
        | some found => walk fs (place ++ [name]) found rest

def read (fs : FileSystem) (path : String) : Except ReadFailure (List Byte) :=
  if '\x00' ∈ path.toList then .error .nulInName
  else if path = "" then .error .missing
  else if pathLimit < path.utf8ByteSize then .error .nameTooLong
  else
    match fs.walk [] .directory (names path) with
    | .error failure => .error failure
    | .ok .directory => .error .isDirectory
    | .ok (.file bytes) => .ok bytes

end FileSystem
end ByteMachine

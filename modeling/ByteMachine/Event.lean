import ByteMachine.Flags
import ByteMachine.Instruction.Opcode
import ByteMachine.Text

/-!
What is recorded while a program is read, loaded and run. An event has a level, the part of the
program that speaks, and a message; how much of it is shown is decided by a threshold. A message
may quote a path and with it any character: the record keeps it, a terminal gets its commands
written out.
-/

namespace ByteMachine

inductive Level where
  | warn | info | debug | trace
  deriving DecidableEq, Repr

namespace Level

def name : Level → String
  | .warn => "WARN"
  | .info => "INFO"
  | .debug => "DEBUG"
  | .trace => "TRACE"

def rank : Level → Nat
  | .warn => 0
  | .info => 1
  | .debug => 2
  | .trace => 3

/-- A threshold shows the events of its own rank and below. -/
def shows (threshold level : Level) : Bool := level.rank ≤ threshold.rank

/-- The threshold for a number of requests to say more; three are as good as any larger number. -/
def ofVerbosity : Nat → Level
  | 0 => .warn
  | 1 => .info
  | 2 => .debug
  | _ => .trace

end Level

inductive Event where
  | loading (path : String)
  | parsed (size : Nat) (path : String)
  | loaded (size : Nat)
  /-- An instruction is about to be executed; both bytes after the opcode are shown. -/
  | executing (pc : Byte) (op : Opcode) (first second : Byte) (flags : Flags)
  /-- The instruction at this address has stopped the machine. -/
  | halting (address : Byte)
  /-- The program has ended with the program counter here. -/
  | ended (pc : Byte)
  deriving DecidableEq, Repr

namespace Event

def level : Event → Level
  | .loading _ | .ended _ => .info
  | .parsed _ _ | .loaded _ | .halting _ => .debug
  | .executing _ _ _ _ _ => .trace

def target : Event → String
  | .loading _ | .ended _ => "ls8"
  | .parsed _ _ => "ls8::region"
  | .loaded _ | .executing _ _ _ _ _ | .halting _ => "ls8::vm"

def message : Event → String
  | .loading path => "loading LS8 program " ++ path
  | .parsed size path => "parsed " ++ toString size ++ " bytes of program from " ++ path
  | .loaded size => "loaded " ++ toString size ++ " bytes at 0x00"
  | .executing pc op first second flags =>
    pc.hex ++ ": " ++ op.mnemonic ++ " " ++ first.hex ++ " " ++ second.hex ++
      " | fl: " ++ flags.digits
  | .halting address => "halted at " ++ address.hex
  | .ended pc => "halted at " ++ pc.hex

def line (e : Event) (message : String) : String :=
  e.level.name ++ " " ++ e.target ++ ": " ++ message

def render (e : Event) : String := e.line e.message

def shown (e : Event) : String := e.line (Text.visible e.message)

end Event

/-- A value and the events recorded on the way to it, oldest first. -/
structure Recorded (α : Type) where
  value : α
  events : List Event

end ByteMachine

import ByteMachine.Event
import ByteMachine.LoadError
import ByteMachine.Text.Utf8

/-!
Program images and the text that they are written in: one byte a line, in base 2. White space and
at most one sign may stand before the digits, anything may stand behind them, and a line without a
digit in that place gives no byte. A number keeps its low eight bits; a negative one is stored in
two's complement. Where the contents of a file come from is a parameter, so that the same function
serves every source of files.
-/

namespace ByteMachine

structure Image where
  bytes : List Byte
  deriving DecidableEq, Repr

namespace Image

def empty : Image := ⟨[]⟩

def size (image : Image) : Nat := image.bytes.length

def isEmpty (image : Image) : Bool := image.bytes.isEmpty

def isDigit (c : Char) : Bool := c == '0' || c == '1'

theorem isDigit_iff {c : Char} : isDigit c = true ↔ c = '0' ∨ c = '1' := by simp [isDigit]

def digit (c : Char) : Byte := if c = '1' then 1 else 0

/-- The low eight bits of a number in base 2, the high digit first. -/
def number (digits : List Char) : Byte := digits.foldl (fun value c => 2 * value + digit c) 0

/-- Whether a text starts with a minus sign, and the text behind its sign if it has one. -/
def sign : List Char → Bool × List Char
  | '-' :: rest => (true, rest)
  | '+' :: rest => (false, rest)
  | text => (false, text)

def byteOfLine? (line : List Char) : Option Byte :=
  let (negative, rest) := sign (line.dropWhile Text.isWhiteSpace)
  match rest.takeWhile isDigit with
  | [] => none
  | digits => some (if negative then -number digits else number digits)

def ofText (text : List Char) : Image := ⟨(Text.lines text).filterMap byteOfLine?⟩

def ofBytes (contents : List Byte) : Image := ofText (Text.Utf8.decode contents)

def ofFile (read : String → Except ReadFailure (List Byte)) (path : String) :
    Recorded (Except LoadError Image) :=
  match read path with
  | .error failure => ⟨.error (.ofReadFailure path failure), []⟩
  | .ok contents =>
    let image := ofBytes contents
    ⟨.ok image, [.parsed image.size path]⟩

end Image
end ByteMachine

import ByteMachine.Byte

/-!
The outcome of the last comparison: less, greater, equal. As a byte the three flags are the low
bits `LGE`. A comparison raises exactly one of them.
-/

namespace ByteMachine

structure Flags where
  less : Bool
  greater : Bool
  equal : Bool
  deriving DecidableEq, Repr

namespace Flags

def clear : Flags := ⟨false, false, false⟩

def compare (l r : Byte) : Flags := ⟨decide (l < r), decide (r < l), decide (l = r)⟩

def lessBit : Byte := 4
def greaterBit : Byte := 2
def equalBit : Byte := 1

def bits (f : Flags) : Byte :=
  (if f.less then lessBit else 0) ||| (if f.greater then greaterBit else 0) |||
    (if f.equal then equalBit else 0)

def digit (raised : Bool) : Char := if raised then '1' else '0'

/-- Three digits of base 2, in the order less, greater, equal. -/
def digits (f : Flags) : String := String.ofList [digit f.less, digit f.greater, digit f.equal]

end Flags
end ByteMachine

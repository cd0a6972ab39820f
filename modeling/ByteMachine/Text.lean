import ByteMachine.Byte

/-!
Text as it is read and shown. A line ends at a line feed, together with one carriage return
directly before it; a text that ends with a line feed has no further line after it, and a last line
without a line feed keeps all of its characters. White space is what has the Unicode property
`White_Space`: twenty-five code points in ten ranges.

For a terminal some control characters are commands: bell, backspace, form feed, escape, delete and
the second control set, U+0080 to U+009F. Each of them is written out as its code in base 16, so
that a text that is shown cannot move the cursor or change a colour; every other character, also a
line end, stands for itself.
-/

namespace ByteMachine.Text

def lineFeed : Char := '\n'
def carriageReturn : Char := '\r'

/-- A line without the carriage return that belongs to its end. -/
def dropCarriageReturn (line : List Char) : List Char :=
  match line.getLast? with
  | some '\r' => line.dropLast
  | _ => line

def lines (text : List Char) : List (List Char) :=
  let pieces := text.splitOn lineFeed
  let last := pieces.getLastD []
  pieces.dropLast.map dropCarriageReturn ++ (if last.isEmpty then [] else [last])

-- Reading piece by piece succeeds where every piece can be read.
theorem mapM_eq_some {α β : Type} {f : α → Option β} {g : α → β} {xs : List α}
    (all : ∀ x ∈ xs, f x = some (g x)) : xs.mapM f = some (xs.map g) := by
  induction xs with
  | nil => rfl
  | cons x xs ih =>
    rw [List.forall_mem_cons] at all
    rw [List.mapM_cons, all.1, ih all.2]
    rfl

/-- First and last code point of each range. -/
def whiteSpaceRanges : List (Nat × Nat) :=
  [(0x0009, 0x000D), (0x0020, 0x0020), (0x0085, 0x0085), (0x00A0, 0x00A0), (0x1680, 0x1680),
    (0x2000, 0x200A), (0x2028, 0x2029), (0x202F, 0x202F), (0x205F, 0x205F), (0x3000, 0x3000)]

def isWhiteSpace (c : Char) : Bool :=
  whiteSpaceRanges.any fun range => decide (range.1 ≤ c.toNat) && decide (c.toNat ≤ range.2)

def terminalCodes : List Nat := [0x07, 0x08, 0x0C, 0x1B, 0x7F]

def isTerminalCommand (c : Char) : Bool :=
  terminalCodes.contains c.toNat || (decide (0x80 ≤ c.toNat) && decide (c.toNat ≤ 0x9F))

/-- A code below U+0080 stands behind `\x`, one of the second set in braces behind `\u`. -/
def writtenOut (c : Char) : List Char :=
  let code := (Byte.hexDigits (BitVec.ofNat 8 c.toNat)).toList
  if c.toNat < 0x80 then '\\' :: 'x' :: code else '\\' :: 'u' :: '\x7b' :: code ++ ['\x7d']

def shown (c : Char) : List Char := if isTerminalCommand c then writtenOut c else [c]

def visible (text : String) : String := String.ofList (text.toList.flatMap shown)

theorem digitChar_plain (n : Nat) (bound : n < 16) :
    isTerminalCommand (Nat.digitChar n) = false :=
  (by decide : ∀ k : Fin 16, isTerminalCommand (Nat.digitChar k) = false) ⟨n, bound⟩

theorem hexDigits_plain (b : Byte) (c : Char) (member : c ∈ b.hexDigits.toList) :
    isTerminalCommand c = false := by
  have size := b.isLt
  simp only [Byte.hexDigits, String.toList_ofList, List.mem_cons, List.not_mem_nil,
    or_false] at member
  rcases member with rfl | rfl
  · exact digitChar_plain _ (by omega)
  · exact digitChar_plain _ (by omega)

theorem shown_plain (c d : Char) (member : d ∈ shown c) : isTerminalCommand d = false := by
  unfold shown writtenOut at member
  split at member
  · have code := hexDigits_plain (BitVec.ofNat 8 c.toNat)
    split at member <;> simp only [List.cons_append, List.mem_cons, List.mem_append,
      List.not_mem_nil, or_false] at member
    · rcases member with rfl | rfl | member
      · decide
      · decide
      · exact code d member
    · rcases member with rfl | rfl | rfl | member | rfl
      · decide
      · decide
      · decide
      · exact code d member
      · decide
  · rename_i plain
    simp only [List.mem_singleton] at member
    subst member
    simpa using plain

theorem visible_plain (text : String) :
    ∀ c ∈ (visible text).toList, isTerminalCommand c = false := by
  intro d member
  simp only [visible, String.toList_ofList, List.mem_flatMap] at member
  obtain ⟨c, _, member⟩ := member
  exact shown_plain c d member

theorem visible_of_plain (text : String)
    (plain : ∀ c ∈ text.toList, isTerminalCommand c = false) : visible text = text := by
  have same : text.toList.map shown = text.toList.map fun c => [c] := by
    refine List.map_congr_left fun c member => ?_
    simp [shown, plain c member]
  rw [visible, List.flatMap_def, same, ← List.flatMap_def, List.flatMap_singleton',
    String.ofList_toList]

end ByteMachine.Text

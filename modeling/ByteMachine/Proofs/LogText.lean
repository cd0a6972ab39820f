import ByteMachine.Event
import ByteMachine.Proofs.ImageGrammar
import Mathlib.Data.List.Basic

/-!
The log as a text. Every entry has a line of its own, with its message alone or with a heading that
tells its level and who speaks. In the message of an instruction that is about to be executed each
part has its place, and none of them can be taken for another or for the end of the line, so that
the instructions of a run can be read back from the messages of its log.
-/

namespace ByteMachine

/-- What a step finds before it executes anything: where it is, the opcode there, the two bytes
behind the opcode, and the flags. -/
structure Fetched where
  pc : Byte
  opcode : Opcode
  first : Byte
  second : Byte
  flags : Flags
  deriving DecidableEq, Repr

namespace Fetched

def trace (f : Fetched) : Event := .executing f.pc f.opcode f.first f.second f.flags

def entries (f : Fetched) : List Event :=
  match f.opcode with
  | .halt => [f.trace, .halting f.pc]
  | _ => [f.trace]

end Fetched

/-- The text of a log in which each entry has this form, one on a line. -/
def logText (form : Event → String) (log : List Event) : List Char :=
  log.flatMap fun e => (form e).toList ++ [Text.lineFeed]

namespace Fetched

def hexValue (c : Char) : Nat := "0123456789abcdef".toList.idxOf c

def byte? : List Char → Option (Byte × List Char)
  | '0' :: 'x' :: high :: low :: rest =>
    some (BitVec.ofNat 8 (16 * hexValue high + hexValue low), rest)
  | _ => none

def opcode? (text : List Char) : Option (Opcode × List Char) :=
  let word := text.takeWhile fun c => c != ' '
  (Opcode.all.find? fun op => op.mnemonic.toList == word).map fun op =>
    (op, text.dropWhile fun c => c != ' ')

def flags? : List Char → Option Flags
  | [less, greater, equal] => some ⟨less == '1', greater == '1', equal == '1'⟩
  | _ => none

/-- Reads the message of a trace; other messages are none of this kind. -/
def ofMessage? (text : List Char) : Option Fetched := do
  let (pc, text) ← byte? text
  let text ← text.dropPrefix? ": ".toList
  let (opcode, text) ← opcode? text
  let text ← text.dropPrefix? " ".toList
  let (first, text) ← byte? text
  let text ← text.dropPrefix? " ".toList
  let (second, text) ← byte? text
  let text ← text.dropPrefix? " | fl: ".toList
  let flags ← flags? text
  return ⟨pc, opcode, first, second, flags⟩

def heading : List Char := "TRACE ls8::vm: ".toList

def ofLine? (line : List Char) : Option Fetched := (line.dropPrefix? heading).bind ofMessage?

def ofLog (read : List Char → Option Fetched) (text : List Char) : List Fetched :=
  (Text.lines text).filterMap read

theorem hexValue_digitChar (n : Nat) (bound : n < 16) : hexValue (Nat.digitChar n) = n :=
  (by decide : ∀ k : Fin 16, hexValue (Nat.digitChar k) = k) ⟨n, bound⟩

theorem toList_hex (b : Byte) :
    b.hex.toList = ['0', 'x', Nat.digitChar (b.toNat / 16), Nat.digitChar (b.toNat % 16)] := by
  simp [Byte.hex, Byte.hexDigits]

theorem byte?_hex (b : Byte) (rest : List Char) :
    byte? (b.hex.toList ++ rest) = some (b, rest) := by
  have size := b.isLt
  rw [toList_hex]
  change some (BitVec.ofNat 8 (16 * hexValue _ + hexValue _), rest) = _
  rw [hexValue_digitChar _ (by omega), hexValue_digitChar _ (by omega), Nat.div_add_mod,
    BitVec.ofNat_toNat, BitVec.setWidth_eq]

theorem opcode?_mnemonic (op : Opcode) (rest : List Char) :
    opcode? (op.mnemonic.toList ++ ' ' :: rest) = some (op, ' ' :: rest) := by
  have letters : ∀ c ∈ op.mnemonic.toList, (c != ' ') = true := by
    rw [← List.all_eq_true]
    cases op <;> decide
  have named : (Opcode.all.find? fun other => other.mnemonic.toList == op.mnemonic.toList) =
      some op := by
    cases op <;> decide
  have stops : ∀ c ∈ (' ' :: rest).head?, (c != ' ') = false := by
    rintro c ⟨⟩
    rfl
  obtain ⟨word, behind⟩ := Image.cut_append letters stops
  simp only [opcode?, word, behind, named, Option.map_some]

theorem flags?_digits (flags : Flags) : flags? flags.digits.toList = some flags := by
  obtain ⟨less, greater, equal⟩ := flags
  cases less <;> cases greater <;> cases equal <;> decide

theorem dropPrefix?_append (front rest : List Char) :
    (front ++ rest).dropPrefix? front = some rest :=
  List.dropPrefix?_append_of_beq rest (beq_self_eq_true front)

theorem toList_message (f : Fetched) :
    f.trace.message.toList = f.pc.hex.toList ++ (": ".toList ++
      (f.opcode.mnemonic.toList ++ (" ".toList ++ (f.first.hex.toList ++ (" ".toList ++
        (f.second.hex.toList ++ (" | fl: ".toList ++ f.flags.digits.toList))))))) := by
  have message : f.trace.message = f.pc.hex ++ ": " ++ f.opcode.mnemonic ++ " " ++ f.first.hex ++
      " " ++ f.second.hex ++ " | fl: " ++ f.flags.digits := rfl
  rw [message]
  simp only [String.toList_append, List.append_assoc]

theorem toList_render (f : Fetched) :
    f.trace.render.toList = heading ++ f.trace.message.toList := by
  have render : f.trace.render = "TRACE ls8::vm: " ++ f.trace.message := rfl
  rw [render, String.toList_append]
  rfl

theorem ofMessage?_trace (f : Fetched) : ofMessage? f.trace.message.toList = some f := by
  have opcode (rest : List Char) : opcode? (f.opcode.mnemonic.toList ++ (" ".toList ++ rest)) =
      some (f.opcode, " ".toList ++ rest) := opcode?_mnemonic f.opcode rest
  rw [toList_message, ofMessage?]
  simp only [dropPrefix?_append, Option.bind_eq_bind, Option.bind_some, opcode, byte?_hex,
    flags?_digits]
  rfl

theorem ofLine?_trace (f : Fetched) : ofLine? f.trace.render.toList = some f := by
  rw [ofLine?, toList_render, dropPrefix?_append, Option.bind_some, ofMessage?_trace]

theorem toList_halting (address : Byte) :
    (Event.halting address).message.toList = "halted at ".toList ++ address.hex.toList :=
  String.toList_append

theorem ofMessage?_halting (address : Byte) :
    ofMessage? (Event.halting address).message.toList = none := by
  rw [toList_halting, ofMessage?]
  rfl

theorem ofLine?_halting (address : Byte) :
    ofLine? (Event.halting address).render.toList = none := by
  have other : (Event.halting address).render.toList.head? = some 'D' := by
    simp [Event.render, Event.line, Event.level, Level.name]
  obtain ⟨rest, begins⟩ := List.head?_eq_some_iff.mp other
  have dropped : ('D' :: rest).dropPrefix? heading = none := rfl
  rw [begins, ofLine?, dropped]
  rfl

end Fetched

/-! No part of an entry ends its line early. -/
section Lines
open Text (lineFeed)

def Printable (text : List Char) : Prop := text.all (fun c => 0x20 ≤ c.toNat) = true

instance (text : List Char) : Decidable (Printable text) :=
  inferInstanceAs (Decidable (_ = true))

theorem Printable.not_mem {text : List Char} (printable : Printable text) {c : Char}
    (control : c.toNat < 0x20) : c ∉ text := by
  intro member
  have large : 0x20 ≤ c.toNat := of_decide_eq_true (List.all_eq_true.mp printable c member)
  exact absurd large (Nat.not_le.mpr control)

theorem printable_append {front back : List Char} :
    Printable (front ++ back) ↔ Printable front ∧ Printable back := by
  rw [Printable, List.all_append, Bool.and_eq_true]
  rfl

theorem printable_hex (b : Byte) : Printable b.hex.toList := by
  have digit (n : Nat) (bound : n < 16) : 0x20 ≤ (Nat.digitChar n).toNat :=
    (by decide : ∀ k : Fin 16, 0x20 ≤ (Nat.digitChar k).toNat) ⟨n, bound⟩
  have size := b.isLt
  have high := digit (b.toNat / 16) (by omega)
  have low := digit (b.toNat % 16) (by omega)
  simp [Printable, Fetched.toList_hex, high, low]

theorem printable_mnemonic (op : Opcode) : Printable op.mnemonic.toList := by
  cases op <;> decide

theorem printable_digits (flags : Flags) : Printable flags.digits.toList := by
  obtain ⟨less, greater, equal⟩ := flags
  cases less <;> cases greater <;> cases equal <;> decide

theorem Fetched.printable_message (f : Fetched) :
    ∀ e ∈ f.entries, Printable e.message.toList := by
  have trace : Printable f.trace.message.toList := by
    simp only [toList_message, printable_append]
    exact ⟨printable_hex f.pc, by decide, printable_mnemonic f.opcode, by decide,
      printable_hex f.first, by decide, printable_hex f.second, by decide,
      printable_digits f.flags⟩
  have halting : Printable (Event.halting f.pc).message.toList := by
    rw [toList_halting, printable_append]
    exact ⟨by decide, printable_hex f.pc⟩
  rw [entries]
  split
  · exact List.forall_mem_cons.mpr ⟨trace, List.forall_mem_singleton.mpr halting⟩
  · exact List.forall_mem_singleton.mpr trace

theorem Event.printable_render {e : Event} (printable : Printable e.message.toList) :
    Printable e.render.toList := by
  have level : Printable e.level.name.toList := by cases e.level <;> decide
  have target : Printable e.target.toList := by
    unfold target
    split <;> decide
  simp only [render, line, String.toList_append, printable_append]
  exact ⟨⟨⟨⟨level, by decide⟩, target⟩, by decide⟩, printable⟩

theorem lines_logText {form : Event → String} {log : List Event}
    (printable : ∀ e ∈ log, Printable (form e).toList) :
    Text.lines (logText form log) = log.map fun e => (form e).toList := by
  induction log with
  | nil => rfl
  | cons e log ih =>
    rw [List.forall_mem_cons] at printable
    have unbroken : lineFeed ∉ (form e).toList := printable.1.not_mem (by decide)
    have feedOnly : (form e).toList.getLast? ≠ some Text.carriageReturn :=
      fun last => printable.1.not_mem (by decide) (List.mem_of_getLast? last)
    have split : logText form (e :: log) = (form e).toList ++ lineFeed :: logText form log :=
      List.append_assoc (form e).toList [lineFeed] (logText form log)
    rw [split, Text.lines_append unbroken, Text.dropCarriageReturn_other feedOnly,
      ih printable.2, List.map_cons]

end Lines

namespace Fetched
variable (fetched : List Fetched)

theorem lines_messages :
    Text.lines (logText Event.message (fetched.flatMap entries)) =
      (fetched.flatMap entries).map fun e => e.message.toList := by
  apply lines_logText
  intro e member
  obtain ⟨f, -, entry⟩ := List.mem_flatMap.mp member
  exact f.printable_message e entry

theorem lines_entries :
    Text.lines (logText Event.render (fetched.flatMap entries)) =
      (fetched.flatMap entries).map fun e => e.render.toList := by
  apply lines_logText
  intro e member
  obtain ⟨f, -, entry⟩ := List.mem_flatMap.mp member
  exact Event.printable_render (f.printable_message e entry)

/-- If traces are read back and announcements are not taken for any, the whole log is. -/
theorem filterMap_entries {form : Event → String} {read : List Char → Option Fetched}
    (trace : ∀ f : Fetched, read (form f.trace).toList = some f)
    (halting : ∀ address, read (form (.halting address)).toList = none) :
    ((fetched.flatMap entries).map fun e => (form e).toList).filterMap read = fetched := by
  have each (f : Fetched) : f.entries.filterMap (read ∘ fun e => (form e).toList) = [f] := by
    rw [entries]
    split <;> simp [trace, halting]
  rw [List.filterMap_map, List.filterMap_flatMap, funext each, List.flatMap_singleton']

theorem ofLog_messages :
    ofLog ofMessage? (logText Event.message (fetched.flatMap entries)) = fetched := by
  rw [ofLog, lines_messages]
  exact filterMap_entries fetched ofMessage?_trace ofMessage?_halting

theorem ofLog_entries :
    ofLog ofLine? (logText Event.render (fetched.flatMap entries)) = fetched := by
  rw [ofLog, lines_entries]
  exact filterMap_entries fetched ofLine?_trace ofLine?_halting

theorem countP_entries :
    (fetched.flatMap entries).countP (fun e => e.level = .trace) = fetched.length := by
  have one (f : Fetched) : f.entries.countP (fun e => e.level = .trace) = 1 := by
    rw [entries]
    split <;> rfl
  induction fetched with
  | nil => rfl
  | cons f fetched ih =>
    rw [List.flatMap_cons, List.countP_append, one, ih, List.length_cons, Nat.add_comm]

end Fetched
end ByteMachine

import ByteMachine.Proofs.Operations

/-!
Where the contents of memory come from. A cell holds what the last event has put there that wrote
to it, and zero if none has. Few events write: an image that fits into memory, a direct write, a
push, and the instructions PUSH and CALL, each of the last three in one cell. Everything else leaves
all cells alone, and so does every call that fails.
-/

namespace ByteMachine

inductive MemoryEvent where
  | load (image : Image)
  | write (address value : Byte)
  /-- A value is pushed while the stack pointer stands here. -/
  | push (sp value : Byte)
  | execute (e : Execution)
  deriving DecidableEq, Repr

namespace MemoryEvent

def value? (a : Byte) : MemoryEvent → Option Byte
  | .load image => if image.size ≤ memorySize then image.bytes[a.toNat]? else none
  | .write address value => if a = address then some value else none
  | .push sp value => if a = sp - 1 then some value else none
  | .execute e =>
    match e.instruction with
    | .push r => if a = e.before.sp - 1 then some (e.before.register r) else none
    | .call _ => if a = e.before.sp - 1 then some (e.before.pc + 2) else none
    | _ => none

def last? (a : Byte) (events : List MemoryEvent) : Option Byte :=
  events.reverse.findSome? (value? a)

theorem last?_append (a : Byte) (earlier later : List MemoryEvent) :
    last? a (earlier ++ later) = (last? a later).or (last? a earlier) := by
  simp only [last?, List.reverse_append, List.findSome?_append]

theorem last?_eq_some_iff {a value : Byte} {events : List MemoryEvent} :
    last? a events = some value ↔
      ∃ earlier e later, events = earlier ++ e :: later ∧ e.value? a = some value ∧
        ∀ x ∈ later, x.value? a = none := by
  rw [last?, List.findSome?_eq_some_iff]
  constructor
  · rintro ⟨later, e, earlier, cut, writes, after⟩
    refine ⟨earlier.reverse, e, later.reverse, ?_, writes, ?_⟩
    · rw [← events.reverse_reverse, cut]
      simp
    · intro x member
      exact after x (List.mem_reverse.mp member)
  · rintro ⟨earlier, e, later, rfl, writes, after⟩
    refine ⟨later.reverse, e, earlier.reverse, by simp, writes, ?_⟩
    intro x member
    exact after x (List.mem_reverse.mp member)

theorem last?_eq_none_iff {a : Byte} {events : List MemoryEvent} :
    last? a events = none ↔ ∀ e ∈ events, e.value? a = none := by
  simp [last?]

end MemoryEvent

namespace Machine

def memoryEvents (m : Machine) : Operation → List MemoryEvent
  | .load image => [.load image]
  | .write address value => [.write address value]
  | .push value => [.push m.sp value]
  | operation => (m.executions operation).map .execute

def memoryHistory (m : Machine) : List Operation → List MemoryEvent
  | [] => []
  | operation :: rest => m.memoryEvents operation ++ (m.perform operation).memoryHistory rest

/-- Between two machines every cell has changed as the events say and in no other way. -/
def Accounts (before : Machine) (events : List MemoryEvent) (after : Machine) : Prop :=
  ∀ a, after.read a = (MemoryEvent.last? a events).getD (before.read a)

variable {m k n : Machine}

theorem Accounts.append {earlier later : List MemoryEvent} (first : m.Accounts earlier k)
    (second : k.Accounts later n) : m.Accounts (earlier ++ later) n := by
  intro a
  rw [second a, first a, MemoryEvent.last?_append]
  cases MemoryEvent.last? a later with
  | none => rfl
  | some value => rfl

theorem accounts_one {e : MemoryEvent} (here : ∀ a, n.read a = (e.value? a).getD (m.read a)) :
    m.Accounts [e] n := by
  intro a
  rw [here a, MemoryEvent.last?, List.reverse_singleton, List.findSome?_singleton]

/-- What an executed instruction stores is in one cell, and the others are left. -/
theorem accounts_execution {σ : Type} [Sink σ] {sink : σ} {e : Execution}
    (made : m.execution? sink = some e) : m.Accounts [.execute e] e.after := by
  obtain ⟨rfl, -, -, after, -⟩ := step_of_execution? made
  have top (a value : Byte) :
      (if a = e.before.sp - 1 then value else e.before.read a) =
        (if a = e.before.sp - 1 then some value else none).getD (e.before.read a) := by
    split <;> rfl
  refine accounts_one fun a => ?_
  rw [after, read_effect, MemoryEvent.value?]
  cases e.instruction with
  | push r => exact top a (e.before.register r)
  | call r => exact top a (e.before.pc + 2)
  | _ => rfl

theorem accounts_run {σ : Type} [Sink σ] (n : Nat) (r : Run σ) :
    r.machine.Accounts ((r.executions n).map .execute) (r.within n).machine := by
  refine Run.machines_induction
    (motive := fun first made last => first.Accounts (made.map .execute) last) ?_ ?_ n r
  · intro m a
    rfl
  · intro m sink e rest last made later
    exact (accounts_execution made).append later

theorem accounts_perform (m : Machine) (operation : Operation) :
    m.Accounts (m.memoryEvents operation) (m.perform operation) := by
  cases operation with
  | load image =>
    refine accounts_one fun a => ?_
    rw [MemoryEvent.value?]
    by_cases fits : image.size ≤ memorySize
    · rw [if_pos fits, perform_load_of_fits m fits]
      exact m.read_withImage image a
    · rw [if_neg fits, perform_load_of_large m (Nat.lt_of_not_le fits)]
      rfl
  | write address value =>
    refine accounts_one fun a => ?_
    rw [perform, read_write, MemoryEvent.value?]
    split <;> rfl
  | push value =>
    refine accounts_one fun a => ?_
    rw [perform, read_push, MemoryEvent.value?]
    split <;> rfl
  | step sink =>
    change m.Accounts ((m.execution? sink).toList.map .execute) (m.step sink).machine
    rcases m.step_executes sink with ⟨nothing, machine⟩ | ⟨e, made, machine⟩
    · rw [nothing, machine]
      exact fun a => rfl
    · rw [made, machine]
      exact accounts_execution made
  | run sink limit => exact accounts_run limit (.start m sink)
  | arithmetic op a b => cases op <;> exact fun _ => rfl
  | read | pop | setRegister => exact fun _ => rfl

theorem accounts_performAll (m : Machine) (operations : List Operation) :
    m.Accounts (m.memoryHistory operations) (m.performAll operations) := by
  induction operations generalizing m with
  | nil => exact fun _ => rfl
  | cons operation rest ih =>
    exact (accounts_perform m operation).append (ih (m.perform operation))

end Machine

/-- The last writer of a cell decides its contents, after any calls on a new machine; a load that
is refused says how large the image was and is no writer. -/
theorem last_writer (operations : List Operation) :
    (∀ a : Byte,
      let m := Machine.initial.performAll operations
      let events := Machine.initial.memoryHistory operations
      (∃ earlier e later, events = earlier ++ e :: later ∧ e.value? a = some (m.read a) ∧
        ∀ x ∈ later, x.value? a = none) ∨
      ((∀ e ∈ events, e.value? a = none) ∧ m.read a = 0)) ∧
    ∀ (m : Machine) (image : Image),
      (image.size ≤ memorySize → (m.load image).value = .ok (m.perform (.load image))) ∧
      (memorySize < image.size →
        (m.load image).value = .error (.tooLarge image.size) ∧ m.perform (.load image) = m) := by
  constructor
  · intro a m events
    have accounted := Machine.accounts_performAll Machine.initial operations a
    cases last : MemoryEvent.last? a events with
    | none =>
      right
      refine ⟨MemoryEvent.last?_eq_none_iff.mp last, ?_⟩
      rw [accounted, last]
      exact Memory.read_zero a
    | some value =>
      left
      have same : m.read a = value := by
        rw [accounted, last]
        rfl
      rw [same]
      exact MemoryEvent.last?_eq_some_iff.mp last
  · intro m image
    constructor
    · intro fits
      rw [Machine.perform_load_of_fits m fits]
      exact Machine.load_eq_ok_iff.mpr ⟨fits, rfl⟩
    · intro large
      exact ⟨Machine.load_eq_error_iff.mpr ⟨large, rfl⟩, Machine.perform_load_of_large m large⟩

/-- Executes PUSH and CALL on a stack that wraps around, and then overwrites part of the image and
of the stack. -/
def overwrites : List Operation :=
  [.load ⟨[0x45, 0x01, 0x50, 0x02]⟩, .setRegister 0x01 0xAB, .setRegister 0x07 0x00,
    .run Room.unlimited 2, .load ⟨[0x09]⟩, .load ⟨List.replicate 257 0xEE⟩, .pop, .pop,
    .push 0x77]

theorem last_writer_overwrites :
    let m := Machine.initial.performAll overwrites
    m.read 0x00 = 0x09 ∧ m.read 0x01 = 0x01 ∧ m.read 0xFF = 0x77 ∧ m.read 0xFE = 0x04 ∧
      m.read 0xFD = 0 ∧ (m.load ⟨List.replicate 257 0xEE⟩).value = .error (.tooLarge 257) := by
  intro m
  obtain ⟨written, load⟩ := last_writer overwrites
  have value {a value : Byte}
      (last : MemoryEvent.last? a (Machine.initial.memoryHistory overwrites) = some value) :
      m.read a = value := by
    rcases written a with writer | ⟨none, -⟩
    · rw [MemoryEvent.last?_eq_some_iff.mpr writer] at last
      exact Option.some.inj last
    · rw [MemoryEvent.last?_eq_none_iff.mpr none] at last
      cases last
  have unwritten : m.read 0xFD = 0 := by
    rcases written 0xFD with ⟨earlier, e, later, cut, writes, -⟩ | ⟨-, zero⟩
    · have none : ∀ e ∈ Machine.initial.memoryHistory overwrites, e.value? 0xFD = none := by
        decide +kernel
      have member : e ∈ Machine.initial.memoryHistory overwrites := by
        rw [cut]
        exact List.mem_append_right _ (List.mem_cons_self ..)
      rw [none e member] at writes
      cases writes
    · exact zero
  have size : (⟨List.replicate 257 0xEE⟩ : Image).size = 257 := List.length_replicate
  obtain ⟨-, refused⟩ := load m ⟨List.replicate 257 0xEE⟩
  rw [size] at refused
  exact ⟨value (by decide +kernel), value (by decide +kernel), value (by decide +kernel),
    value (by decide +kernel), unwritten, (refused (by decide)).1⟩

end ByteMachine

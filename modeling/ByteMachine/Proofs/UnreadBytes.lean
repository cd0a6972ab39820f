import ByteMachine.Proofs.Transition

/-!
Two machines that differ in some memory cells only. What a step makes of a cell depends on how it
reads it: of an opcode, an immediate and a byte taken from the stack everything counts, of a byte
that names a register only the three low bits, and of any other cell nothing, not even if it is
fetched as an operand. As long as the differing cells are not read otherwise, the two runs cannot
be told apart, and each PUSH or CALL that writes to such a cell makes it equal.
-/

namespace ByteMachine

namespace Machine
variable (m n : Machine)

def opcode? : Option Opcode :=
  match m.status with
  | .running => Opcode.ofByte? (m.read m.pc)
  | .halted => none

/-- The cells of which the next step uses the whole byte. -/
inductive ReadsByte : Byte → Prop where
  | opcode (running : m.status = .running) : ReadsByte m.pc
  | immediate (decoded : m.opcode? = some .loadImmediate) : ReadsByte (m.pc + 2)
  | popped (decoded : m.opcode? = some .pop ∨ m.opcode? = some .ret) : ReadsByte m.sp

inductive ReadsRegister : Byte → Prop where
  | first {op : Opcode} (decoded : m.opcode? = some op) (operand : 1 ≤ op.operands) :
      ReadsRegister (m.pc + 1)
  | second {op : Opcode} (decoded : m.opcode? = some op)
      (operand : op = .add ∨ op = .multiply ∨ op = .compare) : ReadsRegister (m.pc + 2)

def Overwrites (c : Byte) : Prop :=
  m.status = .running ∧ ∃ i, m.fetch? = some i ∧ m.stored? i ≠ none ∧ c = m.sp - 1

structure AgreeOutside (differ : Byte → Prop) (m n : Machine) : Prop where
  pc : n.pc = m.pc
  registers : ∀ r, n.register r = m.register r
  flags : n.flags = m.flags
  status : n.status = m.status
  memory : ∀ c, ¬ differ c → n.read c = m.read c

/-- The next step makes nothing of the difference. -/
structure Unread (differ : Byte → Prop) (m n : Machine) : Prop where
  byte : ∀ c, differ c → ¬ m.ReadsByte c
  register : ∀ c, differ c → m.ReadsRegister c → (n.read c).toNat % 8 = (m.read c).toNat % 8

theorem readsByte_iff {c : Byte} :
    m.ReadsByte c ↔
      (m.status = .running ∧ c = m.pc) ∨ (m.opcode? = some .loadImmediate ∧ c = m.pc + 2) ∨
        ((m.opcode? = some .pop ∨ m.opcode? = some .ret) ∧ c = m.sp) := by
  constructor
  · rintro (running | decoded | decoded)
    · exact .inl ⟨running, rfl⟩
    · exact .inr (.inl ⟨decoded, rfl⟩)
    · exact .inr (.inr ⟨decoded, rfl⟩)
  · rintro (⟨running, rfl⟩ | ⟨decoded, rfl⟩ | ⟨decoded, rfl⟩)
    · exact .opcode running
    · exact .immediate decoded
    · exact .popped decoded

instance (c : Byte) : Decidable (m.ReadsByte c) := decidable_of_iff _ m.readsByte_iff.symm

theorem readsRegister_iff {c : Byte} :
    m.ReadsRegister c ↔
      (∃ op ∈ m.opcode?, 1 ≤ op.operands ∧ c = m.pc + 1) ∨
        ∃ op ∈ m.opcode?, (op = .add ∨ op = .multiply ∨ op = .compare) ∧ c = m.pc + 2 := by
  constructor
  · rintro (⟨decoded, operand⟩ | ⟨decoded, operand⟩)
    · exact .inl ⟨_, decoded, operand, rfl⟩
    · exact .inr ⟨_, decoded, operand, rfl⟩
  · rintro (⟨op, decoded, operand, rfl⟩ | ⟨op, decoded, operand, rfl⟩)
    · exact .first decoded operand
    · exact .second decoded operand

instance (c : Byte) : Decidable (m.ReadsRegister c) := decidable_of_iff _ m.readsRegister_iff.symm

variable {m n} {differ : Byte → Prop} {i : Instruction} {memory : Memory}

theorem AgreeOutside.eq_withMemory (agree : AgreeOutside differ m n) :
    n = { m with memory := n.memory } :=
  eq_of_observed agree.pc (fun _ => rfl) agree.registers agree.flags agree.status

theorem agreeOutside_withMemory (same : ∀ c, ¬ differ c → memory.read c = m.read c) :
    AgreeOutside differ m { m with memory } :=
  ⟨rfl, fun _ => rfl, rfl, rfl, same⟩

theorem AgreeOutside.write (agree : AgreeOutside differ m n) {c : Byte} (different : differ c)
    (left right : Byte) : AgreeOutside differ (m.write c left) (n.write c right) := by
  refine ⟨agree.pc, agree.registers, agree.flags, agree.status, ?_⟩
  intro a same
  have other : a ≠ c := by
    rintro rfl
    exact same different
  rw [read_write, read_write, if_neg other, if_neg other]
  exact agree.memory a same

theorem Unread.same_byte (unread : Unread differ m n) (agree : AgreeOutside differ m n) {c : Byte}
    (reads : m.ReadsByte c) : n.read c = m.read c :=
  agree.memory c fun different => unread.byte c different reads

theorem Unread.same_register (unread : Unread differ m n) (agree : AgreeOutside differ m n)
    {c : Byte} (reads : m.ReadsRegister c) :
    Register.ofOperand (n.read c) = Register.ofOperand (m.read c) := by
  by_cases different : differ c
  · exact Fin.ext (unread.register c different reads)
  · rw [agree.memory c different]

theorem opcode?_of_running (running : m.status = .running) :
    m.opcode? = Opcode.ofByte? (m.read m.pc) := by
  rw [opcode?, running]

end Machine

namespace Instruction

/-- An operand that is none of the instruction's own does not show in it, and of one that names a
register only the register does. -/
theorem ofOpcode_congr {op : Opcode} {first second first' second' : Byte}
    (left : 1 ≤ op.operands → Register.ofOperand first' = Register.ofOperand first)
    (right : op = .add ∨ op = .multiply ∨ op = .compare →
      Register.ofOperand second' = Register.ofOperand second)
    (immediate : op = .loadImmediate → second' = second) :
    ofOpcode op first' second' = ofOpcode op first second := by
  cases op with
  | halt | ret => rfl
  | push | pop | print | call | jump | jumpIfEqual | jumpIfNotEqual =>
    simp only [ofOpcode, left (by decide)]
  | loadImmediate => simp only [ofOpcode, left (by decide), immediate]
  | add | multiply | compare => simp only [ofOpcode, left (by decide), right (by simp)]

end Instruction

namespace Machine
variable {m n : Machine} {differ : Byte → Prop} {i : Instruction} {memory : Memory}

theorem fetch?_eq (running : m.status = .running) (agree : AgreeOutside differ m n)
    (unread : Unread differ m n) : n.fetch? = m.fetch? := by
  have opcode := unread.same_byte agree (.opcode running)
  unfold fetch?
  rw [agree.pc, opcode]
  cases decoded : Opcode.ofByte? (m.read m.pc) with
  | none => rfl
  | some op =>
    have found := (opcode?_of_running running).trans decoded
    simp only [Option.map_some, Option.some.injEq]
    apply Instruction.ofOpcode_congr
    · intro operand
      exact unread.same_register agree (.first found operand)
    · intro operand
      exact unread.same_register agree (.second found operand)
    · rintro rfl
      exact unread.same_byte agree (.immediate found)

theorem pop_withMemory (top : memory.read m.sp = m.read m.sp) :
    ({ m with memory } : Machine).pop = (m.pop.1, { m.pop.2 with memory }) :=
  Prod.ext top rfl

theorem effect_withMemory
    (top : i.opcode = .pop ∨ i.opcode = .ret → memory.read m.sp = m.read m.sp) :
    ({ m with memory } : Machine).effect i =
      ⟨{ (m.effect i).machine with
          memory := (m.stored? i).elim memory fun value => memory.write (m.sp - 1) value },
        (m.effect i).printed⟩ := by
  cases i with
  | pop a =>
    have popped := pop_withMemory (top (.inl rfl))
    exact congrArg (fun p => Effect.quiet ((p.2.setRegister a p.1).jump (m.next (.pop a)))) popped
  | ret =>
    have popped := pop_withMemory (top (.inr rfl))
    exact congrArg (fun p => Effect.quiet (p.2.jump p.1)) popped
  | _ => rfl

theorem read_written (fetched : m.fetch? = some i)
    (same : ∀ c, ¬ differ c → memory.read c = m.read c) {c : Byte}
    (equal : ¬ (differ c ∧ ¬ m.Overwrites c)) :
    ((m.stored? i).elim memory fun value => memory.write (m.sp - 1) value).read c =
      (m.effect i).machine.read c := by
  rw [read_effect]
  cases stored : m.stored? i with
  | none =>
    refine same c fun different => equal ⟨different, ?_⟩
    rintro ⟨-, j, alsoFetched, stores, -⟩
    rw [fetched, Option.some.injEq] at alsoFetched
    subst alsoFetched
    exact stores stored
  | some value =>
    simp only [Option.elim_some, Memory.read_write]
    by_cases written : c = m.sp - 1
    · rw [if_pos written, if_pos written]
    · rw [if_neg written, if_neg written]
      refine same c fun different => equal ⟨different, ?_⟩
      rintro ⟨-, -, -, -, top⟩
      exact written top

theorem AgreeOutside.effect (agree : AgreeOutside differ m n) (unread : Unread differ m n)
    (running : m.status = .running) (fetched : m.fetch? = some i) :
    (n.effect i).printed = (m.effect i).printed ∧
      AgreeOutside (fun c => differ c ∧ ¬ m.Overwrites c) (m.effect i).machine
        (n.effect i).machine := by
  have decoded : m.opcode? = some i.opcode := by
    obtain ⟨op, opcode, rfl⟩ := Option.map_eq_some_iff.mp fetched
    rw [opcode?_of_running running, opcode, Instruction.opcode_ofOpcode]
  have top (pops : i.opcode = .pop ∨ i.opcode = .ret) : n.memory.read m.sp = m.read m.sp := by
    refine unread.same_byte agree (.popped ?_)
    rw [decoded]
    exact pops.imp (congrArg some) (congrArg some)
  have same := effect_withMemory top
  rw [← agree.eq_withMemory] at same
  rw [same]
  exact ⟨rfl, agreeOutside_withMemory fun c equal => read_written fetched agree.memory equal⟩

end Machine

def Event.withoutOperands : Event → Event
  | .executing pc op _ _ flags => .executing pc op 0 0 flags
  | other => other

/-- Everything that two steps leave behind is the same but for operand bytes in the record and some
cells of memory. -/
structure Step.SameOutside {σ : Type} (differ : Byte → Prop) (s t : Step σ) : Prop where
  result : t.result = s.result
  output : t.output = s.output
  sink : t.sink = s.sink
  events : t.events.map Event.withoutOperands = s.events.map Event.withoutOperands
  machine : Machine.AgreeOutside differ s.machine t.machine

namespace Machine
variable {σ : Type} [Sink σ] {m n : Machine} {differ : Byte → Prop} {i : Instruction}

theorem AgreeOutside.executing (agree : AgreeOutside differ m n) (i : Instruction) :
    (n.executing i).withoutOperands = (m.executing i).withoutOperands := by
  simp only [Machine.executing, Event.withoutOperands, agree.pc, agree.flags]

theorem AgreeOutside.recorded {left right : Effect} (agree : AgreeOutside differ m n)
    (status : right.machine.status = left.machine.status) :
    (n.recorded i right).map Event.withoutOperands =
      (m.recorded i left).map Event.withoutOperands := by
  have executing := agree.executing i
  unfold Machine.recorded
  rw [status]
  cases left.machine.status with
  | running => simp only [List.map_cons, List.map_nil, executing]
  | halted => simp only [List.map_cons, List.map_nil, executing, agree.pc]

theorem AgreeOutside.idle (agree : AgreeOutside differ m n) (idle : ∀ c, ¬ m.Overwrites c) :
    AgreeOutside (fun c => differ c ∧ ¬ m.Overwrites c) m n := by
  refine ⟨agree.pc, agree.registers, agree.flags, agree.status, ?_⟩
  intro c equal
  exact agree.memory c fun different => equal ⟨different, idle c⟩

theorem deliver_unread (agree : AgreeOutside differ m n)
    (fetched : m.fetch? = some i) (printed : (n.effect i).printed = (m.effect i).printed)
    (after : AgreeOutside (fun c => differ c ∧ ¬ m.Overwrites c) (m.effect i).machine
      (n.effect i).machine) (sink : σ) :
    Step.SameOutside (fun c => differ c ∧ ¬ m.Overwrites c) (m.deliver i (m.effect i) sink)
      (n.deliver i (n.effect i) sink) := by
  by_cases fits : (m.effect i).Fits sink
  · have alsoFits : (n.effect i).Fits sink := by
      unfold Effect.Fits
      rw [printed]
      exact fits
    rw [deliver_of_fits fits, deliver_of_fits alsoFits]
    refine ⟨congrArg Except.ok after.status, ?_, ?_, agree.recorded after.status, after⟩
    · simp only [Effect.output, printed]
    · simp only [Effect.sinkAfter, printed]
  · obtain ⟨a, rfl, prints, short⟩ := print_of_not_fits fits
    have idle : ∀ c, ¬ m.Overwrites c := by
      rintro c ⟨-, j, found, stores, -⟩
      rw [fetched, Option.some.injEq] at found
      subst found
      exact stores rfl
    have executing := agree.executing (.print a)
    simp only [deliver, printed, prints, if_pos short]
    exact ⟨rfl, rfl, rfl, by simp only [List.map_cons, List.map_nil, executing], agree.idle idle⟩

theorem step_unread (agree : AgreeOutside differ m n) (unread : Unread differ m n) (sink : σ) :
    Step.SameOutside (fun c => differ c ∧ ¬ m.Overwrites c) (m.step sink) (n.step sink) := by
  cases status : m.status with
  | halted =>
    rw [step_of_halted status, step_of_halted (agree.status.trans status)]
    refine ⟨rfl, rfl, rfl, rfl, agree.idle ?_⟩
    rintro c ⟨running, -⟩
    rw [status] at running
    cases running
  | running =>
    have alsoRunning := agree.status.trans status
    have fetch := fetch?_eq status agree unread
    cases fetched : m.fetch? with
    | none =>
      rw [step_of_unknown status fetched, step_of_unknown alsoRunning (fetch.trans fetched)]
      refine ⟨?_, rfl, rfl, rfl, agree.idle ?_⟩
      · rw [agree.pc, unread.same_byte agree (.opcode status)]
      · rintro c ⟨-, i, found, -⟩
        rw [fetched] at found
        cases found
    | some i =>
      rw [step_of_fetch status fetched, step_of_fetch alsoRunning (fetch.trans fetched)]
      obtain ⟨printed, after⟩ := agree.effect unread status fetched
      exact deliver_unread agree fetched printed after sink

theorem AgreeOutside.overwrites (agree : AgreeOutside differ m n) (unread : Unread differ m n)
    {c : Byte} (overwrites : n.Overwrites c) : m.Overwrites c := by
  obtain ⟨running, i, fetched, stores, top⟩ := overwrites
  rw [agree.status] at running
  rw [fetch?_eq running agree unread] at fetched
  refine ⟨running, i, fetched, ?_, ?_⟩
  · intro stored
    apply stores
    cases i with
    | push | call => cases stored
    | _ => rfl
  · exact top.trans (congrArg (· - 1) (agree.registers .stackPointer))

theorem read_step {c : Byte} (kept : ¬ m.Overwrites c) (sink : σ) :
    (m.step sink).machine.read c = m.read c := by
  cases status : m.status with
  | halted => rw [step_of_halted status]
  | running =>
    cases fetched : m.fetch? with
    | none => rw [step_of_unknown status fetched]
    | some i =>
      by_cases fits : (m.effect i).Fits sink
      · rw [(step_of_fits status fetched fits).2.1, read_effect]
        cases stored : m.stored? i with
        | none => rfl
        | some value =>
          refine if_neg fun top => kept ⟨status, i, fetched, ?_, top⟩
          rw [stored]
          exact Option.some_ne_none value
      · obtain ⟨a, -, printed, short⟩ := print_of_not_fits fits
        rw [step_of_refused status fetched printed short]

/-- The two cells behind an opcode are read as far as the instruction reaches, and no further unless
one of them is the top of the stack. -/
theorem unread_behind {op : Opcode} {offset : Nat} {value : Byte} (decoded : m.opcode? = some op)
    (behind : op.width ≤ offset) (inside : offset ≤ 2)
    (notTop : op = .pop ∨ op = .ret → m.pc + BitVec.ofNat 8 offset ≠ m.sp) :
    Unread (fun c => c = m.pc + BitVec.ofNat 8 offset) m
      (m.write (m.pc + BitVec.ofNat 8 offset) value) := by
  have width : op.width = 1 + op.operands := rfl
  have apart {j : Nat} (different : offset ≠ j) (small : j ≤ 2) :
      m.pc + BitVec.ofNat 8 offset ≠ m.pc + BitVec.ofNat 8 j := by
    bv_omega
  have same {found : Opcode} (alsoDecoded : m.opcode? = some found) : op = found :=
    Option.some.inj (decoded.symm.trans alsoDecoded)
  constructor
  · rintro c rfl reads
    generalize target : m.pc + BitVec.ofNat 8 offset = c at reads
    cases reads with
    | opcode =>
      exact apart (j := 0) (by omega) (by decide) (target.trans (BitVec.add_zero m.pc).symm)
    | immediate found =>
      obtain rfl := same found
      exact absurd (Nat.le_trans behind inside) (by decide)
    | popped found => exact notTop (found.imp same same) target
  · rintro c rfl reads
    generalize target : m.pc + BitVec.ofNat 8 offset = c at reads
    cases reads with
    | first found operand =>
      obtain rfl := same found
      exact absurd target (apart (j := 1) (by omega) (by decide))
    | second found operand =>
      obtain rfl := same found
      rcases operand with rfl | rfl | rfl <;>
        exact absurd (Nat.le_trans behind inside) (by decide)

end Machine

namespace Run
variable {σ : Type} [Sink σ] {differ : Byte → Prop} {r s : Run σ}

def Overwrites (r : Run σ) (c : Byte) : Prop := r.outcome = .unfinished ∧ r.machine.Overwrites c

/-- The differing cells that have not been written to in so many steps. -/
def Stale (differ : Byte → Prop) (r : Run σ) : Nat → Byte → Prop
  | 0, c => differ c
  | k + 1, c => r.Stale differ k c ∧ ¬ (r.within k).Overwrites c

structure SameOutside (differ : Byte → Prop) (r s : Run σ) : Prop where
  outcome : s.outcome = r.outcome
  output : s.output = r.output
  sink : s.sink = r.sink
  events : s.events.toList.map Event.withoutOperands = r.events.toList.map Event.withoutOperands
  machine : r.machine.AgreeOutside differ s.machine

theorem SameOutside.advance (same : SameOutside differ r s)
    (unread : r.machine.Unread differ s.machine) :
    SameOutside (fun c => differ c ∧ ¬ r.machine.Overwrites c) r.advance s.advance := by
  have step := Machine.step_unread same.machine unread r.sink
  constructor
  · simp only [Run.advance, same.sink, step.result]
  · simp only [Run.advance, same.sink, same.output, step.output]
  · simp only [Run.advance, same.sink, step.sink]
  · rw [toList_events_advance, toList_events_advance, List.map_append, List.map_append,
      same.events, same.sink, step.events]
  · simp only [Run.advance, same.sink]
    exact step.machine

theorem differ_of_stale {k : Nat} {c : Byte} (stale : r.Stale differ k c) : differ c := by
  induction k with
  | zero => exact stale
  | succ k ih => exact ih stale.1

theorem stale_ended {k : Nat} (ended : (r.within k).outcome ≠ .unfinished) :
    r.Stale differ (k + 1) = r.Stale differ k := by
  funext c
  simp [Stale, Overwrites, ended]

theorem within_unread (same : SameOutside differ r s) (k : Nat)
    (unread : ∀ j < k, (r.within j).outcome = .unfinished → ∀ c, r.Stale differ j c →
      ¬ (r.within j).machine.ReadsByte c ∧
      ((r.within j).machine.ReadsRegister c →
        (s.machine.read c).toNat % 8 = (r.machine.read c).toNat % 8)) :
    SameOutside (r.Stale differ k) (r.within k) (s.within k) ∧
    ∀ c, r.Stale differ k c →
      (r.within k).machine.read c = r.machine.read c ∧
      (s.within k).machine.read c = s.machine.read c := by
  induction k with
  | zero => exact ⟨same, fun _ _ => ⟨rfl, rfl⟩⟩
  | succ k ih =>
    obtain ⟨soFar, kept⟩ := ih fun j inside => unread j (Nat.lt_succ_of_lt inside)
    by_cases going : (r.within k).outcome = .unfinished
    · have here := unread k (Nat.lt_succ_self k) going
      have alsoGoing := soFar.outcome.trans going
      have hidden : (r.within k).machine.Unread (r.Stale differ k) (s.within k).machine := by
        constructor
        · exact fun c stale => (here c stale).1
        · intro c stale reads
          rw [(kept c stale).1, (kept c stale).2]
          exact (here c stale).2 reads
      rw [within_succ_last going, within_succ_last alsoGoing]
      have left : r.Stale differ (k + 1) =
          fun c => r.Stale differ k c ∧ ¬ (r.within k).machine.Overwrites c := by
        funext c
        simp [Stale, Overwrites, going]
      rw [left]
      refine ⟨soFar.advance hidden, ?_⟩
      rintro c ⟨stale, untouched⟩
      constructor
      · exact (Machine.read_step untouched _).trans (kept c stale).1
      · have alsoUntouched : ¬ (s.within k).machine.Overwrites c :=
          fun written => untouched (soFar.machine.overwrites hidden written)
        exact (Machine.read_step alsoUntouched _).trans (kept c stale).2
    · have alsoEnded : (s.within k).outcome ≠ .unfinished := by
        rw [soFar.outcome]
        exact going
      rw [within_add, within_of_ended going, within_add, within_of_ended alsoEnded,
        stale_ended going]
      exact ⟨soFar, kept⟩

end Run

/-- Bytes in which two machines differ make no difference as long as no step reads them, or only to
name the same register by them: both runs end alike and print the same after every number of steps,
and differ only in the operand bytes that they record and in the cells that are not yet written to.
Operand bytes behind an instruction do not even take part in it. -/
theorem unread_bytes_irrelevant {σ : Type} [Sink σ] (sink : σ) :
    (∀ (m n : Machine) (differ : Byte → Prop) (limit : Nat), m.AgreeOutside differ n →
      let left := Run.start m sink
      let right := Run.start n sink
      (∀ k < limit, (left.within k).outcome = .unfinished → ∀ c, left.Stale differ k c →
        ¬ (left.within k).machine.ReadsByte c ∧
        ((left.within k).machine.ReadsRegister c →
          (n.read c).toNat % 8 = (m.read c).toNat % 8)) →
      ∀ k ≤ limit, (left.within k).SameOutside (left.Stale differ k) (right.within k)) ∧
    (∀ (m : Machine) (op : Opcode) (offset : Nat) (value : Byte), m.opcode? = some op →
      op.width ≤ offset → offset ≤ 2 →
      ((op = .pop ∨ op = .ret) → m.pc + BitVec.ofNat 8 offset ≠ m.sp) →
      (m.step sink).SameOutside
        (fun c => c = m.pc + BitVec.ofNat 8 offset ∧ ¬ m.Overwrites c)
        ((m.write (m.pc + BitVec.ofNat 8 offset) value).step sink)) ∧
    ∀ (op : Opcode) (first second first' second' : Byte),
      (op.width ≤ 1 ∨ first' = first) → (op.width ≤ 2 ∨ second' = second) →
      Instruction.ofOpcode op first' second' = Instruction.ofOpcode op first second := by
  refine ⟨?_, ?_, ?_⟩
  · intro m n differ limit agree left right unread k inside
    have same : left.SameOutside differ right := ⟨rfl, rfl, rfl, rfl, agree⟩
    exact (Run.within_unread same k fun j before => unread j (Nat.lt_of_lt_of_le before inside)).1
  · intro m op offset value decoded behind inside notTop
    have agree : m.AgreeOutside (fun c => c = m.pc + BitVec.ofNat 8 offset)
        (m.write (m.pc + BitVec.ofNat 8 offset) value) :=
      Machine.agreeOutside_withMemory fun c other => Memory.read_write_other m.memory value other
    exact Machine.step_unread agree (Machine.unread_behind decoded behind inside notTop) sink
  · intro op first second first' second' left right
    apply Instruction.ofOpcode_congr
    · intro operand
      rcases left with narrow | same
      · exact absurd narrow (Nat.not_le.mpr (Nat.add_le_add_left operand 1))
      · rw [same]
    · intro operand
      rcases right with narrow | same
      · rcases operand with rfl | rfl | rfl <;> exact absurd narrow (by decide)
      · rw [same]
    · rintro rfl
      rcases right with narrow | same
      · exact absurd narrow (by decide)
      · exact same

def savedAndPrinted (named behind saved : Byte) : Machine :=
  let code := { Machine.initial with memory := Memory.zero.copy [0x45, 0x01, 0x47, 0x00, 0x01] }
  (((code.setRegister .stackPointer 0x10).write 0x03 named).write 0x05 behind).write 0x0F saved

theorem unread_bytes_irrelevant_savedAndPrinted :
    ∃ differ : Byte → Prop,
      (savedAndPrinted 0x01 0x00 0x00).AgreeOutside differ (savedAndPrinted 0x09 0x82 0x77) ∧
      differ 0x03 ∧ differ 0x05 ∧ differ 0x0F ∧
      ((Run.start (savedAndPrinted 0x01 0x00 0x00) Room.unlimited).within 9).SameOutside
        ((Run.start (savedAndPrinted 0x01 0x00 0x00) Room.unlimited).Stale differ 9)
        ((Run.start (savedAndPrinted 0x09 0x82 0x77) Room.unlimited).within 9) ∧
      ¬ (Run.start (savedAndPrinted 0x01 0x00 0x00) Room.unlimited).Stale differ 9 0x0F ∧
      ((savedAndPrinted 0x01 0x00 0x00).step Room.unlimited).SameOutside
        (fun c => c = 0x02 ∧ ¬ (savedAndPrinted 0x01 0x00 0x00).Overwrites c)
        (((savedAndPrinted 0x01 0x00 0x00).write 0x02 0x99).step Room.unlimited) := by
  obtain ⟨runs, behind, _⟩ := unread_bytes_irrelevant Room.unlimited
  have agree : (savedAndPrinted 0x01 0x00 0x00).AgreeOutside (fun c => c ∈ [0x03, 0x05, 0x0F])
      (savedAndPrinted 0x09 0x82 0x77) := by
    unfold savedAndPrinted
    apply Machine.AgreeOutside.write _ (by decide)
    apply Machine.AgreeOutside.write _ (by decide)
    apply Machine.AgreeOutside.write _ (by decide)
    exact Machine.agreeOutside_withMemory fun _ _ => rfl
  have unread : ∀ k < 9,
      ((Run.start (savedAndPrinted 0x01 0x00 0x00) Room.unlimited).within k).outcome =
        .unfinished → ∀ c ∈ [0x03, 0x05, 0x0F],
      ¬ ((Run.start (savedAndPrinted 0x01 0x00 0x00) Room.unlimited).within k).machine.ReadsByte c ∧
      (((Run.start (savedAndPrinted 0x01 0x00 0x00)
          Room.unlimited).within k).machine.ReadsRegister c →
        ((savedAndPrinted 0x09 0x82 0x77).read c).toNat % 8 =
          ((savedAndPrinted 0x01 0x00 0x00).read c).toNat % 8) := by
    decide +kernel
  refine ⟨_, agree, by decide, by decide, by decide, ?_, ?_, ?_⟩
  · refine runs _ _ _ 9 agree ?_ 9 (Nat.le_refl 9)
    intro k inside going c stale
    exact unread k inside going c (Run.differ_of_stale stale)
  · rintro ⟨⟨⟨⟨⟨⟨⟨⟨⟨-, kept⟩, -⟩, -⟩, -⟩, -⟩, -⟩, -⟩, -⟩, -⟩
    exact kept ⟨rfl, rfl, .push 1, by decide +kernel, by decide +kernel, by decide +kernel⟩
  · exact behind (savedAndPrinted 0x01 0x00 0x00) .push 2 0x99 (by decide +kernel) (by decide)
      (by decide) (by decide)

end ByteMachine

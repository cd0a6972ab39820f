import ByteMachine.Proofs.Operations
import Mathlib.Data.Finset.Lattice.Fold
import Mathlib.Data.Finset.Range
import Mathlib.Data.Int.Order.Basic

/-!
How deep the stack is, counted by the instructions that were executed. As long as no other value
gets into the stack pointer, it stands as many cells below its start as there were more pushes than
pops, and memory is written only where the depth has passed. Both directions may leave the range
of a byte; only then do the addresses wrap around.
-/

namespace ByteMachine

namespace Instruction

def pushes : Instruction → Bool
  | .push _ | .call _ => true
  | _ => false

def pops : Instruction → Bool
  | .pop _ | .ret => true
  | _ => false

def destination? : Instruction → Option Register
  | .loadImmediate a _ | .add a _ | .multiply a _ | .pop a => some a
  | _ => none

def net (executed : List Instruction) : Int := executed.countP pushes - executed.countP pops

theorem net_cons (i : Instruction) (executed : List Instruction) :
    net (i :: executed) = net [i] + net executed := by
  simp only [net, List.countP_cons, List.countP_nil]
  omega

end Instruction

namespace Machine
variable {m : Machine} {i : Instruction}

theorem sp_effect (m : Machine) (spared : i.destination? ≠ some .stackPointer) :
    (m.effect i).machine.sp = m.sp - BitVec.ofInt 8 (Instruction.net [i]) := by
  have up : m.sp + 1 = m.sp - BitVec.ofInt 8 (-1) := by
    change _ = m.sp - 0xFF#8
    bv_omega
  have level : m.sp = m.sp - BitVec.ofInt 8 0 := (BitVec.sub_zero m.sp).symm
  cases i with
  | push a => exact sp_push m (m.register a)
  | call a => exact sp_push m (m.next (.call a))
  | ret => exact (sp_pop m).trans up
  | pop a =>
    have general : a ≠ .stackPointer := fun same => spared (congrArg some same)
    have other := sp_setRegister_other m.pop.2 m.pop.1 general
    exact other.trans ((sp_pop m).trans up)
  | loadImmediate a | add a | multiply a =>
    have general : a ≠ .stackPointer := fun same => spared (congrArg some same)
    exact (sp_setRegister_other m _ general).trans level
  | halt | print | jump | jumpIfEqual | jumpIfNotEqual | compare => exact level

theorem changed_effect {c : Byte} (changed : (m.effect i).machine.read c ≠ m.read c) :
    Instruction.net [i] = 1 ∧ c = m.sp - 1 := by
  rw [read_effect] at changed
  have top {value : Byte} (changed : (if c = m.sp - 1 then value else m.read c) ≠ m.read c) :
      c = m.sp - 1 := by
    by_cases same : c = m.sp - 1
    · exact same
    · exact absurd (if_neg same) changed
  cases i with
  | push => exact ⟨rfl, top changed⟩
  | call => exact ⟨rfl, top changed⟩
  | _ => exact absurd rfl changed

end Machine

namespace Run
variable {σ : Type} [Sink σ] {r : Run σ} {n : Nat}

def executed (r : Run σ) (n : Nat) : List Instruction :=
  (r.executions n).map Execution.instruction

/-- So many steps are made and none of them fails; the last one may halt the machine. -/
structure Succeeds (n : Nat) (r : Run σ) : Prop where
  going : ∀ k < n, (within k r).outcome = .unfinished
  unfailed : ∀ reason, (within n r).outcome ≠ .fault reason

def net (r : Run σ) (n : Nat) : Int := Instruction.net (r.executed n)

/-- The least and the greatest depth so far. -/
def lowest (r : Run σ) (n : Nat) : Int :=
  (Finset.range (n + 1)).inf' Finset.nonempty_range_add_one r.net

@[inherit_doc lowest]
def highest (r : Run σ) (n : Nat) : Int :=
  (Finset.range (n + 1)).sup' Finset.nonempty_range_add_one r.net

theorem lowest_lt_iff {k : Int} : r.lowest n < k ↔ ∃ i ≤ n, r.net i < k := by
  simp only [lowest, Finset.inf'_lt_iff, Finset.mem_range, Nat.lt_succ_iff]

theorem le_highest_iff {k : Int} : k ≤ r.highest n ↔ ∃ i ≤ n, k ≤ r.net i := by
  simp only [highest, Finset.le_sup'_iff, Finset.mem_range, Nat.lt_succ_iff]

theorem Succeeds.of_le (succeeds : Succeeds n r) {i : Nat} (inside : i ≤ n) : Succeeds i r := by
  rcases Nat.lt_or_eq_of_le inside with before | rfl
  · constructor
    · intro k earlier
      exact succeeds.going k (Nat.lt_trans earlier before)
    · exact Outcome.not_fault (succeeds.going i before)
  · exact succeeds

theorem Succeeds.first (succeeds : Succeeds (n + 1) r) :
    Succeeds n r.advance ∧ ∃ i, r.advance.machine = (r.machine.effect i).machine ∧
      ∀ k, r.executed (k + 1) = i :: r.advance.executed k := by
  have going : r.outcome = .unfinished := succeeds.going 0 (Nat.zero_lt_succ n)
  have rest : Succeeds n r.advance := by
    constructor
    · intro k inside
      rw [← within_succ going]
      exact succeeds.going (k + 1) (Nat.succ_lt_succ inside)
    · rw [← within_succ going]
      exact succeeds.unfailed
  refine ⟨rest, ?_⟩
  cases made : r.machine.execution? r.sink with
  | none =>
    obtain ⟨reason, failed⟩ := Machine.result_of_not_executed made
    exact absurd (congrArg Outcome.ofResult failed)
      ((rest.of_le (Nat.zero_le n)).unfailed reason)
  | some e =>
    obtain ⟨-, -, -, after, step⟩ := Machine.step_of_execution? made
    refine ⟨e.instruction, ?_, ?_⟩
    · rw [advance, step, after]
    · intro k
      rw [executed, executions_succ going, made]
      rfl

theorem executed_subset {i : Nat} (inside : i ≤ n) : r.executed i ⊆ r.executed n := by
  obtain ⟨more, rfl⟩ := Nat.exists_eq_add_of_le inside
  rw [executed, executed, executions_add, List.map_append]
  exact List.subset_append_left _ _

theorem accounting (succeeds : Succeeds n r)
    (spared : ∀ i ∈ r.executed n, i.destination? ≠ some .stackPointer) :
    (within n r).machine.sp = r.machine.sp - BitVec.ofInt 8 (r.net n) ∧
      ∀ c, (within n r).machine.read c ≠ r.machine.read c →
        ∃ k : Int, (∃ i ≤ n, r.net i < k) ∧ (∃ i ≤ n, k ≤ r.net i) ∧
          c = r.machine.sp - BitVec.ofInt 8 k := by
  induction n generalizing r with
  | zero =>
    constructor
    · exact (BitVec.sub_zero _).symm
    · intro c changed
      exact absurd rfl changed
  | succ n ih =>
    obtain ⟨rest, i, machine, executed⟩ := succeeds.first
    have net (k : Nat) : r.net (k + 1) = Instruction.net [i] + r.advance.net k := by
      rw [Run.net, executed k, Instruction.net_cons]
      rfl
    rw [executed n, List.forall_mem_cons] at spared
    have sp := Machine.sp_effect r.machine spared.1
    rw [← machine] at sp
    -- A distance from the stack pointer of the second step, as one from that of the first.
    have shift (k : Int) : r.advance.machine.sp - BitVec.ofInt 8 k =
        r.machine.sp - BitVec.ofInt 8 (Instruction.net [i] + k) := by
      rw [sp, BitVec.ofInt_add]
      bv_omega
    obtain ⟨spAfter, cells⟩ := ih rest spared.2
    have going : r.outcome = .unfinished := succeeds.going 0 (Nat.zero_lt_succ n)
    rw [within_succ going]
    constructor
    · rw [spAfter, shift, net]
    · intro c changed
      by_cases first : r.advance.machine.read c = r.machine.read c
      · rw [← first] at changed
        obtain ⟨k, ⟨low, lowInside, above⟩, ⟨high, highInside, below⟩, rfl⟩ := cells c changed
        refine ⟨Instruction.net [i] + k, ⟨low + 1, ?_, ?_⟩, ⟨high + 1, ?_, ?_⟩, shift k⟩
        · exact Nat.succ_le_succ lowInside
        · rw [net]
          exact Int.add_lt_add_left above _
        · exact Nat.succ_le_succ highInside
        · rw [net]
          exact Int.add_le_add_left below _
      · rw [machine] at first
        obtain ⟨push, top⟩ := Machine.changed_effect first
        have deeper : 1 ≤ r.net 1 := by
          rw [net, push]
          exact Int.le_refl 1
        exact ⟨1, ⟨0, Nat.zero_le _, Int.zero_lt_one⟩, ⟨1, Nat.le_add_left 1 n, deeper⟩, top⟩

end Run

/-- An address that the stack reaches from its usual start without going past an image of this
size lies behind the image. -/
theorem image_size_le {size : Nat} {k : Int} (deeper : 0 < k) (reserved : k ≤ 0xF4 - size)
    (a : Byte) (reached : a = Machine.emptyStack - BitVec.ofInt 8 k) : size ≤ a.toNat := by
  obtain ⟨depth, rfl⟩ := Int.eq_ofNat_of_zero_le deeper.le
  rw [BitVec.ofInt_natCast] at reached
  unfold Machine.emptyStack at reached
  bv_omega

/-- The stack pointer and the extent of what has been written, by the numbers of pushes and pops;
a stack that stays between its start and the end of the image leaves the image alone. -/
theorem stack_accounting {σ : Type} [Sink σ] (m : Machine) (sink : σ) (n : Nat) :
    let r := Run.start m sink
    r.Succeeds n → (∀ i ∈ r.executed n, i.destination? ≠ some .stackPointer) →
    (∀ i ≤ n,
      (r.within i).machine.sp = m.sp - BitVec.ofInt 8 (r.net i) ∧
      ∀ c, (r.within i).machine.read c ≠ m.read c →
        ∃ k : Int, r.lowest i < k ∧ k ≤ r.highest i ∧ c = m.sp - BitVec.ofInt 8 k) ∧
    ∀ image, (Machine.initial.load image).value = .ok m →
      (∀ i ≤ n, 0 ≤ r.net i ∧ r.net i ≤ 0xF4 - image.size) →
      ∀ i ≤ n, ∀ c : Byte, c.toNat < image.size →
        image.bytes[c.toNat]? = some ((r.within i).machine.read c) := by
  intro r succeeds spared
  have accounted (i : Nat) (inside : i ≤ n) := Run.accounting (succeeds.of_le inside)
    fun j member => spared j (Run.executed_subset inside member)
  constructor
  · intro i inside
    obtain ⟨sp, cells⟩ := accounted i inside
    refine ⟨sp, ?_⟩
    intro c changed
    obtain ⟨k, above, below, same⟩ := cells c changed
    exact ⟨k, Run.lowest_lt_iff.mpr above, Run.le_highest_iff.mpr below, same⟩
  · intro image loaded kept i inside c covered
    obtain ⟨-, rfl⟩ := Machine.load_eq_ok_iff.mp loaded
    rw [Machine.read_withImage_inside _ covered, Option.some.injEq]
    apply Classical.byContradiction
    intro changed
    obtain ⟨k, ⟨low, lowInside, above⟩, ⟨high, highInside, below⟩, reached⟩ :=
      (accounted i inside).2 c (Ne.symm changed)
    have deeper : 0 < k := lt_of_le_of_lt (kept low (lowInside.trans inside)).1 above
    have reserved := below.trans (kept high (highInside.trans inside)).2
    have top : (Machine.initial.withImage image).sp = Machine.emptyStack :=
      Registers.get_set_same _ _ _
    change c = (Machine.initial.withImage image).sp - BitVec.ofInt 8 k at reached
    rw [top] at reached
    exact absurd (image_size_le deeper reserved c reached) (Nat.not_le.mpr covered)

def savingLoop : Image := ⟨[0x45, 0x00, 0x54, 0x01]⟩

theorem stack_accounting_savingLoop :
    ∃ m, (Machine.initial.load savingLoop).value = .ok m ∧
      let r := Run.start m Room.unlimited
      r.net 3 = 2 ∧ (r.within 3).machine.sp = 0xF2 ∧
      (∀ c, (r.within 3).machine.read c ≠ m.read c → c = 0xF3 ∨ c = 0xF2) ∧
      ∀ i ≤ 3, ∀ c : Byte, c.toNat < 4 →
        savingLoop.bytes[c.toNat]? = some ((r.within i).machine.read c) := by
  refine ⟨_, rfl, ?_⟩
  intro r
  have going : ∀ k < 4, (r.within k).outcome = .unfinished := by decide +kernel
  have succeeds : r.Succeeds 3 := by
    constructor
    · exact fun k inside => going k (Nat.lt_succ_of_lt inside)
    · exact Outcome.not_fault (going 3 (Nat.lt_succ_self 3))
  obtain ⟨accounted, intact⟩ :=
    stack_accounting _ Room.unlimited 3 succeeds (by decide +kernel)
  have net : r.net 3 = 2 := by decide +kernel
  refine ⟨net, ?_, ?_, ?_⟩
  · rw [(accounted 3 (Nat.le_refl 3)).1, net]
    rfl
  · intro c changed
    obtain ⟨k, above, below, rfl⟩ := (accounted 3 (Nat.le_refl 3)).2 c changed
    have least : r.lowest 3 = 0 := by decide +kernel
    have greatest : r.highest 3 = 2 := by decide +kernel
    change r.lowest 3 < k at above
    change k ≤ r.highest 3 at below
    have depth : k = 1 ∨ k = 2 := by omega
    rcases depth with rfl | rfl
    · exact .inl rfl
    · exact .inr rfl
  · exact intact savingLoop rfl (by decide +kernel)

end ByteMachine

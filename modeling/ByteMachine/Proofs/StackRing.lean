import ByteMachine.Proofs.BalancedExecution
import Mathlib.Data.List.Induction

/-!
The stack by itself, without a program. It grows through a ring of 256 cells: as many values can be
pushed and are found again, newest first, in the cells below the old stack pointer. One more
overwrites the oldest, and taking more values than there are goes round the ring again.
-/

namespace ByteMachine.Machine

def pushAll (m : Machine) (values : List Byte) : Machine := values.foldl push m

def pops : Nat → Machine → List Byte × Machine
  | 0, m => ([], m)
  | n + 1, m => (m.pop.1 :: (pops n m.pop.2).1, (pops n m.pop.2).2)

theorem register_eq (m : Machine) (r : Register) :
    (if r = .stackPointer then m.sp else m.register r) = m.register r := by
  by_cases same : r = .stackPointer
  · rw [if_pos same, same, sp]
  · rw [if_neg same]

theorem setRegister_sp (m : Machine) : m.setRegister .stackPointer m.sp = m := by
  refine eq_of_observed rfl (fun _ => rfl) ?_ rfl rfl
  intro r
  rw [register_setRegister, register_eq]

theorem push_pop (m : Machine) : m.pop.2.push m.pop.1 = m := by
  have back : m.pop.2.sp - 1 = m.sp := by
    rw [sp_pop]
    exact BitVec.add_sub_cancel m.sp 1
  refine eq_of_observed rfl ?_ ?_ rfl rfl
  · intro c
    rw [read_push, back, read_pop]
    by_cases top : c = m.sp
    · rw [if_pos top, top, fst_pop]
    · rw [if_neg top]
  · intro r
    rw [register_push, back, register_pop, ← m.register_eq r]
    split <;> rfl

section Pushing
variable (m : Machine) (values : List Byte)

theorem pushAll_concat (value : Byte) :
    m.pushAll (values ++ [value]) = (m.pushAll values).push value :=
  List.foldl_append

theorem sp_pushAll : (m.pushAll values).sp = m.sp - BitVec.ofNat 8 values.length := by
  induction values using List.reverseRecOn with
  | nil => exact (BitVec.sub_zero m.sp).symm
  | append_singleton values value ih =>
    rw [pushAll_concat, sp_push, ih, List.length_append, List.length_singleton]
    bv_omega

theorem kept_pushAll :
    (m.pushAll values).pc = m.pc ∧ (m.pushAll values).flags = m.flags ∧
      (m.pushAll values).status = m.status ∧
      ∀ r, r ≠ .stackPointer → (m.pushAll values).register r = m.register r := by
  induction values using List.reverseRecOn with
  | nil => exact ⟨rfl, rfl, rfl, fun _ _ => rfl⟩
  | append_singleton values value ih =>
    obtain ⟨pc, flags, status, registers⟩ := ih
    rw [pushAll_concat]
    refine ⟨pc, flags, status, ?_⟩
    intro r general
    rw [register_push, if_neg general]
    exact registers r general

variable {m values}

theorem read_pushAll_outside {c : Byte} (outside : Outside m.sp values.length c) :
    (m.pushAll values).read c = m.read c := by
  induction values generalizing m with
  | nil => rfl
  | cons value values ih =>
    obtain ⟨below, rest⟩ := outside.below
    rw [← sp_push m value] at rest
    have first : (m.push value).read c = m.read c := by
      rw [read_push, if_neg below]
    exact (ih rest).trans first

/-- The newest values are found from the stack pointer on, as far as the ring goes. -/
theorem read_pushAll {i : Nat} (pushed : i < values.length) (inside : i < 256) :
    values.reverse[i]? = some ((m.pushAll values).read
      ((m.pushAll values).sp + BitVec.ofNat 8 i)) := by
  induction values using List.reverseRecOn generalizing i with
  | nil => exact absurd pushed (Nat.not_lt_zero i)
  | append_singleton values value ih =>
    rw [List.reverse_concat, pushAll_concat, read_push, sp_push]
    cases i with
    | zero =>
      have top (a : Byte) : a - 1 + BitVec.ofNat 8 0 = a - 1 := BitVec.add_zero (a - 1)
      rw [if_pos (top _)]
      rfl
    | succ i =>
      have below (a : Byte) : a - 1 + BitVec.ofNat 8 (i + 1) = a + BitVec.ofNat 8 i := by bv_omega
      have other (a : Byte) : a + BitVec.ofNat 8 i ≠ a - 1 := by bv_omega
      have before : i < values.length := by
        rw [List.length_append, List.length_singleton] at pushed
        omega
      rw [below, if_neg (other _), List.getElem?_cons_succ]
      exact ih before (Nat.lt_of_succ_lt inside)

end Pushing

theorem pops_eq (n : Nat) (m : Machine) :
    pops n m = ((List.range n).map fun i => m.read (m.sp + BitVec.ofNat 8 i),
      m.setRegister .stackPointer (m.sp + BitVec.ofNat 8 n)) := by
  induction n generalizing m with
  | zero =>
    have here : m.sp + BitVec.ofNat 8 0 = m.sp := BitVec.add_zero m.sp
    rw [here, setRegister_sp]
    rfl
  | succ n ih =>
    have above (i : Nat) : m.pop.2.sp + BitVec.ofNat 8 i = m.sp + BitVec.ofNat 8 (i + 1) := by
      rw [sp_pop]
      bv_omega
    have here : m.sp + BitVec.ofNat 8 0 = m.sp := BitVec.add_zero m.sp
    have twice : m.pop.2.setRegister .stackPointer (m.sp + BitVec.ofNat 8 (n + 1)) =
        m.setRegister .stackPointer (m.sp + BitVec.ofNat 8 (n + 1)) := by
      refine eq_of_observed rfl (fun _ => rfl) ?_ rfl rfl
      intro r
      rw [register_setRegister, register_setRegister, register_pop]
      split <;> rfl
    rw [pops, ih, above, twice, List.range_succ_eq_map, List.map_cons, List.map_map, here, fst_pop]
    simp only [above, read_pop]
    rfl

theorem fst_pops (n : Nat) (m : Machine) :
    (pops n m).1 = (List.range n).map fun i => m.read (m.sp + BitVec.ofNat 8 i) :=
  congrArg Prod.fst (pops_eq n m)

theorem snd_pops (n : Nat) (m : Machine) :
    (pops n m).2 = m.setRegister .stackPointer (m.sp + BitVec.ofNat 8 n) :=
  congrArg Prod.snd (pops_eq n m)

theorem length_pops (n : Nat) (m : Machine) : (pops n m).1.length = n := by
  rw [fst_pops, List.length_map, List.length_range]

section Popping
variable {m : Machine} {values : List Byte}

/-- The pops go down the newest values and then round the ring again. -/
theorem getElem?_pops {n i : Nat} (deep : min n 256 ≤ values.length) (inside : i < n) :
    ((m.pushAll values).pops n).1[i]? = values.reverse[i % 256]? := by
  have round : BitVec.ofNat 8 (i % 256) = BitVec.ofNat 8 i := by bv_omega
  have pushed : i % 256 < values.length := by omega
  rw [read_pushAll pushed (Nat.mod_lt i (by decide)), round, fst_pops, List.getElem?_map,
    List.getElem?_range inside]
  rfl

theorem values_restored (room : values.length ≤ 256) :
    ((m.pushAll values).pops values.length).1 = values.reverse := by
  apply List.ext_getElem?
  intro i
  by_cases inside : i < values.length
  · rw [getElem?_pops (Nat.min_le_left _ _) inside, Nat.mod_eq_of_lt (by omega)]
  · have behind := Nat.not_lt.mp inside
    rw [List.getElem?_eq_none, List.getElem?_eq_none]
    · rwa [List.length_reverse]
    · rwa [length_pops]

theorem machine_restored :
    ((m.pushAll values).pops values.length).2 =
      (m.pushAll values).setRegister .stackPointer m.sp := by
  have back : (m.pushAll values).sp + BitVec.ofNat 8 values.length = m.sp := by
    rw [sp_pushAll]
    exact BitVec.sub_add_cancel m.sp _
  rw [snd_pops, back]

end Popping

end Machine

/-- Up to 256 values come back in reverse order, with the stack pointer where it was and nothing
changed but the cells that they were in. After more of them the 256 newest come back, over and over.
A value that is popped and pushed again leaves the machine as it was. -/
theorem stack_ring (m : Machine) (values : List Byte) :
    let pushed := m.pushAll values
    (values.length ≤ 256 →
      let last := (pushed.pops values.length).2
      (pushed.pops values.length).1 = values.reverse ∧
      last.sp = m.sp ∧
      (∀ c, Outside m.sp values.length c → last.read c = m.read c) ∧
      last.pc = m.pc ∧ last.flags = m.flags ∧ last.status = m.status ∧
      ∀ r, r ≠ .stackPointer → last.register r = m.register r) ∧
    (256 < values.length → ∀ n,
      (pushed.pops n).1.length = n ∧
      ∀ i < n, (pushed.pops n).1[i]? = (values.reverse.take 256)[i % 256]?) ∧
    m.pop.2.push m.pop.1 = m := by
  intro pushed
  refine ⟨?_, ?_, Machine.push_pop m⟩
  · intro room last
    obtain ⟨pc, flags, status, registers⟩ := m.kept_pushAll values
    have restored : last = pushed.setRegister .stackPointer m.sp := Machine.machine_restored
    rw [restored]
    refine ⟨Machine.values_restored room, Registers.get_set_same _ _ _, ?_, pc, flags, status, ?_⟩
    · exact fun c outside => Machine.read_pushAll_outside outside
    · intro r general
      rw [Machine.register_setRegister, if_neg general]
      exact registers r general
  · intro many n
    refine ⟨Machine.length_pops n pushed, ?_⟩
    intro i inside
    have deep : min n 256 ≤ values.length :=
      Nat.le_trans (Nat.min_le_right n 256) (Nat.le_of_lt many)
    rw [Machine.getElem?_pops deep inside, List.getElem?_take_of_lt (Nat.mod_lt i (by decide))]

def shallow : Machine := Machine.initial.setRegister .stackPointer 0x02

-- Three values wrap around, and of 300 the first 44 are lost.
theorem stack_ring_wraps :
    let counted := (List.range 300).map (BitVec.ofNat 8)
    ((shallow.pushAll [0x0A, 0x0B, 0x0C]).pops 3).1 = [0x0C, 0x0B, 0x0A] ∧
    ((shallow.pushAll [0x0A, 0x0B, 0x0C]).pops 3).2.sp = 0x02 ∧
    ((shallow.pushAll [0x0A, 0x0B, 0x0C]).pops 3).2.read 0xFE = 0 ∧
    ((shallow.pushAll counted).pops 600).1[255]? = some 44 ∧
    ((shallow.pushAll counted).pops 600).1[512]? = some 43 := by
  intro counted
  obtain ⟨few, -, -⟩ := stack_ring shallow [0x0A, 0x0B, 0x0C]
  obtain ⟨-, many, -⟩ := stack_ring shallow counted
  obtain ⟨values, sp, cells, -⟩ := few (by decide)
  have size : counted.length = 300 := by simp [counted]
  obtain ⟨-, again⟩ := many (by omega) 600
  refine ⟨values, sp, ?_, ?_, ?_⟩
  · have outside : Outside 0x02 3 0xFE := by
      intro k positive bound same
      bv_omega
    exact (cells 0xFE outside).trans (by decide +kernel)
  · rw [again 255 (by decide)]
    rfl
  · rw [again 512 (by decide)]
    rfl

end ByteMachine

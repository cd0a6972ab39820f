import ByteMachine.Proofs.Transition

/-!
Balanced executions: pieces of a run in which every CALL has its RET and every PUSH its POP, nested
to any depth. Code and stack share the memory, so what a piece executes may be bytes that it has
pushed itself. Up to depth 256 the stack pointer comes back, the piece writes only the cells that
its depth reserves below the stack pointer, and what is taken from the stack is what was put there.
-/

namespace ByteMachine

def Instruction.Level : Instruction → Prop
  | .loadImmediate a _ | .add a _ | .multiply a _ => a ≠ .stackPointer
  | .print _ | .compare _ _ | .jump _ | .jumpIfEqual _ | .jumpIfNotEqual _ => True
  | .halt | .ret | .push _ | .pop _ | .call _ => False

inductive Pair where
  /-- The address of a CALL and where its RET goes on. -/
  | call (address resumed : Byte)
  /-- The value of a PUSH and what its POP has put into the register. -/
  | push (pushed delivered : Byte)
  deriving DecidableEq

def Pair.Restored : Pair → Prop
  | .call address resumed => resumed = address + 2
  | .push pushed delivered => delivered = pushed

variable {σ : Type} [Sink σ]

inductive Balanced : Run σ → Run σ → Type where
  | refl (r : Run σ) : Balanced r r
  | level {r : Run σ} {i : Instruction} (level : i.Level) (executes : r.Executes i) :
      Balanced r r.advance
  | append {first middle last : Run σ} :
      Balanced first middle → Balanced middle last → Balanced first last
  | call {r s : Run σ} {a : Register} (enter : r.Executes (.call a))
      (body : Balanced r.advance s) (leave : s.Executes .ret) : Balanced r s.advance
  | push {r s : Run σ} {a b : Register} (save : r.Executes (.push a))
      (body : Balanced r.advance s) (restore : s.Executes (.pop b))
      (general : b ≠ .stackPointer) : Balanced r s.advance

namespace Balanced

def depth {r last : Run σ} : Balanced r last → Nat
  | .refl _ => 0
  | .level _ _ => 0
  | .append left right => max left.depth right.depth
  | .call _ body _ => body.depth + 1
  | .push _ body _ _ => body.depth + 1

def pairs {r last : Run σ} : Balanced r last → List Pair
  | .refl _ => []
  | .level _ _ => []
  | .append left right => left.pairs ++ right.pairs
  | .call (r := r) (s := s) _ body _ =>
      .call r.machine.pc s.advance.machine.pc :: body.pairs
  | .push (r := r) (s := s) (a := a) (b := b) _ body _ _ =>
      .push (r.machine.register a) (s.advance.machine.register b) :: body.pairs

end Balanced

/-- None of the cells that `depth` pushes below `top` write. -/
def Outside (top : Byte) (depth : Nat) (a : Byte) : Prop :=
  ∀ k, 1 ≤ k → k ≤ depth → a ≠ top - BitVec.ofNat 8 k

theorem Outside.mono {top a : Byte} {small large : Nat} (outside : Outside top large a)
    (smaller : small ≤ large) : Outside top small a :=
  fun k positive bound => outside k positive (Nat.le_trans bound smaller)

theorem Outside.below {top a : Byte} {depth : Nat} (outside : Outside top (depth + 1) a) :
    a ≠ top - 1 ∧ Outside (top - 1) depth a := by
  constructor
  · exact outside 1 (Nat.le_refl 1) (Nat.le_add_left 1 depth)
  · intro k _ bound
    have lower : top - 1 - BitVec.ofNat 8 k = top - BitVec.ofNat 8 (k + 1) := by
      bv_omega
    rw [lower]
    exact outside (k + 1) (Nat.le_add_left 1 k) (Nat.succ_le_succ bound)

theorem outside_top (top : Byte) {depth : Nat} (bound : depth ≤ 255) : Outside top depth top := by
  intro k positive inside same
  bv_omega

namespace Run
variable {r : Run σ} {i : Instruction} {a b : Register}

theorem Executes.level_frame (executes : r.Executes i) (level : i.Level) :
    r.advance.machine.sp = r.machine.sp ∧ ∀ c, r.advance.machine.read c = r.machine.read c := by
  rw [executes.machine_advance]
  cases i with
  | loadImmediate | add | multiply =>
    exact ⟨Machine.sp_setRegister_other _ _ level, fun _ => rfl⟩
  | print | compare | jump | jumpIfEqual | jumpIfNotEqual => exact ⟨rfl, fun _ => rfl⟩
  | halt | ret | push | pop | call => exact level.elim

theorem Executes.call_frame (executes : r.Executes (.call a)) :
    r.advance.machine.sp = r.machine.sp - 1 ∧
    ∀ c, r.advance.machine.read c =
      if c = r.machine.sp - 1 then r.machine.pc + 2 else r.machine.read c := by
  rw [executes.machine_advance]
  exact ⟨Machine.sp_push r.machine (r.machine.pc + 2),
    fun c => Machine.read_push r.machine c (r.machine.pc + 2)⟩

theorem Executes.ret_frame (executes : r.Executes .ret) :
    r.advance.machine.pc = r.machine.read r.machine.sp ∧
    r.advance.machine.sp = r.machine.sp + 1 ∧
    ∀ c, r.advance.machine.read c = r.machine.read c := by
  rw [executes.machine_advance]
  exact ⟨rfl, Machine.sp_pop _, fun _ => rfl⟩

theorem Executes.push_frame (executes : r.Executes (.push a)) :
    r.advance.machine.sp = r.machine.sp - 1 ∧
    ∀ c, r.advance.machine.read c =
      if c = r.machine.sp - 1 then r.machine.register a else r.machine.read c := by
  rw [executes.machine_advance]
  exact ⟨Machine.sp_push r.machine (r.machine.register a),
    fun c => Machine.read_push r.machine c (r.machine.register a)⟩

theorem Executes.pop_frame (executes : r.Executes (.pop b)) (general : b ≠ .stackPointer) :
    r.advance.machine.register b = r.machine.read r.machine.sp ∧
    r.advance.machine.sp = r.machine.sp + 1 ∧
    ∀ c, r.advance.machine.read c = r.machine.read c := by
  rw [executes.machine_advance]
  refine ⟨?_, ?_, fun _ => rfl⟩
  · change (r.machine.pop.2.setRegister b r.machine.pop.1).register b = _
    simp [Machine.register_setRegister]
  · change (r.machine.pop.2.setRegister b r.machine.pop.1).sp = _
    rw [Machine.sp_setRegister_other _ _ general, Machine.sp_pop]

end Run

namespace Balanced

theorem sp_eq {r last : Run σ} (run : Balanced r last) : last.machine.sp = r.machine.sp := by
  induction run with
  | refl => rfl
  | level level executes => exact (executes.level_frame level).1
  | append _ _ first second => exact second.trans first
  | call enter _ leave ih =>
    rw [leave.ret_frame.2.1, ih, enter.call_frame.1, BitVec.sub_add_cancel]
  | push save _ restore general ih =>
    rw [(restore.pop_frame general).2.1, ih, save.push_frame.1, BitVec.sub_add_cancel]

/-- Whatever the depth, an execution writes only its reserve; from depth 256 on that is
everything. -/
theorem read_eq {r last : Run σ} (run : Balanced r last) {c : Byte}
    (outside : Outside r.machine.sp run.depth c) : last.machine.read c = r.machine.read c := by
  induction run with
  | refl => rfl
  | level level executes => exact (executes.level_frame level).2 c
  | append left right first second =>
    have early := first (outside.mono (Nat.le_max_left _ _))
    rw [← left.sp_eq] at outside
    have late := second (outside.mono (Nat.le_max_right _ _))
    exact late.trans early
  | call enter body leave ih =>
    obtain ⟨notTop, deeper⟩ := outside.below
    rw [← enter.call_frame.1] at deeper
    rw [leave.ret_frame.2.2, ih deeper, enter.call_frame.2, if_neg notTop]
  | push save body restore general ih =>
    obtain ⟨notTop, deeper⟩ := outside.below
    rw [← save.push_frame.1] at deeper
    rw [(restore.pop_frame general).2.2, ih deeper, save.push_frame.2, if_neg notTop]

theorem top_eq {r last : Run σ} (run : Balanced r last) (bound : run.depth ≤ 255) :
    last.machine.read last.machine.sp = r.machine.read r.machine.sp := by
  rw [run.sp_eq]
  exact run.read_eq (outside_top r.machine.sp bound)

theorem pairs_restored {r last : Run σ} (run : Balanced r last) (bound : run.depth ≤ 256) :
    ∀ pair ∈ run.pairs, pair.Restored := by
  induction run with
  | refl | level => simp [pairs]
  | append left right first second =>
    obtain ⟨leftBound, rightBound⟩ := Nat.max_le.mp bound
    intro pair member
    rcases List.mem_append.mp member with early | late
    · exact first leftBound pair early
    · exact second rightBound pair late
  | call enter body leave ih =>
    have inner : body.depth ≤ 255 := Nat.le_of_succ_le_succ bound
    intro pair member
    rcases List.mem_cons.mp member with rfl | deeper
    · change _ = _
      rw [leave.ret_frame.1, body.top_eq inner, enter.call_frame.1, enter.call_frame.2, if_pos rfl]
    · exact ih (Nat.le_succ_of_le inner) pair deeper
  | push save body restore general ih =>
    have inner : body.depth ≤ 255 := Nat.le_of_succ_le_succ bound
    intro pair member
    rcases List.mem_cons.mp member with rfl | deeper
    · change _ = _
      rw [(restore.pop_frame general).1, body.top_eq inner, save.push_frame.1, save.push_frame.2,
        if_pos rfl]
    · exact ih (Nat.le_succ_of_le inner) pair deeper

end Balanced

/-- A balanced execution of depth at most 256 gives the stack pointer back, leaves every cell
outside its reserve alone, and each RET and POP in it gets what its CALL or PUSH left. -/
theorem balanced_exact {r last : Run σ} (run : Balanced r last) (bound : run.depth ≤ 256) :
    last.machine.sp = r.machine.sp ∧
    (∀ c, Outside r.machine.sp run.depth c → last.machine.read c = r.machine.read c) ∧
    ∀ pair ∈ run.pairs, pair.Restored :=
  ⟨run.sp_eq, fun _ outside => run.read_eq outside, run.pairs_restored bound⟩

/-- A subroutine at 0x10 that saves R1, called with the stack pointer at 1: the return address
goes over the CALL itself, the saved value to the last cell. -/
def wrappingCall : Machine :=
  let code := [0x50, 0x00] ++ List.replicate 14 0 ++
    [0x45, 0x01, 0x82, 0x01, 0x07, 0x46, 0x02, 0x11]
  (({ Machine.initial with memory := Memory.zero.copy code }.setRegister (.ofOperand 0x00) 0x10
    ).setRegister (.ofOperand 0x01) 0x2A).setRegister .stackPointer 0x01

def wrappingCallRun : Run Room := .start wrappingCall .unlimited

def wrappingCallExecution :
    Balanced wrappingCallRun wrappingCallRun.advance.advance.advance.advance.advance :=
  .call (a := .ofOperand 0x00) ⟨by decide +kernel, by decide +kernel⟩
    (.push (a := .ofOperand 0x01) (b := .ofOperand 0x02) ⟨by decide +kernel, by decide +kernel⟩
      (.level (i := .loadImmediate (.ofOperand 0x01) 0x07) (by unfold Instruction.Level; decide)
        ⟨by decide +kernel, by decide +kernel⟩)
      ⟨by decide +kernel, by decide +kernel⟩ (by decide))
    ⟨by decide +kernel, by decide +kernel⟩

theorem balanced_exact_wrappingCall :
    wrappingCallExecution.depth ≤ 256 ∧
    wrappingCallExecution.pairs = [.call 0x00 0x02, .push 0x2A 0x2A] ∧
    (∀ pair ∈ wrappingCallExecution.pairs, pair.Restored) ∧
    wrappingCallRun.advance.advance.advance.advance.advance.machine.sp = 0x01 := by
  have bound : wrappingCallExecution.depth ≤ 256 := by decide
  obtain ⟨top, _, restored⟩ := balanced_exact wrappingCallExecution bound
  exact ⟨bound, by decide +kernel, restored, top⟩

end ByteMachine

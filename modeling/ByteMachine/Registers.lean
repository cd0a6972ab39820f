import ByteMachine.Byte

/-!
Eight byte registers. An operand byte names a register by its low three bits, so every byte names
one; register 7 is the stack pointer.
-/

namespace ByteMachine

def registerCount : Nat := 8

abbrev Register := Fin 8

namespace Register

def stackPointer : Register := 7

def ofOperand (b : Byte) : Register := ⟨b.toNat % 8, Nat.mod_lt _ (by decide)⟩

end Register

structure Registers where
  cells : Vector Byte 8
  deriving DecidableEq, Repr

namespace Registers

def get (rs : Registers) (r : Register) : Byte := rs.cells[r]

def set (rs : Registers) (r : Register) (value : Byte) : Registers :=
  ⟨rs.cells.set r.val value r.isLt⟩

def withStackAt (top : Byte) : Registers :=
  set ⟨Vector.replicate 8 0⟩ .stackPointer top

theorem get_set (rs : Registers) (r q : Register) (value : Byte) :
    (rs.set r value).get q = if q = r then value else rs.get q := by
  simp only [get, set, Fin.getElem_fin, Vector.getElem_set, Fin.ext_iff, eq_comm]

@[simp] theorem get_set_same (rs : Registers) (r : Register) (value : Byte) :
    (rs.set r value).get r = value := by simp [get_set]

theorem get_set_other (rs : Registers) {r q : Register} (value : Byte) (distinct : q ≠ r) :
    (rs.set r value).get q = rs.get q := by simp [get_set, distinct]

@[ext] theorem ext {rs qs : Registers} (h : ∀ r, rs.get r = qs.get r) : rs = qs := by
  cases rs
  cases qs
  exact congrArg mk (Vector.ext fun i bound => h ⟨i, bound⟩)

end Registers
end ByteMachine

import ByteMachine.Byte

/-!
Flat memory of 256 cells. An address is a byte, so every address is valid and address arithmetic
wraps around.
-/

namespace ByteMachine

def memorySize : Nat := 256

structure Memory where
  cells : Vector Byte 256
  deriving DecidableEq, Repr

namespace Memory

def zero : Memory := ⟨Vector.replicate 256 0⟩

def read (m : Memory) (a : Byte) : Byte := m.cells[(⟨a.toNat, a.isLt⟩ : Fin 256)]

def write (m : Memory) (a value : Byte) : Memory := ⟨m.cells.set a.toNat value a.isLt⟩

/-- Overwrites the cells from address 0 on, as many as there are bytes and cells. -/
def copy (m : Memory) (bytes : List Byte) : Memory :=
  let source := bytes.toArray
  ⟨Vector.ofFn fun i => source.getD i.val m.cells[i]⟩

def toList (m : Memory) : List Byte := m.cells.toList

theorem read_write (m : Memory) (a c value : Byte) :
    (m.write a value).read c = if c = a then value else m.read c := by
  simp only [read, write, Fin.getElem_fin, Vector.getElem_set, BitVec.toNat_inj, eq_comm]

@[simp] theorem read_write_same (m : Memory) (a value : Byte) :
    (m.write a value).read a = value := by simp [read_write]

theorem read_write_other (m : Memory) {a c : Byte} (value : Byte) (distinct : c ≠ a) :
    (m.write a value).read c = m.read c := by simp [read_write, distinct]

theorem read_copy (m : Memory) (bytes : List Byte) (a : Byte) :
    (m.copy bytes).read a = bytes[a.toNat]?.getD (m.read a) := by
  simp [read, copy, Array.getD_eq_getD_getElem?]

@[simp] theorem read_zero (a : Byte) : zero.read a = 0 := by simp [read, zero]

@[ext] theorem ext {m n : Memory} (h : ∀ a, m.read a = n.read a) : m = n := by
  cases m
  cases n
  refine congrArg mk (Vector.ext fun i bound => ?_)
  have hi := h (BitVec.ofNat 8 i)
  simpa [read, Nat.mod_eq_of_lt bound] using hi

end Memory
end ByteMachine

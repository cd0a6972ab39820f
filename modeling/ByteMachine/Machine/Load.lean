import ByteMachine.Image
import ByteMachine.Machine

/-!
Loading copies an image into the first cells of memory and changes nothing else; an image that
does not fit changes nothing at all.
-/

namespace ByteMachine.Machine

def withImage (m : Machine) (image : Image) : Machine :=
  { m with memory := m.memory.copy image.bytes }

def load (m : Machine) (image : Image) : Recorded (Except LoadError Machine) :=
  if memorySize < image.size then ⟨.error (.tooLarge image.size), []⟩
  else ⟨.ok (m.withImage image), [.loaded image.size]⟩

variable {m after : Machine} {image : Image} {e : LoadError}

section Fields
variable (m : Machine) (image : Image)

@[simp] theorem pc_withImage : (m.withImage image).pc = m.pc := by simp only [withImage]

@[simp] theorem register_withImage (r : Register) :
    (m.withImage image).register r = m.register r := by simp only [register, withImage]

@[simp] theorem sp_withImage : (m.withImage image).sp = m.sp := register_withImage m image _

@[simp] theorem flags_withImage : (m.withImage image).flags = m.flags := by simp only [withImage]

@[simp] theorem status_withImage : (m.withImage image).status = m.status := by
  simp only [withImage]

theorem read_withImage (a : Byte) :
    (m.withImage image).read a = image.bytes[a.toNat]?.getD (m.read a) :=
  Memory.read_copy m.memory image.bytes a

end Fields

theorem read_withImage_inside (m : Machine) {a : Byte} (covered : a.toNat < image.size) :
    image.bytes[a.toNat]? = some ((m.withImage image).read a) := by
  rw [read_withImage, List.getElem?_eq_getElem covered, Option.getD_some]

theorem read_withImage_behind (m : Machine) {a : Byte} (behind : image.size ≤ a.toNat) :
    (m.withImage image).read a = m.read a := by
  rw [read_withImage, List.getElem?_eq_none behind, Option.getD_none]

theorem load_of_fits (m : Machine) (fits : image.size ≤ memorySize) :
    m.load image = ⟨.ok (m.withImage image), [.loaded image.size]⟩ := if_neg (Nat.not_lt.mpr fits)

theorem load_of_large (m : Machine) (large : memorySize < image.size) :
    m.load image = ⟨.error (.tooLarge image.size), []⟩ := if_pos large

theorem load_eq_ok_iff :
    (m.load image).value = .ok after ↔ image.size ≤ memorySize ∧ after = m.withImage image := by
  by_cases fits : image.size ≤ memorySize
  · simp [load_of_fits m fits, fits, eq_comm]
  · simp [load_of_large m (Nat.lt_of_not_le fits), fits]

theorem load_eq_error_iff :
    (m.load image).value = .error e ↔ memorySize < image.size ∧ e = .tooLarge image.size := by
  by_cases large : memorySize < image.size
  · simp [load_of_large m large, large, eq_comm]
  · simp [load_of_fits m (Nat.not_lt.mp large), large]

end ByteMachine.Machine

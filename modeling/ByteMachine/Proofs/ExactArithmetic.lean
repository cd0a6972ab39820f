import ByteMachine.Proofs.RunRecord
import Mathlib.Logic.Function.Basic

/-!
Arithmetic without an end. Beside the registers of a machine stand registers that hold numbers of
any size, from which nothing is ever cut off. As long as a program leaves the stack alone, it may
jump and compare as it likes: after every step the bytes are the numbers modulo 256, however large
those have grown, and what is printed is a number modulo 256.
-/

namespace ByteMachine

abbrev Numbers : Type := Register → Nat

def Instruction.usesStack : Instruction → Bool
  | .push _ | .pop _ | .call _ | .ret => true
  | _ => false

namespace Numbers

def ofMachine (m : Machine) : Numbers := fun r => (m.register r).toNat

def follow (numbers : Numbers) : Instruction → Numbers
  | .loadImmediate a value => Function.update numbers a value.toNat
  | .add a b => Function.update numbers a (numbers a + numbers b)
  | .multiply a b => Function.update numbers a (numbers a * numbers b)
  | _ => numbers

def followAll (numbers : Numbers) (executed : List Execution) : Numbers :=
  executed.foldl (fun soFar e => soFar.follow e.instruction) numbers

/-- The registers hold the numbers modulo 256. -/
def Represents (numbers : Numbers) (m : Machine) : Prop :=
  ∀ r, (m.register r).toNat = numbers r % 256

theorem represents_ofMachine (m : Machine) : (ofMachine m).Represents m :=
  fun r => (Nat.mod_eq_of_lt (m.register r).isLt).symm

variable {numbers : Numbers} {m : Machine}

theorem Represents.update (represents : numbers.Represents m) (a : Register) {value : Byte} {n : Nat}
    (same : value.toNat = n % 256) :
    Represents (Function.update numbers a n) (m.setRegister a value) := by
  intro r
  rw [Machine.register_setRegister]
  by_cases written : r = a
  · rw [if_pos written, written, Function.update_self, same]
  · rw [if_neg written, Function.update_of_ne written]
    exact represents r

/-- Cutting off before an operation makes no difference after it. -/
theorem Represents.effect (represents : numbers.Represents m) {i : Instruction}
    (stackless : i.usesStack = false) : (numbers.follow i).Represents (m.effect i).machine := by
  cases i with
  | loadImmediate a value =>
    exact represents.update a (Nat.mod_eq_of_lt value.isLt).symm
  | add a b =>
    have sum : (m.register a + m.register b).toNat = (numbers a + numbers b) % 256 := by
      rw [BitVec.toNat_add, represents a, represents b]
      exact (Nat.add_mod _ _ _).symm
    exact represents.update a sum
  | multiply a b =>
    have product : (m.register a * m.register b).toNat = numbers a * numbers b % 256 := by
      rw [BitVec.toNat_mul, represents a, represents b]
      exact (Nat.mul_mod _ _ _).symm
    exact represents.update a product
  | halt | print | jump | jumpIfEqual | jumpIfNotEqual | compare => exact represents
  | push | pop | call | ret => cases stackless

theorem Represents.run {σ : Type} [Sink σ] (r : Run σ) (n : Nat)
    (represents : numbers.Represents r.machine)
    (stackless : ∀ e ∈ r.executions n, e.instruction.usesStack = false) :
    (numbers.followAll (r.executions n)).Represents (r.within n).machine := by
  refine Run.machines_induction
    (motive := fun first made last => ∀ numbers : Numbers, numbers.Represents first →
      (∀ e ∈ made, e.instruction.usesStack = false) → (numbers.followAll made).Represents last)
    ?_ ?_ n r numbers represents stackless
  · intro m numbers represents _
    exact represents
  · intro m sink e rest last made ih numbers represents stackless
    rw [List.forall_mem_cons] at stackless
    obtain ⟨rfl, -, -, after, -⟩ := Machine.step_of_execution? made
    have next := represents.effect stackless.1
    rw [← after] at next
    exact ih (numbers.follow e.instruction) next stackless.2

end Numbers

theorem Machine.output_of_print {σ : Type} [Sink σ] {m : Machine} {a : Register} (sink : σ)
    (running : m.status = .running) (fetched : m.fetch? = some (.print a)) :
    (m.step sink).output <+: Effect.line (m.register a) ∧
      ((m.step sink).result ≠ .error .output →
        (m.step sink).output = Effect.line (m.register a)) := by
  by_cases fits : (m.effect (.print a)).Fits sink
  · have output := (step_of_fits running fetched fits).2.2.1
    rw [output]
    exact ⟨List.prefix_rfl, fun _ => rfl⟩
  · obtain ⟨b, same, printed, short⟩ := print_of_not_fits fits
    cases same
    rw [step_of_refused running fetched printed short]
    exact ⟨List.take_prefix _ _, fun taken => absurd rfl taken⟩

def Run.numbers {σ : Type} [Sink σ] (r : Run σ) (n : Nat) : Numbers :=
  (Numbers.ofMachine r.machine).followAll (r.executions n)

/-- A run that leaves the stack alone computes modulo 256 what its instructions, followed in the
same order without any bound, compute exactly, and prints it so. -/
theorem arithmetic_exact {σ : Type} [Sink σ] (m : Machine) (sink : σ) (n : Nat) :
    let r := Run.start m sink
    (∀ e ∈ r.executions n, e.instruction.usesStack = false) →
    (∀ j ≤ n, ∀ a, ((r.within j).machine.register a).toNat = r.numbers j a % 256) ∧
    ∀ j < n, (r.within j).outcome = .unfinished → (r.within j).machine.status = .running →
      ∀ a, (r.within j).machine.fetch? = some (.print a) →
        let line := Effect.ascii (Nat.toDigits 10 (r.numbers j a % 256) ++ ['\n'])
        ∃ printed,
          (r.within (j + 1)).output.toList = (r.within j).output.toList ++ printed ∧
          printed <+: line ∧ ((r.within (j + 1)).outcome ≠ .fault .output → printed = line) := by
  intro r stackless
  have represents (j : Nat) (inside : j ≤ n) : (r.numbers j).Represents (r.within j).machine := by
    refine (Numbers.represents_ofMachine m).run r j fun e member => stackless e ?_
    obtain ⟨more, rfl⟩ := Nat.exists_eq_add_of_le inside
    rw [Run.executions_add]
    exact List.mem_append_left _ member
  refine ⟨represents, ?_⟩
  intro j inside going running a fetched line
  have same : Effect.line ((r.within j).machine.register a) = line := by
    rw [Effect.line_eq_ascii, Effect.text, represents j (Nat.le_of_lt inside) a]
  obtain ⟨part, whole⟩ := Machine.output_of_print (r.within j).sink running fetched
  rw [same] at part whole
  refine ⟨_, ?_, part, ?_⟩
  · rw [Run.within_succ_last going, Run.toList_output_advance]
  · intro taken
    apply whole
    intro failed
    apply taken
    rw [Run.within_succ_last going, Run.advance, failed]
    rfl

/-- Squares R0, which is 3 to begin with, and prints it, over and over. -/
def squares : Machine :=
  { Machine.initial with
    memory := Memory.zero.copy
      [0x82, 0x00, 0x03, 0x82, 0x01, 0x06, 0xA2, 0x00, 0x08, 0x47, 0x00, 0x54, 0x01] }

-- The number is 3 squared four times; it has long left the range of a byte.
theorem arithmetic_exact_squares :
    let r := Run.start squares Room.unlimited
    (∀ e ∈ r.executions 14, e.instruction.usesStack = false) ∧
    r.numbers 12 0 = 43046721 ∧
    ((r.within 12).machine.register 0).toNat = r.numbers 12 0 % 256 ∧
    (r.within 12).machine.fetch? = some (.print 0) ∧
    (r.within (12 + 1)).output.toList = (r.within 12).output.toList ++
      Effect.ascii (Nat.toDigits 10 (r.numbers 12 0 % 256) ++ ['\n']) := by
  have stackless : ∀ e ∈ (Run.start squares Room.unlimited).executions 14,
      e.instruction.usesStack = false := by
    decide +kernel
  have fetched : ((Run.start squares Room.unlimited).within 12).machine.fetch? =
      some (.print 0) := by
    decide +kernel
  have taken : ((Run.start squares Room.unlimited).within (12 + 1)).outcome ≠ .fault .output := by
    decide +kernel
  obtain ⟨registers, prints⟩ := arithmetic_exact squares Room.unlimited 14 stackless
  obtain ⟨printed, output, -, whole⟩ :=
    prints 12 (by decide) (by decide +kernel) (by decide +kernel) 0 fetched
  rw [whole taken] at output
  exact ⟨stackless, by decide +kernel, registers 12 (by decide) 0, fetched, output⟩

end ByteMachine

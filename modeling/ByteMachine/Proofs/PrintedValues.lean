import ByteMachine.Proofs.FailureAtomicity
import ByteMachine.Proofs.RunRecord

/-!
What a run prints can be read again. Every executed PRN puts out a line and nothing else puts out
anything; cut at its newlines, the output falls into the decimals of the values that were printed,
each in the one way in which a number below 256 is written without sign or leading zeros. It does
not matter how a run is divided, nor on how many sinks its parts are made.
-/

namespace ByteMachine

namespace Decimal
open Byte (ofDigit newline)

def value (digits : List Nat) : Nat := digits.foldl (fun n d => 10 * n + d) 0

def digit? (c : Byte) : Option Nat :=
  if 48 ≤ c.toNat ∧ c.toNat < 58 then some (c.toNat - 48) else none

/-- The number that a piece of text consists of: digits and nothing else, and at least one. -/
def number? (piece : List Byte) : Option Nat :=
  if piece = [] then none else (piece.mapM digit?).map value

/-- The numbers of a text that has one on each line and nothing behind the last newline. -/
def numbers? (text : List Byte) : Option (List Nat) :=
  let pieces := text.splitOn newline
  if pieces.getLast? = some [] then pieces.dropLast.mapM number? else none

structure IsNumeral (digits : List Nat) : Prop where
  small : ∀ d ∈ digits, d < 10
  size : 1 ≤ digits.length ∧ digits.length ≤ 3
  lead : digits.head? = some 0 → digits.length = 1

def Canonical (piece : List Byte) : Prop :=
  ∃ digits, IsNumeral digits ∧ piece = digits.map ofDigit

def digits (n : Nat) : List Nat :=
  if n < 10 then [n] else if n < 100 then [n / 10, n % 10] else [n / 100, n / 10 % 10, n % 10]

theorem decimal_eq (b : Byte) : b.decimal = (digits b.toNat).map ofDigit := by
  simp only [Byte.decimal, digits]
  split
  · rfl
  · split <;> rfl

theorem isNumeral_digits {n : Nat} (bound : n < 1000) : IsNumeral (digits n) := by
  unfold digits
  split
  · constructor
    · simpa
    · exact ⟨Nat.le_refl 1, by simp⟩
    · exact fun _ => rfl
  · split
    · constructor
      · simp only [List.mem_cons, List.not_mem_nil, or_false, forall_eq_or_imp, forall_eq]
        omega
      · exact ⟨Nat.le_add_left 1 1, by simp⟩
      · intro zero
        have leading : n / 10 = 0 := Option.some.inj zero
        omega
    · constructor
      · simp only [List.mem_cons, List.not_mem_nil, or_false, forall_eq_or_imp, forall_eq]
        omega
      · exact ⟨Nat.le_add_left 1 2, by simp⟩
      · intro zero
        have leading : n / 100 = 0 := Option.some.inj zero
        omega

theorem value_digits (n : Nat) : value (digits n) = n := by
  unfold digits
  split
  · exact Nat.zero_add n
  · split
    · change 10 * (10 * 0 + n / 10) + n % 10 = n
      omega
    · change 10 * (10 * (10 * 0 + n / 100) + n / 10 % 10) + n % 10 = n
      omega

theorem digits_value {ds : List Nat} (numeral : IsNumeral ds) : digits (value ds) = ds := by
  obtain ⟨small, size, lead⟩ := numeral
  match ds with
  | [] => exact absurd size.1 (by decide)
  | [x] =>
    have value : value [x] = x := Nat.zero_add x
    rw [value, digits, if_pos (small x (List.mem_singleton_self x))]
  | [x, y] =>
    simp only [List.forall_mem_cons] at small
    have leading : x ≠ 0 := fun zero => absurd (lead (congrArg some zero)) (by simp)
    have value : value [x, y] = 10 * x + y := by simp [Decimal.value]
    have high : (10 * x + y) / 10 = x := by omega
    have low : (10 * x + y) % 10 = y := by omega
    rw [value, digits, if_neg (by omega), if_pos (by omega), high, low]
  | [x, y, z] =>
    simp only [List.forall_mem_cons] at small
    have leading : x ≠ 0 := fun zero => absurd (lead (congrArg some zero)) (by simp)
    have value : value [x, y, z] = 100 * x + 10 * y + z := by
      simp only [Decimal.value, List.foldl_cons, List.foldl_nil]
      omega
    have high : (100 * x + 10 * y + z) / 100 = x := by omega
    have middle : (100 * x + 10 * y + z) / 10 % 10 = y := by omega
    have low : (100 * x + 10 * y + z) % 10 = z := by omega
    rw [value, digits, if_neg (by omega), if_neg (by omega), high, middle, low]
  | _ :: _ :: _ :: _ :: _ =>
    simp only [List.length_cons] at size
    omega

theorem toNat_ofDigit {d : Nat} (small : d < 10) : (ofDigit d).toNat = 48 + d := by
  rw [ofDigit, BitVec.toNat_ofNat]
  omega

theorem digit?_ofDigit {d : Nat} (small : d < 10) : digit? (ofDigit d) = some d := by
  have inside : 48 ≤ 48 + d ∧ 48 + d < 58 := by omega
  rw [digit?, toNat_ofDigit small, if_pos inside, Nat.add_sub_cancel_left]

theorem mapM_digit? {ds : List Nat} (small : ∀ d ∈ ds, d < 10) :
    (ds.map ofDigit).mapM digit? = some ds := by
  have read : ds.mapM (digit? ∘ ofDigit) = some (ds.map id) :=
    Text.mapM_eq_some fun d member => digit?_ofDigit (small d member)
  rw [List.mapM_map, read, List.map_id]

theorem number?_numeral {ds : List Nat} (numeral : IsNumeral ds) :
    number? (ds.map ofDigit) = some (value ds) := by
  have nonempty : ds ≠ [] := List.ne_nil_of_length_pos numeral.size.1
  rw [number?, if_neg (mt List.map_eq_nil_iff.mp nonempty), mapM_digit? numeral.small,
    Option.map_some]

/-- The decimal of a byte is the only canonical piece that reads as its number. -/
theorem eq_decimal_iff {piece : List Byte} {b : Byte} :
    piece = b.decimal ↔ Canonical piece ∧ number? piece = some b.toNat := by
  rw [decimal_eq]
  constructor
  · rintro rfl
    have numeral : IsNumeral (digits b.toNat) :=
      isNumeral_digits (Nat.lt_trans b.isLt (by decide))
    exact ⟨⟨_, numeral, rfl⟩, by rw [number?_numeral numeral, value_digits]⟩
  · rintro ⟨⟨ds, numeral, rfl⟩, read⟩
    rw [number?_numeral numeral, Option.some.injEq] at read
    rw [← read, digits_value numeral]

theorem newline_not_mem (b : Byte) : newline ∉ b.decimal := by
  obtain ⟨⟨ds, numeral, text⟩, -⟩ := eq_decimal_iff.mp (Eq.refl b.decimal)
  rw [text, List.mem_map]
  rintro ⟨d, member, same⟩
  have code := toNat_ofDigit (numeral.small d member)
  rw [same] at code
  change 10 = 48 + d at code
  omega

theorem splitOn_lines (values : List Byte) :
    (values.flatMap Effect.line).splitOn newline = values.map Byte.decimal ++ [[]] := by
  induction values with
  | nil => rfl
  | cons value values ih =>
    rw [List.flatMap_cons, Effect.line, List.append_assoc, List.singleton_append,
      List.splitOn_append_cons_self_of_not_mem (newline_not_mem value), ih]
    rfl

theorem numbers?_lines (values : List Byte) :
    numbers? (values.flatMap Effect.line) = some (values.map BitVec.toNat) := by
  have read : (values.map Byte.decimal).mapM number? = some (values.map BitVec.toNat) := by
    rw [List.mapM_map]
    exact Text.mapM_eq_some fun value _ => (eq_decimal_iff.mp (Eq.refl value.decimal)).2
  rw [numbers?, splitOn_lines]
  simp [read]

end Decimal

/-! On sinks that take everything the machine alone decides what is executed. -/
namespace Machine
variable {σ : Type} [Sink σ] {m : Machine} {sink : σ}

/-- What the next step executes if its output is taken. -/
def upcoming? (m : Machine) : Option Execution :=
  match m.status with
  | .halted => none
  | .running => m.fetch?.map fun i => ⟨m, i, (m.effect i).machine⟩

def onward (m : Machine) : Machine := (m.upcoming?.map Execution.after).getD m

def course : Nat → Machine → List Execution
  | 0, _ => []
  | n + 1, m => m.upcoming?.toList ++ course n m.onward

def reach : Nat → Machine → Machine
  | 0, m => m
  | n + 1, m => reach n m.onward

theorem course_add (i j : Nat) (m : Machine) :
    course (i + j) m = course i m ++ course j (reach i m) := by
  induction i generalizing m with
  | zero => rw [Nat.zero_add, course, reach, List.nil_append]
  | succ i ih => rw [Nat.succ_add, course, course, reach, ih, List.append_assoc]

theorem course_of_idle (idle : m.upcoming? = none) (n : Nat) :
    course n m = [] ∧ reach n m = m := by
  have stays : m.onward = m := by rw [onward, idle, Option.map_none, Option.getD_none]
  induction n with
  | zero => exact ⟨rfl, rfl⟩
  | succ n ih =>
    rw [course, reach, idle, stays, Option.toList_none, List.nil_append]
    exact ih

theorem execution?_of_accepts (accepts : Sink.Accepts sink) : m.execution? sink = m.upcoming? := by
  cases status : m.status with
  | halted => simp only [execution?, upcoming?, step_of_halted status, status]
  | running =>
    cases fetched : m.fetch? with
    | none => simp only [execution?, upcoming?, step_of_unknown status fetched, status, fetched,
        Option.map_none]
    | some i =>
      obtain ⟨result, machine, -, -⟩ :=
        step_of_fits status fetched ((m.effect i).fits_of_accepts accepts)
      simp only [execution?, upcoming?, result, machine, status, fetched, Option.map_some]

theorem machine_of_accepts (accepts : Sink.Accepts sink) : (m.step sink).machine = m.onward := by
  rw [onward, ← execution?_of_accepts accepts]
  rcases m.step_executes sink with ⟨idle, machine⟩ | ⟨e, made, machine⟩
  · rw [idle, machine, Option.map_none, Option.getD_none]
  · rw [made, machine, Option.map_some, Option.getD_some]

theorem idle_of_ended (accepts : Sink.Accepts sink) (ends : (m.step sink).ends = true) :
    m.onward.upcoming? = none := by
  rw [← machine_of_accepts accepts]
  rcases m.step_executes sink with ⟨idle, machine⟩ | ⟨e, made, machine⟩
  · rw [machine, ← execution?_of_accepts accepts, idle]
  · obtain ⟨-, -, -, -, step⟩ := step_of_execution? made
    cases status : e.after.status with
    | halted => rw [machine, upcoming?, status]
    | running =>
      rw [step, Step.ends, status] at ends
      cases ends

end Machine

namespace Run
variable {σ : Type} [Sink σ] {r : Run σ}

theorem executions_of_accepts (going : r.outcome = .unfinished) (accepts : Sink.Accepts r.sink)
    (n : Nat) :
    r.executions n = Machine.course n r.machine ∧
      (r.within n).machine = Machine.reach n r.machine := by
  induction n generalizing r with
  | zero => exact ⟨rfl, rfl⟩
  | succ n ih =>
    have machine : r.advance.machine = r.machine.onward := Machine.machine_of_accepts accepts
    rw [executions_succ going, within_succ going, Machine.execution?_of_accepts accepts,
      Machine.course, Machine.reach]
    cases ends : (r.machine.step r.sink).ends with
    | true =>
      have ended : r.advance.outcome ≠ .unfinished := by
        intro goesOn
        exact Bool.false_ne_true ((Step.ofResult_eq_unfinished_iff.mp goesOn).symm.trans ends)
      obtain ⟨nothing, stays⟩ := Machine.course_of_idle (Machine.idle_of_ended accepts ends) n
      rw [executions_of_ended ended, within_of_ended ended, nothing, stays]
      exact ⟨rfl, machine⟩
    | false =>
      have goesOn : r.advance.outcome = .unfinished := Step.ofResult_eq_unfinished_iff.mpr ends
      have taken := Machine.result_of_accepts (m := r.machine) accepts
      obtain ⟨-, -, -, after⟩ := Machine.step_of_accepts accepts taken
      obtain ⟨executions, last⟩ := ih goesOn after
      rw [executions, last, machine]
      exact ⟨rfl, rfl⟩

theorem output_of_accepts {m : Machine} {sink : σ} (accepts : Sink.Accepts sink) (n : Nat) :
    ((start m sink).within n).output.toList =
      ((start m sink).executions n).flatMap Execution.output := by
  have unrefused : ((start m sink).within n).outcome ≠ .fault .output :=
    not_refused (s := start m sink) accepts Outcome.noConfusion n
  obtain ⟨part, output, rfl | ⟨refused, -⟩⟩ := output_within (start m sink) n
  · rw [output, List.append_nil]
    rfl
  · exact absurd refused unrefused

end Run

/-- A part of a run, made by one call on a sink of its own that takes everything. -/
inductive Leg : Type 1 where
  | step {σ : Type} [Sink σ] (sink : σ) (accepts : Sink.Accepts sink)
  | run {σ : Type} [Sink σ] (sink : σ) (accepts : Sink.Accepts sink) (limit : Nat)

namespace Leg

def limit : Leg → Nat
  | @step _ _ _ _ => 1
  | @run _ _ _ _ limit => limit

def output (m : Machine) : Leg → List Byte
  | @step _ _ sink _ => (m.step sink).output
  | @run _ _ sink _ limit => ((Run.start m sink).within limit).output.toList

def machine (m : Machine) : Leg → Machine
  | @step _ _ sink _ => (m.step sink).machine
  | @run _ _ sink _ limit => ((Run.start m sink).within limit).machine

def limits : List Leg → Nat
  | [] => 0
  | leg :: rest => leg.limit + limits rest

/-- The outputs of several calls one behind the other, each on the machine that the one before it
has left. -/
def outputs (m : Machine) : List Leg → List Byte
  | [] => []
  | leg :: rest => leg.output m ++ outputs (leg.machine m) rest

theorem output_run (m : Machine) {σ : Type} [Sink σ] {sink : σ} (accepts : Sink.Accepts sink)
    (limit : Nat) :
    (Leg.run sink accepts limit).output m = (Machine.course limit m).flatMap Execution.output ∧
      (Leg.run sink accepts limit).machine m = Machine.reach limit m := by
  obtain ⟨executions, machine⟩ :=
    Run.executions_of_accepts (r := Run.start m sink) rfl accepts limit
  exact ⟨(Run.output_of_accepts accepts limit).trans (congrArg _ executions), machine⟩

theorem step_eq_run (m : Machine) {σ : Type} [Sink σ] {sink : σ} (accepts : Sink.Accepts sink) :
    (Leg.step sink accepts).output m = (Leg.run sink accepts 1).output m ∧
      (Leg.step sink accepts).machine m = (Leg.run sink accepts 1).machine m :=
  ⟨(Run.toList_output_advance (Run.start m sink)).symm, rfl⟩

theorem output_eq (m : Machine) (leg : Leg) :
    leg.output m = (Machine.course leg.limit m).flatMap Execution.output ∧
      leg.machine m = Machine.reach leg.limit m := by
  cases leg with
  | step sink accepts =>
    obtain ⟨output, machine⟩ := step_eq_run m accepts
    rw [output, machine]
    exact output_run m accepts 1
  | run sink accepts limit => exact output_run m accepts limit

theorem outputs_eq (m : Machine) (legs : List Leg) :
    outputs m legs = (Machine.course (limits legs) m).flatMap Execution.output := by
  induction legs generalizing m with
  | nil => rfl
  | cons leg legs ih =>
    obtain ⟨output, machine⟩ := leg.output_eq m
    rw [outputs, output, machine, ih, limits, Machine.course_add, List.flatMap_append]

end Leg

/-- The output of a run on a sink that takes everything is one line for each PRN, from which the
printed values can be read back; made in any number of parts, the run prints the same. -/
theorem output_read_back {σ : Type} [Sink σ] (m : Machine) (sink : σ) (n : Nat)
    (accepts : Sink.Accepts sink) :
    let r := Run.start m sink
    let output := (r.within n).output.toList
    let values := (r.executions n).filterMap Execution.printed?
    output = values.flatMap Effect.line ∧
    output.splitOn Byte.newline = values.map Byte.decimal ++ [[]] ∧
    (∀ (value : Byte) (piece : List Byte), piece = value.decimal ↔
      Decimal.Canonical piece ∧ Decimal.number? piece = some value.toNat) ∧
    Decimal.numbers? output = some (values.map BitVec.toNat) ∧
    ∀ legs : List Leg, Leg.limits legs = n → Leg.outputs m legs = output := by
  intro r output values
  have executed : output = (r.executions n).flatMap Execution.output :=
    Run.output_of_accepts accepts n
  have lines : output = values.flatMap Effect.line :=
    executed.trans (Execution.flatMap_output (r.executions n))
  refine ⟨lines, ?_, fun _ _ => Decimal.eq_decimal_iff, ?_, ?_⟩
  · rw [lines, Decimal.splitOn_lines]
  · rw [lines, Decimal.numbers?_lines]
  · rintro legs rfl
    have course := (Run.executions_of_accepts (r := r) rfl accepts (Leg.limits legs)).1
    rw [Leg.outputs_eq, executed, course]
    rfl

def doublings : Machine :=
  { Machine.initial with
    memory := Memory.zero.copy
      [0x82, 0x00, 0x09, 0x82, 0x01, 0x06, 0x47, 0x00, 0xA0, 0x00, 0x00, 0x54, 0x01] }

-- A piece of one digit, two of two and two of three; the parts are cut between the prints and the
-- doublings.
theorem output_read_back_doublings :
    Sink.Accepts Room.unlimited ∧
    let output := ((Run.start doublings Room.unlimited).within 17).output.toList
    output = Effect.ascii "9\n18\n36\n72\n144\n".toList ∧
    Decimal.numbers? output = some [9, 18, 36, 72, 144] ∧
    Leg.outputs doublings
      [.run Room.unlimited Sink.accepts_unlimited 3, .step Room.unlimited Sink.accepts_unlimited,
        .run Room.unlimited Sink.accepts_unlimited 13] = output := by
  obtain ⟨-, -, -, numbers, parts⟩ :=
    output_read_back doublings Room.unlimited 17 Sink.accepts_unlimited
  have printed : ((Run.start doublings Room.unlimited).executions 17).filterMap
      Execution.printed? = [9, 18, 36, 72, 144] := by
    decide +kernel
  rw [printed] at numbers
  exact ⟨Sink.accepts_unlimited, by decide +kernel, numbers, parts _ rfl⟩

end ByteMachine

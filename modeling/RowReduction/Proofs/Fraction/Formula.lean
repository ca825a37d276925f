import RowReduction.IntegerType
import RowReduction.Proofs.Fraction.Order
import RowReduction.Proofs.Fraction.Reading

/-!
# Formulas over fractions

A formula is a finite composition of the ways to obtain a fraction: from
integers, machine numbers and texts, by arithmetic, and by sampling from a
source of words. It is evaluated by the operations of the fractions, and it
denotes a rational number, or none where an operation has no result.
Evaluation gives the numerator and the denominator of that number.
-/

namespace RowReduction

open Fraction

/-- A composition of the operations that give a fraction. A formula that samples comes with the
source that the words are drawn from, so that a sample used twice is one formula written twice. -/
inductive Formula where
  | quotient (num den : Int)
  | integer (n : Int)
  | machine (t : IntegerType) (v : Int)
  | binary64 (x : Binary64)
  | text (s : String)
  | zero
  | one
  | add (e f : Formula)
  | sub (e f : Formula)
  | mul (e f : Formula)
  | neg (e : Formula)
  | div (e f : Formula)
  | inv (e : Formula)
  | power (e : Formula) (exponent : Int)
  | inRange (lower upper : Formula) (o : SampleOptions) (source : Source)
  | unbounded (o : SampleOptions) (source : Source)

namespace Formula

/-- The fraction that the operations give, if none of them fails. -/
def evaluate : Formula → Option Fraction
  | quotient num den => (make? num den).toOption
  | integer n => some (ofInt n)
  | machine t v => t.toScalar? v
  | binary64 x => Scalar.ofBinary64? x
  | text s => (Scalar.parse? s).toOption
  | zero => some 0
  | one => some 1
  | add e f => do return (← e.evaluate) + (← f.evaluate)
  | sub e f => do return (← e.evaluate) - (← f.evaluate)
  | mul e f => do return (← e.evaluate) * (← f.evaluate)
  | neg e => do return -(← e.evaluate)
  | div e f => do (Scalar.div? (← e.evaluate) (← f.evaluate)).toOption
  | inv e => do (Scalar.inv? (← e.evaluate)).toOption
  | power e exponent => do (Scalar.power? (← e.evaluate) exponent).toOption
  | inRange lower upper o source => do
      (Sampled.inRange (← lower.evaluate) (← upper.evaluate) o source).1.toOption
  | unbounded o source => some (Sampled.unbounded o source).1

/-- The rational number that a formula stands for, if each of its parts stands for one. -/
def denote : Formula → Option ℚ
  | quotient num den => if den ≠ 0 then some (num / den) else none
  | integer n => some n
  | machine t v => if t.carrier.Contains v then some v else none
  | binary64 x => (x * .ofNat 1000000).round?.map fun n : Int => (n : ℚ) / 1000000
  | text s => writtenQuotient? s
  | zero => some 0
  | one => some 1
  | add e f => do return (← e.denote) + (← f.denote)
  | sub e f => do return (← e.denote) - (← f.denote)
  | mul e f => do return (← e.denote) * (← f.denote)
  | neg e => do return -(← e.denote)
  | div e f => do
      let p ← e.denote
      let q ← f.denote
      if q ≠ 0 then some (p / q) else none
  | inv e => do
      let p ← e.denote
      if p ≠ 0 then some p⁻¹ else none
  | power e exponent => do
      let p ← e.denote
      if exponent < 0 → p ≠ 0 then some (p ^ exponent) else none
  | inRange lower upper o source => do
      let p ← lower.denote
      let q ← upper.denote
      if p ≤ q then some (rangeSample p q o source) else none
  | unbounded o source =>
      if 0 < gridBound o then
        some ((Source.between (-gridBound o) (gridBound o) source).1 / o.density)
      else some 0

/-- Steps that agree with steps on the values of their arguments may be continued. -/
theorem map_value_bind {o : Option Fraction} {step : Fraction → Option Fraction}
    {spec : ℚ → Option ℚ} (h : ∀ a, (step a).map value = spec a.value) :
    (o >>= step).map value = o.map value >>= spec := by
  cases o with
  | none => rfl
  | some a => exact h a

/-- Evaluation gives the fraction of the rational number that a formula denotes, and fails
exactly when it denotes none. -/
theorem map_value_evaluate (e : Formula) : e.evaluate.map value = e.denote := by
  induction e with
  | quotient num den => exact map_value_toOption fun _ => make?_eq_ok_iff
  | integer n => exact congrArg some (value_ofInt n)
  | machine t v =>
      by_cases h : t.carrier.Contains v
      · simp only [evaluate, denote, IntegerType.toScalar?, if_pos h]
        exact congrArg some (value_ofInt v)
      · simp only [evaluate, denote, IntegerType.toScalar?, if_neg h, Option.map_none]
  | binary64 x =>
      change ((x * .ofNat 1000000).round?.map _).map value = _
      rw [Option.map_map, denote]
      exact congrArg (Option.map · _) (funext fun n => value_reduce n _ _)
  | text s => exact map_value_parse? s
  | zero => exact congrArg some value_zero
  | one => exact congrArg some value_one
  | add e f he hf =>
      rw [evaluate, denote, ← he, ← hf]
      exact map_value_bind fun a => map_value_bind fun b => congrArg some (value_add a b)
  | sub e f he hf =>
      rw [evaluate, denote, ← he, ← hf]
      exact map_value_bind fun a => map_value_bind fun b => congrArg some (value_sub a b)
  | mul e f he hf =>
      rw [evaluate, denote, ← he, ← hf]
      exact map_value_bind fun a => map_value_bind fun b => congrArg some (value_mul a b)
  | neg e he =>
      rw [evaluate, denote, ← he]
      exact map_value_bind fun a => congrArg some (value_neg a)
  | div e f he hf =>
      rw [evaluate, denote, ← he, ← hf]
      exact map_value_bind fun _ => map_value_bind fun _ =>
        map_value_toOption fun _ => div?_eq_ok_iff
  | inv e he =>
      rw [evaluate, denote, ← he]
      exact map_value_bind fun _ => map_value_toOption fun _ => inv?_eq_ok_iff
  | power e exponent he =>
      rw [evaluate, denote, ← he]
      exact map_value_bind fun _ => map_value_toOption fun _ => power?_eq_ok_iff
  | inRange lower upper o source hlower hupper =>
      rw [evaluate, denote, ← hlower, ← hupper]
      exact map_value_bind fun _ => map_value_bind fun _ =>
        map_value_toOption fun _ => inRange_eq_ok_iff
  | unbounded o source =>
      simp only [denote, ← apply_ite some]
      exact congrArg some (value_unbounded o source)

theorem denote_of_evaluate {e : Formula} {a : Fraction} (h : e.evaluate = some a) :
    e.denote = some a.value := by
  rw [← map_value_evaluate, h, Option.map_some]

/-- However a fraction is obtained, it is the fraction in lowest terms of the number that the
formula denotes, with a positive denominator and with zero over one. Two such fractions are equal
exactly when their cross products are. -/
theorem evaluate_lowest_terms {e f : Formula} {a b : Fraction} (ha : e.evaluate = some a)
    (hb : f.evaluate = some b) :
    (0 < a.den ∧ a.num.natAbs.gcd a.den = 1 ∧ (a.num = 0 → a.den = 1)) ∧
      (∃ q, e.denote = some q ∧ a.num = q.num ∧ a.den = q.den) ∧
      ((a == b) = true ↔ a.num * b.den = b.num * a.den) ∧
      ((a == b) = true ↔ e.denote = f.denote) := by
  have hparts : a.num = a.value.num ∧ a.den = a.value.den :=
    ⟨congrArg num (ofRat_value a).symm, congrArg den (ofRat_value a).symm⟩
  refine ⟨⟨a.den_pos, a.coprime, den_eq_one_of_num_eq_zero⟩,
    ⟨a.value, denote_of_evaluate ha, hparts⟩, ?_, ?_⟩
  · rw [beq_iff_value, value_eq_value_iff]
  · rw [beq_iff_value, denote_of_evaluate ha, denote_of_evaluate hb, Option.some.injEq]

/-- The number `-27/64` as a power of the inverse of a sum. -/
def cubeOfSum : Formula :=
  .power (.inv (.add (.quotient 3 (-6)) (.text " -1:4 "))) (-3)

/-- The number `-27/64` as the negation of a sample of a range without a grid point. -/
def negatedSample : Formula :=
  let bound := .binary64 (.ofNat 27 / .ofNat 64)
  .neg (.inRange bound bound {} ⟨[], 0, 0⟩)

/-- Both formulas give `-27/64`: the power, from parts with denominators of either sign, and the
sample, from a number of millionths. -/
theorem evaluate_lowest_terms_cubeOfSum : ∃ a b,
    (cubeOfSum.evaluate = some a ∧ negatedSample.evaluate = some b ∧ a.num = -27 ∧ a.den = 64) ∧
      (0 < a.den ∧ a.num.natAbs.gcd a.den = 1 ∧ (a.num = 0 → a.den = 1)) ∧
      (∃ q, cubeOfSum.denote = some q ∧ a.num = q.num ∧ a.den = q.den) ∧
      ((a == b) = true ↔ a.num * b.den = b.num * a.den) ∧
      ((a == b) = true ↔ cubeOfSum.denote = negatedSample.denote) := by
  have ha : cubeOfSum.evaluate = some ⟨-27, 64, by decide, by decide⟩ := by decide +kernel
  have hb : negatedSample.evaluate = some ⟨-27, 64, by decide, by decide⟩ := by decide +kernel
  exact ⟨_, _, ⟨ha, hb, rfl, rfl⟩, evaluate_lowest_terms ha hb⟩

end Formula

end RowReduction

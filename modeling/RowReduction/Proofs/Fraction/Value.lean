import RowReduction.Fraction.Scalar
import Mathlib.Algebra.Order.Field.Rat
import Mathlib.Data.Int.Cast.Field
import Mathlib.Data.Nat.Cast.Field
import Mathlib.Tactic.FieldSimp
import Mathlib.Tactic.Ring

/-!
# The value of a fraction

A fraction stands for the rational number that is its numerator over its
denominator. Lowest terms make the value determine the fraction, and every
rational number is a value. The operations of the fractions are the operations
of the rational numbers.
-/

namespace RowReduction.Fraction

/-- The numerator over the denominator. -/
def value (a : Fraction) : ℚ := a.num / a.den

/-- The fraction of a rational number. -/
def ofRat (q : ℚ) : Fraction := ⟨q.num, q.den, q.den_pos, q.reduced⟩

@[simp] theorem value_ofRat (q : ℚ) : (ofRat q).value = q :=
  Rat.num_div_den q

theorem den_cast_ne_zero (a : Fraction) : (a.den : ℚ) ≠ 0 :=
  Nat.cast_ne_zero.mpr (Nat.ne_of_gt a.den_pos)

theorem ofRat_value (a : Fraction) : ofRat a.value = a := by
  have hden : (a.den : ℤ) ≠ 0 := a.den_ne_zero
  have hnum : a.value.num = a.num := Rat.num_div_eq_of_coprime
    (Int.natCast_pos.mpr a.den_pos) (by simpa [Nat.Coprime] using a.coprime)
  have hden : (a.value.den : ℤ) = a.den := Rat.den_div_eq_of_coprime
    (Int.natCast_pos.mpr a.den_pos) (by simpa [Nat.Coprime] using a.coprime)
  have hden : a.value.den = a.den := Int.natCast_inj.mp hden
  cases a
  simp_all [ofRat]

/-- In lowest terms, zero is over one. -/
theorem den_eq_one_of_num_eq_zero {a : Fraction} (h : a.num = 0) : a.den = 1 := by
  simpa [h] using a.coprime

/-- Fractions of one value are equal. -/
theorem value_injective : Function.Injective value :=
  Function.LeftInverse.injective ofRat_value

@[simp] theorem value_inj {a b : Fraction} : a.value = b.value ↔ a = b :=
  value_injective.eq_iff

/-- Reducing to lowest terms keeps the value. -/
theorem value_reduce (num : Int) (den : Nat) (h : 0 < den) :
    (reduce num den h).value = num / den := by
  have hg : (num.natAbs.gcd den : ℚ) ≠ 0 :=
    Nat.cast_ne_zero.mpr (Nat.ne_of_gt (Nat.gcd_pos_of_pos_right _ h))
  have hnum : (num.natAbs.gcd den : ℤ) ∣ num :=
    Int.natCast_dvd.mpr (Nat.gcd_dvd_left _ _)
  simp only [value, reduce]
  rw [Int.tdiv_eq_ediv_of_dvd hnum, Int.cast_div hnum (by simpa using hg),
    Nat.cast_div (Nat.gcd_dvd_right _ _) hg, Int.cast_natCast,
    div_div_div_cancel_right₀ hg]

/-- A quotient of integers in lowest terms has the value of the quotient. -/
theorem value_ofQuotient (num den : Int) (h : den ≠ 0) :
    (ofQuotient num den h).value = num / den := by
  have habs : ((den.natAbs : ℤ) : ℚ) = den.sign * den := by
    rw [← Int.sign_mul_self den, Int.cast_mul]
  have hsign : (den.sign : ℚ) ≠ 0 := by simpa using h
  rw [ofQuotient, value_reduce, ← Int.cast_natCast, habs, Int.cast_mul,
    mul_div_mul_left _ _ hsign]

/-- Fractions have one value when their cross products agree. -/
theorem value_eq_value_iff {a b : Fraction} :
    a.value = b.value ↔ a.num * b.den = b.num * a.den := by
  rw [value, value, div_eq_div_iff a.den_cast_ne_zero b.den_cast_ne_zero]
  exact_mod_cast Iff.rfl

@[simp] theorem value_ofInt (n : Int) : (ofInt n).value = n := by
  simp [value, ofInt]

@[simp] theorem value_zero : (0 : Fraction).value = 0 :=
  (value_ofInt 0).trans Int.cast_zero

@[simp] theorem value_one : (1 : Fraction).value = 1 :=
  (value_ofInt 1).trans Int.cast_one

@[simp] theorem value_add (a b : Fraction) : (a + b).value = a.value + b.value := by
  have ha := a.den_cast_ne_zero
  have hb := b.den_cast_ne_zero
  change (Fraction.add a b).value = _
  rw [Fraction.add, value_reduce, value, value]
  push_cast
  field_simp

@[simp] theorem value_sub (a b : Fraction) : (a - b).value = a.value - b.value := by
  have ha := a.den_cast_ne_zero
  have hb := b.den_cast_ne_zero
  change (Fraction.sub a b).value = _
  rw [Fraction.sub, value_reduce, value, value]
  push_cast
  field_simp

@[simp] theorem value_mul (a b : Fraction) : (a * b).value = a.value * b.value := by
  change (Fraction.mul a b).value = _
  rw [Fraction.mul, value_reduce, value, value]
  push_cast
  exact (div_mul_div_comm _ _ _ _).symm

@[simp] theorem value_neg (a : Fraction) : (-a).value = -a.value := by
  change ((-a.num : ℤ) : ℚ) / a.den = -(a.num / a.den)
  rw [Int.cast_neg, neg_div]

/-- The numerator tells whether the value is zero. -/
theorem value_eq_zero_iff {a : Fraction} : a.value = 0 ↔ a.num = 0 := by
  simp [value, a.den_cast_ne_zero]

/-- The numerator has the sign of the value. -/
theorem value_nonneg_iff {a : Fraction} : 0 ≤ a.value ↔ 0 ≤ a.num := by
  rw [value, le_div_iff₀ (Nat.cast_pos.mpr a.den_pos), zero_mul, Int.cast_nonneg_iff]

theorem isZero_eq_true_iff_value {a : Fraction} : Scalar.isZero a = true ↔ a.value = 0 :=
  isZero_eq_true_iff.trans value_eq_zero_iff.symm

/-- The equality of scalars is equality of values. -/
theorem beq_iff_value {a b : Fraction} : (a == b) = true ↔ a.value = b.value := by
  rw [beq_iff_eq, value_inj]

/-- A fraction with a value other than zero has an inverse, with the inverse value. -/
theorem inv?_of_value_ne_zero {a : Fraction} (h : a.value ≠ 0) :
    ∃ b, Scalar.inv? a = .ok b ∧ b.value = a.value⁻¹ := by
  have hnum : a.num ≠ 0 := fun h0 => h (value_eq_zero_iff.mpr h0)
  refine ⟨ofQuotient a.den a.num hnum, dif_neg hnum, ?_⟩
  rw [value_ofQuotient, value, inv_div, Int.cast_natCast]

/-- Division by a fraction with a value other than zero gives the quotient of the values. -/
theorem div?_of_value_ne_zero (a : Fraction) {b : Fraction} (h : b.value ≠ 0) :
    ∃ c, Scalar.div? a b = .ok c ∧ c.value = a.value / b.value := by
  have hnum : b.num ≠ 0 := fun h0 => h (value_eq_zero_iff.mpr h0)
  refine ⟨ofQuotient (a.num * b.den) (a.den * b.num)
    (Int.mul_ne_zero a.den_ne_zero hnum), dif_neg hnum, ?_⟩
  rw [value_ofQuotient, value, value, div_div_div_eq]
  push_cast
  rfl

/-- The inverse of a fraction is the only one with the inverse value, and zero has none. -/
theorem inv?_eq_ok_iff {a b : Fraction} :
    Scalar.inv? a = .ok b ↔ a.value ≠ 0 ∧ b.value = a.value⁻¹ := by
  by_cases hzero : a.value = 0
  · have herror : Scalar.inv? a = .error .zeroFractionInverse :=
      dif_pos (value_eq_zero_iff.mp hzero)
    simp [herror, hzero]
  · obtain ⟨c, hc, hvalue⟩ := inv?_of_value_ne_zero hzero
    rw [hc, Except.ok.injEq, ← value_inj, hvalue, and_iff_right hzero, eq_comm]

/-- The quotient of two fractions is the only one with the quotient of the values, and there is
none by zero. -/
theorem div?_eq_ok_iff {a b c : Fraction} :
    Scalar.div? a b = .ok c ↔ b.value ≠ 0 ∧ c.value = a.value / b.value := by
  by_cases hzero : b.value = 0
  · have herror : Scalar.div? a b = .error (.zeroDivisor (toString a) (toString b)) :=
      dif_pos (value_eq_zero_iff.mp hzero)
    simp [herror, hzero]
  · obtain ⟨d, hd, hvalue⟩ := div?_of_value_ne_zero a hzero
    rw [hd, Except.ok.injEq, ← value_inj, hvalue, and_iff_right hzero, eq_comm]

/-- The fraction of two integers is the only one with the value of their quotient, and there is
none over zero. -/
theorem make?_eq_ok_iff {num den : Int} {a : Fraction} :
    make? num den = .ok a ↔ den ≠ 0 ∧ a.value = num / den := by
  by_cases hzero : den = 0
  · simp [make?, hzero]
  · rw [make?, dif_neg hzero, Except.ok.injEq, ← value_inj, value_ofQuotient,
      and_iff_right hzero, eq_comm]

@[simp] theorem value_power (a : Fraction) (n : Nat) :
    (Scalar.power a n).value = a.value ^ n := by
  induction n with
  | zero => simp [Scalar.power, Nat.repeat]
  | succ n ih =>
      calc
        (Scalar.power a (n + 1)).value = (Scalar.power a n * a).value := rfl
        _ = a.value ^ (n + 1) := by rw [value_mul, ih, pow_succ]

/-- A power of a fraction is the only one with the power of the value, and zero has none with a
negative exponent. -/
theorem power?_eq_ok_iff {a b : Fraction} {n : Int} :
    Scalar.power? a n = .ok b ↔ (n < 0 → a.value ≠ 0) ∧ b.value = a.value ^ n := by
  by_cases hn : n < 0
  · have hexponent : n = -(n.natAbs : ℤ) := by omega
    by_cases hzero : a.value = 0
    · have herror : Scalar.inv? a = .error .zeroFractionInverse :=
        dif_pos (value_eq_zero_iff.mp hzero)
      simp [Scalar.power?, hn, herror, hzero, Except.map]
    · obtain ⟨c, hc, hvalue⟩ := inv?_of_value_ne_zero hzero
      have hpower : (Scalar.power c n.natAbs).value = a.value ^ n := by
        rw [value_power, hvalue, hexponent, Int.natAbs_neg, Int.natAbs_natCast, zpow_neg,
          zpow_natCast, inv_pow]
      rw [Scalar.power?, if_pos hn, hc, Except.map, Except.ok.injEq, ← value_inj, hpower,
        and_iff_right fun _ => hzero, eq_comm]
  · have hexponent : n = (n.natAbs : ℤ) := by omega
    have hpower : (Scalar.power a n.natAbs).value = a.value ^ n := by
      rw [value_power, ← zpow_natCast, ← hexponent]
    rw [Scalar.power?, if_neg hn, Except.ok.injEq, ← value_inj, hpower,
      and_iff_right fun h => absurd h hn, eq_comm]

/-- An operation that gives the fraction of a rational number under a condition, and otherwise
fails, has that number as the value of its result. -/
theorem map_value_toOption {result : Except Error Fraction} {p : Prop} [Decidable p] {q : ℚ}
    (h : ∀ a, result = .ok a ↔ p ∧ a.value = q) :
    result.toOption.map value = if p then some q else none := by
  by_cases hp : p
  · have hresult : result = .ok (ofRat q) := (h _).mpr ⟨hp, value_ofRat q⟩
    rw [hresult, if_pos hp]
    exact congrArg some (value_ofRat q)
  · rw [if_neg hp]
    cases result with
    | ok a => exact absurd ((h a).mp rfl).1 hp
    | error e => rfl

end RowReduction.Fraction

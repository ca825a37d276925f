import RowReduction.Proofs.Fraction.Approximation

/-!
# The rounded squares of approximated fractions

The squares of the numbers that stand for fractions are numbers, and not
negative ones. A fraction up to `2 ^ -538` has a square that is rounded to zero,
and one from `2 ^ -537` on has none. In between the errors of the approximation
decide.
-/

namespace RowReduction

namespace Binary64

variable {x : Binary64} {y q : ℚ} {k : ℕ}

section Scale

/-- The unit of the format is the square of `2 ^ -537`. -/
theorem mul_self_mul_unitsPerOne (y : ℚ) :
    y * y * unitsPerOne = |y| * 2 ^ 537 * (|y| * 2 ^ 537) := by
  have hhalf : (unitsPerOne : ℚ) = 2 ^ 537 * 2 ^ 537 := by
    rw [unitsPerOne_cast, ← pow_add]
    exact congrArg _ (by decide)
  rw [hhalf, ← abs_mul_abs_self y]
  exact mul_mul_mul_comm _ _ _ _

end Scale

-- The units in one and beyond the format are numbers too large to be computed with.
attribute [local irreducible] unitsPerOne unitsLimit

/-- The square of a finite number is the rounded square of its value. -/
theorem mul_self_of_value? (h : x.value? = some y) :
    ∃ num : ℕ, (num : ℚ) / unitsPerOne = y * y * unitsPerOne ∧
      x * x = ofQuotient false num unitsPerOne := by
  cases x with
  | nan => cases h
  | infinity s => cases h
  | finite s m hm =>
      rw [value?_finite, Option.some.injEq] at h
      have hU := unitsPerOne_cast_pos
      refine ⟨m * m, ?_, ?_⟩
      · rw [← h, Nat.cast_mul]
        cases s <;> simp <;> field_simp
      · change mul (finite s m hm) (finite s m hm) = _
        simp only [mul, Bool.xor_self]

theorem atLeast_mul_self (h : x.value? = some y) (hk : Representable k)
    (hle : (k : ℚ) ≤ y * y * unitsPerOne) : AtLeast k (x * x) := by
  obtain ⟨num, hnum, hx⟩ := mul_self_of_value? h
  rw [hx]
  apply atLeast_ofQuotient hk unitsPerOne_pos
  rwa [hnum]

theorem atLeast_rounded_mul_self (h : x.value? = some y) :
    AtLeast (rounded (y * y * unitsPerOne)) (x * x) := by
  obtain ⟨num, hnum, hx⟩ := mul_self_of_value? h
  rw [hx, ← hnum]
  exact atLeast_ofQuotient_rounded num unitsPerOne_pos

theorem atMost_mul_self (h : x.value? = some y) (hle : (rounded (y * y * unitsPerOne) : ℚ) ≤ q)
    (hq : q < unitsLimit) : AtMost q (x * x) := by
  obtain ⟨num, hnum, hx⟩ := mul_self_of_value? h
  rw [hx]
  apply atMost_ofQuotient_of_le unitsPerOne_pos _ hq
  rwa [hnum]

/-- The least square that is not rounded to zero is half a unit. -/
theorem atMost_zero_mul_self (h : x.value? = some y) (hlt : |y| * 2 ^ 537 ≤ 5 / 8) :
    AtMost 0 (x * x) := by
  apply atMost_mul_self h _ (Nat.cast_pos.mpr unitsLimit_pos)
  have hsquare : y * y * unitsPerOne < 1 / 2 := by
    rw [mul_self_mul_unitsPerOne]
    generalize hz : |y| * 2 ^ 537 = z at hlt
    have hz0 : 0 ≤ z := by
      rw [← hz]
      positivity
    nlinarith
  rw [rounded_eq_zero hsquare, Nat.cast_zero]

theorem atLeast_one_mul_self (h : x.value? = some y) (hle : 3 / 4 ≤ |y| * 2 ^ 537) :
    AtLeast 1 (x * x) := by
  apply (atLeast_rounded_mul_self h).mono
  have hsquare : 1 / 2 < y * y * unitsPerOne := by
    rw [mul_self_mul_unitsPerOne]
    generalize |y| * 2 ^ 537 = z at hle
    nlinarith
  exact Nat.one_le_cast.mpr (one_le_rounded hsquare)

theorem atLeast_infinity_mul_self (q : ℚ) (negative : Bool) :
    AtLeast q (infinity negative * infinity negative) := by
  cases negative <;> exact .infinity

end Binary64

namespace Fraction

open Binary64

variable {a : Fraction}

attribute [local irreducible] unitsPerOne unitsLimit

/-- Nothing that stands for a fraction has a negative square or one that is not a number. -/
theorem atLeast_zero_square (a : Fraction) : AtLeast 0 (a.toBinary64 * a.toBinary64) := by
  rcases Nat.eq_zero_or_pos a.cutDen with hzero | hpos
  · rw [toBinary64_eq, if_pos hzero]
    exact atLeast_infinity_mul_self _ _
  · obtain ⟨y, hy, -⟩ := toBinary64_value? hpos
    exact (atLeast_rounded_mul_self hy).mono (Nat.cast_nonneg _)

/-- Fractions up to `2 ^ -538` have squares that are rounded to zero. -/
theorem atMost_zero_square (h : |a.value| ≤ 1 / 2 ^ 538) :
    AtMost 0 (a.toBinary64 * a.toBinary64) := by
  have hlower : (1 : ℚ) / 2 ^ 944 ≤ 1 / 2 ^ 538 :=
    one_div_pow_le_one_div_pow_of_le one_le_two (by decide)
  have hupper : (1 : ℚ) / 2 ^ 538 ≤ 2 ^ 944 :=
    (one_div_two_pow_le_one _).trans (one_le_pow₀ one_le_two)
  obtain ⟨y, hy, hbound⟩ := toBinary64_abs_le hlower hupper h
  have hhalf : (1 : ℚ) / 2 ^ 538 = 1 / 2 / 2 ^ 537 := by rw [pow_succ', div_div]
  apply atMost_zero_mul_self hy
  rw [hhalf, div_mul_eq_mul_div, le_div_iff₀ (by positivity)] at hbound
  exact hbound.trans (by norm_num)

/-- Fractions from `2 ^ -537` on have squares that are not rounded to zero. -/
theorem atLeast_one_square (h : 1 / 2 ^ 537 ≤ |a.value|) :
    AtLeast 1 (a.toBinary64 * a.toBinary64) := by
  have hlower : (1 : ℚ) / 2 ^ 944 ≤ 1 / 2 ^ 537 :=
    one_div_pow_le_one_div_pow_of_le one_le_two (by decide)
  have hupper : (1 : ℚ) / 2 ^ 537 ≤ 2 ^ 943 :=
    (one_div_two_pow_le_one _).trans (one_le_pow₀ one_le_two)
  rcases le_abs_toBinary64 hlower hupper h with ⟨s, hinfinity⟩ | ⟨y, hy, hbound⟩
  · rw [hinfinity]
    exact atLeast_infinity_mul_self _ _
  · apply atLeast_one_mul_self hy
    rw [div_mul_eq_mul_div, div_le_iff₀ (by positivity)] at hbound
    exact le_trans (by norm_num) hbound

/-- A bound of moderate size from below gives one of the square. -/
theorem atLeast_square {B : ℚ} {k : ℕ} (hB : 1 / 2 ^ 944 ≤ B) (hB' : B ≤ 2 ^ 943)
    (h : B ≤ |a.value|) (hk : Representable k)
    (hkB : (k : ℚ) ≤ B * (1 - 1 / 2 ^ 50) * (B * (1 - 1 / 2 ^ 50)) * unitsPerOne) :
    AtLeast k (a.toBinary64 * a.toBinary64) := by
  rcases le_abs_toBinary64 hB hB' h with ⟨s, hinfinity⟩ | ⟨y, hy, hbound⟩
  · rw [hinfinity]
    exact atLeast_infinity_mul_self _ _
  · have hnonneg : 0 ≤ B * (1 - 1 / 2 ^ 50) :=
      mul_nonneg (pos_of_moderate hB).le (by norm_num)
    apply atLeast_mul_self hy hk
    rw [← abs_mul_abs_self y]
    exact hkB.trans (mul_le_mul_of_nonneg_right (mul_self_le_mul_self hnonneg hbound)
      unitsPerOne_cast_pos.le)

/-- The square of a fraction of moderate size is at most two and a half times that of its value. -/
theorem atMost_square (h : |a.value| ≤ 2 ^ 20) :
    AtMost (12 / 5 * (a.value * a.value) * unitsPerOne) (a.toBinary64 * a.toBinary64) := by
  have hU := unitsPerOne_cast_pos
  -- Below `2 ^ -944` the error is not relative, but there the square is rounded to zero.
  rcases le_total (1 / 2 ^ 944) |a.value| with hlarge | hsmall
  · have hupper : |a.value| ≤ 2 ^ 944 := h.trans (pow_le_pow_right₀ one_le_two (by decide))
    obtain ⟨y, hy, hbound⟩ := toBinary64_abs_le hlarge hupper le_rfl
    have hsquare : y * y ≤ 6 / 5 * (a.value * a.value) := by
      rw [← abs_mul_abs_self y, ← abs_mul_abs_self a.value]
      have hfactor : |a.value| * (1 + 1 / 2 ^ 50) ≤ 12 / 11 * |a.value| := by
        linarith [abs_nonneg a.value]
      have hmul := mul_self_le_mul_self (abs_nonneg y) (hbound.trans hfactor)
      linarith [mul_self_nonneg |a.value|]
    apply atMost_mul_self hy
    · apply (rounded_le_two_mul (mul_nonneg (mul_self_nonneg y) hU.le)).trans
      linarith [mul_le_mul_of_nonneg_right hsquare hU.le]
    · have hmul := mul_self_le_mul_self (abs_nonneg a.value) h
      rw [abs_mul_abs_self] at hmul
      have hlimit : 12 / 5 * (a.value * a.value) ≤ 2 ^ 42 := by linarith
      exact mul_unitsPerOne_lt_unitsLimit hlimit (by decide)
  · have hbelow : (1 : ℚ) / 2 ^ 944 ≤ 1 / 2 ^ 538 :=
      one_div_pow_le_one_div_pow_of_le one_le_two (by decide)
    apply (atMost_zero_square (hsmall.trans hbelow)).mono
    exact mul_nonneg (mul_nonneg (by norm_num) (mul_self_nonneg _)) hU.le

end Fraction

end RowReduction

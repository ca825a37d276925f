import RowReduction.Proofs.Binary64.Bounds
import Mathlib.Algebra.Order.Field.Power

/-!
# The accuracy of a converted quotient

A finite number stands for a rational number. The quotient of two integers that
are converted first is rounded three times. Each rounding changes a number by at
most its `2 ^ 53`-rd part, as long as nothing comes near the ends of the format,
so that the result is off by at most four of those parts.
-/

namespace RowReduction.Binary64

/-- The rational number that a finite number stands for. -/
def value? (x : Binary64) : Option ℚ :=
  x.units?.map fun n : ℤ => (n : ℚ) / unitsPerOne

theorem value?_finite (negative : Bool) {n : ℕ} (h : Representable n) :
    (finite negative n h).value? = some ((if negative then -(n : ℚ) else n) / unitsPerOne) := by
  rw [value?, units?, Option.map_some]
  cases negative with
  | false => simp only [Bool.false_eq_true, if_false, Int.cast_natCast]
  | true => simp only [if_true, Int.cast_neg, Int.cast_natCast]

section Scale

theorem unitsPerOne_cast : (unitsPerOne : ℚ) = 2 ^ unitPlaces :=
  Nat.cast_pow 2 unitPlaces

theorem unitsPerOne_cast_pos : (0 : ℚ) < unitsPerOne :=
  Nat.cast_pos.mpr unitsPerOne_pos

/-- The smaller powers of two are below the units in one. -/
theorem two_pow_le_unitsPerOne {k : ℕ} (h : k ≤ unitPlaces) : (2 : ℚ) ^ k ≤ unitsPerOne := by
  rw [unitsPerOne_cast]
  exact pow_le_pow_right₀ one_le_two h

theorem unitsLimit_cast : (unitsLimit : ℚ) = 2 ^ 1024 * unitsPerOne := by
  rw [unitsPerOne_cast, ← pow_add, Nat.add_comm]
  exact Nat.cast_pow 2 (unitPlaces + 1024)

/-- Bounds below `2 ^ 1024` are within the format. -/
theorem mul_unitsPerOne_lt_unitsLimit {q : ℚ} {k : ℕ} (h : q ≤ 2 ^ k) (hk : k < 1024) :
    q * unitsPerOne < unitsLimit := by
  rw [unitsLimit_cast]
  exact mul_lt_mul_of_pos_right (h.trans_lt (pow_lt_pow_right₀ one_lt_two hk)) unitsPerOne_cast_pos

end Scale

-- The units in one and beyond the format are numbers too large to be computed with.
attribute [local irreducible] unitsPerOne unitsLimit

section Near

variable {u p q N D r : ℚ}

/-- The error of a rounded quotient of rounded numbers, from the errors of the three roundings. -/
theorem abs_sub_quotient_le (hu : 0 ≤ u) (hu' : u ≤ 1 / 5) (hp : 0 < p) (hq : 0 < q)
    (hN : |N - p| ≤ p * u) (hD : |D - q| ≤ q * u) (hr : |r - N / D| ≤ N / D * u) :
    |r - p / q| ≤ p / q * (4 * u) := by
  rw [abs_le] at hN hD hr
  have hNpos : 0 < N := by nlinarith
  have hDpos : 0 < D := by nlinarith
  have hquotient : 0 < p / q := div_pos hp hq
  -- Both bounds of the quotient are those of its parts.
  have hupper : N / D * (1 - u) ≤ p / q * (1 + u) := by
    rw [div_mul_eq_mul_div, div_mul_eq_mul_div, div_le_div_iff₀ hDpos hq]
    nlinarith [mul_le_mul (by linarith : N ≤ p * (1 + u)) (by linarith : q * (1 - u) ≤ D)
      (by nlinarith) (by nlinarith)]
  have hlower : p / q * (1 - u) ≤ N / D * (1 + u) := by
    rw [div_mul_eq_mul_div, div_mul_eq_mul_div, div_le_div_iff₀ hq hDpos]
    nlinarith [mul_le_mul (by linarith : p * (1 - u) ≤ N) (by linarith : D ≤ q * (1 + u))
      hDpos.le hNpos.le]
  rw [abs_le]
  constructor <;> nlinarith

end Near

section Quotients

variable {den : ℕ}

/-- A quotient in the range of the normal numbers is rounded with a relative error. -/
theorem ofQuotient_near (negative : Bool) (num : ℕ) (hd : 0 < den)
    (hnormal : (2 : ℚ) ^ 52 ≤ num / den) (hlimit : 2 * ((num : ℚ) / den) < unitsLimit) :
    ∃ (n : ℕ) (h : Representable n), ofQuotient negative num den = finite negative n h ∧
      |(n : ℚ) - num / den| ≤ num / den * (1 / 2 ^ 53) := by
  have hnonneg : (0 : ℚ) ≤ num / den := by positivity
  have hbound := (rounded_le_two_mul hnonneg).trans_lt hlimit
  have hlt : rounded (num / den) < unitsLimit := Nat.cast_lt.mp hbound
  refine ⟨_, representable_rounded hlt, ofQuotient_eq_finite negative num hd hlt, ?_⟩
  rw [mul_one_div]
  exact abs_rounded_sub_le_of_normal hnormal

/-- Integers up to a bound within the format are converted with a relative error. -/
theorem converted_near (negative : Bool) {n : ℕ} {B : ℚ} (hn : 0 < n) (hnB : n ≤ B)
    (hB : 8 * B * unitsPerOne < unitsLimit) :
    ∃ (m : ℕ) (h : Representable m), ofQuotient negative (n * unitsPerOne) 1 = finite negative m h ∧
      |(m : ℚ) - n * unitsPerOne| ≤ n * unitsPerOne * (1 / 2 ^ 53) := by
  have hU := unitsPerOne_cast_pos
  have hvalue : ((n * unitsPerOne : ℕ) : ℚ) / (1 : ℕ) = n * unitsPerOne := by
    rw [Nat.cast_one, div_one, Nat.cast_mul]
  have hone : (unitsPerOne : ℚ) ≤ n * unitsPerOne :=
    le_mul_of_one_le_left hU.le (Nat.one_le_cast.mpr hn)
  have hnormal : (2 : ℚ) ^ 52 ≤ n * unitsPerOne :=
    (two_pow_le_unitsPerOne (by decide)).trans hone
  have hbelow : 2 * ((n : ℚ) * unitsPerOne) < unitsLimit := by
    have hscale := mul_le_mul_of_nonneg_right hnB hU.le
    linarith
  rw [← hvalue] at hnormal hbelow ⊢
  exact ofQuotient_near negative _ Nat.one_pos hnormal hbelow

theorem finite_div_finite {s t : Bool} {m n : ℕ} (hm : Representable m) (hn : Representable n)
    (hzero : n ≠ 0) :
    finite s m hm / finite t n hn = ofQuotient (s ^^ t) (m * unitsPerOne) n := by
  change div (finite s m hm) (finite t n hn) = _
  simp only [div, if_neg hzero]

theorem ofQuotient_zero (negative : Bool) (hd : 0 < den) :
    ofQuotient negative 0 den = finite negative 0 representable_zero := by
  have h := ofQuotient_mul negative representable_zero hd
  rwa [Nat.zero_mul] at h

/-- The quotient of two magnitudes that stand for positive integers up to a bound is far from both
ends of the format, if the bound is. -/
theorem quotient_in_range {n d N D : ℕ} {B : ℚ} (hB : 2 ^ 54 * B ≤ unitsPerOne)
    (hB' : 8 * B * unitsPerOne < unitsLimit) (hn : 0 < n) (hnB : n ≤ B) (hd : 0 < d) (hdB : d ≤ B)
    (hN : |(N : ℚ) - n * unitsPerOne| ≤ n * unitsPerOne * (1 / 2 ^ 53))
    (hD : |(D : ℚ) - d * unitsPerOne| ≤ d * unitsPerOne * (1 / 2 ^ 53)) :
    0 < D ∧ (2 : ℚ) ^ 52 ≤ ((N * unitsPerOne : ℕ) : ℚ) / D ∧
      2 * (((N * unitsPerOne : ℕ) : ℚ) / D) < unitsLimit := by
  have hU := unitsPerOne_cast_pos
  have hn1 := mul_le_mul_of_nonneg_right (Nat.one_le_cast.mpr hn : (1 : ℚ) ≤ n) hU.le
  have hd1 := mul_le_mul_of_nonneg_right (Nat.one_le_cast.mpr hd : (1 : ℚ) ≤ d) hU.le
  have hnB' := mul_le_mul_of_nonneg_right hnB hU.le
  have hdB' := mul_le_mul_of_nonneg_right hdB hU.le
  rw [abs_le] at hN hD
  have hNge : (unitsPerOne : ℚ) / 2 ≤ N := by linarith
  have hDge : (unitsPerOne : ℚ) / 2 ≤ D := by linarith
  have hNle : (N : ℚ) ≤ 2 * B * unitsPerOne := by linarith
  have hDle : (D : ℚ) ≤ 2 * B * unitsPerOne := by linarith
  have hDpos : (0 : ℚ) < D := (half_pos hU).trans_le hDge
  refine ⟨Nat.cast_pos.mp hDpos, ?_, ?_⟩
  · rw [le_div_iff₀ hDpos, Nat.cast_mul]
    calc
      (2 : ℚ) ^ 52 * D ≤ 2 ^ 52 * (2 * B * unitsPerOne) :=
        mul_le_mul_of_nonneg_left hDle (by positivity)
      _ = 2 ^ 54 * B * (unitsPerOne / 2) := by ring
      _ ≤ unitsPerOne * N := mul_le_mul hB hNge (half_pos hU).le hU.le
      _ = N * unitsPerOne := mul_comm _ _
  · rw [← mul_div_assoc, div_lt_iff₀ hDpos, Nat.cast_mul]
    calc
      2 * ((N : ℚ) * unitsPerOne) ≤ 2 * (2 * B * unitsPerOne * unitsPerOne) :=
        mul_le_mul_of_nonneg_left (mul_le_mul_of_nonneg_right hNle hU.le) two_pos.le
      _ = 8 * B * unitsPerOne * (unitsPerOne / 2) := by ring
      _ < unitsLimit * (unitsPerOne / 2) := mul_lt_mul_of_pos_right hB' (half_pos hU)
      _ ≤ unitsLimit * D := mul_le_mul_of_nonneg_left hDge (Nat.cast_nonneg _)

/-- A bound of a thousand bits is far from both ends of the format. -/
theorem thousand_bits_in_range : 2 ^ 54 * (2 : ℚ) ^ 1000 ≤ unitsPerOne ∧
    8 * (2 : ℚ) ^ 1000 * unitsPerOne < unitsLimit := by
  constructor
  · rw [← pow_add]
    exact two_pow_le_unitsPerOne (by decide)
  · have hpower : (8 : ℚ) * 2 ^ 1000 = 2 ^ (3 + 1000) := by
      rw [pow_add]
      norm_num
    exact mul_unitsPerOne_lt_unitsLimit hpower.le (by decide)

/-- The magnitude of the quotient of two converted positive integers. -/
theorem ofQuotient_converted_near {n d : ℕ} (s t : Bool) (hn : 0 < n) (hn' : (n : ℚ) ≤ 2 ^ 1000)
    (hd : 0 < d) (hd' : (d : ℚ) ≤ 2 ^ 1000) :
    ∃ (r : ℕ) (h : Representable r),
      ofQuotient s (n * unitsPerOne) 1 / ofQuotient t (d * unitsPerOne) 1 = finite (s ^^ t) r h ∧
      |(r : ℚ) / unitsPerOne - n / d| ≤ n / d * (4 * (1 / 2 ^ 53)) := by
  obtain ⟨hsmall, hlarge⟩ := thousand_bits_in_range
  obtain ⟨N, hNrep, hNeq, hN⟩ := converted_near s hn hn' hlarge
  obtain ⟨D, hDrep, hDeq, hD⟩ := converted_near t hd hd' hlarge
  obtain ⟨hDpos, hnormal, hlimit⟩ := quotient_in_range hsmall hlarge hn hn' hd hd' hN hD
  obtain ⟨r, hrrep, hreq, hr⟩ := ofQuotient_near (s ^^ t) _ hDpos hnormal hlimit
  refine ⟨r, hrrep, ?_, ?_⟩
  · rw [hNeq, hDeq, finite_div_finite hNrep hDrep hDpos.ne', hreq]
  · have hU := unitsPerOne_cast_pos
    have hquotient : ((N * unitsPerOne : ℕ) : ℚ) / D = N / D * unitsPerOne := by
      rw [Nat.cast_mul, mul_div_right_comm]
    have hr' : |(r : ℚ) / unitsPerOne - N / D| ≤ N / D * (1 / 2 ^ 53) := by
      rw [hquotient, ← div_mul_cancel₀ (r : ℚ) hU.ne', ← sub_mul, abs_mul, abs_of_pos hU,
        mul_right_comm] at hr
      exact le_of_mul_le_mul_right hr hU
    have hn0 : (0 : ℚ) < n := Nat.cast_pos.mpr hn
    have hd0 : (0 : ℚ) < d := Nat.cast_pos.mpr hd
    have h := abs_sub_quotient_le (by positivity) (by norm_num) (mul_pos hn0 hU) (mul_pos hd0 hU)
      hN hD hr'
    rwa [mul_div_mul_right _ _ hU.ne'] at h

/-- A zero over a converted positive integer is zero. -/
theorem value?_zero_div {d : ℕ} (s : Bool) (hd : 0 < d) (hd' : (d : ℚ) ≤ 2 ^ 1000) :
    (finite s 0 representable_zero / ofNat d).value? = some 0 := by
  obtain ⟨D, hDrep, hDeq, hD⟩ := converted_near false hd hd' thousand_bits_in_range.2
  have hDpos : D ≠ 0 := by
    rintro rfl
    have hdU : 0 < (d : ℚ) * unitsPerOne := mul_pos (Nat.cast_pos.mpr hd) unitsPerOne_cast_pos
    rw [Nat.cast_zero, abs_le] at hD
    linarith
  rw [ofNat, hDeq, finite_div_finite _ hDrep hDpos, Nat.zero_mul,
    ofQuotient_zero _ (Nat.pos_of_ne_zero hDpos), value?_finite]
  simp

/-- The quotient of two integers of a thousand bits, converted before it is taken, is off by at most
its `2 ^ 51`-st part. -/
theorem value?_ofInt_div_ofNat {i : ℤ} {d : ℕ} (hi : (i.natAbs : ℚ) ≤ 2 ^ 1000) (hd : 0 < d)
    (hd' : (d : ℚ) ≤ 2 ^ 1000) :
    ∃ y, (ofInt i / ofNat d).value? = some y ∧ |y - i / d| ≤ |(i / d : ℚ)| / 2 ^ 51 := by
  rcases Nat.eq_zero_or_pos i.natAbs with hzero | hpos
  · obtain rfl : i = 0 := Int.natAbs_eq_zero.mp hzero
    rw [ofInt, Int.natAbs_zero, Nat.zero_mul, ofQuotient_zero _ Nat.one_pos]
    exact ⟨0, value?_zero_div _ hd hd', by simp⟩
  · obtain ⟨r, hrrep, hreq, hr⟩ := ofQuotient_converted_near (i < 0) false hpos hi hd hd'
    have habs : |(i / d : ℚ)| = i.natAbs / d := by
      rw [abs_div, Nat.abs_cast, Nat.cast_natAbs, Int.cast_abs]
    have hparts : (4 : ℚ) * (1 / 2 ^ 53) = 1 / 2 ^ 51 := by norm_num
    rw [ofInt, ofNat, hreq, value?_finite, Bool.xor_false, habs]
    rw [hparts, mul_one_div] at hr
    refine ⟨_, rfl, ?_⟩
    by_cases hnegative : i < 0
    · have hnum : (i : ℚ) = -(i.natAbs : ℚ) := by
        rw [Nat.cast_natAbs, abs_of_neg hnegative]
        push_cast
        ring
      rw [hnum, if_pos (decide_eq_true hnegative), neg_div, neg_div, ← neg_sub', abs_neg]
      exact hr
    · have hnum : (i : ℚ) = i.natAbs := by
        rw [Nat.cast_natAbs, abs_of_nonneg (not_lt.mp hnegative)]
      rw [hnum, if_neg (by simpa using hnegative)]
      exact hr

end Quotients

end RowReduction.Binary64

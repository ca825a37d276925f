import RowReduction.Proofs.Fraction.Value
import Mathlib.Algebra.Order.Field.Power
import Mathlib.Algebra.Order.Group.Nat
import Mathlib.Tactic.GCongr
import Mathlib.Tactic.Linarith
import Mathlib.Tactic.Positivity

/-!
# Fractions cut to a thousand bits

Before a fraction is approximated, both of its parts are shifted until the
longer one has a thousand bits. The quotient of what is left is near the value
while the shorter part keeps enough bits, that is while the value is between
`2 ^ -944` and `2 ^ 944`. Beyond `2 ^ 1000` nothing is left of the denominator,
and below `2 ^ -1000` nothing of the numerator but its sign.
-/

namespace RowReduction.Fraction

-- Powers are those of the core library wherever the module is compiled.
attribute [local instance (high)] instPowNat

variable {a : Fraction}

section Bits

theorem lt_two_pow_iff {n k : ℕ} : n < 2 ^ k ↔ bitLength n ≤ k := by
  unfold bitLength
  split_ifs with hn
  · simp [hn]
  · exact (Nat.log2_lt hn).symm

theorem natAbs_num_lt (a : Fraction) : a.num.natAbs < 2 ^ (a.excessBits + 1000) := by
  apply lt_two_pow_iff.mpr
  unfold excessBits
  omega

theorem den_lt (a : Fraction) : a.den < 2 ^ (a.excessBits + 1000) := by
  apply lt_two_pow_iff.mpr
  unfold excessBits
  omega

/-- A fraction that is cut has a part with a thousand bits more than are cut. -/
theorem le_part_of_excessBits_pos (h : 0 < a.excessBits) :
    2 ^ (a.excessBits + 999) ≤ a.num.natAbs ∨ 2 ^ (a.excessBits + 999) ≤ a.den := by
  rw [← Nat.not_lt, ← Nat.not_lt, lt_two_pow_iff, lt_two_pow_iff]
  unfold excessBits at h ⊢
  omega

end Bits

section Parts

/-- What is left of the numerator. -/
def cutNum (a : Fraction) : ℤ := a.num >>> a.excessBits

/-- What is left of the denominator. -/
def cutDen (a : Fraction) : ℕ := a.den >>> a.excessBits

theorem toBinary64_eq (a : Fraction) :
    a.toBinary64 = if a.cutDen = 0 then .infinity (a.cutNum < 0)
      else .ofInt a.cutNum / .ofNat a.cutDen :=
  rfl

/-- The weight of the last bit that is left. -/
def cutUnit (a : Fraction) : ℚ := 2 ^ a.excessBits

theorem cutUnit_pos (a : Fraction) : 0 < a.cutUnit := by
  unfold cutUnit
  positivity

theorem cutNum_bounds (a : Fraction) :
    a.cutNum * a.cutUnit ≤ a.num ∧ (a.num : ℚ) < (a.cutNum + 1) * a.cutUnit := by
  have hpower : (0 : ℤ) < (2 ^ a.excessBits : ℕ) := by positivity
  have hcut : a.cutNum = a.num / (2 ^ a.excessBits : ℕ) := Int.shiftRight_eq_div_pow _ _
  have hlower : a.cutNum * (2 ^ a.excessBits : ℕ) ≤ a.num := by
    rw [hcut]
    exact Int.ediv_mul_le _ hpower.ne'
  have hupper : a.num < (a.cutNum + 1) * (2 ^ a.excessBits : ℕ) := by
    rw [hcut]
    exact Int.lt_ediv_add_one_mul_self _ hpower
  unfold cutUnit
  exact ⟨mod_cast hlower, mod_cast hupper⟩

theorem cutDen_bounds (a : Fraction) :
    a.cutDen * a.cutUnit ≤ a.den ∧ (a.den : ℚ) < (a.cutDen + 1) * a.cutUnit := by
  have hcut : a.cutDen = a.den / 2 ^ a.excessBits := Nat.shiftRight_eq_div_pow _ _
  have hlower : a.cutDen * 2 ^ a.excessBits ≤ a.den := by
    rw [hcut]
    exact Nat.div_mul_le_self _ _
  have hupper : a.den < (a.cutDen + 1) * 2 ^ a.excessBits := by
    rw [hcut, Nat.add_mul, Nat.one_mul]
    exact Nat.lt_div_mul_add (Nat.two_pow_pos _)
  unfold cutUnit
  exact ⟨mod_cast hlower, mod_cast hupper⟩

end Parts

section Error

/-- The quotient of what is left. -/
def cutQuotient (a : Fraction) : ℚ := a.cutNum / a.cutDen

/-- The value is the quotient of the sizes of the parts, up to its sign. -/
theorem abs_value (a : Fraction) : |a.value| = a.num.natAbs / a.den := by
  rw [value, abs_div, Nat.abs_cast, Nat.cast_natAbs, Int.cast_abs]

/-- Cutting both parts moves the quotient by at most the weight of the last bit over the
denominator, as many times as the quotient and one say. -/
theorem abs_cutQuotient_sub_le_unit (h : 0 < a.cutDen) :
    |a.cutQuotient - a.value| ≤ a.cutUnit / a.den * (|a.cutQuotient| + 1) := by
  have hden : (0 : ℚ) < a.den := Nat.cast_pos.mpr a.den_pos
  have hcut : (0 : ℚ) < a.cutDen := Nat.cast_pos.mpr h
  obtain ⟨hnum, hnum'⟩ := a.cutNum_bounds
  obtain ⟨hcutDen, hcutDen'⟩ := a.cutDen_bounds
  have hunit := a.cutUnit_pos
  have hdifference : a.cutQuotient - a.value =
      (a.cutNum * (a.den - a.cutDen * a.cutUnit) -
        a.cutDen * (a.num - a.cutNum * a.cutUnit)) / (a.cutDen * a.den) := by
    rw [cutQuotient, value]
    field_simp
    ring
  have hleft : |a.cutNum * (a.den - a.cutDen * a.cutUnit)| ≤ |(a.cutNum : ℚ)| * a.cutUnit := by
    rw [abs_mul]
    apply mul_le_mul_of_nonneg_left _ (abs_nonneg _)
    rw [abs_le]
    constructor <;> linarith
  have hright : |a.cutDen * (a.num - a.cutNum * a.cutUnit)| ≤ a.cutDen * a.cutUnit := by
    rw [abs_mul, Nat.abs_cast]
    apply mul_le_mul_of_nonneg_left _ hcut.le
    rw [abs_le]
    constructor <;> linarith
  calc
    |a.cutQuotient - a.value| =
        |a.cutNum * (a.den - a.cutDen * a.cutUnit) -
          a.cutDen * (a.num - a.cutNum * a.cutUnit)| / (a.cutDen * a.den) := by
      rw [hdifference, abs_div, abs_of_pos (mul_pos hcut hden)]
    _ ≤ (|(a.cutNum : ℚ)| * a.cutUnit + a.cutDen * a.cutUnit) / (a.cutDen * a.den) := by
      apply div_le_div_of_nonneg_right _ (mul_pos hcut hden).le
      exact (abs_sub _ _).trans (add_le_add hleft hright)
    _ = a.cutUnit / a.den * (|a.cutQuotient| + 1) := by
      rw [cutQuotient, abs_div, Nat.abs_cast]
      field_simp

/-- The weight of the last bit is small against the longer part. -/
theorem cutUnit_div_den_le (h : 0 < a.excessBits) :
    a.cutUnit / a.den ≤ max 1 |a.value| / 2 ^ 999 := by
  have hden : (0 : ℚ) < a.den := Nat.cast_pos.mpr a.den_pos
  have hscale : ∀ {n : ℕ}, 2 ^ (a.excessBits + 999) ≤ n → a.cutUnit ≤ n / 2 ^ 999 := by
    intro n hn
    apply (le_div_iff₀ (by positivity)).mpr
    have hcast : ((2 ^ (a.excessBits + 999) : ℕ) : ℚ) ≤ n := Nat.cast_le.mpr hn
    rwa [Nat.cast_pow, Nat.cast_two, pow_add] at hcast
  rcases le_part_of_excessBits_pos h with hnum | hden'
  · calc
      a.cutUnit / a.den ≤ (a.num.natAbs / 2 ^ 999) / a.den :=
        div_le_div_of_nonneg_right (hscale hnum) hden.le
      _ = |a.value| / 2 ^ 999 := by rw [abs_value, div_right_comm]
      _ ≤ max 1 |a.value| / 2 ^ 999 :=
        div_le_div_of_nonneg_right (le_max_right _ _) (by positivity)
  · calc
      a.cutUnit / a.den ≤ (a.den / 2 ^ 999) / a.den :=
        div_le_div_of_nonneg_right (hscale hden') hden.le
      _ = 1 / 2 ^ 999 := by rw [div_right_comm, div_self hden.ne']
      _ ≤ max 1 |a.value| / 2 ^ 999 :=
        div_le_div_of_nonneg_right (le_max_left _ _) (by positivity)

/-- The error of cutting. Fractions with short parts are not changed at all. -/
theorem abs_cut_sub_le (h : 0 < a.cutDen) :
    |a.cutQuotient - a.value| ≤ max 1 |a.value| / 2 ^ 999 * (|a.cutQuotient| + 1) := by
  rcases Nat.eq_zero_or_pos a.excessBits with hzero | hpos
  · have hexact : a.cutQuotient = a.value := by simp [cutQuotient, cutNum, cutDen, value, hzero]
    rw [hexact, sub_self, abs_zero]
    positivity
  · exact (abs_cutQuotient_sub_le_unit h).trans
      (mul_le_mul_of_nonneg_right (cutUnit_div_den_le hpos) (by positivity))

end Error

section Bounds

/-- Nothing is left of a denominator only if the value is beyond `2 ^ 999`. -/
theorem two_pow_lt_of_cutDen_eq_zero (h : a.cutDen = 0) : 2 ^ 999 < |a.value| := by
  have hden : (0 : ℚ) < a.den := Nat.cast_pos.mpr a.den_pos
  have hcut : (a.den : ℚ) < a.cutUnit := by simpa [h] using a.cutDen_bounds.2
  have hunit : a.cutUnit = (2 ^ a.excessBits : ℕ) := (Nat.cast_pow 2 _).symm
  have hcut' : a.den < 2 ^ a.excessBits := by
    rw [hunit] at hcut
    exact Nat.cast_lt.mp hcut
  have hpos : 0 < a.excessBits := by
    apply Nat.pos_of_ne_zero
    intro hzero
    rw [hzero] at hcut'
    exact Nat.not_lt.mpr a.den_pos hcut'
  have hnum : 2 ^ (a.excessBits + 999) ≤ a.num.natAbs := by
    apply (le_part_of_excessBits_pos hpos).resolve_right
    intro hlarge
    have hgrow : 2 ^ a.excessBits ≤ 2 ^ (a.excessBits + 999) :=
      Nat.pow_le_pow_right two_pos (Nat.le_add_right _ _)
    omega
  rw [abs_value, lt_div_iff₀ hden]
  calc
    2 ^ 999 * (a.den : ℚ) < 2 ^ 999 * a.cutUnit := mul_lt_mul_of_pos_left hcut (by positivity)
    _ = ((2 ^ (a.excessBits + 999) : ℕ) : ℚ) := by
      rw [cutUnit, Nat.cast_pow, Nat.cast_two, pow_add, mul_comm]
    _ ≤ a.num.natAbs := Nat.cast_le.mpr hnum

theorem abs_num_lt_mul_cutUnit (a : Fraction) : |(a.num : ℚ)| < 2 ^ 1000 * a.cutUnit := by
  have h : (a.num.natAbs : ℚ) < (2 ^ (a.excessBits + 1000) : ℕ) := Nat.cast_lt.mpr a.natAbs_num_lt
  rwa [Nat.cast_pow, Nat.cast_two, pow_add, mul_comm, Nat.cast_natAbs, Int.cast_abs] at h

theorem den_lt_mul_cutUnit (a : Fraction) : (a.den : ℚ) < 2 ^ 1000 * a.cutUnit := by
  have h : (a.den : ℚ) < (2 ^ (a.excessBits + 1000) : ℕ) := Nat.cast_lt.mpr a.den_lt
  rwa [Nat.cast_pow, Nat.cast_two, pow_add, mul_comm] at h

/-- Nothing is left of the denominator from `2 ^ 1000` on. -/
theorem cutDen_eq_zero (h : 2 ^ 1000 ≤ |a.value|) : a.cutDen = 0 := by
  have hden : (0 : ℚ) < a.den := Nat.cast_pos.mpr a.den_pos
  rw [value, abs_div, Nat.abs_cast, le_div_iff₀ hden] at h
  have hlt : (a.den : ℚ) < a.cutUnit :=
    lt_of_mul_lt_mul_left (h.trans_lt a.abs_num_lt_mul_cutUnit) (by positivity)
  have hcut : (a.cutDen : ℚ) * a.cutUnit < 1 * a.cutUnit := by
    rw [one_mul]
    exact a.cutDen_bounds.1.trans_lt hlt
  have hone : (a.cutDen : ℚ) < 1 := lt_of_mul_lt_mul_right hcut a.cutUnit_pos.le
  exact Nat.lt_one_iff.mp (mod_cast hone)

theorem cutDen_lt (a : Fraction) : (a.cutDen : ℚ) < 2 ^ 1000 :=
  lt_of_mul_lt_mul_right (a.cutDen_bounds.1.trans_lt a.den_lt_mul_cutUnit) a.cutUnit_pos.le

/-- The sign of the numerator is left. -/
theorem cutNum_neg_iff : a.cutNum < 0 ↔ a.num < 0 := by
  have hunit := a.cutUnit_pos
  obtain ⟨hlower, hupper⟩ := a.cutNum_bounds
  constructor
  · intro h
    by_contra hnum
    have hcast : (0 : ℚ) ≤ a.num := Int.cast_nonneg (not_lt.mp hnum)
    have hpos : (0 : ℚ) < a.cutNum + 1 := pos_of_mul_pos_left (hcast.trans_lt hupper) hunit.le
    have hpos : 0 < a.cutNum + 1 := mod_cast hpos
    omega
  · intro h
    have hcast : (a.num : ℚ) < 0 := Int.cast_lt_zero.mpr h
    have hneg : (a.cutNum : ℚ) < 0 := neg_of_mul_neg_left (hlower.trans_lt hcast) hunit.le
    exact_mod_cast hneg

/-- What is left of the numerator has at most a thousand bits. -/
theorem natAbs_cutNum_le (a : Fraction) : (a.cutNum.natAbs : ℚ) ≤ 2 ^ 1000 := by
  have hunit := a.cutUnit_pos
  obtain ⟨hlower, hupper⟩ := a.cutNum_bounds
  have hnum := a.abs_num_lt_mul_cutUnit
  have hcast : (2 : ℚ) ^ 1000 = (2 ^ 1000 : ℕ) := by rw [Nat.cast_pow, Nat.cast_two]
  rw [hcast, abs_lt] at hnum
  rw [hcast]
  generalize 2 ^ 1000 = B at hnum ⊢
  have hle : (a.cutNum : ℚ) < B := by
    apply lt_of_mul_lt_mul_right _ hunit.le
    linarith
  have hge : -(B : ℚ) < a.cutNum + 1 := by
    apply lt_of_mul_lt_mul_right _ hunit.le
    linarith
  have hle : a.cutNum < B := mod_cast hle
  have hge : -(B : ℤ) < a.cutNum + 1 := mod_cast hge
  exact Nat.cast_le.mpr (by omega)

/-- Nothing but the sign is left of the numerator below `2 ^ -1000`. -/
theorem cutNum_eq (h : |a.value| < 1 / 2 ^ 1000) : a.cutNum = if a.num < 0 then -1 else 0 := by
  have hden : (0 : ℚ) < a.den := Nat.cast_pos.mpr a.den_pos
  have hunit := a.cutUnit_pos
  rw [abs_value, div_lt_div_iff₀ hden (by positivity), one_mul, mul_comm] at h
  have hnum : (a.num.natAbs : ℚ) < a.cutUnit :=
    lt_of_mul_lt_mul_left (h.trans a.den_lt_mul_cutUnit) (by positivity)
  rw [Nat.cast_natAbs, Int.cast_abs, abs_lt] at hnum
  obtain ⟨hlower, hupper⟩ := a.cutNum_bounds
  have hle : (a.cutNum : ℚ) < 1 := by
    apply lt_of_mul_lt_mul_right _ hunit.le
    linarith
  have hge : (-2 : ℚ) < a.cutNum := by
    apply lt_of_mul_lt_mul_right _ hunit.le
    linarith
  have hle : a.cutNum < 1 := mod_cast hle
  have hge : -2 < a.cutNum := mod_cast hge
  have hsign := cutNum_neg_iff (a := a)
  split_ifs with hnegative <;> omega

/-- An error that grows with the size of the approximation is bounded by the size of what is
approximated, because the approximation is not much larger. -/
theorem error_le_of_error_le_mul {T x A E : ℚ} (hT : 1 ≤ T) (hx : x ≤ T) (hA : 0 ≤ A)
    (hAE : A ≤ x + E) (hE : E ≤ max 1 x / (T * 2 ^ 55) * (A + 1)) :
    E ≤ max x (1 / T) / 2 ^ 53 := by
  have hT0 : 0 < T := by linarith
  have hM : max 1 x ≤ T := max_le hT hx
  have hone : 1 ≤ max 1 x := le_max_left _ _
  have hxM : x ≤ max 1 x := le_max_right _ _
  have hfactor : max 1 x / (T * 2 ^ 55) ≤ 1 / 2 ^ 55 := by
    rw [div_le_div_iff₀ (by positivity) (by positivity)]
    linarith
  have hrough : E ≤ 1 / 2 ^ 55 * (A + 1) :=
    hE.trans (mul_le_mul_of_nonneg_right hfactor (by linarith))
  have hsize : A + 1 ≤ 4 * max 1 x := by linarith
  have hsquare : max 1 x * max 1 x / T ≤ max x (1 / T) := by
    rcases le_total x 1 with hx1 | hx1
    · rw [max_eq_left hx1, one_mul]
      exact le_max_right _ _
    · rw [max_eq_right hx1]
      apply le_max_of_le_left
      rw [div_le_iff₀ hT0]
      exact mul_le_mul_of_nonneg_left hx (by linarith)
  calc
    E ≤ max 1 x / (T * 2 ^ 55) * (A + 1) := hE
    _ ≤ max 1 x / (T * 2 ^ 55) * (4 * max 1 x) :=
      mul_le_mul_of_nonneg_left hsize (by positivity)
    _ = max 1 x * max 1 x / T / 2 ^ 53 := by
      field_simp
      ring
    _ ≤ max x (1 / T) / 2 ^ 53 := div_le_div_of_nonneg_right hsquare (by positivity)

/-- Up to `2 ^ 944` something is left of the denominator, and cutting moves the value by at most its
`2 ^ 53`-rd part, or by that part of `2 ^ -944` where the value is smaller. -/
theorem abs_cutQuotient_sub_value_le (h : |a.value| ≤ 2 ^ 944) :
    0 < a.cutDen ∧ |a.cutQuotient - a.value| ≤ max |a.value| (1 / 2 ^ 944) / 2 ^ 53 := by
  have hcut : 0 < a.cutDen := by
    apply Nat.pos_of_ne_zero
    intro hzero
    have hpowers : (2 : ℚ) ^ 944 < 2 ^ 999 := pow_lt_pow_right₀ one_lt_two (by decide)
    exact absurd ((two_pow_lt_of_cutDen_eq_zero hzero).trans_le h) hpowers.not_gt
  refine ⟨hcut, ?_⟩
  have herror := abs_cut_sub_le hcut
  have hquotient : |a.cutQuotient| ≤ |a.value| + |a.cutQuotient - a.value| := by
    linarith [abs_sub_abs_le_abs_sub a.cutQuotient a.value]
  have hsplit : (2 : ℚ) ^ 999 = 2 ^ 944 * 2 ^ 55 := by rw [← pow_add]
  have hbound : (1 : ℚ) ≤ 2 ^ 944 := one_le_pow₀ one_le_two
  rw [hsplit] at herror
  exact error_le_of_error_le_mul hbound h (abs_nonneg _) hquotient herror

end Bounds

end RowReduction.Fraction

import RowReduction.Proofs.Binary64.Accuracy
import RowReduction.Proofs.Fraction.Cutting

/-!
# The approximation of a fraction

A fraction between `2 ^ -944` and `2 ^ 944`, of either sign and with parts of
any length, is approximated up to its `2 ^ 50`-th part: cutting moves it by less
than the three roundings do. Outside of these bounds the approximation is not
that of the value. From `2 ^ 1000` on it is an infinity, although the format has
numbers up to `2 ^ 1024`. Below `2 ^ -1000` it is zero for positive fractions,
and a number of a size that the fraction does not have for negative ones.
-/

namespace RowReduction.Fraction

open Binary64 (value? value?_ofInt_div_ofNat ofQuotient_zero)

variable {a : Fraction} {B : ℚ}

section Moderate

/-- The conversion of what is left is off by at most its `2 ^ 51`-st part. -/
theorem toBinary64_value? (h : 0 < a.cutDen) :
    ∃ y, a.toBinary64.value? = some y ∧ |y - a.cutQuotient| ≤ |a.cutQuotient| / 2 ^ 51 := by
  rw [toBinary64_eq, if_neg h.ne']
  exact value?_ofInt_div_ofNat a.natAbs_cutNum_le h a.cutDen_lt.le

/-- Two errors after one another, the second of which is relative to the first result. -/
theorem abs_sub_le_of_errors {x c y : ℚ} (hc : |c - x| ≤ |x| / 2 ^ 53)
    (hy : |y - c| ≤ |c| / 2 ^ 51) : |y - x| ≤ |x| / 2 ^ 50 := by
  have hsize := abs_sub_abs_le_abs_sub c x
  have hsum := abs_sub_le y c x
  have hx := abs_nonneg x
  linarith

theorem toBinary64_near (h : 1 / 2 ^ 944 ≤ |a.value|) (h' : |a.value| ≤ 2 ^ 944) :
    ∃ y, a.toBinary64.value? = some y ∧ |y - a.value| ≤ |a.value| / 2 ^ 50 := by
  obtain ⟨hcut, herror⟩ := abs_cutQuotient_sub_value_le h'
  obtain ⟨y, hy, hnear⟩ := toBinary64_value? hcut
  rw [max_eq_left h] at herror
  exact ⟨y, hy, abs_sub_le_of_errors herror hnear⟩

end Moderate

section Bounds

theorem pos_of_moderate (hB : 1 / 2 ^ 944 ≤ B) : 0 < B :=
  (by positivity : (0 : ℚ) < 1 / 2 ^ 944).trans_le hB

/-- A bound of moderate size is a bound of the approximation, up to the errors. -/
theorem toBinary64_abs_le (hB : 1 / 2 ^ 944 ≤ B) (hB' : B ≤ 2 ^ 944) (h : |a.value| ≤ B) :
    ∃ y, a.toBinary64.value? = some y ∧ |y| ≤ B * (1 + 1 / 2 ^ 50) := by
  obtain ⟨hcut, herror⟩ := abs_cutQuotient_sub_value_le (h.trans hB')
  obtain ⟨y, hy, hnear⟩ := toBinary64_value? hcut
  have herror : |a.cutQuotient - a.value| ≤ B / 2 ^ 53 :=
    herror.trans (div_le_div_of_nonneg_right (max_le h hB) (by positivity))
  have hcutSize := abs_sub_abs_le_abs_sub a.cutQuotient a.value
  have hsize := abs_sub_abs_le_abs_sub y a.cutQuotient
  have hvalue := abs_nonneg a.value
  refine ⟨y, hy, ?_⟩
  linarith

/-- A large number is not approximated by a small one with an error that grows with the size of the
approximation. -/
theorem lt_of_error_le_mul {T x A : ℚ} (hT : 1 ≤ T) (hx : T * 2 ≤ x)
    (hE : x - A ≤ max 1 x / (T * 2 ^ 56) * (A + 1)) : T < A := by
  by_contra hle
  have hsmall : A + 1 ≤ 2 * T := by linarith
  have hshare : x / (T * 2 ^ 56) * (2 * T) = x / 2 ^ 55 := by
    field_simp
  have herror : x - A ≤ x / 2 ^ 55 := by
    rw [max_eq_right (by linarith)] at hE
    rw [← hshare]
    exact hE.trans (mul_le_mul_of_nonneg_left hsmall (div_nonneg (by linarith) (by positivity)))
  linarith

/-- Cutting keeps a bound of moderate size from below, also for values that are beyond the moderate
ones. -/
theorem le_abs_cutQuotient (hcut : 0 < a.cutDen) (hB : 1 / 2 ^ 944 ≤ B) (hB' : B ≤ 2 ^ 943)
    (h : B ≤ |a.value|) : B * (1 - 1 / 2 ^ 53) ≤ |a.cutQuotient| := by
  have hsize : |a.value| - |a.cutQuotient| ≤ |a.cutQuotient - a.value| := by
    rw [abs_sub_comm]
    exact abs_sub_abs_le_abs_sub a.value a.cutQuotient
  -- The relative error of cutting is known up to `2 ^ 944`; beyond, a rough bound is enough.
  rcases le_total |a.value| (2 ^ 944) with hle | hge
  · have herror := (abs_cutQuotient_sub_value_le hle).2
    rw [max_eq_left (hB.trans h)] at herror
    linarith
  · have herror := abs_cut_sub_le hcut
    have hone : (1 : ℚ) ≤ 2 ^ 943 := one_le_pow₀ one_le_two
    have hdouble : (2 : ℚ) ^ 944 = 2 ^ 943 * 2 := by rw [← pow_succ]
    have hscale : (2 : ℚ) ^ 999 = 2 ^ 943 * 2 ^ 56 := by rw [← pow_add]
    have hBpos := pos_of_moderate hB
    rw [hdouble] at hge
    rw [hscale] at herror
    have hcutSize := lt_of_error_le_mul hone hge (hsize.trans herror)
    apply le_of_lt
    calc
      B * (1 - 1 / 2 ^ 53) ≤ B := mul_le_of_le_one_right hBpos.le (by norm_num)
      _ ≤ 2 ^ 943 := hB'
      _ < |a.cutQuotient| := hcutSize

/-- A bound of moderate size from below is one of the approximation, up to the errors, unless that
is an infinity. -/
theorem le_abs_toBinary64 (hB : 1 / 2 ^ 944 ≤ B) (hB' : B ≤ 2 ^ 943) (h : B ≤ |a.value|) :
    (∃ s, a.toBinary64 = .infinity s) ∨
      ∃ y, a.toBinary64.value? = some y ∧ B * (1 - 1 / 2 ^ 50) ≤ |y| := by
  rcases Nat.eq_zero_or_pos a.cutDen with hzero | hcut
  · left
    rw [toBinary64_eq, if_pos hzero]
    exact ⟨_, rfl⟩
  · right
    obtain ⟨y, hy, hnear⟩ := toBinary64_value? hcut
    have hcutSize := le_abs_cutQuotient hcut hB hB' h
    have hBpos := pos_of_moderate hB
    have hsize : |a.cutQuotient| - |y| ≤ |y - a.cutQuotient| := by
      rw [abs_sub_comm]
      exact abs_sub_abs_le_abs_sub a.cutQuotient y
    refine ⟨y, hy, ?_⟩
    linarith

end Bounds

section Extreme

/-- From `2 ^ 1000` on the approximation is an infinity. -/
theorem toBinary64_of_large (h : 2 ^ 1000 ≤ |a.value|) :
    a.toBinary64 = .infinity (a.value < 0) := by
  have hsign : a.cutNum < 0 ↔ a.value < 0 := by
    rw [cutNum_neg_iff, ← not_le, ← not_le, value_nonneg_iff]
  have hinfinity : a.toBinary64 = .infinity (a.cutNum < 0) := by
    rw [toBinary64_eq]
    exact if_pos (cutDen_eq_zero h)
  rw [hinfinity, decide_eq_decide.mpr hsign]

/-- Something is left of the denominators of fractions up to one. -/
theorem cutDen_pos_of_abs_value_le_one (h : |a.value| ≤ 1) : 0 < a.cutDen :=
  (abs_cutQuotient_sub_value_le (h.trans (one_le_pow₀ one_le_two))).1

theorem one_div_two_pow_le_one (k : ℕ) : (1 : ℚ) / 2 ^ k ≤ 1 :=
  (div_le_one (by positivity)).mpr (one_le_pow₀ one_le_two)

/-- Below `2 ^ -1000` fractions that are not negative are approximated by zero. -/
theorem toBinary64_of_small (h : 0 ≤ a.value) (h' : a.value < 1 / 2 ^ 1000) :
    a.toBinary64.value? = some 0 := by
  have habs : |a.value| < 1 / 2 ^ 1000 := by rwa [abs_of_nonneg h]
  have hcut := cutDen_pos_of_abs_value_le_one (habs.le.trans (one_div_two_pow_le_one _))
  obtain ⟨y, hy, hnear⟩ := toBinary64_value? hcut
  have hnum : a.cutNum = 0 := by
    apply (cutNum_eq habs).trans
    exact if_neg (not_lt.mpr (value_nonneg_iff.mp h))
  have hzero : a.cutQuotient = 0 := by rw [cutQuotient, hnum, Int.cast_zero, zero_div]
  rw [hzero, abs_zero, zero_div, sub_zero] at hnear
  rw [hy, abs_nonpos_iff.mp hnear]

/-- Below `2 ^ -1000` negative fractions are approximated by numbers beyond `2 ^ -1001`, because the
shift of their numerators is rounded down. -/
theorem toBinary64_of_small_neg (h : a.value < 0) (h' : -(1 / 2 ^ 1000) < a.value) :
    ∃ y, a.toBinary64.value? = some y ∧ y ≤ -(1 / 2 ^ 1001) := by
  have habs : |a.value| < 1 / 2 ^ 1000 := abs_lt.mpr ⟨h', h.trans (by positivity)⟩
  have hcut := cutDen_pos_of_abs_value_le_one (habs.le.trans (one_div_two_pow_le_one _))
  obtain ⟨y, hy, hnear⟩ := toBinary64_value? hcut
  refine ⟨y, hy, ?_⟩
  have hnegative : a.num < 0 := not_le.mp (mt value_nonneg_iff.mpr h.not_ge)
  have hnum : a.cutNum = -1 := (cutNum_eq habs).trans (if_pos hnegative)
  have hquotient : a.cutQuotient = -(1 / a.cutDen) := by
    rw [cutQuotient, hnum, Int.cast_neg, Int.cast_one, neg_div]
  have hden : (0 : ℚ) < a.cutDen := Nat.cast_pos.mpr hcut
  have hsize : 1 / 2 ^ 1000 ≤ (1 : ℚ) / a.cutDen := one_div_le_one_div_of_le hden a.cutDen_lt.le
  have hhalf : (1 : ℚ) / 2 ^ 1001 = 1 / 2 ^ 1000 / 2 := by rw [pow_succ, div_div]
  rw [hquotient, abs_neg, abs_of_pos (one_div_pos.mpr hden), abs_le] at hnear
  rw [hhalf]
  generalize (1 : ℚ) / 2 ^ 1000 = least at hsize ⊢
  linarith

end Extreme

section Accuracy

/-- What is converted, and how far it and its conversion are from the value. -/
theorem toBinary64_accuracy (a : Fraction) :
    (a.toBinary64 = if a.cutDen = 0 then .infinity (a.cutNum < 0)
      else .ofInt a.cutNum / .ofNat a.cutDen) ∧
    (0 < a.cutDen →
      |(a.cutNum : ℚ) / a.cutDen - a.value| ≤
        max 1 |a.value| / 2 ^ 999 * (|(a.cutNum : ℚ) / a.cutDen| + 1)) ∧
    (|a.value| ≤ 2 ^ 944 →
      0 < a.cutDen ∧
        |(a.cutNum : ℚ) / a.cutDen - a.value| ≤ max |a.value| (1 / 2 ^ 944) / 2 ^ 53) ∧
    (1 / 2 ^ 944 ≤ |a.value| → |a.value| ≤ 2 ^ 944 →
      ∃ y, a.toBinary64.value? = some y ∧ |y - a.value| ≤ |a.value| / 2 ^ 50) ∧
    (a.cutDen = 0 → 2 ^ 999 < |a.value|) ∧
    (2 ^ 1000 ≤ |a.value| → a.cutDen = 0 ∧ a.toBinary64 = .infinity (a.value < 0)) ∧
    (0 ≤ a.value → a.value < 1 / 2 ^ 1000 → a.toBinary64.value? = some 0) ∧
    (a.value < 0 → -(1 / 2 ^ 1000) < a.value →
      ∃ y, a.toBinary64.value? = some y ∧ y ≤ -(1 / 2 ^ 1001)) :=
  ⟨a.toBinary64_eq, abs_cut_sub_le, abs_cutQuotient_sub_value_le, toBinary64_near,
    two_pow_lt_of_cutDen_eq_zero, fun h => ⟨cutDen_eq_zero h, toBinary64_of_large h⟩,
    toBinary64_of_small, toBinary64_of_small_neg⟩

/-- A negative fraction of which both parts are longer than what is kept of them. -/
def long : Fraction := reduce (-2 ^ 1100) (3 ^ 694) (pow_pos three_pos 694)

theorem toBinary64_accuracy_long :
    0 < long.cutDen ∧
      ∃ y, long.toBinary64.value? = some y ∧ |y - long.value| ≤ |long.value| / 2 ^ 50 := by
  have hden : (0 : ℚ) < long.den := Nat.cast_pos.mpr long.den_pos
  have hparts : long.den ≤ long.num.natAbs ∧ long.num.natAbs ≤ 2 * long.den := by decide +kernel
  have hone : 1 ≤ |long.value| := by
    rw [abs_value, one_le_div₀ hden]
    exact Nat.cast_le.mpr hparts.1
  have htwo : |long.value| ≤ 2 := by
    rw [abs_value, div_le_iff₀ hden]
    exact_mod_cast hparts.2
  have hupper : |long.value| ≤ 2 ^ 944 := htwo.trans (le_self_pow₀ one_le_two (by decide))
  have hlower : 1 / 2 ^ 944 ≤ |long.value| := (one_div_two_pow_le_one _).trans hone
  obtain ⟨-, -, hcut, hnear, -⟩ := toBinary64_accuracy long
  exact ⟨(hcut hupper).1, hnear hlower hupper⟩

/-- Something is left of the denominator, and cutting moves the value by no more than a rounding to
the format does. -/
def CutAccurately (a : Fraction) : Prop :=
  0 < a.cutDen ∧ |(a.cutNum : ℚ) / a.cutDen - a.value| ≤ |a.value| / 2 ^ 53 + 1 / 2 ^ 1075

/-- Cutting is not accurate where it changes a value by half of it. -/
theorem not_cutAccurately_of_factor {a : Fraction} {c : ℚ} (hvalue : 1 / 2 ^ 1073 ≤ |a.value|)
    (hc : 1 / 2 ≤ |c - 1|) (h : (a.cutNum : ℚ) / a.cutDen = c * a.value) : ¬ a.CutAccurately := by
  rintro ⟨-, herror⟩
  have hdifference : c * a.value - a.value = (c - 1) * a.value := by ring
  have hsplit : (1 : ℚ) / 2 ^ 1075 = 1 / 2 ^ 1073 / 2 ^ 2 := by rw [div_div, ← pow_add]
  have hpos : (0 : ℚ) < 1 / 2 ^ 1073 := by positivity
  rw [h, hdifference, abs_mul, hsplit] at herror
  generalize (1 : ℚ) / 2 ^ 1073 = least at hvalue hpos herror
  have hhalf := mul_le_mul_of_nonneg_right hc (abs_nonneg a.value)
  linarith

/-- An integer of one bit more than is kept. -/
def large : Fraction := ofInt (2 ^ 1000)

/-- A fraction of which the denominator is shorter than what is cut from the numerator. -/
def uneven : Fraction := reduce (2 ^ 1000) 3 three_pos

/-- A negative fraction of which nothing but the sign is left of the numerator. -/
def small : Fraction := reduce (-1) (2 ^ 1070) (pow_pos two_pos 1070)

theorem value_large : large.value = 2 ^ 1000 := by
  rw [large, value_ofInt, Int.cast_pow, Int.cast_two]

theorem abs_value_large : |large.value| = 2 ^ 1000 := by
  rw [value_large]
  exact abs_of_pos (by positivity)

theorem abs_value_uneven : |uneven.value| = 2 ^ 1000 / 3 := by
  rw [uneven, value_reduce, Int.cast_pow, Int.cast_two, Nat.cast_ofNat]
  exact abs_of_pos (by positivity)

theorem value_small : small.value = -(1 / 2 ^ 1070) := by
  rw [small, value_reduce, Nat.cast_pow, Nat.cast_two, Int.cast_neg, Int.cast_one, neg_div]

theorem abs_value_small : |small.value| = 1 / 2 ^ 1070 := by
  rw [value_small, abs_neg]
  exact abs_of_pos (by positivity)

theorem cut_uneven : (uneven.cutNum : ℚ) / uneven.cutDen = 3 / 2 * uneven.value := by
  obtain ⟨hnum, hden⟩ : uneven.cutNum = 2 ^ 999 ∧ uneven.cutDen = 1 := by decide +kernel
  have hdouble : (2 : ℚ) ^ 1000 = 2 ^ 999 * 2 := by rw [← pow_succ]
  rw [hnum, hden, uneven, value_reduce, Int.cast_pow, Int.cast_pow, Int.cast_two, hdouble,
    Nat.cast_one, Nat.cast_ofNat]
  generalize (2 : ℚ) ^ 999 = power
  ring

theorem cut_small : (small.cutNum : ℚ) / small.cutDen = 2 ^ 71 * small.value := by
  obtain ⟨hnum, hden⟩ : small.cutNum = -1 ∧ small.cutDen = 2 ^ 999 := by decide +kernel
  have hsplit : (2 : ℚ) ^ 1070 = 2 ^ 71 * 2 ^ 999 := by rw [← pow_add]
  rw [hnum, hden, value_small, hsplit, Int.cast_neg, Int.cast_one, Nat.cast_pow, Nat.cast_two]
  field_simp

theorem not_cutAccurately_large : ¬ large.CutAccurately := by
  rintro ⟨hpos, -⟩
  exact hpos.ne' (cutDen_eq_zero abs_value_large.ge)

theorem not_cutAccurately_uneven : ¬ uneven.CutAccurately := by
  have hpower : (1 : ℚ) ≤ 2 ^ 1000 := one_le_pow₀ one_le_two
  have hthree : (3 : ℚ) ≤ 2 ^ 1073 := by
    calc
      (3 : ℚ) ≤ 2 ^ 2 := by norm_num
      _ ≤ 2 ^ 1073 := pow_le_pow_right₀ one_le_two (by decide)
  refine not_cutAccurately_of_factor ?_ (by norm_num [abs_of_pos]) cut_uneven
  rw [abs_value_uneven]
  exact div_le_div₀ (by positivity) hpower three_pos hthree

theorem not_cutAccurately_small : ¬ small.CutAccurately := by
  refine not_cutAccurately_of_factor ?_ (by norm_num [abs_of_pos]) cut_small
  rw [abs_value_small]
  exact one_div_pow_le_one_div_pow_of_le one_le_two (by decide)

/-- Within the range of the format, a denominator can be lost, so that a number of the format
becomes an infinity, and fractions can be cut to others of a different magnitude. -/
theorem not_cutAccurately_within_format :
    (|large.value| ≤ (2 ^ 53 - 1) * 2 ^ 971 ∧ ¬ large.CutAccurately ∧
      large.toBinary64 = .infinity false) ∧
    (|uneven.value| ≤ (2 ^ 53 - 1) * 2 ^ 971 ∧ ¬ uneven.CutAccurately ∧
      (uneven.cutNum : ℚ) / uneven.cutDen = 3 / 2 * uneven.value) ∧
    (|small.value| ≤ (2 ^ 53 - 1) * 2 ^ 971 ∧ ¬ small.CutAccurately ∧
      (small.cutNum : ℚ) / small.cutDen = 2 ^ 71 * small.value) := by
  have hgreatest : (2 : ℚ) ^ 1000 ≤ (2 ^ 53 - 1) * 2 ^ 971 := by
    have hsplit : (2 : ℚ) ^ 1000 = 2 ^ 29 * 2 ^ 971 := by rw [← pow_add]
    rw [hsplit]
    exact mul_le_mul_of_nonneg_right (by norm_num) (by positivity)
  have hone : (1 : ℚ) ≤ 2 ^ 1000 := one_le_pow₀ one_le_two
  have hsign : ¬ large.value < 0 := by
    rw [value_large]
    exact not_lt.mpr (by positivity)
  have hinfinity : large.toBinary64 = .infinity false := by
    rw [toBinary64_of_large abs_value_large.ge, decide_eq_false hsign]
  have huneven : |uneven.value| ≤ 2 ^ 1000 :=
    abs_value_uneven.trans_le (div_le_self (by positivity) (by norm_num))
  have hsmall : |small.value| ≤ 1 := abs_value_small.trans_le (one_div_two_pow_le_one _)
  exact ⟨⟨abs_value_large.trans_le hgreatest, not_cutAccurately_large, hinfinity⟩,
    ⟨huneven.trans hgreatest, not_cutAccurately_uneven, cut_uneven⟩,
    hsmall.trans (hone.trans hgreatest), not_cutAccurately_small, cut_small⟩

end Accuracy

end RowReduction.Fraction

import RowReduction.Binary64.Bits
import RowReduction.Proofs.Binary64.Accuracy

/-!
# Rounded operations on values

An operation on finite numbers gives the number nearest to the exact result of
their values, unless that result is as far from zero as the middle between the
greatest number of the format and the next power of two, or further. Rounding
of values is monotone and odd, keeps the values of the format, and changes a
value by at most its `2 ^ 53`-rd part and half a unit.
-/

namespace RowReduction.Binary64

-- Powers are those of the core library wherever the module is compiled.
attribute [local instance (high)] instPowNat

section Overflow

/-- The number of places of the last bit of the greatest magnitude, less one. -/
def lastShift : ℕ := 2044

theorem places_eq_lastShift : 54 + lastShift = unitPlaces + 1024 := by
  simp [lastShift, unitPlaces]

/-- The greatest magnitude of the format. -/
theorem representable_greatest : Representable ((2 ^ 53 - 1) * 2 ^ (lastShift + 1)) :=
  representable_shift (by decide) (by decide)

/-- The middle between the greatest magnitude and the next power of two is rounded up. -/
theorem roundQuotient_middle : roundQuotient ((2 ^ 54 - 1) * 2 ^ lastShift) 1 = unitsLimit := by
  decide +kernel

theorem unitsPerOne_cast_eq : (unitsPerOne : ℚ) = 2 ^ 1074 :=
  unitsPerOne_cast

theorem lastShift_cast : ((2 ^ lastShift : ℕ) : ℚ) = 2 ^ 2044 :=
  Nat.cast_pow 2 lastShift

-- Powers with these exponents are numbers too large to be computed with.
attribute [local irreducible] lastShift unitPlaces

theorem unitsLimit_eq : unitsLimit = 2 ^ 54 * 2 ^ lastShift := by
  rw [← Nat.pow_add, places_eq_lastShift]
  rfl

theorem rounded_middle : rounded (((2 ^ 54 - 1) * 2 ^ lastShift : ℕ) : ℚ) = unitsLimit := by
  rw [← roundQuotient_middle, roundQuotient_eq_rounded _ Nat.one_pos, Nat.cast_one, div_one]

/-- Exactly the magnitudes below the middle are rounded to magnitudes of the format. -/
theorem rounded_lt_unitsLimit_iff {x : ℚ} (hx : 0 ≤ x) :
    rounded x < unitsLimit ↔ x < ((2 ^ 54 - 1) * 2 ^ lastShift : ℕ) := by
  constructor
  · intro h
    by_contra hge
    have hmono := rounded_mono (not_lt.mp hge)
    rw [rounded_middle] at hmono
    exact absurd h hmono.not_gt
  · intro h
    have hgreatest := representable_greatest
    rcases le_total x ((2 ^ 53 - 1) * 2 ^ (lastShift + 1) : ℕ) with hle | hge
    · have hmono := rounded_mono hle
      rw [rounded_natCast hgreatest] at hmono
      exact hmono.trans_lt hgreatest.1
    · -- The greatest magnitude is nearer than anything from the next power of two on.
      have hnear := (le_abs_self _).trans (abs_rounded_sub_le_abs_sub hx hgreatest)
      rw [abs_of_nonpos (sub_nonpos.mpr hge)] at hnear
      by_contra hlimit
      have hlimit : (unitsLimit : ℚ) ≤ rounded x := Nat.cast_le.mpr (not_lt.mp hlimit)
      have hdouble : 2 ^ (lastShift + 1) = 2 ^ lastShift * 2 := Nat.pow_succ ..
      rw [unitsLimit_eq] at hlimit
      rw [hdouble] at hnear
      generalize 2 ^ lastShift = half at h hnear hlimit
      push_cast at h hnear hlimit
      norm_num at h hnear hlimit
      linarith

/-- Values from here on, of either sign, are not rounded to finite numbers: the middle between the
greatest number of the format and the next power of two. -/
def overflow : ℚ := 2 ^ 1024 - 2 ^ 970

theorem overflow_mul_unitsPerOne :
    overflow * unitsPerOne = ((2 ^ 54 - 1) * 2 ^ lastShift : ℕ) := by
  have hlimit : (2 : ℚ) ^ 1024 * 2 ^ 1074 = 2 ^ 54 * 2 ^ 2044 := by rw [← pow_add, ← pow_add]
  have hhalf : (2 : ℚ) ^ 970 * 2 ^ 1074 = 2 ^ 2044 := by rw [← pow_add]
  rw [overflow, unitsPerOne_cast_eq, sub_mul, hlimit, hhalf, Nat.cast_mul, lastShift_cast]
  generalize (2 : ℚ) ^ 2044 = half
  push_cast
  ring

theorem lt_overflow_of_le {q : ℚ} {k : ℕ} (h : q ≤ 2 ^ k) (hk : k < 1024) : q < overflow := by
  have hdouble : (2 : ℚ) ^ 1024 = 2 * 2 ^ 1023 := by rw [← pow_succ']
  have hsmall : (2 : ℚ) ^ 970 < 2 ^ 1023 := pow_lt_pow_right₀ one_lt_two (by decide)
  have hle : (2 : ℚ) ^ k ≤ 2 ^ 1023 := pow_le_pow_right₀ one_le_two (by omega)
  rw [overflow, hdouble]
  generalize (2 : ℚ) ^ 970 = small at hsmall ⊢
  generalize (2 : ℚ) ^ 1023 = half at hsmall hle ⊢
  linarith

end Overflow

-- The units in one and beyond the format are numbers too large to be computed with.
attribute [local irreducible] unitsPerOne unitsLimit

variable {q r v w : ℚ} {x y : Binary64}

section Nearest

/-- The value nearest to a rational number, were the format unbounded. Negative numbers of units
are rounded to zero, so that one of the two magnitudes is zero. -/
def nearest (q : ℚ) : ℚ :=
  ((rounded (q * unitsPerOne) : ℚ) - rounded (-q * unitsPerOne)) / unitsPerOne

theorem nearest_neg (q : ℚ) : nearest (-q) = -nearest q := by
  rw [nearest, nearest, neg_neg, ← neg_div, neg_sub]

theorem nearest_of_nonneg (h : 0 ≤ q) : nearest q = rounded (q * unitsPerOne) / unitsPerOne := by
  have hzero : rounded (-q * unitsPerOne) = 0 := by
    apply rounded_eq_zero
    have := mul_nonneg h unitsPerOne_cast_pos.le
    linarith
  rw [nearest, hzero, Nat.cast_zero, sub_zero]

theorem nearest_nonneg (h : 0 ≤ q) : 0 ≤ nearest q := by
  rw [nearest_of_nonneg h]
  exact div_nonneg (Nat.cast_nonneg _) (Nat.cast_nonneg _)

theorem nearest_mono : Monotone nearest := by
  intro q r h
  have hU := unitsPerOne_cast_pos
  have hupper := rounded_mono (mul_le_mul_of_nonneg_right h hU.le)
  have hlower := rounded_mono (mul_le_mul_of_nonneg_right (neg_le_neg h) hU.le)
  exact div_le_div_of_nonneg_right (sub_le_sub (Nat.cast_le.mpr hupper) (Nat.cast_le.mpr hlower))
    hU.le

theorem abs_nearest (q : ℚ) : |nearest q| = nearest |q| := by
  rcases le_total 0 q with h | h
  · rw [abs_of_nonneg h, abs_of_nonneg (nearest_nonneg h)]
  · rw [abs_of_nonpos h, ← abs_neg, ← nearest_neg, abs_of_nonneg]
    exact nearest_nonneg (neg_nonneg.mpr h)

/-- Half a unit. -/
theorem half_unit : (1 : ℚ) / 2 ^ 1075 = 1 / 2 / unitsPerOne := by
  rw [unitsPerOne_cast, div_div, ← pow_succ']
  rfl

/-- The error of rounding in units. -/
theorem abs_nearest_sub_mul (h : 0 ≤ q) :
    |nearest q - q| * unitsPerOne = |(rounded (q * unitsPerOne) : ℚ) - q * unitsPerOne| := by
  have hU := unitsPerOne_cast_pos
  rw [nearest_of_nonneg h, ← abs_of_pos hU, ← abs_mul, sub_mul, abs_of_pos hU,
    div_mul_cancel₀ _ hU.ne']

/-- Rounding changes a value by at most its `2 ^ 53`-rd part and half a unit. -/
theorem abs_nearest_sub_le (q : ℚ) : |nearest q - q| ≤ |q| / 2 ^ 53 + 1 / 2 ^ 1075 := by
  wlog h : 0 ≤ q generalizing q
  · have hneg := this (-q) (by linarith)
    rwa [nearest_neg, ← neg_sub', abs_neg, abs_neg] at hneg
  · have hU := unitsPerOne_cast_pos
    have hunits : 0 ≤ q * unitsPerOne := mul_nonneg h hU.le
    have herror := abs_rounded_sub_le hunits
    have hsum : max (1 / 2) (q * unitsPerOne / 2 ^ 53) ≤ q * unitsPerOne / 2 ^ 53 + 1 / 2 :=
      max_le (le_add_of_nonneg_left (by positivity)) (le_add_of_nonneg_right (by norm_num))
    apply le_of_mul_le_mul_right _ hU
    rw [abs_nearest_sub_mul h, abs_of_nonneg h, half_unit, add_mul, div_mul_cancel₀ _ hU.ne',
      div_mul_eq_mul_div]
    exact herror.trans hsum

theorem nearest_le_two_mul (h : 0 ≤ q) : nearest q ≤ 2 * q := by
  have hU := unitsPerOne_cast_pos
  rw [nearest_of_nonneg h, div_le_iff₀ hU, mul_assoc]
  exact rounded_le_two_mul (mul_nonneg h hU.le)

/-- From the least normal number on, the error of rounding is relative. -/
theorem abs_nearest_sub_le_of_normal (hq : 1 / 2 ^ 1022 ≤ q) : |nearest q - q| ≤ q / 2 ^ 53 := by
  have hU := unitsPerOne_cast_pos
  have hsplit : (2 : ℚ) ^ 1074 = 2 ^ 52 * 2 ^ 1022 := by rw [← pow_add]
  have hq0 : 0 ≤ q := (by positivity : (0 : ℚ) ≤ 1 / 2 ^ 1022).trans hq
  have hnormal : (2 : ℚ) ^ 52 ≤ q * unitsPerOne := by
    rw [div_le_iff₀ (by positivity)] at hq
    rw [unitsPerOne_cast_eq, hsplit, mul_left_comm]
    exact le_mul_of_one_le_right (by positivity) hq
  apply le_of_mul_le_mul_right _ hU
  rw [abs_nearest_sub_mul hq0, div_mul_eq_mul_div]
  exact abs_rounded_sub_le_of_normal hnormal

end Nearest

section Numbers

/-- The factor of a sign. -/
def signFactor (negative : Bool) : ℚ := if negative then -1 else 1

@[simp] theorem signFactor_false : signFactor false = 1 := rfl

@[simp] theorem signFactor_true : signFactor true = -1 := rfl

theorem signFactor_mul (s t : Bool) : signFactor s * signFactor t = signFactor (s ^^ t) := by
  cases s <;> cases t <;> simp [signFactor]

theorem abs_signFactor_mul (s : Bool) (q : ℚ) : |signFactor s * q| = |q| := by
  cases s <;> simp [signFactor]

theorem nearest_signFactor_mul (s : Bool) (q : ℚ) :
    nearest (signFactor s * q) = signFactor s * nearest q := by
  cases s with
  | false => rw [signFactor_false, one_mul, one_mul]
  | true => rw [signFactor_true, neg_one_mul, neg_one_mul, nearest_neg]

theorem value?_finite_eq (s : Bool) {n : ℕ} (h : Representable n) :
    (finite s n h).value? = some (signFactor s * (n / unitsPerOne)) := by
  rw [value?_finite, Option.some.injEq]
  cases s <;> simp [signFactor, neg_div]

/-- A number with a value is a finite number of that value. -/
theorem exists_of_value? (h : x.value? = some v) :
    ∃ (s : Bool) (n : ℕ) (hn : Representable n),
      x = finite s n hn ∧ v = signFactor s * (n / unitsPerOne) := by
  cases x with
  | nan => cases h
  | infinity s => cases h
  | finite s n hn =>
      rw [value?_finite_eq, Option.some.injEq] at h
      exact ⟨s, n, hn, rfl, h.symm⟩

theorem isFinite_of_value? (h : x.value? = some v) : x.isFinite = true := by
  obtain ⟨s, n, hn, rfl, -⟩ := exists_of_value? h
  rfl

/-- The values of the format are rounded to themselves. -/
theorem nearest_of_value? (h : x.value? = some v) : nearest v = v := by
  obtain ⟨s, n, hn, rfl, rfl⟩ := exists_of_value? h
  have hU := unitsPerOne_cast_pos
  have hmagnitude : (0 : ℚ) ≤ n / unitsPerOne := by positivity
  rw [nearest_signFactor_mul, nearest_of_nonneg hmagnitude, div_mul_cancel₀ _ hU.ne',
    rounded_natCast hn]

/-- No value of the format is beyond the bound of overflow. -/
theorem abs_value?_lt (h : x.value? = some v) : |v| < overflow := by
  obtain ⟨s, n, hn, rfl, rfl⟩ := exists_of_value? h
  have hU := unitsPerOne_cast_pos
  have hn0 : (0 : ℚ) ≤ n := Nat.cast_nonneg n
  have hlimit := hn.1
  rw [← rounded_natCast hn, rounded_lt_unitsLimit_iff hn0, ← overflow_mul_unitsPerOne] at hlimit
  rw [abs_signFactor_mul, abs_of_nonneg (by positivity), div_lt_iff₀ hU]
  exact hlimit

/-- The value of the number nearest to a rational number, if that number is finite. -/
def roundedValue? (q : ℚ) : Option ℚ :=
  if |q| < overflow then some (nearest q) else none

theorem roundedValue?_of_lt (h : |q| < overflow) : roundedValue? q = some (nearest q) :=
  if_pos h

theorem roundedValue?_of_nonneg (hq : 0 ≤ q) (h : q < overflow) :
    roundedValue? q = some (nearest q) :=
  roundedValue?_of_lt ((abs_of_nonneg hq).trans_lt h)

theorem roundedValue?_of_le (h : overflow ≤ |q|) : roundedValue? q = none :=
  if_neg h.not_gt

theorem rounded_div_lt_unitsLimit_iff (num den : ℕ) :
    rounded (num / den) < unitsLimit ↔ (num / den / unitsPerOne : ℚ) < overflow := by
  have hunits : (0 : ℚ) ≤ num / den := by positivity
  rw [rounded_lt_unitsLimit_iff hunits, div_lt_iff₀ unitsPerOne_cast_pos, overflow_mul_unitsPerOne]

/-- A quotient of units is rounded by its value. -/
theorem value?_ofQuotient (s : Bool) (num : ℕ) {den : ℕ} (hd : 0 < den) :
    (ofQuotient s num den).value? =
      roundedValue? (signFactor s * (num / den / unitsPerOne)) := by
  have hU := unitsPerOne_cast_pos
  have hmagnitude : (0 : ℚ) ≤ num / den / unitsPerOne := by positivity
  have hbound : |signFactor s * (num / den / unitsPerOne)| < overflow ↔
      rounded (num / den) < unitsLimit := by
    rw [abs_signFactor_mul, abs_of_nonneg hmagnitude, rounded_div_lt_unitsLimit_iff]
  by_cases h : rounded (num / den) < unitsLimit
  · rw [roundedValue?_of_lt (hbound.mpr h), ofQuotient_eq_finite s num hd h, value?_finite_eq,
      nearest_signFactor_mul, nearest_of_nonneg hmagnitude, div_mul_cancel₀ _ hU.ne']
  · rw [roundedValue?_of_le (not_lt.mp (mt hbound.mp h)),
      ofQuotient_eq_infinity s num hd (not_lt.mp h)]
    rfl

end Numbers

section Operations

theorem value?_neg (hx : x.value? = some v) : (-x).value? = some (-v) := by
  obtain ⟨s, n, hn, rfl, rfl⟩ := exists_of_value? hx
  change (neg (finite s n hn)).value? = _
  rw [neg, value?_finite_eq, Option.some.injEq]
  cases s <;> simp [signFactor]

theorem value?_abs (hx : x.value? = some v) : x.abs.value? = some |v| := by
  obtain ⟨s, n, hn, rfl, rfl⟩ := exists_of_value? hx
  have hmagnitude : (0 : ℚ) ≤ n / unitsPerOne := by positivity
  rw [abs, value?_finite_eq, abs_signFactor_mul, abs_of_nonneg hmagnitude, signFactor_false,
    one_mul]

/-- A product is not finite if a factor is not. -/
theorem value?_mul_of_eq_none (h : x.value? = none) (y : Binary64) : (x * y).value? = none := by
  change (mul x y).value? = none
  cases x with
  | nan => rfl
  | infinity s =>
      cases y with
      | nan => rfl
      | infinity t => rfl
      | finite t n hn =>
          rw [mul]
          split <;> rfl
  | finite s n hn => cases h

theorem value?_mul (hx : x.value? = some v) (hy : y.value? = some w) :
    (x * y).value? = roundedValue? (v * w) := by
  obtain ⟨s, m, hm, rfl, rfl⟩ := exists_of_value? hx
  obtain ⟨t, n, hn, rfl, rfl⟩ := exists_of_value? hy
  change (mul (finite s m hm) (finite t n hn)).value? = _
  rw [mul, value?_ofQuotient _ _ unitsPerOne_pos, ← signFactor_mul, Nat.cast_mul]
  congr 1
  field_simp

theorem value?_div (hx : x.value? = some v) (hy : y.value? = some w) (hw : w ≠ 0) :
    (x / y).value? = roundedValue? (v / w) := by
  obtain ⟨s, m, hm, rfl, rfl⟩ := exists_of_value? hx
  obtain ⟨t, n, hn, rfl, rfl⟩ := exists_of_value? hy
  have hU := unitsPerOne_cast_pos
  have hzero : n ≠ 0 := by
    rintro rfl
    simp at hw
  have hn0 : (n : ℚ) ≠ 0 := Nat.cast_ne_zero.mpr hzero
  have ht : signFactor t * signFactor t = 1 := by
    rw [signFactor_mul, Bool.xor_self]
    rfl
  have ht0 : signFactor t ≠ 0 := left_ne_zero_of_mul (ht.symm ▸ one_ne_zero)
  rw [finite_div_finite hm hn hzero, value?_ofQuotient _ _ (Nat.pos_of_ne_zero hzero),
    ← signFactor_mul, Nat.cast_mul]
  congr 1
  field_simp
  rw [sq, ht, mul_one]

/-- An integer of units is rounded by its value, whatever sign a zero is given. -/
theorem value?_ofSum (negativeZero : Bool) (k : ℤ) :
    (ofSum negativeZero k).value? = roundedValue? (k / unitsPerOne) := by
  rw [ofSum, value?_ofQuotient _ _ Nat.one_pos, Nat.cast_one, div_one, Nat.cast_natAbs,
    Int.cast_abs]
  congr 1
  rcases lt_trichotomy k 0 with h | rfl | h
  · have hk : (k : ℚ) < 0 := Int.cast_lt_zero.mpr h
    rw [if_neg h.ne, signFactor, if_pos (decide_eq_true h), abs_of_neg hk]
    ring
  · simp
  · have hk : (0 : ℚ) < k := Int.cast_pos.mpr h
    rw [if_neg h.ne', signFactor, if_neg (by simpa using h.le), abs_of_pos hk, one_mul]

theorem withSign_cast (s : Bool) (n : ℕ) : (Text.withSign s n : ℚ) = signFactor s * n := by
  cases s <;> simp [Text.withSign, signFactor]

theorem value?_add (hx : x.value? = some v) (hy : y.value? = some w) :
    (x + y).value? = roundedValue? (v + w) := by
  obtain ⟨s, m, hm, rfl, rfl⟩ := exists_of_value? hx
  obtain ⟨t, n, hn, rfl, rfl⟩ := exists_of_value? hy
  change (add (finite s m hm) (finite t n hn)).value? = _
  rw [add, value?_ofSum, Int.cast_add, withSign_cast, withSign_cast]
  congr 1
  ring

/-- Numbers are in the order of their values. -/
theorem lt_iff_value (hx : x.value? = some v) (hy : y.value? = some w) :
    x.lt y = true ↔ v < w := by
  obtain ⟨s, m, hm, rfl, rfl⟩ := exists_of_value? hx
  obtain ⟨t, n, hn, rfl, rfl⟩ := exists_of_value? hy
  rw [lt, decide_eq_true_iff, ← mul_div_assoc, ← mul_div_assoc, ← withSign_cast, ← withSign_cast,
    div_lt_div_iff_of_pos_right unitsPerOne_cast_pos, Int.cast_lt]

end Operations

section Infinities

theorem ofQuotient_eq_infinity_of_le (s : Bool) (num : ℕ) {den : ℕ} (hd : 0 < den)
    (h : overflow ≤ num / den / unitsPerOne) : ofQuotient s num den = infinity s :=
  ofQuotient_eq_infinity s num hd
    (not_lt.mp (mt (rounded_div_lt_unitsLimit_iff num den).mp h.not_gt))

theorem overflow_pos : 0 < overflow :=
  zero_lt_one.trans (lt_overflow_of_le (pow_zero (2 : ℚ)).ge (by decide))

/-- A square that overflows is the positive infinity. -/
theorem mul_self_eq_infinity (hx : x.value? = some v) (h : overflow ≤ v * v) :
    x * x = infinity false := by
  obtain ⟨s, n, hn, rfl, rfl⟩ := exists_of_value? hx
  have hU := unitsPerOne_cast_pos
  change mul (finite s n hn) (finite s n hn) = _
  rw [mul, Bool.xor_self]
  apply ofQuotient_eq_infinity_of_le _ _ unitsPerOne_pos
  rw [← abs_mul_abs_self, abs_signFactor_mul, abs_of_nonneg (by positivity)] at h
  refine h.trans_eq ?_
  rw [Nat.cast_mul]
  field_simp

theorem mul_self_cases (hx : x.value? = some v) :
    (x * x).value? = some (nearest (v * v)) ∨ x * x = infinity false := by
  rcases lt_or_ge (v * v) overflow with h | h
  · left
    rw [value?_mul hx hx, roundedValue?_of_nonneg (mul_self_nonneg v) h]
  · exact .inr (mul_self_eq_infinity hx h)

/-- A sum that overflows upwards is the positive infinity. -/
theorem add_eq_infinity (hx : x.value? = some v) (hy : y.value? = some w)
    (h : overflow ≤ v + w) : x + y = infinity false := by
  obtain ⟨s, m, hm, rfl, rfl⟩ := exists_of_value? hx
  obtain ⟨t, n, hn, rfl, rfl⟩ := exists_of_value? hy
  have hU := unitsPerOne_cast_pos
  rw [← mul_div_assoc, ← mul_div_assoc, ← withSign_cast, ← withSign_cast, ← add_div,
    ← Int.cast_add] at h
  change add (finite s m hm) (finite t n hn) = _
  rw [add]
  generalize Text.withSign s m + Text.withSign t n = k at h ⊢
  have hk : 0 < k := by
    have hpos := (div_pos_iff_of_pos_right hU).mp (overflow_pos.trans_le h)
    exact_mod_cast hpos
  rw [ofSum, if_neg hk.ne', decide_eq_false hk.not_gt]
  apply ofQuotient_eq_infinity_of_le _ _ Nat.one_pos
  rwa [Nat.cast_one, div_one, Nat.cast_natAbs, Int.cast_abs, abs_of_pos (Int.cast_pos.mpr hk)]

theorem add_cases (hx : x.value? = some v) (hy : y.value? = some w) (h : 0 ≤ v + w) :
    (x + y).value? = some (nearest (v + w)) ∨ x + y = infinity false := by
  rcases lt_or_ge (v + w) overflow with hlt | hge
  · left
    rw [value?_add hx hy, roundedValue?_of_nonneg h hlt]
  · exact .inr (add_eq_infinity hx hy hge)

theorem infinity_add (h : x.value? = some v ∨ x = infinity false) :
    infinity false + x = infinity false := by
  rcases h with hx | rfl
  · obtain ⟨s, n, hn, rfl, -⟩ := exists_of_value? hx
    rfl
  · rfl

theorem add_infinity (h : x.value? = some v ∨ x = infinity false) :
    x + infinity false = infinity false := by
  rcases h with hx | rfl
  · obtain ⟨s, n, hn, rfl, -⟩ := exists_of_value? hx
    rfl
  · rfl

/-- Finite numbers are divided by an infinity to zero. -/
theorem value?_div_infinity (hx : x.value? = some v) (s : Bool) :
    (x / infinity s).value? = some 0 := by
  obtain ⟨t, n, hn, rfl, -⟩ := exists_of_value? hx
  change (div (finite t n hn) (infinity s)).value? = _
  rw [div, signedZero, value?_finite_eq, Nat.cast_zero, zero_div, mul_zero]

end Infinities

end RowReduction.Binary64

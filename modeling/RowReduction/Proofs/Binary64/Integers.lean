import RowReduction.Binary64.Integer
import RowReduction.Proofs.Binary64.Values
import RowReduction.Proofs.Fraction.Reciprocal
import Mathlib.Algebra.Order.Round
import Mathlib.Data.Rat.Floor

/-!
# Integers and rounded values

The integers near a number are those near its value. Integers up to `2 ^ 53` and
the middles between integers up to `2 ^ 52` are values of the format, so that
rounding does not carry a smaller value past them. From `2 ^ 52` on all values of
the format are integers.
-/

namespace RowReduction.Binary64

-- Powers are those of the core library wherever the module is compiled.
attribute [local instance (high)] instPowNat

section Values

/-- From `2 ^ 52` on the spacing of the format is at least one. -/
theorem spacing_integers : spacing (2 ^ 52 * unitsPerOne) = unitsPerOne := by
  rw [unitsPerOne, ← Nat.pow_add, spacing, Nat.log2_two_pow]
  exact congrArg (2 ^ ·) (Nat.add_sub_cancel_left ..)

/-- The number nearest to `m / 2 ^ places`, or its opposite. -/
def scaled (negative : Bool) (m places : ℕ) : Binary64 :=
  ofQuotient negative (m * unitsPerOne) (2 ^ places)

/-- For a significand and not too many places it is the number itself. -/
theorem value?_scaled (negative : Bool) {m places : ℕ} (h : m < 2 ^ (fractionBits + 1))
    (hplaces : places ≤ unitPlaces) :
    (scaled negative m places).value? = some (signFactor negative * (m / 2 ^ places)) := by
  have hrepresentable : Representable (m * 2 ^ (unitPlaces - places)) :=
    representable_shift h (by simp only [unitPlaces]; omega)
  have hunits : m * unitsPerOne = m * 2 ^ (unitPlaces - places) * 2 ^ places := by
    rw [unitsPerOne, Nat.mul_assoc, ← Nat.pow_add, Nat.sub_add_cancel hplaces]
  have hsplit : (unitsPerOne : ℚ) = 2 ^ (unitPlaces - places) * 2 ^ places := by
    rw [unitsPerOne_cast, ← pow_add, Nat.sub_add_cancel hplaces]
  rw [scaled, hunits, ofQuotient_mul negative hrepresentable (Nat.two_pow_pos places),
    value?_finite_eq, hsplit, Nat.cast_mul, Nat.cast_pow, Nat.cast_two, mul_comm (m : ℚ),
    mul_div_mul_left]
  positivity

/-- The number nearest to `m * 2 ^ places`, or its opposite. -/
def scaledUp (negative : Bool) (m places : ℕ) : Binary64 :=
  ofQuotient negative (m * 2 ^ places * unitsPerOne) 1

theorem value?_scaledUp (negative : Bool) {m places : ℕ} (h : m < 2 ^ (fractionBits + 1))
    (hplaces : places < 972) :
    (scaledUp negative m places).value? = some (signFactor negative * (m * 2 ^ places)) := by
  have hU := unitsPerOne_cast_pos
  have hrepresentable : Representable (m * 2 ^ (places + unitPlaces)) :=
    representable_shift h (by simp only [unitPlaces]; omega)
  have hunits : m * 2 ^ places * unitsPerOne = m * 2 ^ (places + unitPlaces) * 1 := by
    rw [unitsPerOne, Nat.mul_one, Nat.mul_assoc, ← Nat.pow_add]
  rw [scaledUp, hunits, ofQuotient_mul negative hrepresentable Nat.one_pos, value?_finite_eq,
    Nat.cast_mul, Nat.cast_pow, Nat.cast_two, pow_add, ← unitsPerOne_cast, ← mul_assoc,
    mul_div_cancel_right₀ _ hU.ne']

-- These numbers are known by their values; their units are too large to be computed with.
attribute [irreducible] scaled scaledUp

/-- The middles between integers up to `2 ^ 52` are values of the format. -/
theorem nearest_add_half {j : ℕ} (h : j < 2 ^ 52) : nearest (j + 1 / 2) = j + 1 / 2 := by
  have hsignificand : 2 * j + 1 < 2 ^ (fractionBits + 1) := by
    have hpower : 2 ^ (fractionBits + 1) = 2 * 2 ^ 52 := rfl
    omega
  have hvalue := value?_scaled false hsignificand (by decide : 1 ≤ unitPlaces)
  have hmiddle : signFactor false * (((2 * j + 1 : ℕ) : ℚ) / 2 ^ 1) = j + 1 / 2 := by
    rw [signFactor_false]
    push_cast
    ring
  rw [hmiddle] at hvalue
  exact nearest_of_value? hvalue

end Values

-- The units in one and beyond the format are numbers too large to be computed with.
attribute [local irreducible] unitsPerOne unitsLimit

variable {q v X : ℚ} {x : Binary64}

section NearIntegers

/-- The nearest integer; of two equally near, the one away from zero. -/
def roundAway (q : ℚ) : ℤ :=
  if q < 0 then -round (-q) else round q

theorem roundAway_of_nonneg (h : 0 ≤ q) : roundAway q = round q :=
  if_neg h.not_gt

theorem roundAway_neg (q : ℚ) : roundAway (-q) = -roundAway q := by
  rcases lt_trichotomy q 0 with h | rfl | h
  · rw [roundAway_of_nonneg (neg_nonneg.mpr h.le), roundAway, if_pos h, neg_neg]
  · simp [roundAway]
  · rw [roundAway_of_nonneg h.le, roundAway, if_pos (neg_neg_iff_pos.mpr h), neg_neg]

theorem roundAway_signFactor_mul (s : Bool) (q : ℚ) :
    (roundAway (signFactor s * q) : ℚ) = signFactor s * roundAway q := by
  cases s with
  | false => rw [signFactor_false, one_mul, one_mul]
  | true =>
      rw [signFactor_true, neg_one_mul, neg_one_mul, roundAway_neg, Int.cast_neg]

/-- A number of units is rounded to the whole numbers of units in one as its value is. -/
theorem div_two_mul_unitsPerOne (n : ℕ) :
    (((2 * n + unitsPerOne) / (2 * unitsPerOne) : ℕ) : ℤ) = round (n / unitsPerOne : ℚ) := by
  have hU := unitsPerOne_cast_pos
  have hsum : (n / unitsPerOne : ℚ) + 1 / 2 =
      ((2 * n + unitsPerOne : ℕ) : ℤ) / (2 * unitsPerOne : ℕ) := by
    push_cast
    field_simp
  rw [round_eq, hsum, Rat.floor_intCast_div_natCast]
  rfl

theorem round?_of_value? (h : x.value? = some v) : x.round? = some (roundAway v) := by
  obtain ⟨s, n, hn, rfl, rfl⟩ := exists_of_value? h
  have hmagnitude : (0 : ℚ) ≤ n / unitsPerOne := by positivity
  rw [round?, Option.some.injEq]
  have hcast : ((Text.withSign s ((2 * n + unitsPerOne) / (2 * unitsPerOne)) : ℤ) : ℚ) =
      roundAway (signFactor s * (n / unitsPerOne)) := by
    rw [withSign_cast, roundAway_signFactor_mul, roundAway_of_nonneg hmagnitude,
      ← div_two_mul_unitsPerOne, Int.cast_natCast]
  exact_mod_cast hcast

theorem round?_of_value?_eq_none (h : x.value? = none) : x.round? = none := by
  cases x with
  | nan => rfl
  | infinity s => rfl
  | finite s n hn => cases h

theorem floor?_of_value? (h : x.value? = some v) : x.floor? = some ⌊v⌋ := by
  obtain ⟨i, hi, rfl⟩ := Option.map_eq_some_iff.mp h
  rw [floor?, hi, Option.map_some, Option.some.injEq, ← Int.cast_natCast (R := ℚ)]
  exact (Rat.floor_intCast_div_natCast i unitsPerOne).symm

theorem floor?_of_value?_eq_none (h : x.value? = none) : x.floor? = none := by
  rw [floor?, Option.map_eq_none_iff.mp h, Option.map_none]

end NearIntegers

section Values

theorem value?_ofNat {m : ℕ} (h : m < 2 ^ (fractionBits + 1)) :
    (ofNat m).value? = some (m : ℚ) := by
  have hU := unitsPerOne_cast_pos
  rw [ofNat_eq_finite h, value?_finite_eq, signFactor_false, one_mul,
    Nat.cast_mul, mul_div_cancel_right₀ _ hU.ne']

/-- Integers below `2 ^ 53` are values of the format. -/
theorem nearest_natCast {m : ℕ} (h : m < 2 ^ 53) : nearest m = m :=
  nearest_of_value? (value?_ofNat h)

/-- Powers of two are values of the format. -/
theorem nearest_two_pow {k : ℕ} (hk : k < 1024) : nearest (2 ^ k) = 2 ^ k := by
  rcases Nat.lt_or_ge k 972 with hlow | hhigh
  · have h := nearest_of_value?
      (value?_scaledUp false (by decide : 1 < 2 ^ (fractionBits + 1)) hlow)
    rwa [signFactor_false, one_mul, Nat.cast_one, one_mul] at h
  · have h := nearest_of_value? (value?_scaledUp false
      (by decide : 2 ^ 52 < 2 ^ (fractionBits + 1)) (by omega : k - 52 < 972))
    rwa [signFactor_false, one_mul, Nat.cast_pow, Nat.cast_two, ← pow_add,
      Nat.add_sub_cancel' (by omega)] at h

end Values

section Large

/-- From `2 ^ 52` on the rounded values are integers. -/
theorem exists_nearest_eq_natCast (h : 2 ^ 52 ≤ X) (hX : X < overflow) :
    ∃ n : ℕ, nearest X = n := by
  have hU := unitsPerOne_cast_pos
  have hX0 : 0 ≤ X := (by positivity : (0 : ℚ) ≤ 2 ^ 52).trans h
  have hunits : X * unitsPerOne < overflow * unitsPerOne := mul_lt_mul_of_pos_right hX hU
  rw [overflow_mul_unitsPerOne, ← rounded_lt_unitsLimit_iff (mul_nonneg hX0 hU.le)] at hunits
  have hbase : Representable (2 ^ 52 * unitsPerOne) := representable_mul_unitsPerOne (by decide)
  have hle : 2 ^ 52 * unitsPerOne ≤ rounded (X * unitsPerOne) := by
    rw [← rounded_natCast hbase]
    apply rounded_mono
    rw [Nat.cast_mul, Nat.cast_pow, Nat.cast_two]
    exact mul_le_mul_of_nonneg_right h hU.le
  -- The spacing grows with the magnitude, and here it has reached one.
  have hdvd : unitsPerOne ∣ rounded (X * unitsPerOne) := by
    have hspacing := spacing_dvd_spacing (log2_le_log2 hle)
    rw [spacing_integers] at hspacing
    exact hspacing.trans (representable_rounded hunits).2
  obtain ⟨k, hk⟩ := hdvd
  refine ⟨k, ?_⟩
  rw [nearest_of_nonneg hX0, hk, Nat.cast_mul, mul_div_cancel_left₀ _ hU.ne']

theorem round_nearest_of_large (h : 2 ^ 52 ≤ X) (hX : X < overflow) :
    (round (nearest X) : ℚ) = nearest X := by
  obtain ⟨n, hn⟩ := exists_nearest_eq_natCast h hX
  rw [hn, round_natCast, Int.cast_natCast]

theorem floor_nearest_of_large (h : 2 ^ 52 ≤ X) (hX : X < overflow) :
    (⌊nearest X⌋ : ℚ) = nearest X := by
  obtain ⟨n, hn⟩ := exists_nearest_eq_natCast h hX
  rw [hn, Int.floor_natCast, Int.cast_natCast]

end Large

section Rounded

/-- The integer nearest to a rounded value is nearest to the value, unless the value has been
rounded to the middle above it. -/
theorem abs_round_nearest_sub_le_iff (hX : 0 ≤ X) (hle : X ≤ 2 ^ 52) :
    |(round (nearest X) : ℚ) - X| ≤ 1 / 2 ↔
      ¬ (X < nearest X ∧ ∃ j : ℕ, nearest X = j + 1 / 2) := by
  obtain ⟨hlower, hupper⟩ := round_eq_iff.mp (rfl : round (nearest X) = round (nearest X))
  constructor
  · rintro herror ⟨hlt, j, hj⟩
    have hround : round (nearest X) = j + 1 := by
      rw [round_eq_iff, hj]
      push_cast
      constructor <;> linarith
    rw [hround, abs_le] at herror
    push_cast at herror
    linarith
  · intro hmiddle
    obtain ⟨k, hk⟩ : ∃ k : ℕ, round (nearest X) = k := by
      apply Int.eq_ofNat_of_zero_le
      rw [round_eq]
      exact Int.floor_nonneg.mpr (by linarith [nearest_nonneg hX])
    rw [hk, Int.cast_natCast] at hlower hupper ⊢
    have habove : X ≤ k + 1 / 2 := by
      by_contra hlt
      have hlt := not_le.mp hlt
      have hk52 : k < 2 ^ 52 := by
        have hcast : (k : ℚ) < 2 ^ 52 := by linarith
        exact_mod_cast hcast
      have hmono := nearest_mono hlt.le
      rw [nearest_add_half hk52] at hmono
      linarith
    have hbelow : (k : ℚ) - 1 / 2 ≤ X := by
      by_contra hlt
      have hlt := not_le.mp hlt
      obtain ⟨j, rfl⟩ : ∃ j, k = j + 1 := by
        apply Nat.exists_eq_succ_of_ne_zero
        rintro rfl
        rw [Nat.cast_zero] at hlt
        linarith
      push_cast at hlower hlt
      have htop := nearest_mono hle
      rw [nearest_two_pow (by decide : 52 < 1024)] at htop
      have hj52 : j < 2 ^ 52 := by
        have hcast : (j : ℚ) < 2 ^ 52 := by linarith
        exact_mod_cast hcast
      have hmono := nearest_mono (by linarith : X ≤ j + 1 / 2)
      rw [nearest_add_half hj52] at hmono
      exact hmiddle ⟨by linarith, j, by linarith⟩
    rw [abs_le]
    constructor <;> linarith

/-- The integer nearest to a rounded value is nearest to the value up to the error of rounding. -/
theorem abs_round_nearest_sub_le (hX : 0 ≤ X) :
    |(round (nearest X) : ℚ) - X| ≤ 1 / 2 + X / 2 ^ 53 := by
  have hshare : 0 ≤ X / 2 ^ 53 := by positivity
  -- Below one fourth the error of rounding need not be relative, but there the integer is zero.
  rcases lt_or_ge X (1 / 4) with hsmall | hlarge
  · have hround : round (nearest X) = 0 := by
      rw [round_eq_zero_iff]
      constructor
      · linarith [nearest_nonneg hX]
      · linarith [nearest_le_two_mul hX]
    rw [hround, Int.cast_zero, zero_sub, abs_neg, abs_of_nonneg hX]
    linarith
  · have hnormal : (1 : ℚ) / 2 ^ 1022 ≤ X := by
      refine le_trans (one_div_le_one_div_of_le (by norm_num) ?_) hlarge
      calc
        (4 : ℚ) = 2 ^ 2 := by norm_num
        _ ≤ 2 ^ 1022 := pow_le_pow_right₀ one_le_two (by decide)
    have hround := abs_sub_round (nearest X)
    have herror := abs_nearest_sub_le_of_normal hnormal
    rw [abs_sub_comm] at hround
    exact (abs_sub_le _ (nearest X) _).trans (add_le_add hround herror)

/-- The floor of a rounded value is that of the value, unless the value has been rounded to the next
integer. -/
theorem floor_nearest_cases (hX : 0 ≤ X) (hlt : X < 2 ^ 52) :
    nearest X < ⌊X⌋ + 1 ∧ ⌊nearest X⌋ = ⌊X⌋ ∨ nearest X = ⌊X⌋ + 1 ∧ ⌊nearest X⌋ = ⌊X⌋ + 1 := by
  obtain ⟨k, hk⟩ := Int.eq_ofNat_of_zero_le (Int.floor_nonneg.mpr hX)
  have hfloor := Int.floor_le X
  have hnext := (Int.lt_floor_add_one X).le
  rw [hk] at hfloor hnext ⊢
  rw [Int.cast_natCast] at hfloor hnext ⊢
  have hk52 : k < 2 ^ 52 := by
    have hcast : (k : ℚ) < 2 ^ 52 := hfloor.trans_lt hlt
    exact_mod_cast hcast
  have hlower := nearest_mono hfloor
  have hupper := nearest_mono hnext
  rw [nearest_natCast (by omega)] at hlower
  rw [← Nat.cast_add_one, nearest_natCast (by omega), Nat.cast_add_one] at hupper
  rcases hupper.lt_or_eq with h | h
  · exact .inl ⟨h, Int.floor_eq_iff.mpr ⟨mod_cast hlower, mod_cast h⟩⟩
  · refine .inr ⟨h, ?_⟩
    rw [h, ← Nat.cast_add_one, Int.floor_natCast, Nat.cast_add_one]

end Rounded

end RowReduction.Binary64

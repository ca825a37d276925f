import RowReduction.Proofs.Binary64.Integers
import Mathlib.Tactic.NormNum.Pow

/-!
# Numbers in millionths

A finite number is converted to a whole number of millionths unless a million
times it overflows. The product is rounded before the nearest integer is taken,
so the fraction is off by half a millionth and the `2 ^ 53`-rd part of the number
at most. It is a nearest whole number of millionths exactly if the product has
not been rounded up to the middle between two integers, or, beyond `2 ^ 52`,
if the product is off by no more than one half.
-/

namespace RowReduction.Fraction

open Binary64 (value? nearest overflow roundAway)

variable {x : Binary64} {v : ℚ}

section Conversion

/-- The number of millionths that a value is converted to: a million times the value is rounded
twice. -/
def millionths (v : ℚ) : ℤ :=
  roundAway (nearest (v * 1000000))

theorem value?_million : (Binary64.ofNat 1000000).value? = some 1000000 := by
  have h := Binary64.value?_ofNat (m := 1000000) (by decide)
  rwa [Nat.cast_ofNat] at h

theorem value?_mul_million (h : x.value? = some v) (hv : |v * 1000000| < overflow) :
    (x * .ofNat 1000000).value? = some (nearest (v * 1000000)) := by
  rw [Binary64.value?_mul h value?_million, Binary64.roundedValue?_of_lt hv]

theorem ofBinary64?_of_value? (h : x.value? = some v) (hv : |v * 1000000| < overflow) :
    ofBinary64? x = some (reduce (millionths v) 1000000 (by decide)) := by
  rw [ofBinary64?, Binary64.round?_of_value? (value?_mul_million h hv), Option.map_some,
    millionths]

/-- Only numbers without a finite product have no fraction. -/
theorem ofBinary64?_eq_none_iff :
    ofBinary64? x = none ↔ ∀ v, x.value? = some v → overflow ≤ |v * 1000000| := by
  constructor
  · intro hnone v hv
    by_contra hlt
    rw [ofBinary64?_of_value? hv (not_le.mp hlt)] at hnone
    cases hnone
  · intro hoverflow
    have hproduct : (x * .ofNat 1000000).value? = none := by
      cases hx : x.value? with
      | none => exact Binary64.value?_mul_of_eq_none hx _
      | some v =>
          rw [Binary64.value?_mul hx value?_million,
            Binary64.roundedValue?_of_le (hoverflow v hx)]
    rw [ofBinary64?, Binary64.round?_of_value?_eq_none hproduct, Option.map_none]

end Conversion

section Errors

/-- The errors for a number and its opposite are the same. -/
theorem abs_roundAway_nearest_sub (y : ℚ) :
    |(roundAway (nearest y) : ℚ) - y| = |(round (nearest |y|) : ℚ) - (|y|)| := by
  wlog h : 0 ≤ y generalizing y
  · have hneg := this (-y) (by linarith)
    rwa [Binary64.nearest_neg, Binary64.roundAway_neg, Int.cast_neg, ← neg_sub', abs_neg,
      abs_neg] at hneg
  · rw [abs_of_nonneg h, Binary64.roundAway_of_nonneg (Binary64.nearest_nonneg h)]

/-- An error in millionths. -/
theorem abs_div_million_sub (k : ℤ) (v : ℚ) :
    |(k : ℚ) / 1000000 - v| = |(k : ℚ) - v * 1000000| / 1000000 := by
  have hmillion : (0 : ℚ) < 1000000 := by norm_num
  rw [div_sub' hmillion.ne', abs_div, abs_of_pos hmillion, mul_comm]

theorem abs_millionths_div_sub_le (v : ℚ) :
    |(millionths v : ℚ) / 1000000 - v| ≤ 1 / 2000000 + |v| / 2 ^ 53 := by
  have herror := Binary64.abs_round_nearest_sub_le (abs_nonneg (v * 1000000))
  rw [← abs_roundAway_nearest_sub, abs_mul v, abs_of_pos (by norm_num : (0 : ℚ) < 1000000)]
    at herror
  rw [abs_div_million_sub, div_le_iff₀ (by norm_num), millionths]
  linarith

theorem abs_millionths_div_sub_le_half_iff (v : ℚ) :
    |(millionths v : ℚ) / 1000000 - v| ≤ 1 / 2000000 ↔
      |(millionths v : ℚ) - v * 1000000| ≤ 1 / 2 := by
  rw [abs_div_million_sub, div_le_iff₀ (by norm_num)]
  norm_num

/-- Among the middles between integers, only one above the value spoils the error. -/
theorem abs_millionths_sub_le_half_iff_of_small (hv : |v * 1000000| ≤ 2 ^ 52) :
    |(millionths v : ℚ) - v * 1000000| ≤ 1 / 2 ↔
      ¬ (|v * 1000000| < |nearest (v * 1000000)| ∧
        ∃ j : ℕ, |nearest (v * 1000000)| = j + 1 / 2) := by
  rw [millionths, abs_roundAway_nearest_sub, Binary64.abs_nearest]
  exact Binary64.abs_round_nearest_sub_le_iff (abs_nonneg _) hv

/-- Where the numbers of the format are integers, only the first rounding changes a value. -/
theorem millionths_of_large (hv : 2 ^ 52 ≤ |v * 1000000|) (hlt : |v * 1000000| < overflow) :
    (millionths v : ℚ) = nearest (v * 1000000) := by
  rw [millionths]
  generalize v * 1000000 = y at hv hlt
  rcases le_total 0 y with h | h
  · rw [abs_of_nonneg h] at hv hlt
    rw [Binary64.roundAway_of_nonneg (Binary64.nearest_nonneg h),
      Binary64.round_nearest_of_large hv hlt]
  · rw [abs_of_nonpos h] at hv hlt
    have hround := Binary64.round_nearest_of_large hv hlt
    rw [← Binary64.roundAway_of_nonneg (Binary64.nearest_nonneg (neg_nonneg.mpr h)),
      Binary64.nearest_neg, Binary64.roundAway_neg, Int.cast_neg] at hround
    exact neg_injective hround

/-- A number is converted exactly if a million times it does not overflow, to a whole number of
millionths in lowest terms. The error is at most half a millionth and the `2 ^ 53`-rd part of the
number. It is at most half a millionth exactly if the product is not rounded to a middle above it,
and where all numbers of the format are integers, if the product is off by one half at most. -/
theorem ofBinary64?_millionths (x : Binary64) :
    (ofBinary64? x = none ↔ ∀ v, x.value? = some v → overflow ≤ |v * 1000000|) ∧
    ∀ v, x.value? = some v → |v * 1000000| < overflow →
      ∃ (q : Fraction) (p : ℚ), ofBinary64? x = some q ∧ (x * .ofNat 1000000).value? = some p ∧
        (0 < q.den ∧ q.num.natAbs.gcd q.den = 1) ∧ (∃ k : ℤ, q.value = k / 1000000) ∧
        |q.value - v| ≤ 1 / 2000000 + |v| / 2 ^ 53 ∧
        (|v * 1000000| ≤ 2 ^ 52 →
          (|q.value - v| ≤ 1 / 2000000 ↔
            ¬ (|v * 1000000| < |p| ∧ ∃ j : ℕ, |p| = j + 1 / 2))) ∧
        (2 ^ 52 ≤ |v * 1000000| →
          (|q.value - v| ≤ 1 / 2000000 ↔ |p - v * 1000000| ≤ 1 / 2)) := by
  refine ⟨ofBinary64?_eq_none_iff, ?_⟩
  intro v hv hlt
  have hvalue : (reduce (millionths v) 1000000 (by decide)).value = millionths v / 1000000 :=
    value_reduce ..
  refine ⟨_, _, ofBinary64?_of_value? hv hlt, value?_mul_million hv hlt,
    ⟨den_pos _, coprime _⟩, ⟨_, hvalue⟩, ?_, ?_, ?_⟩
  · rw [hvalue]
    exact abs_millionths_div_sub_le v
  · intro hsmall
    rw [hvalue, abs_millionths_div_sub_le_half_iff, abs_millionths_sub_le_half_iff_of_small hsmall]
  · intro hlarge
    rw [hvalue, abs_millionths_div_sub_le_half_iff, millionths_of_large hlarge hlt]

end Errors

section Numbers

-- Powers are those of the core library wherever the module is compiled.
attribute [local instance (high)] instPowNat

/-- The number `-1 / 128`, a million times which is the middle between two integers. -/
def minusOneOver128 : Binary64 := Binary64.scaled true 1 7

theorem ofBinary64?_millionths_minusOneOver128 :
    minusOneOver128.value? = some (-1 / 128) ∧ |(-1 / 128 : ℚ) * 1000000| ≤ 2 ^ 52 ∧
      ∃ q, ofBinary64? minusOneOver128 = some q ∧ q.num = -7813 ∧ q.den = 1000000 ∧
        |q.value - (-1 / 128)| ≤ 1 / 2000000 := by
  have hvalue : minusOneOver128.value? = some (-1 / 128) := by
    rw [minusOneOver128, Binary64.value?_scaled _ (by decide) (by decide)]
    norm_num [Binary64.signFactor]
  have habs : |(-1 / 128 : ℚ) * 1000000| = ((7812 : ℕ) : ℚ) + 1 / 2 := by norm_num [abs_of_neg]
  have hsmall : |(-1 / 128 : ℚ) * 1000000| ≤ 2 ^ 52 := by
    rw [habs]
    norm_num
  have hlt : |(-1 / 128 : ℚ) * 1000000| < overflow :=
    Binary64.lt_overflow_of_le hsmall (by decide)
  obtain ⟨q, p, hq, hp, -, -, -, hiff, -⟩ := (ofBinary64?_millionths _).2 _ hvalue hlt
  have hproduct := value?_mul_million hvalue hlt
  obtain rfl := Option.some.inj (hp.symm.trans hproduct)
  have hexact : ofBinary64? minusOneOver128 = some ⟨-7813, 1000000, by decide, by decide⟩ := by
    decide +kernel
  obtain rfl := Option.some.inj (hq.symm.trans hexact)
  refine ⟨hvalue, hsmall, _, hexact, rfl, rfl, (hiff hsmall).mpr ?_⟩
  rintro ⟨hmiddle, -⟩
  rw [Binary64.abs_nearest, habs, Binary64.nearest_add_half (by decide)] at hmiddle
  exact lt_irrefl _ hmiddle

/-- Exactly the finite numbers are converted, and to a nearest whole number of millionths. -/
def ConvertsToNearest (x : Binary64) : Prop :=
  (ofBinary64? x = none ↔ x.isFinite = false) ∧
    ∀ v, x.value? = some v →
      ∃ q, ofBinary64? x = some q ∧ (∃ k : ℤ, q.value = k / 1000000) ∧ |q.value - v| ≤ 1 / 2000000

theorem not_convertsToNearest_of_error {q : Fraction} (hv : x.value? = some v)
    (hq : ofBinary64? x = some q) (herror : 1 / 2000000 < |q.value - v|) :
    ¬ ConvertsToNearest x := by
  rintro ⟨-, hnearest⟩
  obtain ⟨r, hr, -, hle⟩ := hnearest v hv
  obtain rfl := Option.some.inj (hq.symm.trans hr)
  exact absurd hle herror.not_ge

/-- The greatest number below half a millionth. -/
def belowMiddle : Binary64 := Binary64.scaled false 4722366482869645 73

/-- The integer `2 ^ 52 + 1`, a million times which has more places than a significand. -/
def oddInteger : Binary64 := Binary64.scaled false (2 ^ 52 + 1) 0

/-- The number `2 ^ 1005`, a million times which is beyond the format. -/
def beyondMillion : Binary64 := Binary64.scaledUp false (2 ^ 52) 953

/-- A number just below a middle can be rounded up, a large number can lose its last places, and a
finite number can be refused. -/
theorem not_convertsToNearest :
    (ofBinary64? belowMiddle = some ⟨1, 1000000, by decide, by decide⟩ ∧
      ¬ ConvertsToNearest belowMiddle) ∧
    (ofBinary64? oddInteger = some ⟨70368744177664016384, 15625, by decide, by decide⟩ ∧
      ¬ ConvertsToNearest oddInteger) ∧
    (ofBinary64? beyondMillion = none ∧ ¬ ConvertsToNearest beyondMillion) := by
  obtain ⟨hbelow, hodd, hmillion⟩ :
      ofBinary64? belowMiddle = some ⟨1, 1000000, by decide, by decide⟩ ∧
      ofBinary64? oddInteger = some ⟨70368744177664016384, 15625, by decide, by decide⟩ ∧
      ofBinary64? beyondMillion = none := by decide +kernel
  refine ⟨⟨hbelow, ?_⟩, ⟨hodd, ?_⟩, hmillion, ?_⟩
  · apply not_convertsToNearest_of_error (Binary64.value?_scaled _ (by decide) (by decide)) hbelow
    norm_num [value, Binary64.signFactor, lt_abs]
  · apply not_convertsToNearest_of_error (Binary64.value?_scaled _ (by decide) (by decide)) hodd
    norm_num [value, Binary64.signFactor, lt_abs]
  · intro h
    have hfinite := Binary64.isFinite_of_value? (Binary64.value?_scaledUp false
      (by decide : 2 ^ 52 < 2 ^ (Binary64.fractionBits + 1)) (by decide : 953 < 972))
    exact Bool.false_ne_true ((h.1.mp hmillion).symm.trans hfinite)

end Numbers

end RowReduction.Fraction

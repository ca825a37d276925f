import RowReduction.Binary64.Rounding
import Mathlib.Algebra.Order.Field.Rat
import Mathlib.Data.Nat.Cast.Order.Field
import Mathlib.Data.Rat.Cast.Defs
import Mathlib.Tactic.FieldSimp
import Mathlib.Tactic.Linarith
import Mathlib.Tactic.Push
import Mathlib.Tactic.Ring

/-!
# Rounding is to a nearest number

A quotient of units depends on its value only, and no magnitude of the format
is nearer to the value than the rounded one. Rounding keeps the order. The error
is at most half the spacing, that is half a unit or the value over `2 ^ 53`.
-/

namespace RowReduction.Binary64

-- Powers are those of the core library wherever the module is compiled.
attribute [local instance (high)] instPowNat

section NearestInteger

variable {num den num' den' : ℕ}

/-- A quotient is its integer part and a remainder below one. -/
theorem quotient_eq_div_add_mod (num : ℕ) (hd : 0 < den) :
    (num : ℚ) / den = (num / den : ℕ) + (num % den : ℕ) / den := by
  have hden : (den : ℚ) ≠ 0 := Nat.cast_ne_zero.mpr hd.ne'
  have hsplit : (num : ℚ) = den * (num / den : ℕ) + (num % den : ℕ) :=
    mod_cast (Nat.div_add_mod num den).symm
  field_simp
  exact hsplit

theorem abs_nearestEven_sub_le (num : ℕ) (hd : 0 < den) :
    |(nearestEven num den : ℚ) - num / den| ≤ 1 / 2 := by
  have hden : (0 : ℚ) < den := Nat.cast_pos.mpr hd
  have hmod : ((num % den : ℕ) : ℚ) < den := Nat.cast_lt.mpr (Nat.mod_lt num hd)
  have hnonneg : (0 : ℚ) ≤ (num % den : ℕ) / den := by positivity
  rw [quotient_eq_div_add_mod num hd]
  simp only [nearestEven]
  split_ifs with hbelow habove
  · have hhalf : ((num % den : ℕ) : ℚ) / den ≤ 1 / 2 := by
      rw [div_le_div_iff₀ hden two_pos]
      exact_mod_cast (by omega : num % den * 2 ≤ 1 * den)
    rw [abs_le]
    constructor <;> linarith
  · have hhalf : 1 / 2 ≤ ((num % den : ℕ) : ℚ) / den := by
      rw [div_le_div_iff₀ two_pos hden]
      exact_mod_cast (by omega : 1 * den ≤ num % den * 2)
    have hone : ((num % den : ℕ) : ℚ) / den < 1 := (div_lt_one hden).mpr hmod
    rw [abs_le]
    push_cast
    constructor <;> linarith
  · have hhalf : ((num % den : ℕ) : ℚ) / den = 1 / 2 := by
      rw [div_eq_div_iff hden.ne' two_ne_zero]
      exact_mod_cast (by omega : num % den * 2 = 1 * den)
    rw [hhalf, abs_le]
    push_cast
    have hparity : ((num / den % 2 : ℕ) : ℚ) ≤ 1 := by
      exact_mod_cast (by omega : num / den % 2 ≤ 1)
    have hnonneg : (0 : ℚ) ≤ (num / den % 2 : ℕ) := Nat.cast_nonneg _
    constructor <;> linarith

/-- No integer is nearer than the nearest one, because different integers are one apart. -/
theorem abs_nearestEven_sub_le_abs_sub (num : ℕ) (hd : 0 < den) (k : ℕ) :
    |(nearestEven num den : ℚ) - num / den| ≤ |(k : ℚ) - num / den| := by
  by_cases hk : nearestEven num den = k
  · rw [hk]
  · have hapart : (1 : ℚ) ≤ |(nearestEven num den : ℚ) - k| := by
      have hint : (1 : ℤ) ≤ |(nearestEven num den : ℤ) - k| :=
        Int.one_le_abs (sub_ne_zero.mpr (mod_cast hk))
      exact_mod_cast hint
    have htriangle := abs_sub_le (nearestEven num den : ℚ) (num / den) k
    rw [abs_sub_comm (num / den : ℚ)] at htriangle
    have herror := abs_nearestEven_sub_le num hd
    linarith

theorem div_le_div_of_mul_le (hd : 0 < den) (hd' : 0 < den') (h : num * den' ≤ num' * den) :
    num / den ≤ num' / den' := by
  rw [Nat.le_div_iff_mul_le hd']
  apply Nat.le_of_mul_le_mul_right _ hd
  calc
    num / den * den' * den = num / den * den * den' := by ring
    _ ≤ num * den' := Nat.mul_le_mul_right _ (Nat.div_mul_le_self num den)
    _ ≤ num' * den := h

/-- The nearest integers of quotients are in the order of the quotients. -/
theorem nearestEven_le_nearestEven (hd : 0 < den) (hd' : 0 < den')
    (h : num * den' ≤ num' * den) : nearestEven num den ≤ nearestEven num' den' := by
  have hquotient : num / den ≤ num' / den' := div_le_div_of_mul_le hd hd' h
  rcases Nat.lt_or_eq_of_le hquotient with hlt | heq
  · calc
      nearestEven num den ≤ num / den + 1 := nearestEven_le num den
      _ ≤ num' / den' := hlt
      _ ≤ nearestEven num' den' := le_nearestEven num' den'
  · -- With equal integer parts the remainders decide, and they are in order as well.
    have hremainder : num % den * den' ≤ num' % den' * den := by
      have hsplit : num * den' = num / den * den * den' + num % den * den' := by
        rw [← Nat.add_mul, Nat.div_add_mod']
      have hsplit' : num' * den = num' / den' * den' * den + num' % den' * den := by
        rw [← Nat.add_mul, Nat.div_add_mod']
      have hcommon : num / den * den * den' = num' / den' * den' * den := by
        rw [heq]
        ring
      omega
    have hbelow : 2 * (num' % den') < den' → 2 * (num % den) < den := fun hr => by nlinarith
    have habove : den < 2 * (num % den) → den' < 2 * (num' % den') := fun hr => by nlinarith
    have hparity : num' / den' % 2 ≤ 1 := by omega
    simp only [nearestEven, heq]
    split_ifs <;> omega

end NearestInteger

section NearestMagnitude

variable {num den num' den' : ℕ}

theorem ne_zero_of_lt_log2 {k n : ℕ} (h : k < n.log2) : n ≠ 0 := by
  rintro rfl
  exact absurd h (Nat.not_lt_zero k)

theorem log2_le_log2 {m n : ℕ} (h : m ≤ n) : m.log2 ≤ n.log2 := by
  by_cases hm : m = 0
  · simp [hm]
  · rw [Nat.le_log2 (by omega)]
    exact (Nat.log2_self_le hm).trans h

/-- Rounded quotients are in the order of the quotients. Quotients that differ by a power of two are
rounded to either side of one. -/
theorem roundQuotient_le_roundQuotient (hd : 0 < den) (hd' : 0 < den')
    (h : num * den' ≤ num' * den) : roundQuotient num den ≤ roundQuotient num' den' := by
  have hquotient : num / den ≤ num' / den' := div_le_div_of_mul_le hd hd' h
  rcases Nat.lt_or_eq_of_le (log2_le_log2 hquotient) with hlt | heq
  · have hne : num' / den' ≠ 0 := ne_zero_of_lt_log2 hlt
    have hpower : 2 ^ (num' / den').log2 ≤ roundQuotient num' den' :=
      two_pow_le_roundQuotient (Nat.log2_self_le hne)
    rcases roundQuotient_le num den with hle | hle
    · exact hle.trans ((Nat.pow_le_pow_right two_pos hlt).trans hpower)
    · exact hle.trans (Nat.one_le_two_pow.trans hpower)
  · have hspacing : spacing (num / den) = spacing (num' / den') := by rw [spacing, spacing, heq]
    have hs := spacing_pos (num' / den')
    simp only [roundQuotient, hspacing]
    apply Nat.mul_le_mul_left
    apply nearestEven_le_nearestEven (Nat.mul_pos hd hs) (Nat.mul_pos hd' hs)
    calc
      num * (den' * spacing (num' / den')) = num * den' * spacing (num' / den') := by ring
      _ ≤ num' * den * spacing (num' / den') := Nat.mul_le_mul_right _ h
      _ = num' * (den * spacing (num' / den')) := by ring

/-- The distance of a multiple of some units to a quotient of units is that many times the distance
of the factor to the quotient over the units. -/
theorem abs_mul_sub_quotient {s : ℕ} (hs : 0 < s) (num : ℕ) (hd : 0 < den) (k : ℕ) :
    |((s * k : ℕ) : ℚ) - num / den| = s * |(k : ℚ) - num / (den * s : ℕ)| := by
  have hs' : (0 : ℚ) < s := Nat.cast_pos.mpr hs
  have hden : (den : ℚ) ≠ 0 := Nat.cast_ne_zero.mpr hd.ne'
  calc
    |((s * k : ℕ) : ℚ) - num / den| = |s * ((k : ℚ) - num / (den * s : ℕ))| := by
      push_cast
      congr 1
      field_simp
    _ = s * |(k : ℚ) - num / (den * s : ℕ)| := by rw [abs_mul, abs_of_pos hs']

theorem abs_roundQuotient_sub_le (num : ℕ) (hd : 0 < den) :
    |(roundQuotient num den : ℚ) - num / den| ≤ spacing (num / den) * (1 / 2) := by
  have hs := spacing_pos (num / den)
  rw [roundQuotient, abs_mul_sub_quotient hs num hd]
  exact mul_le_mul_of_nonneg_left (abs_nearestEven_sub_le num (Nat.mul_pos hd hs))
    (Nat.cast_nonneg _)

/-- No multiple of the spacing is nearer than the rounded quotient. -/
theorem abs_roundQuotient_sub_le_of_dvd (num : ℕ) (hd : 0 < den) {k : ℕ}
    (hk : spacing (num / den) ∣ k) :
    |(roundQuotient num den : ℚ) - num / den| ≤ |(k : ℚ) - num / den| := by
  obtain ⟨j, rfl⟩ := hk
  have hs := spacing_pos (num / den)
  rw [roundQuotient, abs_mul_sub_quotient hs num hd, abs_mul_sub_quotient hs num hd]
  exact mul_le_mul_of_nonneg_left (abs_nearestEven_sub_le_abs_sub num (Nat.mul_pos hd hs) j)
    (Nat.cast_nonneg _)

/-- No magnitude of the format is nearer than the rounded quotient. One that is no multiple of the
spacing lies below the power of two that the quotient has reached, and that power is nearer. -/
theorem abs_roundQuotient_sub_le_abs_sub (num : ℕ) (hd : 0 < den) {k : ℕ} (hk : spacing k ∣ k) :
    |(roundQuotient num den : ℚ) - num / den| ≤ |(k : ℚ) - num / den| := by
  rcases Nat.lt_or_ge k.log2 (num / den).log2 with hlt | hge
  · have hne : num / den ≠ 0 := ne_zero_of_lt_log2 hlt
    have hpower : spacing (num / den) ∣ 2 ^ (num / den).log2 :=
      Nat.pow_dvd_pow 2 (Nat.sub_le _ _)
    have hk' : k < 2 ^ (num / den).log2 :=
      Nat.lt_of_lt_of_le Nat.lt_log2_self (Nat.pow_le_pow_right two_pos hlt)
    have hreached : ((2 ^ (num / den).log2 : ℕ) : ℚ) ≤ num / den :=
      (Nat.cast_le.mpr (Nat.log2_self_le hne)).trans Nat.cast_div_le
    have hbelow : (k : ℚ) ≤ (2 ^ (num / den).log2 : ℕ) := Nat.cast_le.mpr hk'.le
    calc
      |(roundQuotient num den : ℚ) - num / den| ≤
          |((2 ^ (num / den).log2 : ℕ) : ℚ) - num / den| :=
        abs_roundQuotient_sub_le_of_dvd num hd hpower
      _ ≤ |(k : ℚ) - num / den| := by
        rw [abs_of_nonpos (by linarith), abs_of_nonpos (by linarith)]
        linarith
  · exact abs_roundQuotient_sub_le_of_dvd num hd ((spacing_dvd_spacing hge).trans hk)

/-- The spacing is one unit, or at most the value over `2 ^ 52`. -/
theorem spacing_mul_half_le (num den : ℕ) :
    (spacing (num / den) : ℚ) * (1 / 2) ≤ max (1 / 2) ((num : ℚ) / den / 2 ^ 53) := by
  by_cases hlog : (num / den).log2 ≤ fractionBits
  · apply le_max_of_le_left
    simp [spacing, Nat.sub_eq_zero_of_le hlog]
  · apply le_max_of_le_right
    have hne : num / den ≠ 0 := ne_zero_of_lt_log2 (Nat.lt_of_not_le hlog)
    have hpower : spacing (num / den) * 2 ^ fractionBits ≤ num / den := by
      rw [spacing, ← Nat.pow_add, Nat.sub_add_cancel (by omega)]
      exact Nat.log2_self_le hne
    have hvalue : (spacing (num / den) : ℚ) * 2 ^ 52 ≤ (num : ℚ) / den := by
      have hcast : ((spacing (num / den) * 2 ^ fractionBits : ℕ) : ℚ) ≤ (num : ℚ) / den :=
        (Nat.cast_le.mpr hpower).trans Nat.cast_div_le
      exact_mod_cast hcast
    rw [le_div_iff₀ (by positivity)]
    linarith

end NearestMagnitude

section RoundedValue

variable {x : ℚ}

/-- The magnitude of the format nearest to a rational number of units, were the format unbounded
above. -/
def rounded (x : ℚ) : ℕ := roundQuotient x.num.toNat x.den

theorem toNat_num_div_den (hx : 0 ≤ x) : (x.num.toNat : ℚ) / x.den = x := by
  have hnum : ((x.num.toNat : ℤ) : ℚ) = x.num := by rw [Int.toNat_of_nonneg (Rat.num_nonneg.mpr hx)]
  rw [← Int.cast_natCast, hnum, Rat.num_div_den]

theorem rounded_mono : Monotone rounded := by
  intro x y hxy
  apply roundQuotient_le_roundQuotient x.den_pos y.den_pos
  have hcross : x.num * y.den ≤ y.num * x.den := (Rat.le_iff x y).mp hxy
  rcases le_total x.num 0 with hx | hx
  · simp [Int.toNat_of_nonpos hx]
  · have hy : 0 ≤ y.num := Rat.num_nonneg.mpr ((Rat.num_nonneg.mp hx).trans hxy)
    zify
    rwa [Int.toNat_of_nonneg hx, Int.toNat_of_nonneg hy]

/-- A quotient is rounded by its value. -/
theorem roundQuotient_eq_rounded (num : ℕ) {den : ℕ} (hd : 0 < den) :
    roundQuotient num den = rounded (num / den) := by
  have hx : (0 : ℚ) ≤ num / den := by positivity
  have hcross : ((num / den : ℚ).num.toNat : ℚ) * den = num * (num / den : ℚ).den := by
    rw [← div_eq_div_iff (Nat.cast_ne_zero.mpr (Rat.den_nz _)) (Nat.cast_ne_zero.mpr hd.ne'),
      toNat_num_div_den hx]
  have hcross : (num / den : ℚ).num.toNat * den = num * (num / den : ℚ).den := mod_cast hcross
  exact le_antisymm (roundQuotient_le_roundQuotient hd (Rat.den_pos _) hcross.ge)
    (roundQuotient_le_roundQuotient (Rat.den_pos _) hd hcross.le)

@[simp] theorem rounded_natCast {n : ℕ} (h : Representable n) : rounded n = n := by
  have hround := roundQuotient_mul h Nat.one_pos
  rwa [roundQuotient_eq_rounded _ Nat.one_pos, Nat.mul_one, Nat.cast_one, div_one] at hround

/-- No magnitude of the format is nearer to a number than the rounded one. -/
theorem abs_rounded_sub_le_abs_sub (hx : 0 ≤ x) {k : ℕ} (hk : Representable k) :
    |(rounded x : ℚ) - x| ≤ |(k : ℚ) - x| := by
  have h := abs_roundQuotient_sub_le_abs_sub x.num.toNat x.den_pos hk.2
  rwa [toNat_num_div_den hx] at h

/-- Rounding changes a number by at most half a unit, or its `2 ^ 53`-rd part. -/
theorem abs_rounded_sub_le (hx : 0 ≤ x) : |(rounded x : ℚ) - x| ≤ max (1 / 2) (x / 2 ^ 53) := by
  have h := (abs_roundQuotient_sub_le x.num.toNat x.den_pos).trans (spacing_mul_half_le _ _)
  rwa [toNat_num_div_den hx] at h

/-- From the least normal number on, the error is relative. -/
theorem abs_rounded_sub_le_of_normal (hx : 2 ^ 52 ≤ x) : |(rounded x : ℚ) - x| ≤ x / 2 ^ 53 := by
  have hx0 : 0 ≤ x := by linarith
  apply (abs_rounded_sub_le hx0).trans (max_le _ le_rfl)
  rw [le_div_iff₀ (by positivity)]
  linarith

/-- Rounding adds at most the distance to a magnitude of the format below. -/
theorem rounded_le_of_representable {k : ℕ} (hk : Representable k) (hkx : k ≤ x) :
    rounded x ≤ x + (x - k) := by
  have hx : 0 ≤ x := (Nat.cast_nonneg k).trans hkx
  have h := (le_abs_self _).trans (abs_rounded_sub_le_abs_sub hx hk)
  rw [abs_of_nonpos (by linarith)] at h
  linarith

theorem rounded_le_two_mul (hx : 0 ≤ x) : rounded x ≤ 2 * x := by
  have h := rounded_le_of_representable representable_zero (x := x) (by simpa using hx)
  rw [Nat.cast_zero] at h
  linarith

/-- Less than half a unit is rounded to zero. -/
theorem rounded_eq_zero (hx : x < 1 / 2) : rounded x = 0 := by
  rcases le_total x 0 with hx0 | hx0
  · have hmono := rounded_mono hx0
    rw [← Nat.cast_zero, rounded_natCast representable_zero] at hmono
    exact Nat.le_zero.mp hmono
  · have hlt : (rounded x : ℚ) < 1 := by linarith [rounded_le_two_mul hx0]
    exact Nat.lt_one_iff.mp (mod_cast hlt)

theorem representable_one : Representable 1 := by
  refine ⟨Nat.one_lt_two_pow (by decide), ?_⟩
  decide

/-- More than half a unit is not rounded to zero, because one unit is nearer. -/
theorem one_le_rounded (hx : 1 / 2 < x) : 1 ≤ rounded x := by
  rcases le_total 1 x with hone | hone
  · calc
      1 = rounded ((1 : ℕ) : ℚ) := (rounded_natCast representable_one).symm
      _ ≤ rounded x := rounded_mono (by simpa using hone)
  · apply Nat.one_le_iff_ne_zero.mpr
    intro hzero
    have hnear := abs_rounded_sub_le_abs_sub (by linarith : 0 ≤ x) representable_one
    rw [hzero, Nat.cast_zero, zero_sub, abs_neg, abs_of_pos (by linarith), Nat.cast_one,
      abs_of_nonneg (by linarith)] at hnear
    linarith

end RoundedValue

end RowReduction.Binary64

import RowReduction.Binary64.Bits
import RowReduction.Fraction.Approximation
import RowReduction.Proofs.Binary64.Accuracy
import RowReduction.Proofs.Fraction.Value

/-!
# Reciprocals in millionths

A length that is not zero is at least `2 ^ -537`. Its reciprocal, taken in the
format and rounded to millionths, is a fraction that is not negative, and that is
zero for the lengths beyond two million. The reciprocal and a million times it
are both rounded, so that the last length with a nonzero fraction is not two
million but the next number of the format.
-/

namespace RowReduction

-- Powers are those of the core library wherever the module is compiled.
attribute [local instance (high)] instPowNat

namespace Binary64

section Neighbours

/-- The magnitudes of the format above one of them are above it by its spacing. -/
theorem add_spacing_le {m n : ℕ} (hm : Representable m) (hn : Representable n) (h : m < n) :
    m + spacing m ≤ n := by
  have hdvd : spacing m ∣ n := (spacing_dvd_spacing (log2_le_log2 h.le)).trans hn.2
  have hle := Nat.le_of_dvd (Nat.sub_pos_of_lt h) (Nat.dvd_sub hdvd hm.2)
  omega

end Neighbours

section Constants

/-- Multiples of the units in one by a significand are magnitudes of the format. -/
theorem representable_mul_unitsPerOne {m : ℕ} (h : m < 2 ^ (fractionBits + 1)) :
    Representable (m * unitsPerOne) :=
  representable_shift h (by decide)

/-- Small numbers are converted exactly. -/
theorem ofNat_eq_finite {m : ℕ} (h : m < 2 ^ (fractionBits + 1)) :
    ofNat m = finite false (m * unitsPerOne) (representable_mul_unitsPerOne h) := by
  have hexact := ofQuotient_mul false (representable_mul_unitsPerOne h) Nat.one_pos
  rwa [Nat.mul_one] at hexact

/-- The number of places of the root of one unit behind the binary point. -/
def rootPlaces : ℕ := 537

/-- The magnitude of the root of one unit: no shorter length but zero is computed. -/
def leastLength : ℕ := 2 ^ rootPlaces

theorem leastLength_pos : 0 < leastLength :=
  Nat.two_pow_pos rootPlaces

theorem representable_leastLength : Representable leastLength := by
  have hshift := representable_shift (m := 1) (k := rootPlaces) (by decide) (by decide)
  rwa [Nat.one_mul] at hshift

theorem leastLength_mul_self : leastLength * leastLength = unitsPerOne := by
  have hplaces : unitPlaces = rootPlaces + rootPlaces := rfl
  rw [unitsPerOne, hplaces, Nat.pow_add, leastLength]

theorem representable_mul_leastLength {m : ℕ} (h : m < 2 ^ (fractionBits + 1)) :
    Representable (m * (leastLength * unitsPerOne)) := by
  rw [leastLength, unitsPerOne, ← Nat.pow_add]
  exact representable_shift h (by decide)

/-- The number of places of the last bit of two million behind the binary point. -/
def lastPlaces : ℕ := 32

/-- The magnitude of the greatest length whose reciprocal is not rounded to zero millionths: the
next number of the format after two million. -/
def greatestLength : ℕ := 2000000 * unitsPerOne + 2 ^ (unitPlaces - lastPlaces)

theorem greatestLength_eq :
    greatestLength = (2000000 * 2 ^ lastPlaces + 1) * 2 ^ (unitPlaces - lastPlaces) := by
  have hplaces : lastPlaces + (unitPlaces - lastPlaces) = unitPlaces := by decide
  rw [greatestLength, unitsPerOne, Nat.add_mul, Nat.mul_assoc, ← Nat.pow_add, hplaces, Nat.one_mul]

theorem greatestLength_pos : 0 < greatestLength :=
  Nat.add_pos_right _ (Nat.two_pow_pos _)

theorem representable_greatestLength : Representable greatestLength := by
  rw [greatestLength_eq]
  exact representable_shift (by decide) (by decide)

/-- The magnitude of two million and a half is beyond the greatest length. -/
theorem exists_greatestLength_lt : ∃ k, Representable k ∧ greatestLength < k ∧
    k * k ≤ 4000002000001 * unitsPerOne * unitsPerOne := by
  have hplaces : unitPlaces - 1 + 1 = unitPlaces := rfl
  have hone : unitsPerOne = 2 ^ (unitPlaces - 1) * 2 := by
    rw [← Nat.pow_add_one, hplaces, unitsPerOne]
  have hlast : 2 ^ (unitPlaces - lastPlaces) < 2 ^ (unitPlaces - 1) :=
    Nat.pow_lt_pow_right (by decide) (by decide)
  refine ⟨4000001 * 2 ^ (unitPlaces - 1), representable_shift (by decide) (by decide), ?_, ?_⟩
  · rw [greatestLength]
    omega
  · rw [hone]
    generalize 2 ^ (unitPlaces - 1) = half
    calc
      4000001 * half * (4000001 * half) = 16000008000001 * (half * half) := by ring
      _ ≤ 16000008000004 * (half * half) := Nat.mul_le_mul_right _ (by decide)
      _ = 4000002000001 * (half * 2) * (half * 2) := by ring

end Constants

section Reciprocals

-- The units in one and beyond the format are numbers too large to be computed with.
attribute [local irreducible] unitsPerOne unitsLimit leastLength

variable {n : ℕ}

/-- The magnitude of a million times a reciprocal, both of which are rounded. -/
def millionReciprocal (n : ℕ) : ℕ :=
  roundQuotient (roundQuotient (1 * unitsPerOne * unitsPerOne) n * (1000000 * unitsPerOne))
    unitsPerOne

theorem millionReciprocal_anti {m : ℕ} (hm : 0 < m) (h : m ≤ n) :
    millionReciprocal n ≤ millionReciprocal m := by
  apply roundQuotient_le_roundQuotient unitsPerOne_pos unitsPerOne_pos
  apply Nat.mul_le_mul_right
  apply Nat.mul_le_mul_right
  exact roundQuotient_le_roundQuotient (hm.trans_le h) hm (Nat.mul_le_mul_left _ h)

theorem millionReciprocal_greatestLength :
    unitsPerOne ≤ 2 * millionReciprocal greatestLength ∧
      2 * millionReciprocal (greatestLength + spacing greatestLength) < unitsPerOne := by
  decide +kernel

/-- A million times the reciprocal is at least one half up to the greatest length, and no
further. -/
theorem unitsPerOne_le_millionReciprocal_iff (hn : Representable n) (hpos : 0 < n) :
    unitsPerOne ≤ 2 * millionReciprocal n ↔ n ≤ greatestLength := by
  obtain ⟨hgreatest, hnext⟩ := millionReciprocal_greatestLength
  constructor
  · intro h
    by_contra hlt
    have hgap := add_spacing_le representable_greatestLength hn (Nat.lt_of_not_le hlt)
    have hanti := millionReciprocal_anti (Nat.add_pos_left greatestLength_pos _) hgap
    omega
  · intro h
    have hanti := millionReciprocal_anti hpos h
    omega

theorem ofQuotient_of_lt (negative : Bool) {num den : ℕ} (h : roundQuotient num den < unitsLimit) :
    ofQuotient negative num den =
      finite negative (roundQuotient num den) (representable_roundQuotient h) := by
  simp only [ofQuotient, dif_pos h]

/-- The reciprocals of lengths are far from the end of the format. -/
theorem reciprocal_le (h : leastLength ≤ n) :
    roundQuotient (1 * unitsPerOne * unitsPerOne) n ≤ 1 * (leastLength * unitsPerOne) := by
  calc
    roundQuotient (1 * unitsPerOne * unitsPerOne) n ≤
        roundQuotient (1 * (leastLength * unitsPerOne) * 1) 1 := by
      apply roundQuotient_le_roundQuotient (leastLength_pos.trans_le h) Nat.one_pos
      calc
        1 * unitsPerOne * unitsPerOne * 1 = leastLength * unitsPerOne * leastLength := by
          rw [Nat.mul_one, Nat.one_mul, Nat.mul_right_comm, leastLength_mul_self]
        _ ≤ leastLength * unitsPerOne * n := Nat.mul_le_mul_left _ h
        _ = 1 * (leastLength * unitsPerOne) * 1 * n := by ring
    _ = 1 * (leastLength * unitsPerOne) :=
      roundQuotient_mul (representable_mul_leastLength (by decide)) Nat.one_pos

/-- Within the format, there is room for a million times these reciprocals. -/
theorem millionReciprocal_lt (h : leastLength ≤ n) : millionReciprocal n < unitsLimit := by
  have hbound := representable_mul_leastLength (m := 1000000) (by decide)
  calc
    millionReciprocal n ≤
        roundQuotient (1000000 * (leastLength * unitsPerOne) * unitsPerOne) unitsPerOne := by
      apply roundQuotient_le_roundQuotient unitsPerOne_pos unitsPerOne_pos
      apply Nat.mul_le_mul_right
      calc
        roundQuotient (1 * unitsPerOne * unitsPerOne) n * (1000000 * unitsPerOne) ≤
            1 * (leastLength * unitsPerOne) * (1000000 * unitsPerOne) :=
          Nat.mul_le_mul_right _ (reciprocal_le h)
        _ = 1000000 * (leastLength * unitsPerOne) * unitsPerOne := by ring
    _ = 1000000 * (leastLength * unitsPerOne) := roundQuotient_mul hbound unitsPerOne_pos
    _ < unitsLimit := hbound.1

/-- A million times the reciprocal of a finite length is finite. -/
theorem one_div_mul_million (hn : Representable n) (h : leastLength ≤ n) :
    1 / finite false n hn * ofNat 1000000 =
      .finite false (millionReciprocal n)
        (representable_roundQuotient (millionReciprocal_lt h)) := by
  have hquotient := (reciprocal_le h).trans_lt (representable_mul_leastLength (by decide)).1
  have hone : (1 : Binary64) = ofNat 1 := rfl
  rw [hone, ofNat_eq_finite (by decide), finite_div_finite _ _ (leastLength_pos.trans_le h).ne',
    ofQuotient_of_lt _ hquotient, ofNat_eq_finite (by decide)]
  exact ofQuotient_of_lt false (millionReciprocal_lt h)

end Reciprocals

end Binary64

namespace Fraction

open Binary64

attribute [local irreducible] unitsPerOne unitsLimit

/-- A finite million times a number is rounded to a natural number of millionths, which is not zero
from one half on. -/
theorem ofBinary64?_of_million {x : Binary64} {n : ℕ} {hn : Representable n}
    (h : x * ofNat 1000000 = .finite false n hn) :
    ∃ c : Fraction, ofBinary64? x = some c ∧ 0 ≤ c.value ∧
      (0 < c.value ↔ unitsPerOne ≤ 2 * n) := by
  have hU := unitsPerOne_pos
  have hvalue : ∀ k : ℕ, (reduce k 1000000 (by decide)).value = (k : ℚ) / 1000000 := by
    intro k
    rw [value_reduce, Int.cast_natCast, Nat.cast_ofNat]
  refine ⟨reduce ((2 * n + unitsPerOne) / (2 * unitsPerOne) : ℕ) 1000000 (by decide), ?_, ?_, ?_⟩
  · rw [ofBinary64?, h]
    rfl
  · rw [hvalue]
    positivity
  · rw [hvalue, div_pos_iff_of_pos_right (by norm_num), Nat.cast_pos, Nat.div_pos_iff]
    omega

/-- The numbers from the least length on have reciprocals in millionths that are not negative, and
that are positive up to the greatest length. -/
theorem ofBinary64?_one_div {x : Binary64} (hx : AtLeast leastLength x) :
    ∃ c : Fraction, ofBinary64? (1 / x) = some c ∧ 0 ≤ c.value ∧
      (0 < c.value ↔ AtMost greatestLength x) := by
  cases hx with
  | infinity =>
      -- The reciprocal of an infinity is zero, and so are its millionths.
      have hzero : 1 / infinity false * ofNat 1000000 = .finite false 0 representable_zero := by
        have hone : (1 : Binary64) = ofNat 1 := rfl
        rw [hone, ofNat_eq_finite (by decide), ofNat_eq_finite (by decide)]
        change Binary64.mul (signedZero false) (.finite false _ _) = _
        simp only [signedZero, Binary64.mul, Nat.zero_mul, Bool.xor_self]
        exact ofQuotient_zero false unitsPerOne_pos
      obtain ⟨c, hc, hnonneg, hpos⟩ := ofBinary64?_of_million hzero
      refine ⟨c, hc, hnonneg, hpos.trans ⟨?_, ?_⟩⟩
      · intro h
        exact absurd h (Nat.not_le.mpr unitsPerOne_pos)
      · intro h
        cases h
  | @finite n hn hle =>
      have hle : leastLength ≤ n := Nat.cast_le.mp hle
      obtain ⟨c, hc, hnonneg, hpos⟩ := ofBinary64?_of_million (one_div_mul_million hn hle)
      rw [unitsPerOne_le_millionReciprocal_iff hn (leastLength_pos.trans_le hle)] at hpos
      refine ⟨c, hc, hnonneg, hpos.trans ⟨?_, ?_⟩⟩
      · intro h
        exact .finite hn (Nat.cast_le.mpr h)
      · rintro ⟨_, h⟩
        exact Nat.cast_le.mp h

end Fraction

end RowReduction

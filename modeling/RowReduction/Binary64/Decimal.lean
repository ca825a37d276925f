import RowReduction.Text.Decimal
import RowReduction.Binary64.Rounding

/-!
# Decimal numbers rounded to the format

A decimal number is a quotient of natural numbers, and it is rounded once. A
power of ten that settles the result by itself is not multiplied out, so that
a short text with a large exponent is read in no time.
-/

namespace RowReduction.Binary64

-- Powers are those of the core library wherever the module is compiled.
attribute [local instance (high)] instPowNat

open Text (Decimal)

/-- The number of places behind the point from which on digits are too small to matter alone. -/
def negligiblePlaces : Nat := 331

/-- The power of ten from which on every decimal number is too large. -/
def overflowPower : Nat := 310

/-- The number nearest to a decimal number. Powers of ten that decide the result alone, as
zero or as an infinity, are not multiplied out. -/
def ofDecimal (negative : Bool) (d : Decimal) : Binary64 :=
  if d.digits = 0 ∨ d.exponent + (d.digits.log2 / 3 + 1 + negligiblePlaces : Nat) ≤ 0 then
    signedZero negative
  else if (overflowPower : Int) ≤ d.exponent then infinity negative
  else ofQuotient negative (d.numerator * unitsPerOne) d.denominator

/-- The number that a decimal text stands for, rounded. -/
def ofText? (cs : List Char) : Option Binary64 :=
  (Decimal.read? cs).map fun p => ofDecimal p.1 p.2

/-- A number has at most one digit more than a third of the bits after its first. -/
theorem lt_ten_pow (n : Nat) : n < 10 ^ (n.log2 / 3 + 1) :=
  calc
    n < 2 ^ (n.log2 + 1) := Nat.lt_log2_self
    _ ≤ 2 ^ (3 * (n.log2 / 3 + 1)) := Nat.pow_le_pow_right (by decide) (by omega)
    _ = 8 ^ (n.log2 / 3 + 1) := by rw [Nat.pow_mul]
    _ ≤ 10 ^ (n.log2 / 3 + 1) := Nat.pow_le_pow_left (by decide) _

theorem two_unitsPerOne_le : 2 * unitsPerOne ≤ 10 ^ negligiblePlaces := by
  decide +kernel

theorem unitsLimit_le : unitsLimit ≤ 10 ^ overflowPower * unitsPerOne := by
  decide +kernel

theorem roundQuotient_negligible {d : Decimal}
    (h : d.exponent + (d.digits.log2 / 3 + 1 + negligiblePlaces : Nat) ≤ 0) :
    roundQuotient (d.numerator * unitsPerOne) d.denominator = 0 := by
  have he : d.exponent.toNat = 0 := by omega
  apply roundQuotient_eq_zero
  calc
    2 * (d.numerator * unitsPerOne) = d.digits * (2 * unitsPerOne) := by
      rw [Decimal.numerator, he, Nat.pow_zero, Nat.mul_one, Nat.mul_left_comm]
    _ < 10 ^ (d.digits.log2 / 3 + 1) * 10 ^ negligiblePlaces :=
      Nat.mul_lt_mul_of_lt_of_le (lt_ten_pow _) two_unitsPerOne_le
        (Nat.pow_pos (by decide))
    _ = 10 ^ (d.digits.log2 / 3 + 1 + negligiblePlaces) :=
      (Nat.pow_add 10 _ _).symm
    _ ≤ d.denominator := Nat.pow_le_pow_right (by decide) (by omega)

theorem unitsLimit_le_roundQuotient {d : Decimal} (hd : d.digits ≠ 0)
    (h : (overflowPower : Int) ≤ d.exponent) :
    unitsLimit ≤ roundQuotient (d.numerator * unitsPerOne) d.denominator := by
  have he : (-d.exponent).toNat = 0 := by omega
  apply two_pow_le_roundQuotient
  calc
    unitsLimit ≤ 10 ^ overflowPower * unitsPerOne := unitsLimit_le
    _ ≤ d.numerator * unitsPerOne := by
      refine Nat.mul_le_mul_right _ ?_
      calc
        10 ^ overflowPower ≤ 10 ^ d.exponent.toNat :=
          Nat.pow_le_pow_right (by decide) (by omega)
        _ ≤ d.numerator := Nat.le_mul_of_pos_left _ (Nat.pos_of_ne_zero hd)
    _ = d.numerator * unitsPerOne / d.denominator := by
      rw [Decimal.denominator, he, Nat.pow_zero, Nat.div_one]

/-- A decimal number is rounded as the quotient it is, whatever its power of ten. -/
theorem ofDecimal_eq_ofQuotient (negative : Bool) (d : Decimal) :
    ofDecimal negative d = ofQuotient negative (d.numerator * unitsPerOne) d.denominator := by
  unfold ofDecimal
  split
  · rename_i h
    have hzero : roundQuotient (d.numerator * unitsPerOne) d.denominator = 0 := by
      rcases h with h | h
      · apply roundQuotient_eq_zero
        simp [Decimal.numerator, h, d.denominator_pos]
      · exact roundQuotient_negligible h
    simp [ofQuotient, hzero, unitsLimit_pos, signedZero]
  · split
    · rename_i hsmall hlarge
      have hd : d.digits ≠ 0 := fun hz => hsmall (Or.inl hz)
      have hlimit := unitsLimit_le_roundQuotient hd hlarge
      simp [ofQuotient, Nat.not_lt.mpr hlimit]
    · rfl

end RowReduction.Binary64

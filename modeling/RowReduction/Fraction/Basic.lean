import RowReduction.Error

/-!
# Fractions in lowest terms

A fraction has an integer above and a positive natural number below, without a
common divisor, so that two fractions of one value are equal. Each operation
multiplies across and reduces once.
-/

namespace RowReduction

/-- A rational number in lowest terms with its sign on the numerator. -/
structure Fraction where
  num : Int
  den : Nat
  den_pos : 0 < den
  coprime : num.natAbs.gcd den = 1
  deriving DecidableEq

namespace Fraction

/-- The lowest terms of an integer over a positive number. -/
def reduce (num : Int) (den : Nat) (h : 0 < den) : Fraction where
  num := num.tdiv (num.natAbs.gcd den)
  den := den / num.natAbs.gcd den
  den_pos := Nat.div_pos (Nat.gcd_le_right _ h) (Nat.gcd_pos_of_pos_right _ h)
  coprime := by
    rw [Int.natAbs_tdiv, Int.natAbs_natCast]
    exact Nat.gcd_div_gcd_div_gcd_of_pos_right h

/-- The lowest terms of an integer over a nonzero integer. -/
def ofQuotient (num den : Int) (h : den ≠ 0) : Fraction :=
  reduce (den.sign * num) den.natAbs (Int.natAbs_pos.mpr h)

/-- The fraction of a numerator and a denominator, unless the latter is zero. -/
def make? (num den : Int) : Except Error Fraction :=
  if h : den = 0 then .error (.zeroDenominator num) else .ok (ofQuotient num den h)

/-- The fraction over one. -/
def ofInt (n : Int) : Fraction where
  num := n
  den := 1
  den_pos := Nat.one_pos
  coprime := Nat.gcd_one_right _

instance : Zero Fraction := ⟨ofInt 0⟩

instance : One Fraction := ⟨ofInt 1⟩

instance : Inhabited Fraction := ⟨0⟩

/-- The numerator is zero. -/
def isZero (a : Fraction) : Bool :=
  a.num == 0

protected def add (a b : Fraction) : Fraction :=
  reduce (a.num * b.den + b.num * a.den) (a.den * b.den) (Nat.mul_pos a.den_pos b.den_pos)

protected def sub (a b : Fraction) : Fraction :=
  reduce (a.num * b.den - b.num * a.den) (a.den * b.den) (Nat.mul_pos a.den_pos b.den_pos)

protected def mul (a b : Fraction) : Fraction :=
  reduce (a.num * b.num) (a.den * b.den) (Nat.mul_pos a.den_pos b.den_pos)

protected def neg (a : Fraction) : Fraction where
  num := -a.num
  den := a.den
  den_pos := a.den_pos
  coprime := by rw [Int.natAbs_neg, a.coprime]

instance : Add Fraction := ⟨Fraction.add⟩

instance : Sub Fraction := ⟨Fraction.sub⟩

instance : Mul Fraction := ⟨Fraction.mul⟩

instance : Neg Fraction := ⟨Fraction.neg⟩

/-- The numerator, a slash and the denominator. -/
instance : ToString Fraction := ⟨fun a => s!"{a.num}/{a.den}"⟩

theorem den_ne_zero (a : Fraction) : (a.den : Int) ≠ 0 :=
  Int.natCast_ne_zero.mpr (Nat.ne_of_gt a.den_pos)

theorem isZero_eq_true_iff {a : Fraction} : a.isZero = true ↔ a.num = 0 := by
  simp [isZero]

/-- The quotient, unless the divisor is zero. -/
def div? (a b : Fraction) : Except Error Fraction :=
  if h : b.num = 0 then .error (.zeroDivisor (toString a) (toString b))
  else .ok (ofQuotient (a.num * b.den) (a.den * b.num) (Int.mul_ne_zero a.den_ne_zero h))

/-- The inverse, unless the fraction is zero. -/
def inv? (a : Fraction) : Except Error Fraction :=
  if h : a.num = 0 then .error .zeroFractionInverse else .ok (ofQuotient a.den a.num h)

/-- The integer part, toward zero. -/
def truncate (a : Fraction) : Int :=
  a.num.tdiv a.den

end Fraction

end RowReduction

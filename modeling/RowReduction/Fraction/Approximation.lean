import RowReduction.Fraction.Basic
import RowReduction.Binary64.Arithmetic
import RowReduction.Binary64.Integer

/-!
# Fractions and binary64 numbers

A fraction is approximated by the quotient of its two parts, after both have
been cut to at most a thousand bits so that they lie within the format. A
number of the format is approximated by a whole number of millionths.
-/

namespace RowReduction.Fraction

/-- The number of binary digits; zero has none. -/
def bitLength (n : Nat) : Nat :=
  if n = 0 then 0 else n.log2 + 1

/-- The bits by which the longer part of the fraction exceeds a thousand. -/
def excessBits (a : Fraction) : Nat :=
  max (bitLength a.num.natAbs) (bitLength a.den) - 1000

/-- The number of the format that stands for the fraction. -/
def toBinary64 (a : Fraction) : Binary64 :=
  let num := a.num >>> a.excessBits
  let den := a.den >>> a.excessBits
  if den = 0 then .infinity (num < 0) else .ofInt num / .ofNat den

/-- The nearest whole number of millionths, if the number is finite and so is a million of it. -/
def ofBinary64? (x : Binary64) : Option Fraction :=
  (x * .ofNat 1000000).round?.map fun n => reduce n 1000000 (by decide)

end RowReduction.Fraction

import RowReduction.Text.Numeral

/-!
# Decimal numbers

A decimal number is a natural number of digits and a power of ten. It is
written with all its digits and without an exponent, and it is read with an
optional sign, an optional point and an optional exponent.
-/

namespace RowReduction.Text

-- Powers are those of the core library wherever the module is compiled.
attribute [local instance (high)] instPowNat

/-- The number `digits * 10 ^ exponent`. -/
structure Decimal where
  digits : Nat
  exponent : Int
  deriving DecidableEq, Repr

namespace Decimal

/-- The numerator of the number over `denominator`. -/
def numerator (d : Decimal) : Nat :=
  d.digits * 10 ^ d.exponent.toNat

/-- The power of ten that the number is a multiple of the inverse of. -/
def denominator (d : Decimal) : Nat :=
  10 ^ (-d.exponent).toNat

theorem denominator_pos (d : Decimal) : 0 < d.denominator :=
  Nat.pow_pos (by decide)

/-- All digits of the number, with a point before the fraction if there are places after it. -/
def positional (d : Decimal) : List Char :=
  let ds := numeral d.digits
  if 0 ≤ d.exponent then ds ++ List.replicate d.exponent.toNat '0'
  else
    let places := (-d.exponent).toNat
    let padded := List.replicate (places + 1 - ds.length) '0' ++ ds
    padded.take (padded.length - places) ++ '.' :: padded.drop (padded.length - places)

/-- The exponent at the end of a decimal number: nothing, or the letter `e` in either case, an
optional sign and a numeral. -/
def readExponent? : List Char → Option Int
  | [] => some 0
  | c :: cs =>
      if (c == 'e' || c == 'E') && isNumeral (splitSign cs).2 then
        some (withSign (splitSign cs).1 (numeralValue (splitSign cs).2))
      else none

/-- The digits after a point, and what follows them; without a point, no digits. -/
def splitFraction : List Char → List Char × List Char
  | '.' :: cs => (cs.takeWhile Char.isDigit, cs.dropWhile Char.isDigit)
  | cs => ([], cs)

/-- A decimal number without a sign: digits, of which some may follow a point but at least one
is there, and an exponent. -/
def readUnsigned? (cs : List Char) : Option Decimal :=
  let whole := cs.takeWhile Char.isDigit
  let (fraction, rest) := splitFraction (cs.dropWhile Char.isDigit)
  if isNumeral (whole ++ fraction) then
    (readExponent? rest).map fun e =>
      ⟨numeralValue (whole ++ fraction), e - (fraction.length : Int)⟩
  else none

/-- A decimal number with an optional sign, and whether the sign is a minus. -/
def read? (cs : List Char) : Option (Bool × Decimal) :=
  (readUnsigned? (splitSign cs).2).map fun d => ((splitSign cs).1, d)

end Decimal

end RowReduction.Text

import RowReduction.Binary64.Basic
import RowReduction.Error

/-!
# Scalars

The operations that vectors, matrices and linear systems need of their entries.
No law is asked of them, so that rounded arithmetic with a tolerant equality
serves as well as exact arithmetic.
-/

namespace RowReduction

/-- The operations of a field with text and with conversions from and to machine numbers. -/
class Scalar (α : Type) extends Zero α, One α, Add α, Sub α, Mul α, Neg α, BEq α,
    ToString α where
  /-- The values that cannot be a divisor or a pivot. -/
  isZero : α → Bool
  /-- The quotient, unless the divisor counts as zero. -/
  div? : α → α → Except Error α
  /-- The inverse, unless the value counts as zero. -/
  inv? : α → Except Error α
  /-- The value that a text writes. -/
  parse? : String → Except Error α
  /-- The value of an integer. -/
  ofInt : Int → α
  /-- The integer part of a real value. -/
  truncate? : α → Option Int
  /-- The value of a binary64 number. -/
  ofBinary64? : Binary64 → Option α
  /-- The binary64 number that stands for a real value. -/
  toBinary64? : α → Option Binary64

namespace Scalar

variable {α : Type} [Scalar α]

/-- The value equals one. -/
def isOne (a : α) : Bool :=
  a == 1

/-- The sum from left to right, starting with zero. -/
def sum (xs : List α) : α :=
  xs.foldl (· + ·) 0

/-- The product from left to right, starting with one. -/
def product (xs : List α) : α :=
  xs.foldl (· * ·) 1

/-- The product of the coefficients with their elements, summed; the numbers of both agree. -/
def weightedSum (cs xs : List α) : α :=
  sum (List.zipWith (· * ·) cs xs)

/-- One, multiplied by the value as often as the exponent says. -/
def power (a : α) (exponent : Nat) : α :=
  Nat.repeat (· * a) exponent 1

/-- The power of the value, or of its inverse if the exponent is negative. -/
def power? (a : α) (exponent : Int) : Except Error α :=
  if exponent < 0 then (inv? a).map (power · exponent.natAbs)
  else .ok (power a exponent.natAbs)

/-- The sum over as many ones as there are elements. -/
def average? (xs : List α) : Except Error α :=
  if xs.isEmpty then .error .emptyAverage
  else div? (sum xs) (sum (xs.map fun _ => 1))

/-- The sum of the elements, each multiplied by its coefficient. -/
def linearCombination? (cs xs : List α) : Except Error α :=
  if cs.length = xs.length then .ok (weightedSum cs xs)
  else .error (.combinationLengths cs.length xs.length)

end Scalar

end RowReduction

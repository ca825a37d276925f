import RowReduction.Text.Numeral
import RowReduction.Binary64.Rounding

/-!
# Arithmetic and order of the format

Each operation takes the exact result of its operands and rounds it once. Sums
are exact in units; a product of units is divided by the units in one, and a
quotient is multiplied by them.
-/

namespace RowReduction.Binary64

/-- The number nearest to an integer of units; `negativeZero` gives the sign of zero. -/
def ofSum (negativeZero : Bool) (units : Int) : Binary64 :=
  ofQuotient (if units = 0 then negativeZero else units < 0) units.natAbs 1

/-- The number nearest to a natural number. -/
def ofNat (n : Nat) : Binary64 :=
  ofQuotient false (n * unitsPerOne) 1

/-- The number nearest to an integer. -/
def ofInt (i : Int) : Binary64 :=
  ofQuotient (i < 0) (i.natAbs * unitsPerOne) 1

instance : One Binary64 := ⟨ofNat 1⟩

/-- The number of the opposite sign. -/
def neg : Binary64 → Binary64
  | nan => nan
  | infinity negative => infinity !negative
  | finite negative n h => finite (!negative) n h

/-- The number without its sign. -/
def abs : Binary64 → Binary64
  | nan => nan
  | infinity _ => infinity false
  | finite _ n h => finite false n h

/-- The nearest number to the sum. A sum of zero is negative only when both operands are. -/
def add : Binary64 → Binary64 → Binary64
  | nan, _ | _, nan => nan
  | infinity s, infinity t => if s = t then infinity s else nan
  | infinity s, finite .. => infinity s
  | finite .., infinity t => infinity t
  | finite s m _, finite t n _ => ofSum (s && t) (Text.withSign s m + Text.withSign t n)

/-- The nearest number to the difference. -/
def sub (x y : Binary64) : Binary64 :=
  add x (neg y)

/-- The nearest number to the product. -/
def mul : Binary64 → Binary64 → Binary64
  | nan, _ | _, nan => nan
  | infinity s, infinity t => infinity (s ^^ t)
  | infinity s, finite t n _ => if n = 0 then nan else infinity (s ^^ t)
  | finite s m _, infinity t => if m = 0 then nan else infinity (s ^^ t)
  | finite s m _, finite t n _ => ofQuotient (s ^^ t) (m * n) unitsPerOne

/-- The nearest number to the quotient. -/
def div : Binary64 → Binary64 → Binary64
  | nan, _ | _, nan => nan
  | infinity _, infinity _ => nan
  | infinity s, finite t _ _ => infinity (s ^^ t)
  | finite s _ _, infinity t => signedZero (s ^^ t)
  | finite s m _, finite t n _ =>
      if n = 0 then if m = 0 then nan else infinity (s ^^ t)
      else ofQuotient (s ^^ t) (m * unitsPerOne) n

instance : Neg Binary64 := ⟨neg⟩

instance : Add Binary64 := ⟨add⟩

instance : Sub Binary64 := ⟨sub⟩

instance : Mul Binary64 := ⟨mul⟩

instance : Div Binary64 := ⟨div⟩

/-- The strict order of values: the zeros are not ordered, and nothing is below or above the
value that is not a number. -/
def lt : Binary64 → Binary64 → Bool
  | nan, _ | _, nan => false
  | infinity s, infinity t => s && !t
  | infinity s, finite .. => s
  | finite .., infinity t => !t
  | finite s m _, finite t n _ => Text.withSign s m < Text.withSign t n

end RowReduction.Binary64

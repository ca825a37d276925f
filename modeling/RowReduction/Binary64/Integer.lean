import RowReduction.Binary64.Basic
import RowReduction.Text.Numeral

/-!
# Integers near a number

The integer below, the nearest integer and the integer part of a finite
number. Infinities and the value that is not a number have none.
-/

namespace RowReduction.Binary64

/-- The greatest integer that is not above the number. -/
def floor? (x : Binary64) : Option Int :=
  x.units?.map (· / (unitsPerOne : Int))

/-- The integer part: the number without its fraction, toward zero. -/
def truncate? : Binary64 → Option Int
  | finite negative n _ => some (Text.withSign negative (n / unitsPerOne))
  | _ => none

/-- The nearest integer; of two equally near, the one away from zero. -/
def round? : Binary64 → Option Int
  | finite negative n _ =>
      some (Text.withSign negative ((2 * n + unitsPerOne) / (2 * unitsPerOne)))
  | _ => none

end RowReduction.Binary64

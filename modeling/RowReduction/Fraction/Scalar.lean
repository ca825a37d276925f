import RowReduction.Scalar
import RowReduction.Fraction.Text
import RowReduction.Fraction.Approximation

/-!
# Fractions as scalars
-/

namespace RowReduction.Fraction

instance : Scalar Fraction where
  isZero := isZero
  div? := div?
  inv? := inv?
  parse? := parse?
  ofInt := ofInt
  truncate? a := some a.truncate
  ofBinary64? := ofBinary64?
  toBinary64? a := some a.toBinary64

end RowReduction.Fraction

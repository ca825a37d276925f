import RowReduction.Scalar
import RowReduction.Complex.Text
import RowReduction.Binary64.Integer

/-!
# Complex numbers as scalars

Only numbers that count as real have an integer part or stand for a binary64
number, and only finite binary64 numbers are complex numbers.
-/

namespace RowReduction.Complex

instance : Scalar Complex where
  isZero := isZero
  div? := div?
  inv? := inv?
  parse? := parse?
  ofInt n := ofReal (.ofInt n)
  truncate? z := if z.isReal then z.re.truncate? else none
  ofBinary64? x := if x.isFinite then some (ofReal x) else none
  toBinary64? z := if z.isReal then some z.re else none

end RowReduction.Complex

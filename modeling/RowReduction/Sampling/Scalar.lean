import RowReduction.Fraction.Scalar
import RowReduction.Fraction.Order
import RowReduction.Complex.Scalar
import RowReduction.Sampling.Source
import RowReduction.Sampling.Options

/-!
# Random scalars

Fractions are sampled on a grid: a number of points per unit, each of which is
drawn as an integer. Complex numbers are sampled part by part from the unit
interval.
-/

namespace RowReduction

-- Powers are those of the core library wherever the module is compiled.
attribute [local instance (high)] instPowNat

/-- Random choices, which may fail. -/
abbrev Sampler (α : Type) := ExceptT Error (StateM Source) α

/-- Scalars that can be sampled without a range and within one. -/
class Sampled (α : Type) extends Scalar α where
  /-- A value within the magnitude of the options. -/
  unbounded : SampleOptions → StateM Source α
  /-- A value from the first to the second bound. -/
  inRange : α → α → SampleOptions → Sampler α

namespace Fraction

/-- The last grid point that is not above the fraction, as a number of grid steps. -/
def gridFloor (a : Fraction) (density : Nat) : Int :=
  a.num * density / a.den

/-- The first grid point that is not below the fraction, as a number of grid steps. -/
def gridCeil (a : Fraction) (density : Nat) : Int :=
  -(-(a.num * density) / a.den)

/-- The grid point a number of steps from zero. -/
def gridPoint (o : SampleOptions) (k : Int) : Fraction :=
  reduce k o.density o.density_pos

/-- The number of grid steps from zero to the magnitude; none if it is not finite. -/
def gridBound (o : SampleOptions) : Int :=
  ((o.magnitude.abs * .ofNat o.density).floor?).getD 0

/-- A grid point within the magnitude. -/
def unbounded (o : SampleOptions) : StateM Source Fraction :=
  let bound := gridBound o
  if 0 < bound then do return gridPoint o (← Source.between (-bound) bound)
  else return 0

/-- A grid point of a range, or its lower end if it has none. -/
def inRange (lower upper : Fraction) (o : SampleOptions) : Sampler Fraction :=
  let first := lower.gridCeil o.density
  let last := upper.gridFloor o.density
  if upper < lower then throw (.emptyRange (toString lower) (toString upper))
  else if last < first then return lower
  else do return gridPoint o (← Source.between first last)

instance : Sampled Fraction where
  unbounded := unbounded
  inRange := inRange

end Fraction

namespace Binary64

/-- A number of the unit interval, one excluded: as many leading bits of a word as a significand
has, over the power of two that they stay below. -/
def unitInterval : StateM Source Binary64 := do
  return ofQuotient false (((← Source.word) >>> 11).toNat * unitsPerOne) (2 ^ (fractionBits + 1))

/-- The number halfway from zero to one. -/
def half : Binary64 :=
  1 / ofNat 2

end Binary64

namespace Complex

/-- A number whose parts lie within the magnitude. -/
def unbounded (o : SampleOptions) : StateM Source Complex := do
  let width := .ofNat 2 * o.magnitude
  let re := ((← Binary64.unitInterval) - .half) * width
  let im := ((← Binary64.unitInterval) - .half) * width
  return ⟨re, im⟩

/-- A number whose parts lie between those of the bounds. -/
def inRange (lower upper : Complex) (_ : SampleOptions) : Sampler Complex := do
  let re := lower.re + (upper.re - lower.re) * (← Binary64.unitInterval)
  let im := lower.im + (upper.im - lower.im) * (← Binary64.unitInterval)
  return ⟨re, im⟩

instance : Sampled Complex where
  unbounded := unbounded
  inRange := inRange

end Complex

end RowReduction

import RowReduction.Binary64.Root
import RowReduction.Binary64.Shortest
import RowReduction.Error

/-!
# Complex numbers with rounded parts

A complex number is a pair of binary64 numbers. Two of them are equal when
both parts differ by less than a tolerance, and one counts as zero when its
squared modulus is below that tolerance. The tolerance is absolute.
-/

namespace RowReduction

/-- A complex number with a real and an imaginary part. -/
structure Complex where
  re : Binary64
  im : Binary64

namespace Complex

/-- The binary64 number nearest to `10 ^ -10`. -/
def tolerance : Binary64 :=
  .ofDecimal false ⟨1, -10⟩

/-- The magnitude of the number is below the tolerance. -/
def isNegligible (x : Binary64) : Bool :=
  x.abs.lt tolerance

/-- The complex number on the real axis. -/
def ofReal (x : Binary64) : Complex :=
  ⟨x, 0⟩

/-- The imaginary unit. -/
def I : Complex :=
  ⟨0, 1⟩

instance : Zero Complex := ⟨ofReal 0⟩

instance : One Complex := ⟨ofReal 1⟩

instance : Inhabited Complex := ⟨0⟩

/-- Both parts differ by less than the tolerance. -/
instance : BEq Complex where
  beq z w := isNegligible (z.re - w.re) && isNegligible (z.im - w.im)

instance : Add Complex := ⟨fun z w => ⟨z.re + w.re, z.im + w.im⟩⟩

instance : Sub Complex := ⟨fun z w => ⟨z.re - w.re, z.im - w.im⟩⟩

instance : Mul Complex where
  mul z w := ⟨z.re * w.re - z.im * w.im, z.re * w.im + z.im * w.re⟩

instance : Neg Complex := ⟨fun z => ⟨-z.re, -z.im⟩⟩

/-- The sum of the squares of the parts. -/
def modulusSquared (z : Complex) : Binary64 :=
  z.re * z.re + z.im * z.im

/-- The distance from zero. -/
def modulus (z : Complex) : Binary64 :=
  Binary64.hypot z.re z.im

/-- The number with the opposite imaginary part. -/
def conj (z : Complex) : Complex :=
  ⟨z.re, -z.im⟩

/-- The imaginary part is below the tolerance. -/
def isReal (z : Complex) : Bool :=
  isNegligible z.im

/-- The squared modulus is below the tolerance. -/
def isZero (z : Complex) : Bool :=
  z.modulusSquared.lt tolerance

/-- The real part alone, the imaginary part alone, or both with a sign between them. -/
instance : ToString Complex where
  toString z :=
    if z.isReal then toString z.re
    else if isNegligible z.re then s!"{z.im}i"
    else if z.im.isNegative then s!"{z.re}-{-z.im}i"
    else s!"{z.re}+{z.im}i"

/-- The quotient, unless the divisor counts as zero. -/
def div? (z w : Complex) : Except Error Complex :=
  if w.isZero then .error (.zeroDivisor s!"({z})" s!"({w})")
  else
    let d := w.modulusSquared
    .ok ⟨(z.re * w.re + z.im * w.im) / d, (z.im * w.re - z.re * w.im) / d⟩

/-- The inverse, unless the number counts as zero. -/
def inv? (z : Complex) : Except Error Complex :=
  if z.isZero then .error (.zeroComplexInverse (toString z))
  else .ok ⟨z.re / z.modulusSquared, -z.im / z.modulusSquared⟩

/-- A number has an inverse unless it counts as zero. -/
theorem isOk_inv? (z : Complex) : z.inv?.isOk = !z.isZero := by
  cases h : z.isZero <;> simp [inv?, h, Except.isOk, Except.toBool]

end Complex

end RowReduction

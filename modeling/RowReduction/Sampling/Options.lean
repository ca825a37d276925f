import RowReduction.Binary64.Arithmetic

/-!
# Options of sampling

The magnitude bounds samples that are given no range, and the resolution is the
number of grid points per unit for scalars that are sampled on a grid.
-/

namespace RowReduction

/-- The magnitude and the resolution of samples. -/
structure SampleOptions where
  magnitude : Binary64 := .ofNat 10
  resolution : Nat := 100
  deriving DecidableEq

namespace SampleOptions

instance : Inhabited SampleOptions := ⟨{}⟩

/-- The options with another magnitude. -/
def withMagnitude (o : SampleOptions) (magnitude : Binary64) : SampleOptions :=
  { o with magnitude }

/-- The options with another resolution, which is at least one. -/
def withResolution (o : SampleOptions) (resolution : Nat) : SampleOptions :=
  { o with resolution := max resolution 1 }

/-- The number of grid points per unit that is used: the resolution, or one if it is zero. -/
def density (o : SampleOptions) : Nat :=
  max o.resolution 1

theorem density_pos (o : SampleOptions) : 0 < o.density :=
  Nat.lt_of_lt_of_le Nat.one_pos (Nat.le_max_right _ _)

end SampleOptions

end RowReduction

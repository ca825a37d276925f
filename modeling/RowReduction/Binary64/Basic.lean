/-!
# Numbers of the binary64 format

A finite number of the format is a whole multiple of the least positive one,
`2 ^ -1074`, which is the unit throughout. A magnitude of `n` units is a number
of the format when `n` is a multiple of the spacing of the format at `n` and
lies below `2 ^ 1024`, that is below `2 ^ 2098` units. Zero keeps its sign, and
all results that are not a number are one value.

## Implementation notes

The spacing is `2 ^ (log₂ n - 52)` with truncated subtraction, so that the
subnormal numbers need no case of their own: there the spacing is one unit.
-/

namespace RowReduction

-- Powers are those of the core library wherever the module is compiled.
attribute [local instance (high)] instPowNat

namespace Binary64

/-- The number of bits of the fraction. -/
def fractionBits : Nat := 52

/-- The number of places of the unit behind the binary point. -/
def unitPlaces : Nat := 1074

/-- The units in one. -/
def unitsPerOne : Nat := 2 ^ unitPlaces

/-- The units in `2 ^ 1024`, the first power of two beyond the format. -/
def unitsLimit : Nat := 2 ^ (unitPlaces + 1024)

/-- The distance between neighbouring numbers of the format from `n` units up to the next
power of two. -/
def spacing (n : Nat) : Nat := 2 ^ (n.log2 - fractionBits)

/-- A magnitude in units that a number of the format has. -/
def Representable (n : Nat) : Prop :=
  n < unitsLimit ∧ spacing n ∣ n

instance (n : Nat) : Decidable (Representable n) :=
  inferInstanceAs (Decidable (_ ∧ _))

theorem unitsPerOne_pos : 0 < unitsPerOne :=
  Nat.two_pow_pos unitPlaces

theorem unitsLimit_pos : 0 < unitsLimit :=
  Nat.two_pow_pos (unitPlaces + 1024)

theorem representable_zero : Representable 0 :=
  ⟨unitsLimit_pos, Nat.dvd_zero _⟩

theorem spacing_pos (n : Nat) : 0 < spacing n :=
  Nat.two_pow_pos _

theorem spacing_dvd_spacing {m n : Nat} (h : m.log2 ≤ n.log2) : spacing m ∣ spacing n :=
  Nat.pow_dvd_pow 2 (by omega)

end Binary64

/-- A number of the binary64 format: a magnitude in units of `2 ^ -1074` with a sign, an
infinity, or the one value that is not a number. -/
inductive Binary64 where
  | nan
  | infinity (negative : Bool)
  | finite (negative : Bool) (units : Nat) (representable : Binary64.Representable units)
  deriving DecidableEq

namespace Binary64

/-- The value of a finite number, in units. -/
def units? : Binary64 → Option Int
  | finite negative n _ => some (if negative then -(n : Int) else n)
  | _ => none

/-- Neither an infinity nor the value that is not a number. -/
def isFinite : Binary64 → Bool
  | finite .. => true
  | _ => false

/-- Zero of either sign. -/
def isZero : Binary64 → Bool
  | finite _ n _ => n == 0
  | _ => false

/-- The sign, where the value that is not a number counts as positive. -/
def isNegative : Binary64 → Bool
  | nan => false
  | infinity negative => negative
  | finite negative _ _ => negative

/-- The zero of a sign. -/
def signedZero (negative : Bool) : Binary64 :=
  finite negative 0 representable_zero

instance : Zero Binary64 := ⟨signedZero false⟩

instance : Inhabited Binary64 := ⟨0⟩

end Binary64

end RowReduction

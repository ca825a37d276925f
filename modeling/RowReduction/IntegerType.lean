import RowReduction.Scalar

/-!
# Machine integers

Scalars are converted from and to the integers of a signedness and a width. All
conversions go through the 64-bit type of the same signedness, so that wider
types gain no values.
-/

namespace RowReduction

-- Powers are those of the core library wherever the module is compiled.
attribute [local instance (high)] instPowNat

/-- The integers of a signedness and a number of bits. -/
structure IntegerType where
  signed : Bool
  bits : Nat
  deriving DecidableEq, Repr

namespace IntegerType

/-- The least integer of the type. -/
def least (t : IntegerType) : Int :=
  if t.signed then -2 ^ (t.bits - 1) else 0

/-- The integer after the greatest one of the type. -/
def limit (t : IntegerType) : Int :=
  if t.signed then 2 ^ (t.bits - 1) else 2 ^ t.bits

/-- The type has the integer. -/
def Contains (t : IntegerType) (v : Int) : Prop :=
  t.least ≤ v ∧ v < t.limit

instance (t : IntegerType) (v : Int) : Decidable (t.Contains v) :=
  inferInstanceAs (Decidable (_ ∧ _))

/-- The 64-bit type of the same signedness. -/
def carrier (t : IntegerType) : IntegerType :=
  { t with bits := 64 }

variable {α : Type} [Scalar α]

/-- The integer part of a scalar, if both the type and its carrier contain it. -/
def ofScalar? (t : IntegerType) (a : α) : Option Int :=
  (Scalar.truncate? a).filter fun v => t.carrier.Contains v ∧ t.Contains v

/-- The scalar of an integer of the type, if the carrier contains it. -/
def toScalar? (t : IntegerType) (v : Int) : Option α :=
  if t.carrier.Contains v then some (Scalar.ofInt v) else none

end IntegerType

end RowReduction

import RowReduction.Fraction.Basic

/-!
# The order of fractions

Fractions are compared by multiplying across, which is exact because both
denominators are positive.
-/

namespace RowReduction.Fraction

/-- The comparison of the values. -/
protected def compare (a b : Fraction) : Ordering :=
  Ord.compare (a.num * b.den) (b.num * a.den)

instance : Ord Fraction := ⟨Fraction.compare⟩

instance : LE Fraction := ⟨fun a b => a.num * b.den ≤ b.num * a.den⟩

instance : LT Fraction := ⟨fun a b => a.num * b.den < b.num * a.den⟩

theorem lt_def {a b : Fraction} : a < b ↔ a.num * b.den < b.num * a.den :=
  Iff.rfl

instance (a b : Fraction) : Decidable (a ≤ b) :=
  inferInstanceAs (Decidable (_ ≤ (_ : Int)))

instance (a b : Fraction) : Decidable (a < b) :=
  inferInstanceAs (Decidable (_ < (_ : Int)))

/-- The fractions in ascending order. -/
def sort (xs : List Fraction) : List Fraction :=
  xs.mergeSort fun a b => a ≤ b

end RowReduction.Fraction

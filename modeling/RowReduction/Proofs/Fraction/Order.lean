import RowReduction.Proofs.Fraction.Value
import RowReduction.Sampling.Scalar
import Mathlib.Algebra.Order.Floor.Ring
import Mathlib.Data.Rat.Floor

/-!
# The order of values and the sampling grid

Multiplying across compares the values. The first and the last grid point of a
range are the ceiling and the floor of its ends in grid steps, so that a sample
of a range is settled by the values of the ends and the integer that is drawn.
-/

namespace RowReduction.Fraction

/-- Fractions are compared as their values are. -/
theorem lt_iff_value {a b : Fraction} : a < b ↔ a.value < b.value := by
  have ha : (0 : ℚ) < a.den := Nat.cast_pos.mpr a.den_pos
  have hb : (0 : ℚ) < b.den := Nat.cast_pos.mpr b.den_pos
  rw [lt_def, value, value, div_lt_div_iff₀ ha hb]
  exact_mod_cast Iff.rfl

theorem not_lt_iff_value {a b : Fraction} : ¬ a < b ↔ b.value ≤ a.value := by
  rw [lt_iff_value, not_lt]

/-- The value in grid steps is a quotient of integers. -/
theorem value_mul_density (a : Fraction) (density : Nat) :
    a.value * density = ((a.num * density : ℤ) : ℚ) / a.den := by
  rw [value]
  push_cast
  ring

/-- The last grid point that is not above a fraction, in steps, is the floor of its value in
steps. -/
theorem gridFloor_eq_floor (a : Fraction) (density : Nat) :
    a.gridFloor density = ⌊a.value * density⌋ := by
  rw [value_mul_density, Rat.floor_intCast_div_natCast]
  rfl

/-- The first grid point that is not below a fraction, in steps, is the ceiling of its value in
steps. -/
theorem gridCeil_eq_ceil (a : Fraction) (density : Nat) :
    a.gridCeil density = ⌈a.value * density⌉ := by
  rw [value_mul_density, Rat.ceil_intCast_div_natCast]
  rfl

@[simp] theorem value_gridPoint (o : SampleOptions) (k : Int) :
    (gridPoint o k).value = k / o.density :=
  value_reduce _ _ _

/-- The value of the sample of a range: its lower end if no grid point lies in the range, and
otherwise the grid point whose number of steps the source draws. -/
def rangeSample (lower upper : ℚ) (o : SampleOptions) (source : Source) : ℚ :=
  let first := ⌈lower * o.density⌉
  let last := ⌊upper * o.density⌋
  if last < first then lower else (Source.between first last source).1 / o.density

/-- A range has a sample if its ends are in order. -/
theorem inRange_eq_ok_iff {lower upper a : Fraction} {o : SampleOptions} {source : Source} :
    (inRange lower upper o source).1 = .ok a ↔
      lower.value ≤ upper.value ∧ a.value = rangeSample lower.value upper.value o source := by
  by_cases hempty : upper < lower
  · have hresult : (inRange lower upper o source).1 =
        .error (.emptyRange (toString lower) (toString upper)) := by
      rw [inRange, if_pos hempty]
      rfl
    simp [hresult, not_le.mpr (lt_iff_value.mp hempty)]
  · rw [and_iff_right (not_lt_iff_value.mp hempty), rangeSample, ← gridCeil_eq_ceil,
      ← gridFloor_eq_floor]
    by_cases hgrid : upper.gridFloor o.density < lower.gridCeil o.density
    · have hresult : (inRange lower upper o source).1 = .ok lower := by
        rw [inRange, if_neg hempty, if_pos hgrid]
        rfl
      rw [hresult, if_pos hgrid, Except.ok.injEq, value_inj, eq_comm]
    · have hresult : (inRange lower upper o source).1 = .ok (gridPoint o
          (Source.between (lower.gridCeil o.density) (upper.gridFloor o.density) source).1) := by
        rw [inRange, if_neg hempty, if_neg hgrid]
        rfl
      rw [hresult, if_neg hgrid, Except.ok.injEq, ← value_gridPoint, value_inj, eq_comm]

/-- The value of a sample without a range: zero if the magnitude is less than a grid step. -/
theorem value_unbounded (o : SampleOptions) (source : Source) :
    (unbounded o source).1.value =
      if 0 < gridBound o then
        ((Source.between (-gridBound o) (gridBound o) source).1 : ℚ) / o.density
      else 0 := by
  by_cases hbound : 0 < gridBound o
  · rw [unbounded, if_pos hbound, if_pos hbound]
    exact value_gridPoint _ _
  · rw [unbounded, if_neg hbound, if_neg hbound]
    exact value_zero

end RowReduction.Fraction

import RowReduction.Proofs.Failure
import RowReduction.Proofs.Fraction.Comparison
import RowReduction.Proofs.Sampling.Draw
import Mathlib.Data.Int.ConditionallyCompleteOrder
import Mathlib.Data.Set.Function

/-!
# Sampling a range on its grid

The first and the last grid point of a range are the ceiling and the floor of its
ends in grid steps, so the integers from one to the other number the grid points
of the range, each of them once. A range with grid points is sampled by one draw
of such an integer, and one without grid points by its lower end.

## Implementation notes

How an integer is drawn does not matter for the grid. Sampling is therefore
stated for any way to draw one, from a first integer up to, but not including, a
second one, and the way of the sources is one of them.
-/

namespace RowReduction

section Draws

variable {σ : Type}

/-- Drawing asks for a range that is not empty. It gives an integer of the range, and every integer
of the range from some state. -/
structure DrawsRanges (draw : Int → Int → StateM σ Int) : Prop where
  mem {lo hi : Int} (h : lo < hi) (s : σ) : (draw lo hi s).1 ∈ Set.Ico lo hi
  exists_eq {lo hi k : Int} (h : k ∈ Set.Ico lo hi) : ∃ s, (draw lo hi s).1 = k

/-- An integer from the first bound up to, but not including, the second one. -/
def Source.drawInteger (lo hi : Int) : StateM Source Int :=
  between lo (hi - 1)

theorem Source.drawsRanges_drawInteger : DrawsRanges drawInteger where
  mem h s := ⟨le_between s, Int.lt_of_le_sub_one (between_le (Int.le_sub_one_of_lt h) s)⟩
  exists_eq h := exists_between_eq h.1 (Int.le_sub_one_of_lt h.2)

end Draws

namespace Fraction

variable {σ : Type} {lower upper g : Fraction} {o : SampleOptions}

section Grid

/-- The fractions from the lower to the upper end that are a whole number of grid steps. -/
def gridPoints (lower upper : Fraction) (o : SampleOptions) : Set Fraction :=
  {g | (∃ k : ℤ, g.value = k / (max o.resolution 1 : ℕ)) ∧ lower ≤ g ∧ g ≤ upper}

theorem density_cast_pos (o : SampleOptions) : (0 : ℚ) < o.density :=
  Nat.cast_pos.mpr o.density_pos

theorem gridPoint_injective (o : SampleOptions) : Function.Injective (gridPoint o) := by
  intro k l h
  have hvalue := congrArg value h
  rw [value_gridPoint, value_gridPoint, div_left_inj' (density_cast_pos o).ne'] at hvalue
  exact_mod_cast hvalue

theorem le_gridPoint_iff {k : ℤ} : lower ≤ gridPoint o k ↔ lower.gridCeil o.density ≤ k := by
  rw [le_iff_value, value_gridPoint, le_div_iff₀ (density_cast_pos o), gridCeil_eq_ceil,
    Int.ceil_le]

theorem gridPoint_le_iff {k : ℤ} : gridPoint o k ≤ upper ↔ k ≤ upper.gridFloor o.density := by
  rw [le_iff_value, value_gridPoint, div_le_iff₀ (density_cast_pos o), gridFloor_eq_floor,
    Int.le_floor]

/-- The integers from the ceiling of the lower to the floor of the upper end, in grid steps, number
the grid points of a range. -/
theorem bijOn_gridPoint (lower upper : Fraction) (o : SampleOptions) :
    Set.BijOn (gridPoint o) (Set.Ico (lower.gridCeil o.density) (upper.gridFloor o.density + 1))
      (gridPoints lower upper o) := by
  refine ⟨?_, (gridPoint_injective o).injOn, ?_⟩
  · rintro k ⟨hlower, hupper⟩
    exact ⟨⟨k, value_gridPoint o k⟩, le_gridPoint_iff.mpr hlower,
      gridPoint_le_iff.mpr (Int.le_of_lt_add_one hupper)⟩
  · rintro g ⟨⟨k, hk⟩, hlower, hupper⟩
    obtain rfl : gridPoint o k = g := value_injective ((value_gridPoint o k).trans hk.symm)
    exact ⟨k, ⟨le_gridPoint_iff.mp hlower, Int.lt_add_one_of_le (gridPoint_le_iff.mp hupper)⟩, rfl⟩

end Grid

section Sampling

/-- A grid point of a range, or its lower end if it has none, with any way to draw an integer from a
first one up to, but not including, a second one. -/
def inRangeBy (draw : Int → Int → StateM σ Int) (lower upper : Fraction) (o : SampleOptions) :
    ExceptT Error (StateM σ) Fraction :=
  let first := lower.gridCeil o.density
  let last := upper.gridFloor o.density
  if upper < lower then throw (.emptyRange (toString lower) (toString upper))
  else if last < first then return lower
  else do return gridPoint o (← draw first (last + 1))

theorem inRange_eq_inRangeBy (lower upper : Fraction) (o : SampleOptions) :
    inRange lower upper o = inRangeBy Source.drawInteger lower upper o := by
  simp only [inRange, inRangeBy, Source.drawInteger, Int.add_sub_cancel]

/-- Without drawing, the lower end is the sample of a range that has no grid points. -/
structure SampledWithoutDraw (lower upper : Fraction) (o : SampleOptions) : Prop where
  gridPoints_eq : gridPoints lower upper o = ∅
  run_eq {σ : Type} (draw : Int → Int → StateM σ Int) (s : σ) :
    (inRangeBy draw lower upper o).run s = (.ok lower, s)

/-- A single integer is drawn, from a range that is not empty. Each integer of that range gives a
grid point, and each grid point is given by one integer. -/
structure SampledByDraw (lower upper : Fraction) (o : SampleOptions) (lo hi : Int) : Prop where
  lt : lo < hi
  bijOn : Set.BijOn (gridPoint o) (Set.Ico lo hi) (gridPoints lower upper o)
  run_eq {σ : Type} (draw : Int → Int → StateM σ Int) (s : σ) :
    (inRangeBy draw lower upper o).run s =
      (.ok (gridPoint o (draw lo hi s).1), (draw lo hi s).2)

theorem inRangeBy_of_lt (h : upper < lower) (draw : Int → Int → StateM σ Int) (s : σ) :
    (inRangeBy draw lower upper o).run s =
      (.error (.emptyRange (toString lower) (toString upper)), s) := by
  rw [inRangeBy, if_pos h]
  rfl

/-- The grid points decide whether a range is sampled by a draw. -/
theorem sampled_of_le (h : lower ≤ upper) (o : SampleOptions) :
    SampledWithoutDraw lower upper o ∨ ∃ lo hi, SampledByDraw lower upper o lo hi := by
  have hends : ¬ upper < lower := Int.not_lt.mpr h
  have hbij := bijOn_gridPoint lower upper o
  by_cases hgrid : upper.gridFloor o.density < lower.gridCeil o.density
  · refine .inl ⟨?_, fun draw s => ?_⟩
    · rw [Set.Ico_eq_empty (by omega)] at hbij
      exact hbij.image_eq.symm.trans (Set.image_empty _)
    · rw [inRangeBy, if_neg hends, if_pos hgrid]
      rfl
  · refine .inr ⟨_, _, by omega, hbij, fun draw s => ?_⟩
    rw [inRangeBy, if_neg hends, if_neg hgrid]
    rfl

/-- A fraction from the lower to the upper end, on the grid if the range has grid points, and the
lower end otherwise. -/
structure IsRangeSample (lower upper : Fraction) (o : SampleOptions) (v : Fraction) : Prop where
  lower_le : lower ≤ v
  le_upper : v ≤ upper
  on_grid : v ∈ gridPoints lower upper o ∨ v = lower ∧ gridPoints lower upper o = ∅

theorem isRangeSample_of_mem (h : g ∈ gridPoints lower upper o) : IsRangeSample lower upper o g :=
  ⟨h.2.1, h.2.2, .inl h⟩

variable {draw : Int → Int → StateM σ Int}

theorem inRangeBy_asksFor (hdraw : DrawsRanges draw) (s : σ) :
    AsksFor (lower ≤ upper) (IsRangeSample lower upper o) .invalidArgument
      ((inRangeBy draw lower upper o).run s).1 := by
  constructor
  · intro h
    rcases sampled_of_le h o with hsample | ⟨lo, hi, hsample⟩
    · exact ⟨lower, congrArg Prod.fst (hsample.run_eq draw s), Int.le_refl _, h,
        .inr ⟨rfl, hsample.gridPoints_eq⟩⟩
    · have hmem := hsample.bijOn.mapsTo (hdraw.mem hsample.lt s)
      exact ⟨_, congrArg Prod.fst (hsample.run_eq draw s), isRangeSample_of_mem hmem⟩
  · intro h
    exact ⟨_, congrArg Prod.fst (inRangeBy_of_lt (Int.not_le.mp h) draw s), rfl⟩

/-- Every grid point of a range is its sample from some state. -/
theorem exists_inRangeBy_eq (hdraw : DrawsRanges draw) (hg : g ∈ gridPoints lower upper o) :
    ∃ s, ((inRangeBy draw lower upper o).run s).1 = .ok g := by
  have hends : lower ≤ upper := Fraction.le_trans hg.2.1 hg.2.2
  rcases sampled_of_le hends o with hsample | ⟨lo, hi, hsample⟩
  · rw [hsample.gridPoints_eq] at hg
    exact absurd hg (Set.notMem_empty g)
  · obtain ⟨k, hk, rfl⟩ := hsample.bijOn.surjOn hg
    obtain ⟨s, hs⟩ := hdraw.exists_eq hk
    exact ⟨s, by rw [hsample.run_eq, hs]⟩

/-- A range whose ends are out of order is refused, and every other one has a sample, which lies
between its ends. If the range has grid points, the sample is one of them: a single integer is drawn
from a range that is not empty, and its integers number the grid points. Otherwise the sample is the
lower end. Where every integer of a range can be drawn, every grid point is a sample. This holds for
any way to draw integers, and for the way of the sources. -/
theorem inRange_samples_grid (lower upper : Fraction) (o : SampleOptions) :
    (inRange lower upper o = inRangeBy Source.drawInteger lower upper o ∧
      DrawsRanges Source.drawInteger) ∧
    (∀ {σ : Type} {draw : Int → Int → StateM σ Int}, DrawsRanges draw →
      (∀ s, AsksFor (lower ≤ upper) (IsRangeSample lower upper o) .invalidArgument
        ((inRangeBy draw lower upper o).run s).1) ∧
      ∀ g ∈ gridPoints lower upper o, ∃ s, ((inRangeBy draw lower upper o).run s).1 = .ok g) ∧
    (lower ≤ upper →
      SampledWithoutDraw lower upper o ∨ ∃ lo hi, SampledByDraw lower upper o lo hi) := by
  refine ⟨⟨inRange_eq_inRangeBy lower upper o, Source.drawsRanges_drawInteger⟩, ?_, ?_⟩
  · intro σ draw hdraw
    exact ⟨inRangeBy_asksFor hdraw, fun g hg => exists_inRangeBy_eq hdraw hg⟩
  · intro h
    exact sampled_of_le h o

theorem inRange_samples_grid_quarters :
    let lower := reduce (-1) 2 Nat.two_pos
    let upper := reduce 1 3 (Nat.succ_pos 2)
    let o : SampleOptions := { resolution := 4 }
    let quarter := reduce 1 4 (Nat.succ_pos 3)
    (lower ≤ upper ∧ DrawsRanges Source.drawInteger) ∧
      (∃ v, (inRange lower upper o ⟨[], 0, 0⟩).1 = .ok v ∧ IsRangeSample lower upper o v) ∧
      (quarter ∈ gridPoints lower upper o ∧
        ∃ s, (inRange lower upper o s).1 = .ok quarter) ∧
      ∃ lo hi, SampledByDraw lower upper o lo hi := by
  intro lower upper o quarter
  obtain ⟨⟨heq, hdraw⟩, hsamples, hsampled⟩ := inRange_samples_grid lower upper o
  have hends : lower ≤ upper := by decide
  have hquarter : quarter ∈ gridPoints lower upper o :=
    ⟨⟨1, value_gridPoint o 1⟩, by decide, by decide⟩
  obtain ⟨hasks, hreached⟩ := hsamples hdraw
  obtain ⟨v, hv, hsample⟩ := (hasks ⟨[], 0, 0⟩).succeeds hends
  refine ⟨⟨hends, hdraw⟩, ⟨v, ?_, hsample⟩, ⟨hquarter, ?_⟩, ?_⟩
  · rw [heq]
    exact hv
  · rw [heq]
    exact hreached quarter hquarter
  · -- A range with a grid point is not sampled without drawing.
    rcases hsampled hends with hnone | hdrawn
    · exact absurd hquarter (hnone.gridPoints_eq ▸ Set.notMem_empty quarter)
    · exact hdrawn

end Sampling

end Fraction

end RowReduction

import RowReduction.Proofs.Binary64.Integers
import RowReduction.Proofs.Fraction.Approximation
import RowReduction.Proofs.Sampling.Range

/-!
# Sampling without a range

A fraction is sampled without a range by one draw of a number of grid steps, from
the opposite of a bound to the bound. The bound is the floor of the magnitude in
grid steps after the product has been rounded. It is the number of steps that the
magnitude contains unless the product is rounded up to the next integer, and
from `2 ^ 52` steps on it is off by what rounding changes. A product that
overflows leaves no bound, and zero is the only sample.
-/

namespace RowReduction.Fraction

open Binary64 (value? nearest overflow)

variable {σ : Type} {o : SampleOptions} {m : ℚ} {bound : ℤ}

section Points

/-- The fractions of a whole number of grid steps, at most so many in either direction. -/
def stepPoints (o : SampleOptions) (bound : ℤ) : Set Fraction :=
  {g | ∃ k : ℤ, |k| ≤ bound ∧ g.value = k / (max o.resolution 1 : ℕ)}

/-- The fractions of a whole number of grid steps that are not further from zero than a number. -/
def windowPoints (m : ℚ) (o : SampleOptions) : Set Fraction :=
  {g | (∃ k : ℤ, g.value = k / (max o.resolution 1 : ℕ)) ∧ |g.value| ≤ |m|}

theorem gridPoint_mem_stepPoints_iff {k : ℤ} :
    gridPoint o k ∈ stepPoints o bound ↔ |k| ≤ bound := by
  constructor
  · rintro ⟨l, hl, hvalue⟩
    have hkl : gridPoint o k = gridPoint o l := by
      rw [← value_inj, hvalue, value_gridPoint]
      rfl
    rwa [gridPoint_injective o hkl]
  · intro hk
    exact ⟨k, hk, value_gridPoint o k⟩

theorem bijOn_stepPoints (o : SampleOptions) (bound : ℤ) :
    Set.BijOn (gridPoint o) (Set.Ico (-bound) (bound + 1)) (stepPoints o bound) := by
  refine ⟨?_, (gridPoint_injective o).injOn, ?_⟩
  · rintro k ⟨hlower, hupper⟩
    exact gridPoint_mem_stepPoints_iff.mpr (abs_le.mpr ⟨hlower, Int.le_of_lt_add_one hupper⟩)
  · rintro g ⟨k, hk, hvalue⟩
    obtain ⟨hlower, hupper⟩ := abs_le.mp hk
    exact ⟨k, ⟨hlower, Int.lt_add_one_of_le hupper⟩,
      value_injective ((value_gridPoint o k).trans hvalue.symm)⟩

/-- Within a number are the steps up to the floor of the number in grid steps. -/
theorem windowPoints_eq (m : ℚ) (o : SampleOptions) :
    windowPoints m o = stepPoints o ⌊|m| * (max o.resolution 1 : ℕ)⌋ := by
  have hr : (0 : ℚ) < (max o.resolution 1 : ℕ) := density_cast_pos o
  ext g
  constructor
  · rintro ⟨⟨k, hk⟩, hle⟩
    refine ⟨k, Int.le_floor.mpr ?_, hk⟩
    rw [hk, abs_div, abs_of_pos hr, div_le_iff₀ hr] at hle
    rwa [Int.cast_abs]
  · rintro ⟨k, hle, hk⟩
    refine ⟨⟨k, hk⟩, ?_⟩
    rw [hk, abs_div, abs_of_pos hr, div_le_iff₀ hr, ← Int.cast_abs]
    exact Int.le_floor.mp hle

theorem floor_steps_pos (h : 1 ≤ |m|) (o : SampleOptions) :
    0 < ⌊|m| * (max o.resolution 1 : ℕ)⌋ := by
  have hr : (1 : ℚ) ≤ (max o.resolution 1 : ℕ) := mod_cast le_max_right o.resolution 1
  exact Int.floor_pos.mpr (one_le_mul_of_one_le_of_one_le h hr)

/-- Numbers of steps that are not negative are told apart by their points. -/
theorem stepPoints_inj {bound bound' : ℤ} (h : 0 ≤ bound) (h' : 0 ≤ bound') :
    stepPoints o bound = stepPoints o bound' ↔ bound = bound' := by
  constructor
  · intro heq
    have hmem : gridPoint o bound ∈ stepPoints o bound :=
      gridPoint_mem_stepPoints_iff.mpr (abs_of_nonneg h).le
    have hmem' : gridPoint o bound' ∈ stepPoints o bound' :=
      gridPoint_mem_stepPoints_iff.mpr (abs_of_nonneg h').le
    rw [heq, gridPoint_mem_stepPoints_iff, abs_of_nonneg h] at hmem
    rw [← heq, gridPoint_mem_stepPoints_iff, abs_of_nonneg h'] at hmem'
    exact le_antisymm hmem hmem'
  · rintro rfl
    rfl

end Points

section Bound

/-- The magnitude in grid steps, after the product has been rounded. -/
theorem value?_steps (hm : o.magnitude.value? = some m) (hr : o.resolution < 2 ^ 32) :
    (o.magnitude.abs * .ofNat o.density).value? =
      Binary64.roundedValue? (|m| * (max o.resolution 1 : ℕ)) := by
  have hdensity : o.density < 2 ^ (Binary64.fractionBits + 1) := by
    have hle : o.density ≤ 2 ^ 32 := max_le hr.le (by norm_num)
    exact hle.trans_lt (by decide)
  exact Binary64.value?_mul (Binary64.value?_abs hm) (Binary64.value?_ofNat hdensity)

theorem gridBound_of_lt (hm : o.magnitude.value? = some m) (hr : o.resolution < 2 ^ 32)
    (h : |m| * (max o.resolution 1 : ℕ) < overflow) :
    gridBound o = ⌊nearest (|m| * (max o.resolution 1 : ℕ))⌋ := by
  have hvalue := value?_steps hm hr
  rw [Binary64.roundedValue?_of_nonneg (by positivity) h] at hvalue
  rw [gridBound, Binary64.floor?_of_value? hvalue, Option.getD_some]

/-- An overflow leaves no steps. -/
theorem gridBound_of_le (hm : o.magnitude.value? = some m) (hr : o.resolution < 2 ^ 32)
    (h : overflow ≤ |m| * (max o.resolution 1 : ℕ)) : gridBound o = 0 := by
  have hvalue := value?_steps hm hr
  rw [Binary64.roundedValue?_of_le (h.trans (le_abs_self _))] at hvalue
  rw [gridBound, Binary64.floor?_of_value?_eq_none hvalue, Option.getD_none]

theorem gridBound_nonneg (hm : o.magnitude.value? = some m) (hr : o.resolution < 2 ^ 32) :
    0 ≤ gridBound o := by
  rcases lt_or_ge (|m| * (max o.resolution 1 : ℕ)) overflow with h | h
  · rw [gridBound_of_lt hm hr h]
    exact Int.floor_nonneg.mpr (Binary64.nearest_nonneg (by positivity))
  · rw [gridBound_of_le hm hr h]

end Bound

section Sampling

/-- A grid point within the magnitude, with any way to draw an integer from a first one up to, but
not including, a second one. -/
def unboundedBy (draw : Int → Int → StateM σ Int) (o : SampleOptions) : StateM σ Fraction :=
  let bound := gridBound o
  if 0 < bound then do return gridPoint o (← draw (-bound) (bound + 1))
  else return 0

theorem unbounded_eq_unboundedBy (o : SampleOptions) :
    unbounded o = unboundedBy Source.drawInteger o := by
  simp only [unbounded, unboundedBy, Source.drawInteger, Int.add_sub_cancel]

/-- The numbers of steps up to the bound are those of the points, each of one point. A single
integer is drawn from their range, unless zero is the only one of them. -/
structure SampledSteps (o : SampleOptions) (bound : ℤ) : Prop where
  lt : -bound < bound + 1
  bijOn : Set.BijOn (gridPoint o) (Set.Ico (-bound) (bound + 1)) (stepPoints o bound)
  run_of_pos {σ : Type} (draw : Int → Int → StateM σ Int) (h : 0 < bound) (s : σ) :
    (unboundedBy draw o).run s =
      (gridPoint o (draw (-bound) (bound + 1) s).1, (draw (-bound) (bound + 1) s).2)
  run_of_zero {σ : Type} (draw : Int → Int → StateM σ Int) (h : bound = 0) (s : σ) :
    (unboundedBy draw o).run s = (gridPoint o 0, s)

theorem gridPoint_zero (o : SampleOptions) : gridPoint o 0 = 0 := by
  rw [← value_inj, value_gridPoint, Int.cast_zero, zero_div, value_zero]

theorem sampledSteps (h : 0 ≤ gridBound o) : SampledSteps o (gridBound o) where
  lt := by omega
  bijOn := bijOn_stepPoints o _
  run_of_pos draw h s := by
    rw [unboundedBy, if_pos h]
    rfl
  run_of_zero draw h s := by
    rw [unboundedBy, if_neg h.not_gt, gridPoint_zero]
    rfl

/-- The samples are the points of all numbers of steps up to the bound. -/
theorem SampledSteps.range_eq {draw : Int → Int → StateM σ Int} (h : SampledSteps o bound)
    (hdraw : DrawsRanges draw) :
    Set.range (fun s => ((unboundedBy draw o).run s).1) = stepPoints o bound := by
  have hlt := h.lt
  rw [← h.bijOn.image_eq]
  rcases lt_or_eq_of_le (by omega : 0 ≤ bound) with hpos | hzero
  · ext g
    constructor
    · rintro ⟨s, rfl⟩
      exact ⟨_, hdraw.mem hlt s, (congrArg Prod.fst (h.run_of_pos draw hpos s)).symm⟩
    · rintro ⟨k, hk, rfl⟩
      obtain ⟨s, rfl⟩ := hdraw.exists_eq hk
      exact ⟨s, congrArg Prod.fst (h.run_of_pos draw hpos s)⟩
  · obtain ⟨s, -⟩ := hdraw.exists_eq (⟨le_rfl, zero_lt_one⟩ : (0 : ℤ) ∈ Set.Ico 0 1)
    ext g
    constructor
    · rintro ⟨s, rfl⟩
      exact ⟨0, ⟨by omega, by omega⟩, (congrArg Prod.fst (h.run_of_zero draw hzero.symm s)).symm⟩
    · rintro ⟨k, hk, rfl⟩
      obtain rfl : k = 0 := by
        obtain ⟨hlower, hupper⟩ := hk
        omega
      exact ⟨s, congrArg Prod.fst (h.run_of_zero draw hzero.symm s)⟩

/-- The samples without a range are the points of the numbers of steps up to the bound, and a single
integer tells which, so they are the points within the magnitude exactly if the bound is the floor
of the magnitude in grid steps. Up to `2 ^ 52` steps it is that floor, unless the product is rounded
up to the next integer. Beyond, it is the rounded product, and with an overflow it is zero. This
holds for any way to draw integers, and for the way of the sources. -/
theorem unbounded_samples_grid (hm : o.magnitude.value? = some m) (hr : o.resolution < 2 ^ 32) :
    let steps : ℚ := |m| * (max o.resolution 1 : ℕ)
    let product := o.magnitude.abs * .ofNat (max o.resolution 1)
    (unbounded o = unboundedBy Source.drawInteger o ∧ DrawsRanges Source.drawInteger) ∧
    SampledSteps o (gridBound o) ∧
    (∀ {σ : Type} {draw : Int → Int → StateM σ Int}, DrawsRanges draw →
      Set.range (fun s => ((unboundedBy draw o).run s).1) = stepPoints o (gridBound o) ∧
      (Set.range (fun s => ((unboundedBy draw o).run s).1) = windowPoints m o ↔
        gridBound o = ⌊steps⌋)) ∧
    (steps < 2 ^ 52 → gridBound o = ⌊steps⌋ ∨
      gridBound o = ⌊steps⌋ + 1 ∧ product.value? = some (⌊steps⌋ + 1 : ℚ)) ∧
    (2 ^ 52 ≤ steps → steps < overflow →
      product.value? = some (gridBound o : ℚ) ∧ |gridBound o - steps| ≤ steps / 2 ^ 53) ∧
    (overflow ≤ steps → gridBound o = 0) := by
  intro steps product
  have hsteps : 0 ≤ steps := by positivity
  have hbound := gridBound_nonneg hm hr
  have hsampled := sampledSteps hbound
  have hproduct : ∀ h : steps < overflow, product.value? = some (nearest steps) := by
    intro h
    have hvalue := value?_steps hm hr
    rwa [Binary64.roundedValue?_of_nonneg hsteps h] at hvalue
  refine ⟨⟨unbounded_eq_unboundedBy o, Source.drawsRanges_drawInteger⟩, hsampled, ?_, ?_, ?_,
    gridBound_of_le hm hr⟩
  · intro σ draw hdraw
    have hfloor : 0 ≤ ⌊steps⌋ := Int.floor_nonneg.mpr hsteps
    rw [hsampled.range_eq hdraw, windowPoints_eq, stepPoints_inj hbound hfloor]
    exact ⟨rfl, Iff.rfl⟩
  · intro hsmall
    have hlt := Binary64.lt_overflow_of_le hsmall.le (by decide)
    rw [gridBound_of_lt hm hr hlt, hproduct hlt]
    rcases Binary64.floor_nearest_cases hsteps hsmall with ⟨-, hfloor⟩ | ⟨hnext, hfloor⟩
    · exact .inl hfloor
    · exact .inr ⟨hfloor, congrArg some hnext⟩
  · intro hlarge hlt
    have hfloor := Binary64.floor_nearest_of_large hlarge hlt
    rw [gridBound_of_lt hm hr hlt, hproduct hlt, hfloor]
    refine ⟨rfl, Binary64.abs_nearest_sub_le_of_normal (le_trans ?_ hlarge)⟩
    exact (one_div_two_pow_le_one 1022).trans (one_le_pow₀ one_le_two)

section Numbers

-- Powers are those of the core library wherever the module is compiled.
attribute [local instance (high)] instPowNat

/-- The grid of the integers, and a negative magnitude between two of them. -/
def minusSevenHalves : SampleOptions := ⟨.scaled true 7 1, 0⟩

theorem unbounded_samples_grid_minusSevenHalves :
    (minusSevenHalves.magnitude.value? = some (-7 / 2) ∧ minusSevenHalves.resolution < 2 ^ 32) ∧
    Set.range (fun s => ((unbounded minusSevenHalves).run s).1) =
      windowPoints (-7 / 2) minusSevenHalves ∧
    ∃ s, ((unbounded minusSevenHalves).run s).1 = ofInt (-3) := by
  have hm : minusSevenHalves.magnitude.value? = some (-7 / 2) := by
    have hvalue := Binary64.value?_scaled true (by decide : 7 < 2 ^ (Binary64.fractionBits + 1))
      (by decide : 1 ≤ Binary64.unitPlaces)
    refine hvalue.trans (congrArg some ?_)
    norm_num [Binary64.signFactor]
  have hr : minusSevenHalves.resolution < 2 ^ 32 := by decide
  have hgrid : max minusSevenHalves.resolution 1 = 1 := rfl
  have hthree : gridBound minusSevenHalves = 3 := by decide +kernel
  have hbound : gridBound minusSevenHalves =
      ⌊|(-7 / 2 : ℚ)| * (max minusSevenHalves.resolution 1 : ℕ)⌋ := by
    rw [hthree, hgrid]
    norm_num [abs_of_neg]
  obtain ⟨⟨heq, hdraw⟩, -, hsamples, -⟩ := unbounded_samples_grid hm hr
  have hrange := (hsamples hdraw).2.mpr hbound
  rw [← heq] at hrange
  have hmem : ofInt (-3) ∈ windowPoints (-7 / 2) minusSevenHalves := by
    refine ⟨⟨-3, ?_⟩, ?_⟩
    · rw [hgrid, value_ofInt]
      norm_num
    · rw [value_ofInt]
      norm_num [abs_of_neg]
  rw [← hrange] at hmem
  exact ⟨⟨hm, hr⟩, hrange, hmem⟩

/-- The samples from all sources are the points within the magnitude. -/
def SamplesWindow (o : SampleOptions) : Prop :=
  ∀ m, o.magnitude.value? = some m →
    Set.range (fun s => ((unbounded o).run s).1) = windowPoints m o

theorem not_samplesWindow_of_ne (hm : o.magnitude.value? = some m) (hbound : 0 ≤ gridBound o)
    (h : gridBound o ≠ ⌊|m| * (max o.resolution 1 : ℕ)⌋) : ¬ SamplesWindow o := by
  intro hwindow
  have hrange := hwindow m hm
  have hsamples := (sampledSteps hbound).range_eq Source.drawsRanges_drawInteger
  rw [← unbounded_eq_unboundedBy] at hsamples
  have hfloor : 0 ≤ ⌊|m| * (max o.resolution 1 : ℕ)⌋ := Int.floor_nonneg.mpr (by positivity)
  exact h ((stepPoints_inj hbound hfloor).mp
    ((hsamples.symm.trans hrange).trans (windowPoints_eq m o)))

/-- The grid of thirds, and the greatest number below one third. -/
def belowThird : SampleOptions := ⟨.scaled false 6004799503160661 54, 3⟩

/-- The grid of halves, and the magnitude `2 ^ 1023`. -/
def wide : SampleOptions := ⟨.scaledUp false (2 ^ 52) 971, 2⟩

/-- One third can be sampled within a number below it, and where the product overflows, nothing but
zero is sampled. -/
theorem not_samplesWindow :
    ((∃ s, ((unbounded belowThird).run s).1 = gridPoint belowThird 1) ∧
      (∀ m, belowThird.magnitude.value? = some m → |m| < (gridPoint belowThird 1).value) ∧
      ¬ SamplesWindow belowThird) ∧
    ((∀ s, ((unbounded wide).run s).1 = 0) ∧ ¬ SamplesWindow wide) := by
  have hbelow := Binary64.value?_scaled false
    (by decide : 6004799503160661 < 2 ^ (Binary64.fractionBits + 1))
    (by decide : 54 ≤ Binary64.unitPlaces)
  rw [Binary64.signFactor_false, one_mul] at hbelow
  have hwide := Binary64.value?_scaledUp false
    (by decide : 2 ^ 52 < 2 ^ (Binary64.fractionBits + 1)) (by decide : 971 < 972)
  rw [Binary64.signFactor_false, one_mul] at hwide
  have hthirds : max belowThird.resolution 1 = 3 := rfl
  obtain ⟨hone, hzero⟩ : gridBound belowThird = 1 ∧ gridBound wide = 0 := by decide +kernel
  have hsampled := sampledSteps (hone.ge.trans' zero_le_one)
  have hnothing := sampledSteps hzero.ge
  refine ⟨⟨?_, ?_, not_samplesWindow_of_ne hbelow (hone.ge.trans' zero_le_one) ?_⟩, ?_,
    not_samplesWindow_of_ne hwide hzero.ge ?_⟩
  · have hmem : gridPoint belowThird 1 ∈ stepPoints belowThird (gridBound belowThird) := by
      rw [hone, gridPoint_mem_stepPoints_iff, abs_one]
    rwa [← hsampled.range_eq Source.drawsRanges_drawInteger, ← unbounded_eq_unboundedBy] at hmem
  · intro m hm
    rw [← Option.some.inj (hbelow.symm.trans hm), value_gridPoint, SampleOptions.density, hthirds]
    norm_num [abs_of_pos]
  · rw [hone, hthirds]
    norm_num [abs_of_pos]
  · intro s
    rw [unbounded_eq_unboundedBy]
    exact (congrArg Prod.fst (hnothing.run_of_zero _ hzero s)).trans (gridPoint_zero wide)
  · rw [hzero]
    refine (floor_steps_pos ?_ wide).ne
    rw [abs_of_nonneg (by positivity)]
    exact one_le_mul_of_one_le_of_one_le (Nat.one_le_cast.mpr (Nat.two_pow_pos 52))
      (one_le_pow₀ one_le_two)

end Numbers

end Sampling

end RowReduction.Fraction

import RowReduction.Proofs.Failure
import RowReduction.Proofs.Fraction.FieldLaws
import RowReduction.Proofs.Fraction.Reciprocal
import RowReduction.Proofs.Fraction.Squares
import RowReduction.Proofs.Vec.InnerProduct

/-!
# Scaling vectors of fractions to length one

The length of a vector of fractions is computed in the format, and the vector is
scaled by its reciprocal in millionths. Nonzero vectors with components that are
all short have the length zero and fail as the zero vector does. Vectors of more
than two million are scaled by zero. The vectors in between, whatever their
dimension, give a positive multiple of themselves.
-/

namespace RowReduction.Vec

open Binary64 (AtLeast AtMost squareSum atLeast_squareSum_of_mem atMost_zero unitsPerOne
  representable_mul_unitsPerOne leastLength greatestLength)

variable {v u : Vec Fraction} {c : Fraction}

section Length

/-- The computed sum of the squares of the components. -/
def squares (v : Vec Fraction) : Binary64 :=
  squareSum 0 (v.toList.map Fraction.toBinary64)

/-- The computed length. -/
def length (v : Vec Fraction) : Binary64 :=
  v.squares.sqrt

theorem magnitude?_eq (v : Vec Fraction) : v.magnitude? = .ok v.length := by
  have hcomponents : v.toBinary64? = .ok (v.toList.map Fraction.toBinary64) := List.mapM_pure
  rw [magnitude?, hcomponents]
  rfl

theorem squares_nonneg {x : Binary64} (hx : x ∈ v.toList.map Fraction.toBinary64) :
    AtLeast 0 (x * x) := by
  obtain ⟨a, -, rfl⟩ := List.mem_map.mp hx
  exact a.atLeast_zero_square

theorem isZero_length_of_squares (h : v.squares = 0) : v.length.isZero = true := by
  rw [length, h]
  rfl

theorem atLeast_length_of_squares (h : AtLeast 1 v.squares) : AtLeast leastLength v.length := by
  apply AtLeast.sqrt Binary64.representable_leastLength h
  rw [one_mul]
  exact_mod_cast Binary64.leastLength_mul_self.le

/-- A length is zero, or at least the root of one unit. -/
theorem length_cases (v : Vec Fraction) :
    v.length.isZero = true ∨ AtLeast leastLength v.length := by
  have hsquares : AtLeast 0 v.squares :=
    AtLeast.squareSum atMost_zero.nonneg fun _ => squares_nonneg
  rcases hsquares.eq_zero_or_one with hzero | hone
  · exact .inl (isZero_length_of_squares hzero)
  · exact .inr (atLeast_length_of_squares hone)

theorem isZero_eq_false {x : Binary64} (hx : AtLeast leastLength x) : x.isZero = false := by
  cases hx with
  | infinity => rfl
  | @finite n _ hle =>
      have hpos := Binary64.leastLength_pos.trans_le (Nat.cast_le.mp hle)
      exact beq_eq_false_iff_ne.mpr hpos.ne'

end Length

section Results

theorem normalize?_of_isZero (h : v.length.isZero = true) :
    v.normalize? = .error .zeroVectorDirection := by
  simp only [normalize?, magnitude?_eq, bind, Except.bind, h]
  rfl

/-- Vectors of a computed length that is not zero are scaled by a fraction that is not negative, and
that is positive up to the greatest length. -/
theorem normalize?_of_atLeast (h : AtLeast leastLength v.length) :
    ∃ c : Fraction, v.normalize? = .ok (v.scale c) ∧ 0 ≤ c.value ∧
      (0 < c.value ↔ AtMost greatestLength v.length) := by
  obtain ⟨c, hc, hsign⟩ := Fraction.ofBinary64?_one_div h
  refine ⟨c, ?_, hsign⟩
  have hc : (Scalar.ofBinary64? (1 / v.length) : Option Fraction) = some c := hc
  simp only [normalize?, magnitude?_eq, bind, Except.bind, isZero_eq_false h, hc]
  rfl

theorem isZero_scale_iff (c : Fraction) (v : Vec Fraction) :
    (v.scale c).isZero = true ↔ c.value = 0 ∨ v.isZero = true := by
  rw [isZero_eq_true_iff (dim_scale c v), isZero_eq_true_iff rfl, coords_scale, smul_eq_zero]

end Results

section Sizes

attribute [local irreducible] Binary64.unitsPerOne Binary64.unitsLimit

/-- The squares of short components are all rounded to zero. -/
theorem isZero_length_of_short (h : ∀ a ∈ v.toList, |a.value| ≤ 1 / 2 ^ 538) :
    v.length.isZero = true := by
  have htotal : (0 : ℚ) + 2 * (v.toList.map fun _ => (0 : ℚ)).sum = 0 := by simp
  have hsum := AtMost.squareSum atMost_zero (fun a ha => Fraction.atMost_zero_square (h a ha))
    (fun _ _ => le_rfl) (htotal.trans_lt (Nat.cast_pos.mpr Binary64.unitsLimit_pos))
  rw [htotal] at hsum
  exact isZero_length_of_squares hsum.eq_zero

/-- The square of one longer component is not rounded to zero, and neither is the sum. -/
theorem atLeast_length {a : Fraction} (ha : a ∈ v.toList) (h : 1 / 2 ^ 537 ≤ |a.value|) :
    AtLeast leastLength v.length := by
  apply atLeast_length_of_squares
  exact atLeast_squareSum_of_mem atMost_zero.nonneg (fun _ => squares_nonneg)
    (List.mem_map_of_mem ha) (Fraction.atLeast_one_square h)

theorem value_normSquared_eq_sum (v : Vec Fraction) :
    v.normSquared.value = (v.toList.map fun a => a.value * a.value).sum := by
  rw [normSquared, value_sum, List.map_map]
  congr 2
  ext a
  exact Fraction.value_mul a a

/-- No component is longer than the vector. -/
theorem abs_component_le (h : v.normSquared.value ≤ 900000 ^ 2) {a : Fraction} (ha : a ∈ v.toList) :
    |a.value| ≤ 2 ^ 20 := by
  have hnonneg : ∀ x ∈ v.toList.map fun a => a.value * a.value, 0 ≤ x := by
    intro x hx
    obtain ⟨b, -, rfl⟩ := List.mem_map.mp hx
    exact mul_self_nonneg b.value
  have hle := List.single_le_sum hnonneg _ (List.mem_map_of_mem ha)
  rw [← value_normSquared_eq_sum] at hle
  apply abs_le_of_sq_le_sq _ (by norm_num)
  rw [sq]
  linarith

/-- The rounded squares together are at most five times the squared norm. -/
theorem atMost_squares (h : v.normSquared.value ≤ 900000 ^ 2) :
    AtMost (24 / 5 * v.normSquared.value * unitsPerOne) v.squares := by
  have htotal : (0 : ℚ) + 2 * (v.toList.map fun a =>
      12 / 5 * (a.value * a.value) * (unitsPerOne : ℚ)).sum =
      24 / 5 * v.normSquared.value * unitsPerOne := by
    rw [List.sum_map_mul_right, List.sum_map_mul_left, value_normSquared_eq_sum]
    ring
  have hnonneg : ∀ a : Fraction, 0 ≤ 12 / 5 * (a.value * a.value) * (unitsPerOne : ℚ) := by
    intro a
    exact mul_nonneg (mul_nonneg (by norm_num) (mul_self_nonneg _)) (Nat.cast_nonneg _)
  have hlimit : 24 / 5 * v.normSquared.value ≤ 2 ^ 42 := by linarith
  have hlimit := Binary64.mul_unitsPerOne_lt_unitsLimit hlimit (by decide)
  rw [← htotal] at hlimit ⊢
  exact AtMost.squareSum atMost_zero (fun a ha => Fraction.atMost_square (abs_component_le h ha))
    (fun a _ => hnonneg a) hlimit

/-- The computed length of a vector of less than a million is at most two million, whatever its
dimension. -/
theorem atMost_length (h : v.normSquared.value ≤ 900000 ^ 2) : AtMost greatestLength v.length := by
  have hbound : Binary64.Representable (2000000 * unitsPerOne) :=
    representable_mul_unitsPerOne (by decide)
  have hle : 2000000 * unitsPerOne ≤ greatestLength := Nat.le_add_right _ _
  have hU := Binary64.unitsPerOne_cast_pos
  apply (AtMost.sqrt hbound (atMost_squares h) ?_).mono (Nat.cast_le.mpr hle)
  calc
    24 / 5 * v.normSquared.value * unitsPerOne * unitsPerOne ≤
        2000000 * 2000000 * unitsPerOne * unitsPerOne := by
      have hnorm : 24 / 5 * v.normSquared.value ≤ 2000000 * 2000000 := by linarith
      exact mul_le_mul_of_nonneg_right (mul_le_mul_of_nonneg_right hnorm hU.le) hU.le
    _ = (2000000 * unitsPerOne : ℕ) * (2000000 * unitsPerOne : ℕ) := by
      push_cast
      ring

/-- The computed length of a vector with a component of more than two million is beyond the greatest
length. -/
theorem not_atMost_length {a : Fraction} (ha : a ∈ v.toList) (h : 2000001 ≤ |a.value|) :
    ¬ AtMost greatestLength v.length := by
  obtain ⟨k, hk, hlt, hroots⟩ := Binary64.exists_greatestLength_lt
  have hsquare : AtLeast (4000002000001 * unitsPerOne : ℕ) (a.toBinary64 * a.toBinary64) := by
    apply Fraction.atLeast_square _ _ h (representable_mul_unitsPerOne (by decide))
    · rw [Nat.cast_mul, Nat.cast_ofNat]
      exact mul_le_mul_of_nonneg_right (by norm_num) (Nat.cast_nonneg _)
    · exact (Fraction.one_div_two_pow_le_one _).trans (by norm_num)
    · calc
        (2000001 : ℚ) ≤ 2 ^ 21 := by norm_num
        _ ≤ 2 ^ 943 := pow_le_pow_right₀ one_le_two (by decide)
  have hsum : AtLeast (4000002000001 * unitsPerOne : ℕ) v.squares :=
    atLeast_squareSum_of_mem atMost_zero.nonneg (fun _ => squares_nonneg)
      (List.mem_map_of_mem ha) hsquare
  have hlength := AtLeast.sqrt hk hsum (by exact_mod_cast hroots)
  intro hle
  exact absurd (Nat.cast_le.mp (hlength.le_of_atMost hle)) hlt.not_ge

end Sizes

section Directions

/-- The vector is a positive multiple of the other one, and not the zero vector. -/
def IsDirection (v u : Vec Fraction) : Prop :=
  u.isZero = false ∧ ∃ c : Fraction, 0 < c.value ∧ u = v.scale c

theorem isDirection_scale_iff (hc : 0 ≤ c.value) :
    IsDirection v (v.scale c) ↔ 0 < c.value ∧ v.isZero = false := by
  have hzero : (v.scale c).isZero = false ↔ c.value ≠ 0 ∧ v.isZero = false := by
    rw [← Bool.not_eq_true, isZero_scale_iff, not_or, Bool.not_eq_true]
  constructor
  · rintro ⟨h, -⟩
    obtain ⟨hne, hv⟩ := hzero.mp h
    exact ⟨lt_of_le_of_ne hc hne.symm, hv⟩
  · rintro ⟨hpos, hv⟩
    exact ⟨hzero.mpr ⟨hpos.ne', hv⟩, c, hpos, rfl⟩

theorem isZero_length_of_isZero (h : v.isZero = true) : v.length.isZero = true := by
  apply isZero_length_of_short
  intro a ha
  have hvalue : a.value = 0 := by
    have hzero := List.all_eq_true.mp h a ha
    rwa [Fraction.beq_iff_value, Fraction.value_zero] at hzero
  rw [hvalue, abs_zero]
  positivity

theorem isZero_eq_false_of_atLeast (h : AtLeast leastLength v.length) : v.isZero = false := by
  by_contra hv
  have hzero := isZero_length_of_isZero (by simpa using hv)
  rw [isZero_eq_false h] at hzero
  cases hzero

/-- Where the computed length is zero, only the zero vector may be refused. -/
theorem asksFor_direction_iff_of_isZero (h : v.length.isZero = true) :
    AsksFor (v.isZero = false) (IsDirection v) .divisionByZero v.normalize? ↔ v.isZero = true := by
  have herror := normalize?_of_isZero h
  constructor
  · intro hresult
    by_contra hv
    obtain ⟨u, hu, -⟩ := hresult.succeeds (by simpa using hv)
    rw [herror] at hu
    cases hu
  · intro hv
    exact ⟨fun hfalse => by simp [hv] at hfalse, fun _ => ⟨_, herror, rfl⟩⟩

/-- Where the computed length is not zero, neither is the vector, and it is scaled by a positive
factor up to the greatest length. -/
theorem asksFor_direction_iff_of_atLeast (h : AtLeast leastLength v.length) :
    AsksFor (v.isZero = false) (IsDirection v) .divisionByZero v.normalize? ↔
      AtMost greatestLength v.length := by
  obtain ⟨c, hc, hnonneg, hpos⟩ := normalize?_of_atLeast h
  have hv : v.isZero = false := isZero_eq_false_of_atLeast h
  rw [hc]
  constructor
  · intro hresult
    obtain ⟨u, hu, hdirection⟩ := hresult.succeeds hv
    obtain rfl := Except.ok.inj hu
    exact hpos.mp ((isDirection_scale_iff hnonneg).mp hdirection).1
  · intro hle
    have hdirection := (isDirection_scale_iff hnonneg).mpr ⟨hpos.mpr hle, hv⟩
    exact ⟨fun _ => ⟨_, rfl, hdirection⟩, fun hfalse => absurd hv hfalse⟩

/-- The zero vector fails and every other one gives its direction, exactly if the vector is zero or
its computed length is neither zero nor beyond the greatest length. -/
theorem asksFor_direction_iff (v : Vec Fraction) :
    AsksFor (v.isZero = false) (IsDirection v) .divisionByZero v.normalize? ↔
      v.isZero = true ∨ v.length.isZero = false ∧ AtMost greatestLength v.length := by
  rcases v.length_cases with hzero | hleast
  · rw [asksFor_direction_iff_of_isZero hzero, hzero]
    simp only [Bool.true_eq_false, false_and, or_false]
  · rw [asksFor_direction_iff_of_atLeast hleast, isZero_eq_false hleast,
      isZero_eq_false_of_atLeast hleast]
    simp only [Bool.false_eq_true, false_or, true_and]

theorem failsOnlyBy_normalize? (v : Vec Fraction) :
    FailsOnlyBy .divisionByZero v.normalize? := by
  rcases v.length_cases with hzero | hleast
  · rw [normalize?_of_isZero hzero]
    intro e he
    exact Except.error.inj he ▸ rfl
  · obtain ⟨c, hc, -⟩ := normalize?_of_atLeast hleast
    rw [hc]
    exact .ok _

/-- Every result is a multiple of the vector, and not of the opposite direction. -/
theorem exists_factor (h : v.normalize? = .ok u) :
    ∃ c : Fraction, 0 ≤ c.value ∧ u = v.scale c := by
  rcases v.length_cases with hzero | hleast
  · rw [normalize?_of_isZero hzero] at h
    cases h
  · obtain ⟨c, hc, hnonneg, -⟩ := normalize?_of_atLeast hleast
    exact ⟨c, hnonneg, Except.ok.inj (h.symm.trans hc)⟩

/-- Vectors of moderate size have a direction. -/
theorem normalize?_of_moderate {a : Fraction} (ha : a ∈ v.toList) (h : 1 / 2 ^ 537 ≤ |a.value|)
    (hnorm : v.normSquared.value ≤ 900000 ^ 2) :
    ∃ u, v.normalize? = .ok u ∧ IsDirection v u := by
  have hleast := atLeast_length ha h
  have hresult := (asksFor_direction_iff_of_atLeast hleast).mpr (atMost_length hnorm)
  exact hresult.succeeds (isZero_eq_false_of_atLeast hleast)

/-- Long vectors are scaled by zero. -/
theorem normalize?_of_long {a : Fraction} (ha : a ∈ v.toList) (h : 2000001 ≤ |a.value|) :
    ∃ u, v.normalize? = .ok u ∧ u.isZero = true := by
  have hlower : 1 / 2 ^ 537 ≤ |a.value| :=
    ((Fraction.one_div_two_pow_le_one _).trans (by norm_num)).trans h
  obtain ⟨c, hc, hnonneg, hpos⟩ := normalize?_of_atLeast (atLeast_length ha hlower)
  have hzero : c.value = 0 := by
    apply le_antisymm _ hnonneg
    exact not_lt.mp fun hlt => not_atMost_length ha h (hpos.mp hlt)
  exact ⟨_, hc, (isZero_scale_iff c v).mpr (.inl hzero)⟩

/-- Which vectors are scaled to a positive multiple of themselves, from their computed lengths and
from their components. -/
theorem normalize?_direction (v : Vec Fraction) :
    (AsksFor (v.isZero = false) (IsDirection v) .divisionByZero v.normalize? ↔
      v.isZero = true ∨
        ∃ x, v.magnitude? = .ok x ∧ x.isZero = false ∧ AtMost greatestLength x) ∧
    FailsOnlyBy .divisionByZero v.normalize? ∧
    (∀ u, v.normalize? = .ok u → ∃ c : Fraction, 0 ≤ c.value ∧ u = v.scale c) ∧
    ((∀ a ∈ v.toList, |a.value| ≤ 1 / 2 ^ 538) →
      ∃ e, v.normalize? = .error e ∧ e.kind = .divisionByZero) ∧
    ((∃ a ∈ v.toList, 1 / 2 ^ 537 ≤ |a.value|) → v.normSquared.value ≤ 900000 ^ 2 →
      ∃ u, v.normalize? = .ok u ∧ IsDirection v u) ∧
    ((∃ a ∈ v.toList, 2000001 ≤ |a.value|) → ∃ u, v.normalize? = .ok u ∧ u.isZero = true) := by
  refine ⟨?_, failsOnlyBy_normalize? v, fun u => exists_factor, ?_, ?_, ?_⟩
  · rw [asksFor_direction_iff, magnitude?_eq]
    simp only [Except.ok.injEq, exists_eq_left']
  · intro h
    exact ⟨_, normalize?_of_isZero (isZero_length_of_short h), rfl⟩
  · rintro ⟨a, ha, h⟩ hnorm
    exact normalize?_of_moderate ha h hnorm
  · rintro ⟨a, ha, h⟩
    exact normalize?_of_long ha h

theorem normalize?_direction_three_four :
    let v : Vec Fraction := ⟨[.ofInt 3, .ofInt 4], List.cons_ne_nil _ _⟩
    ∃ u, v.normalize? = .ok u ∧ IsDirection v u ∧ u.normSquared = 1 := by
  intro v
  have hcomponent : ∃ a ∈ v.toList, 1 / 2 ^ 537 ≤ |a.value| := by
    refine ⟨.ofInt 3, List.mem_cons_self, (Fraction.one_div_two_pow_le_one _).trans ?_⟩
    norm_num
  have hnorm : v.normSquared.value ≤ 900000 ^ 2 := by
    have hsquare : v.normSquared = .ofInt 25 := by decide
    rw [hsquare, Fraction.value_ofInt]
    norm_num
  obtain ⟨u, hu, hdirection⟩ := (normalize?_direction v).2.2.2.2.1 hcomponent hnorm
  have hunit : v.normalize?.map normSquared = .ok 1 := by decide +kernel
  rw [hu, Except.map] at hunit
  exact ⟨u, hu, hdirection, Except.ok.inj hunit⟩

/-- A vector that is too long becomes the zero vector, and one that is too short is taken for it. -/
theorem not_asksFor_direction :
    let long : Vec Fraction := ⟨[.ofInt 10000000], List.cons_ne_nil _ _⟩
    let short : Vec Fraction := ⟨[.reduce 1 (10 ^ 200) (pow_pos (by decide) 200)],
      List.cons_ne_nil _ _⟩
    (long.isZero = false ∧ long.normalize? = .ok ⟨[0], List.cons_ne_nil _ _⟩ ∧
      ¬ AsksFor (long.isZero = false) (IsDirection long) .divisionByZero long.normalize?) ∧
    (short.isZero = false ∧ short.normalize? = .error .zeroVectorDirection ∧
      ¬ AsksFor (short.isZero = false) (IsDirection short) .divisionByZero short.normalize?) := by
  intro long short
  obtain ⟨hlong, hzero⟩ :
      long.isZero = false ∧ long.normalize? = .ok ⟨[0], List.cons_ne_nil _ _⟩ := by decide +kernel
  obtain ⟨hshort, herror⟩ :
      short.isZero = false ∧ short.normalize? = .error .zeroVectorDirection := by decide +kernel
  refine ⟨⟨hlong, hzero, fun h => ?_⟩, hshort, herror, fun h => ?_⟩
  · obtain ⟨u, hu, hdirection⟩ := h.succeeds hlong
    obtain rfl := Except.ok.inj (hzero.symm.trans hu)
    exact absurd hdirection.1 (by decide)
  · obtain ⟨u, hu, -⟩ := h.succeeds hshort
    rw [herror] at hu
    cases hu

end Directions

end RowReduction.Vec

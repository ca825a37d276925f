import RowReduction.Vec.Basic
import RowReduction.Proofs.Fraction.Value
import Mathlib.Algebra.Module.Pi
import Mathlib.Algebra.BigOperators.Fin

/-!
# The values of a vector of fractions

A vector of fractions stands for the sequence of the values of its components,
followed by zeros. Scaling and adding multiples are the operations of
sequences, and the dot product of two vectors is the sum of the products of
their values.
-/

namespace RowReduction.Vec

/-- The values of the components, and zeros beyond the end. -/
def values (v : Vec Fraction) (j : ℕ) : ℚ := (v.entry j).value

/-- The vector has a dimension, and its components have the values of a function. -/
structure HasValues (v : Vec Fraction) (dim : ℕ) (f : ℕ → ℚ) : Prop where
  dim_eq : v.dim = dim
  values_eq : v.values = f

theorem values_eq_zero_of_dim_le {v : Vec Fraction} {j : ℕ} (h : v.dim ≤ j) : v.values j = 0 := by
  rw [values, entry_of_dim_le h, Fraction.value_zero]

theorem values_of_lt {v : Vec Fraction} {j : ℕ} (h : j < v.toList.length) :
    v.values j = v.toList[j].value := by
  rw [values, entry_of_lt h]

/-- Vectors of one dimension with the same values are equal. -/
theorem ext_values {v w : Vec Fraction} (hdim : v.dim = w.dim)
    (h : ∀ j < v.dim, v.values j = w.values j) : v = w := by
  ext1
  apply List.ext_getElem hdim
  intro j hv hw
  apply Fraction.value_injective
  rw [← values_of_lt hv, ← values_of_lt hw, h j hv]

/-- A function of the components that keeps zero changes the values as it changes the value of a
component. -/
theorem values_map {f : Fraction → Fraction} {g : ℚ → ℚ} (hf : ∀ a, (f a).value = g a.value)
    (hzero : g 0 = 0) (v : Vec Fraction) : (v.map f).values = fun j => g (v.values j) := by
  ext j
  by_cases hj : j < v.toList.length
  · have hj' : j < (v.map f).toList.length := by simpa [map] using hj
    rw [values_of_lt hj', values_of_lt hj, ← hf]
    exact congrArg Fraction.value (List.getElem_map ..)
  · have hj : v.dim ≤ j := Nat.le_of_not_lt hj
    rw [values_eq_zero_of_dim_le hj, hzero]
    exact values_eq_zero_of_dim_le (by rwa [dim_map])

@[simp] theorem values_scale (c : Fraction) (v : Vec Fraction) :
    (v.scale c).values = c.value • v.values :=
  values_map (g := fun t => c.value * t) (Fraction.value_mul c) (mul_zero _) v

@[simp] theorem values_neg (v : Vec Fraction) : (-v).values = -v.values :=
  values_map Fraction.value_neg neg_zero v

theorem values_push_of_lt (v : Vec Fraction) (a : Fraction) {j : ℕ} (h : j < v.dim) :
    (v.push a).values j = v.values j := by
  rw [values, entry_push_of_lt v a h, values]

@[simp] theorem values_push_dim (v : Vec Fraction) (a : Fraction) :
    (v.push a).values v.dim = a.value := by
  rw [values, entry_push_dim]

/-- A function of two components that gives zero for two zeros joins the values as it joins the
values of two components. -/
theorem values_zipWith {f : Fraction → Fraction → Fraction} {g : ℚ → ℚ → ℚ}
    (hf : ∀ a b, (f a b).value = g a.value b.value) (hzero : g 0 0 = 0) {v w : Vec Fraction}
    (hdim : v.dim = w.dim) : (zipWith f v w).values = fun j => g (v.values j) (w.values j) := by
  ext j
  by_cases hj : j < v.toList.length
  · have hw : j < w.toList.length := Nat.lt_of_lt_of_eq hj hdim
    have hj' : j < (zipWith f v w).toList.length := by simpa [zipWith] using ⟨hj, hw⟩
    rw [values_of_lt hj', values_of_lt hj, values_of_lt hw, ← hf]
    exact congrArg Fraction.value List.getElem_zipWith
  · have hv : v.dim ≤ j := Nat.le_of_not_lt hj
    have hw : w.dim ≤ j := hdim ▸ hv
    rw [values_eq_zero_of_dim_le hv, values_eq_zero_of_dim_le hw, hzero]
    exact values_eq_zero_of_dim_le (by simp [hdim, hw])

/-- The values of a row plus a multiple of another row of the same dimension. -/
theorem values_zipWith_add_mul (c : Fraction) {v w : Vec Fraction} (hdim : v.dim = w.dim) :
    (zipWith (fun t s => t + -c * s) v w).values = v.values - c.value • w.values := by
  have hstep : ∀ a b : Fraction, (a + -c * b).value = a.value - c.value * b.value := by
    intro a b
    rw [Fraction.value_add, Fraction.value_mul, Fraction.value_neg, neg_mul, sub_eq_add_neg]
  exact values_zipWith (g := fun a b => a - c.value * b) hstep (by simp) hdim

/-- Dividing by a fraction is scaling by its inverse. -/
theorem divScalar?_eq_scale {a inverse : Fraction} (h : Scalar.inv? a = .ok inverse)
    (v : Vec Fraction) : v.divScalar? a = .ok (v.scale inverse) := by
  obtain ⟨hne, hinverse⟩ := Fraction.inv?_eq_ok_iff.mp h
  have hdiv : (Scalar.div? · a) = fun x => pure (inverse * x) := by
    funext x
    apply Fraction.div?_eq_ok_iff.mpr
    rw [Fraction.value_mul, hinverse, div_eq_mul_inv, mul_comm]
    exact ⟨hne, rfl⟩
  rw [divScalar?, hdiv, List.mapM_pure]
  exact (v.scale inverse).ofList?_toList

section Products

open Finset (range)

theorem value_foldl_add (xs : List Fraction) (a : Fraction) :
    (xs.foldl (· + ·) a).value = a.value + (xs.map Fraction.value).sum := by
  induction xs generalizing a with
  | nil => simp
  | cons x xs ih =>
      rw [List.foldl_cons, ih, Fraction.value_add, List.map_cons, List.sum_cons, add_assoc]

theorem value_sum (xs : List Fraction) : (Scalar.sum xs).value = (xs.map Fraction.value).sum := by
  rw [Scalar.sum, value_foldl_add, Fraction.value_zero, zero_add]

/-- The value of a sum of products, with zeros for the missing coefficients. -/
theorem value_weightedSum (cs xs : List Fraction) :
    (Scalar.weightedSum cs xs).value =
      ∑ j ∈ range xs.length, (cs.getD j 0).value * (xs.getD j 0).value := by
  rw [Scalar.weightedSum, value_sum]
  induction cs generalizing xs with
  | nil => simp
  | cons c cs ih =>
      cases xs with
      | nil => simp
      | cons x xs =>
          rw [List.length_cons, Finset.sum_range_succ', List.zipWith_cons_cons, List.map_cons,
            List.sum_cons, ih, Fraction.value_mul, add_comm]
          rfl

theorem value_dot (v w : Vec Fraction) :
    (v.dot w).value = ∑ j ∈ range w.dim, v.values j * w.values j :=
  value_weightedSum v.toList w.toList

end Products

section Coordinates

/-- The first values of a vector. -/
def coords (n : ℕ) (v : Vec Fraction) : Fin n → ℚ :=
  fun j => v.values j

/-- The vectors of a dimension are the sequences of that length. -/
theorem bijOn_coords {n : ℕ} (hn : 0 < n) : Set.BijOn (coords n) {v | v.dim = n} Set.univ := by
  refine ⟨Set.mapsTo_univ _ _, ?_, ?_⟩
  · intro v hv w hw h
    rw [Set.mem_ofPred_eq] at hv hw
    exact ext_values (hv.trans hw.symm) fun j hj => congrFun h ⟨j, hv ▸ hj⟩
  · intro f _
    refine ⟨ofFn n hn fun j => Fraction.ofRat (if hj : j < n then f ⟨j, hj⟩ else 0),
      dim_ofFn .., ?_⟩
    ext j
    have hj : (j : ℕ) < (ofFn n hn fun j =>
        Fraction.ofRat (if hj : j < n then f ⟨j, hj⟩ else 0)).toList.length := by
      simp [ofFn]
    rw [coords, values_of_lt hj]
    simp [ofFn]

/-- Vectors of one dimension with the same values in its places are equal. -/
theorem ext_coords {n : ℕ} {v w : Vec Fraction} (hv : v.dim = n) (hw : w.dim = n)
    (h : v.coords n = w.coords n) : v = w := by
  subst hv
  exact (bijOn_coords v.dim_pos).injOn rfl hw h

end Coordinates

end RowReduction.Vec

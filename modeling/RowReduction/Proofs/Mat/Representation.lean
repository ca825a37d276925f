import RowReduction.Proofs.Mat.Entries
import RowReduction.Proofs.Mat.Rank

/-!
# Matrices of fractions and matrices of rational numbers

A matrix of fractions has a shape and the values of its entries. The values of
sums, products, transposes and multiples are those that the operations on
rational numbers give.

A matrix of fractions represents the one matrix of rational numbers that has its
shape and the values of its entries, and no other matrix of fractions
represents the same one. Sums, products, transposes and multiples represent
those of the represented matrices, so what holds of matrices of rational
numbers holds of matrices of fractions.
-/

namespace RowReduction.Mat

open Matrix
open Finset (range)

section Values

variable {a b : Mat Fraction}

/-- The values of the entries, and zeros outside the matrix. -/
def values (a : Mat Fraction) (i j : ℕ) : ℚ := (a.entry i j).value

/-- The matrix has a shape, and its entries have the values of a function. -/
structure HasValues (a : Mat Fraction) (shape : Shape) (f : ℕ → ℕ → ℚ) : Prop where
  shape_eq : a.shape = shape
  values_eq : a.values = f

theorem values_eq_zero {i j : ℕ} (h : a.nrows ≤ i ∨ a.ncols ≤ j) : a.values i j = 0 := by
  rcases h with hi | hj
  · rw [values, entry_of_nrows_le hi, Fraction.value_zero]
  · rw [values, entry_of_ncols_le hj, Fraction.value_zero]

/-- A matrix has the values of a function that is zero outside if its entries have them. -/
theorem hasValues_of_entries {shape : Shape} {f : ℕ → ℕ → ℚ} (hshape : a.shape = shape)
    (hinside : ∀ i < shape.rows, ∀ j < shape.columns, (a.entry i j).value = f i j)
    (houtside : ∀ i j, shape.rows ≤ i ∨ shape.columns ≤ j → f i j = 0) :
    a.HasValues shape f := by
  subst hshape
  refine ⟨rfl, ?_⟩
  ext i j
  by_cases h : i < a.nrows ∧ j < a.ncols
  · exact hinside i h.1 j h.2
  · have hout : a.nrows ≤ i ∨ a.ncols ≤ j := by
      rwa [not_and_or, Nat.not_lt, Nat.not_lt] at h
    rw [values_eq_zero hout, houtside i j hout]

theorem hasValues_transpose (a : Mat Fraction) :
    a.transpose.HasValues ⟨a.ncols, a.nrows⟩ (Function.swap a.values) where
  shape_eq := a.shape_transpose
  values_eq := by
    ext j i
    exact congrArg Fraction.value (a.entry_transpose i j)

theorem hasValues_scale (c : Fraction) (a : Mat Fraction) :
    (scale c a).HasValues a.shape (c.value • a.values) := by
  apply hasValues_of_entries (shape_scale c a)
  · intro i hi j hj
    rw [entry_scale c a hi hj, Fraction.value_mul]
    rfl
  · intro i j hout
    rw [Pi.smul_apply, Pi.smul_apply, values_eq_zero hout, smul_zero]

/-- A function of two entries that gives zero for two zeros joins the values as it joins the values
of two entries. -/
theorem hasValues_zipWith {f : Fraction → Fraction → Fraction} {g : ℚ → ℚ → ℚ}
    (hf : ∀ x y, (f x y).value = g x.value y.value) (hzero : g 0 0 = 0) (h : a.shape = b.shape) :
    (zipWith f a b h).HasValues a.shape fun i j => g (a.values i j) (b.values i j) := by
  apply hasValues_of_entries (shape_zipWith f h)
  · intro i hi j hj
    rw [entry_zipWith f h hi hj, hf, values, values]
  · intro i j hout
    have hout' : b.nrows ≤ i ∨ b.ncols ≤ j := by
      obtain ⟨hrows, hcols⟩ := shape_eq_iff.mp h
      rwa [← hrows, ← hcols]
    rw [values_eq_zero hout, values_eq_zero hout', hzero]

theorem hasValues_product (h : a.ncols = b.nrows) :
    (a.product b).HasValues ⟨a.nrows, b.ncols⟩
      fun i j => ∑ k ∈ range a.ncols, a.values i k * b.values k j := by
  apply hasValues_of_entries (a.shape_product b)
  · intro i hi j hj
    rw [a.entry_product_eq_dot b ⟨i, hi⟩ hj, Vec.value_dot, dim_column, ← h]
    simp only [Vec.values, entry_row, entry_column, values]
  · intro i j hout
    apply Finset.sum_eq_zero
    rintro k -
    rcases hout with hi | hj
    · rw [values_eq_zero (.inl hi), zero_mul]
    · rw [values_eq_zero (.inr hj), mul_zero]

theorem hasValues_mulVec {x : Vec Fraction} (h : a.ncols = x.dim) :
    (a.mulVec x).HasValues a.nrows
      fun i => ∑ k ∈ range a.ncols, a.values i k * x.values k := by
  refine ⟨a.dim_mulVec x, ?_⟩
  ext i
  by_cases hi : i < a.nrows
  · rw [a.values_mulVec x ⟨i, hi⟩, h]
    simp only [Vec.values, entry_row, values]
  · have hout : a.nrows ≤ i := Nat.le_of_not_lt hi
    rw [Vec.values_eq_zero_of_dim_le (by rwa [dim_mulVec])]
    simp only [values_eq_zero (.inl hout), zero_mul, Finset.sum_const_zero]

end Values

/-- A matrix of fractions has the shape of a matrix of rational numbers, and the values of its
entries are the entries of that matrix. -/
structure Represents {m n : ℕ} (a : Mat Fraction) (M : Matrix (Fin m) (Fin n) ℚ) : Prop where
  nrows_eq : a.nrows = m
  ncols_eq : a.ncols = n
  value_entry (i : Fin m) (j : Fin n) : (a.entry i j).value = M i j

theorem represents_toMatrix (a : Mat Fraction) : a.Represents a.toMatrix where
  nrows_eq := rfl
  ncols_eq := rfl
  value_entry i j := congrArg Fraction.value (a.entry_row i j).symm

theorem Represents.eq_toMatrix {a : Mat Fraction} {M : Matrix (Fin a.nrows) (Fin a.ncols) ℚ}
    (h : a.Represents M) : M = a.toMatrix := by
  ext i j
  rw [← h.value_entry, a.represents_toMatrix.value_entry]

theorem exists_represents {a : Mat Fraction} {m n : ℕ} (hm : a.nrows = m) (hn : a.ncols = n) :
    ∃ M : Matrix (Fin m) (Fin n) ℚ, a.Represents M := by
  subst hm hn
  exact ⟨_, a.represents_toMatrix⟩

/-- A matrix with the values of a matrix of rational numbers of its shape represents it. -/
theorem HasValues.represents {a : Mat Fraction} {m n : ℕ} {f : ℕ → ℕ → ℚ}
    {M : Matrix (Fin m) (Fin n) ℚ} (h : a.HasValues ⟨m, n⟩ f)
    (hM : ∀ (i : Fin m) (j : Fin n), f i j = M i j) : a.Represents M where
  nrows_eq := congrArg Shape.rows h.shape_eq
  ncols_eq := congrArg Shape.columns h.shape_eq
  value_entry i j := (congrFun (congrFun h.values_eq i) j).trans (hM i j)

namespace Represents

variable {m n p : ℕ} {a b : Mat Fraction} {M N : Matrix (Fin m) (Fin n) ℚ}

/-- A represented matrix determines the matrix of fractions. -/
theorem unique (ha : a.Represents M) (hb : b.Represents M) : a = b := by
  have hrows : a.nrows = b.nrows := ha.nrows_eq.trans hb.nrows_eq.symm
  have hcols : a.ncols = b.ncols := ha.ncols_eq.trans hb.ncols_eq.symm
  apply ext_entries (shape_eq_iff.mpr ⟨hrows, hcols⟩)
  intro i hi j hj
  apply Fraction.value_injective
  have hi' : i < m := ha.nrows_eq ▸ hi
  have hj' : j < n := ha.ncols_eq ▸ hj
  exact (ha.value_entry ⟨i, hi'⟩ ⟨j, hj'⟩).trans (hb.value_entry ⟨i, hi'⟩ ⟨j, hj'⟩).symm

/-- The number of pivots is the rank of the represented matrix. -/
theorem rank_eq (ha : a.Represents M) : a.rank = M.rank := by
  -- Once the shape is that of the matrix of fractions itself, its own values are represented.
  cases ha.nrows_eq
  cases ha.ncols_eq
  rw [ha.eq_toMatrix, a.rank_toMatrix]

/-- The values of the product with a vector are the product with its values. -/
theorem coords_mulVec (ha : a.Represents M) {x : Vec Fraction} (hx : x.dim = n) :
    (a.mulVec x).coords m = M *ᵥ x.coords n := by
  cases ha.nrows_eq
  cases ha.ncols_eq
  rw [ha.eq_toMatrix, a.coords_mulVec hx]

theorem transpose (ha : a.Represents M) : a.transpose.Represents Mᵀ := by
  cases ha.nrows_eq
  cases ha.ncols_eq
  exact a.hasValues_transpose.represents fun j i => ha.value_entry i j

theorem scale (ha : a.Represents M) (c : Fraction) : (scale c a).Represents (c.value • M) := by
  cases ha.nrows_eq
  cases ha.ncols_eq
  exact (hasValues_scale c a).represents fun i j => congrArg (c.value * ·) (ha.value_entry i j)

theorem add (ha : a.Represents M) (hb : b.Represents N) (h : a.shape = b.shape) :
    (zipWith (· + ·) a b h).Represents (M + N) := by
  cases ha.nrows_eq
  cases ha.ncols_eq
  apply (hasValues_zipWith Fraction.value_add (add_zero 0) h).represents
  intro i j
  exact congrArg₂ (· + ·) (ha.value_entry i j) (hb.value_entry i j)

theorem product {N : Matrix (Fin n) (Fin p) ℚ} (ha : a.Represents M) (hb : b.Represents N) :
    (a.product b).Represents (M * N) := by
  cases ha.nrows_eq
  cases ha.ncols_eq
  cases hb.ncols_eq
  apply (hasValues_product hb.nrows_eq.symm).represents
  intro i j
  calc
    ∑ k ∈ range a.ncols, a.values i k * b.values k j =
        ∑ k : Fin a.ncols, a.values i k * b.values k j :=
      (Fin.sum_univ_eq_sum_range (fun k => a.values i k * b.values k j) a.ncols).symm
    _ = (M * N) i j := by
      rw [Matrix.mul_apply]
      exact Finset.sum_congr rfl fun k _ =>
        congrArg₂ (· * ·) (ha.value_entry i k) (hb.value_entry k j)

end Represents

/-- The matrix with ones on the diagonal represents the identity. -/
theorem represents_identity {n : ℕ} (h : 0 < n) :
    (ofFn n n h h fun i j => if i = j then (1 : Fraction) else 0).Represents
      (1 : Matrix (Fin n) (Fin n) ℚ) where
  nrows_eq := nrows_ofFn ..
  ncols_eq := rfl
  value_entry i j := by
    rw [entry_ofFn h h _ i.isLt j.isLt, Matrix.one_apply]
    by_cases hij : i = j
    · rw [if_pos hij, if_pos (congrArg Fin.val hij), Fraction.value_one]
    · rw [if_neg hij, if_neg (fun hv => hij (Fin.ext hv)), Fraction.value_zero]

end RowReduction.Mat

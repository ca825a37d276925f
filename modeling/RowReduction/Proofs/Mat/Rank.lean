import RowReduction.Proofs.Reduction.Echelon
import RowReduction.Proofs.Mat.Values
import Mathlib.LinearAlgebra.Matrix.Rank

/-!
# The rank of a matrix of fractions

The number of pivots in all columns is the rank of the matrix of values: the
dimension of the span of its rows, and the greatest number of rows that are
linearly independent.
-/

namespace RowReduction

namespace Reduction

/-- The row space has the rank of a matrix with these rows as dimension, whatever indexes them. -/
theorem finrank_rowSpace_eq_rank {ι : Type} [Fintype ι] {n : ℕ} {rows : List (Vec Fraction)}
    (v : ι → Vec Fraction) (hv : ∀ r, r ∈ rows ↔ ∃ i, v i = r) (hdim : Uniform n rows) :
    Module.finrank ℚ (rowSpace rows) =
      (Matrix.of fun i (j : Fin n) => (v i).values j).rank := by
  let M : Matrix ι (Fin n) ℚ := Matrix.of fun i j => (v i).values j
  let E : (Fin n → ℚ) →ₗ[ℚ] ℕ → ℚ := Function.ExtendByZero.linearMap ℚ Fin.val
  have hE : Function.Injective E := Function.extend_injective Fin.val_injective 0
  have hrow (i : ι) : E (M.row i) = (v i).values := by
    ext j
    by_cases hj : j < n
    · exact Fin.val_injective.extend_apply (M.row i) 0 ⟨j, hj⟩
    · have hdim : (v i).dim ≤ j := by
        rw [hdim _ ((hv _).mpr ⟨i, rfl⟩)]
        exact Nat.le_of_not_lt hj
      rw [Vec.values_eq_zero_of_dim_le hdim]
      exact Function.extend_apply' _ _ _ fun ⟨k, hk⟩ => hj (hk ▸ k.isLt)
  have hset : Vec.values '' {r | r ∈ rows} = E '' Set.range M.row := by
    ext f
    simp only [Set.mem_image, Set.mem_ofPred_eq, Set.mem_range, exists_exists_eq_and, hrow, hv]
  have hmap : rowSpace rows = (Submodule.span ℚ (Set.range M.row)).map E := by
    rw [rowSpace, hset, Submodule.map_span]
  rw [hmap, ← (Submodule.equivMapOfInjective E hE _).finrank_eq,
    ← Matrix.rank_eq_finrank_span_row]

end Reduction

namespace Mat

open Reduction

/-- With or without scaled pivots, there are as many pivots as the row space has dimensions. -/
theorem rank_reduce (a : Mat Fraction) (normalize : Bool) :
    (a.reduce a.ncols normalize).rank = Module.finrank ℚ (rowSpace a.rows) := by
  have run := a.run_reduce a.ncols normalize
  rw [Nat.min_self] at run
  exact (run.finrank_rowSpace a.dim_row).symm

theorem rank_toMatrix (a : Mat Fraction) : a.toMatrix.rank = a.rank := by
  rw [rank, echelon, rank_reduce]
  exact (finrank_rowSpace_eq_rank a.row a.mem_rows_iff a.dim_row).symm

/-- The dimension of the span of the rows of a matrix is the greatest number of independent
rows. -/
theorem isGreatest_card_independent_rows {m n : ℕ} (M : Matrix (Fin m) (Fin n) ℚ) :
    IsGreatest {k | ∃ s : Finset (Fin m), s.card = k ∧ LinearIndepOn ℚ M.row s} M.rank := by
  classical
  have hcard : ∀ s : Finset (Fin m), LinearIndepOn ℚ M.row s →
      Module.finrank ℚ (Submodule.span ℚ (M.row '' s)) = s.card := by
    intro s hs
    have hspan := finrank_span_eq_card hs
    rw [Set.image_eq_range, hspan]
    exact Fintype.card_coe s
  rw [Matrix.rank_eq_finrank_span_row]
  constructor
  · obtain ⟨s, -, -, hspan, hs⟩ := exists_linearIndepOn_extension
      (linearIndepOn_empty ℚ M.row) (Set.empty_subset Set.univ)
    have hrange : Submodule.span ℚ (Set.range M.row) = Submodule.span ℚ (M.row '' s) := by
      rw [Set.image_univ] at hspan
      exact le_antisymm (Submodule.span_le.mpr hspan)
        (Submodule.span_mono (Set.image_subset_range _ _))
    rw [← s.coe_toFinset] at hs hrange
    exact ⟨s.toFinset, by rw [hrange, hcard _ hs], hs⟩
  · rintro k ⟨s, rfl, hs⟩
    rw [← hcard s hs]
    exact Submodule.finrank_mono (Submodule.span_mono (Set.image_subset_range _ _))

/-- The number of pivots is the rank of the matrix of values, the dimension of the span of its
rows, and the greatest number of linearly independent rows. -/
theorem rank_eq_row_rank (a : Mat Fraction) :
    a.rank = a.toMatrix.rank ∧
    a.rank = Module.finrank ℚ (Submodule.span ℚ (Set.range a.toMatrix.row)) ∧
    IsGreatest {k | ∃ s : Finset (Fin a.nrows), s.card = k ∧
      LinearIndepOn ℚ a.toMatrix.row s} a.rank := by
  rw [← a.rank_toMatrix]
  exact ⟨rfl, a.toMatrix.rank_eq_finrank_span_row, isGreatest_card_independent_rows a.toMatrix⟩

end Mat

end RowReduction

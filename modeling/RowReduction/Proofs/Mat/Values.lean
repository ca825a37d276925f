import RowReduction.Mat.Elimination
import RowReduction.Proofs.Vec.Values
import Mathlib.Data.Matrix.Mul

/-!
# The values of a matrix of fractions

A matrix of fractions stands for the matrix of the values of its entries. Its
product with a vector is the product over the rational numbers, and joining a
column puts the values of the column behind the rows.
-/

namespace RowReduction.Mat

section Rows

variable {α : Type}

/-- The row in a place of the matrix. -/
def row (a : Mat α) (i : Fin a.nrows) : Vec α :=
  a.rows.get ⟨i, i.isLt⟩

theorem mem_rows_iff (a : Mat α) (r : Vec α) : r ∈ a.rows ↔ ∃ i, a.row i = r :=
  List.mem_iff_get

theorem dim_row_get (a : Mat α) (i : Fin a.nrows) : (a.row i).dim = a.ncols :=
  a.dim_row _ (List.get_mem _ _)

/-- The rows of the joined matrix, in the places of the rows of the matrix. -/
theorem mem_rows_augment_iff [Scalar α] (a : Mat α) (b : Vec α) (h : b.dim = a.nrows)
    (r : Vec α) :
    r ∈ (a.augment b).rows ↔ ∃ i : Fin a.nrows, (a.row i).push (b.entry i) = r := by
  constructor
  · intro hr
    obtain ⟨i, hi, rfl⟩ := List.getElem_of_mem hr
    have hlen : i < a.rows.length ∧ i < b.toList.length := by simpa [augment] using hi
    refine ⟨⟨i, hlen.1⟩, ?_⟩
    rw [Vec.entry_of_lt hlen.2]
    simp [augment, row]
  · rintro ⟨i, rfl⟩
    have hb : (i : ℕ) < b.toList.length := Nat.lt_of_lt_of_eq i.isLt h.symm
    have hi : (i : ℕ) < (a.augment b).rows.length := by
      simpa [augment] using ⟨i.isLt, hb⟩
    rw [Vec.entry_of_lt hb]
    exact List.mem_iff_getElem.mpr ⟨i, hi, by simp [augment, row]⟩

end Rows

open Matrix

/-- The matrix of the values of the entries. -/
def toMatrix (a : Mat Fraction) : Matrix (Fin a.nrows) (Fin a.ncols) ℚ :=
  Matrix.of fun i j => (a.row i).values j

/-- The matrix of the values of the entries, with the values of a vector as a last column. -/
def joinedMatrix (a : Mat Fraction) (b : Vec Fraction) :
    Matrix (Fin a.nrows) (Fin (a.ncols + 1)) ℚ :=
  Matrix.of fun i j => ((a.row i).push (b.entry i)).values j

theorem col_castSucc_joinedMatrix (a : Mat Fraction) (b : Vec Fraction) (j : Fin a.ncols) :
    (a.joinedMatrix b).col j.castSucc = a.toMatrix.col j := by
  ext i
  exact Vec.values_push_of_lt _ _ ((a.dim_row_get i).symm ▸ j.isLt)

theorem col_last_joinedMatrix (a : Mat Fraction) (b : Vec Fraction) :
    (a.joinedMatrix b).col (Fin.last a.ncols) = b.coords a.nrows := by
  ext i
  have hlast := Vec.values_push_dim (a.row i) (b.entry i)
  rw [a.dim_row_get i] at hlast
  exact hlast

@[simp] theorem dim_mulVec (a : Mat Fraction) (x : Vec Fraction) : (a.mulVec x).dim = a.nrows :=
  List.length_map _

theorem values_mulVec (a : Mat Fraction) (x : Vec Fraction) (i : Fin a.nrows) :
    (a.mulVec x).values i = ∑ j ∈ Finset.range x.dim, (a.row i).values j * x.values j := by
  have hi : (i : ℕ) < (a.mulVec x).toList.length := Nat.lt_of_lt_of_eq i.isLt (a.dim_mulVec x).symm
  rw [Vec.values_of_lt hi, ← Vec.value_dot]
  simp [mulVec, row]

/-- The product with a vector is the product over the rational numbers. -/
theorem coords_mulVec (a : Mat Fraction) {x : Vec Fraction} (h : x.dim = a.ncols) :
    (a.mulVec x).coords a.nrows = a.toMatrix *ᵥ x.coords a.ncols := by
  ext i
  rw [Vec.coords, values_mulVec, h, ← Fin.sum_univ_eq_sum_range]
  rfl

theorem mulVec_eq_iff (a : Mat Fraction) {x b : Vec Fraction} (hx : x.dim = a.ncols)
    (hb : b.dim = a.nrows) :
    a.mulVec x = b ↔ a.toMatrix *ᵥ x.coords a.ncols = b.coords a.nrows := by
  rw [← a.coords_mulVec hx]
  exact ((Vec.bijOn_coords a.nrows_pos).injOn.eq_iff (a.dim_mulVec x) hb).symm

end RowReduction.Mat

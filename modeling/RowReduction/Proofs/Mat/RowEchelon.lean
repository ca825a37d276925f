import RowReduction.Proofs.LinearSystem.Solutions
import RowReduction.Proofs.Mat.Representation
import RowReduction.Proofs.Reduction.RowEquivalence
import Mathlib.LinearAlgebra.Matrix.Echelon.Basic

/-!
# The matrix that a reduction leaves

A reduction of a matrix in its first columns leaves the product of an invertible
matrix with it, so the row space and the solutions of the equations of its rows
stay. In the columns of the reduction what is left is in row echelon form: each
of the first rows, as many as there are pivots, leads with a pivot further right
than the one above, and the other rows vanish.
-/

namespace RowReduction

section Matrices

variable {m n r : ℕ} {M : Matrix (Fin m) (Fin n) ℚ} {hr : r ≤ m} {p : Fin r → Fin n}

/-- A matrix in row echelon form whose first rows lead, each in its column, and whose other rows are
zero. -/
structure LeadingRows (M : Matrix (Fin m) (Fin n) ℚ) (hr : r ≤ m) (p : Fin r → Fin n) : Prop where
  isRowEchelon : M.IsRowEchelon
  strictMono : StrictMono p
  isLeadingEntry (k : Fin r) : M.IsLeadingEntry (k.castLE hr) (p k)
  below_eq_zero {k : Fin r} {i : Fin m} (h : k.castLE hr < i) : M i (p k) = 0
  row_ne_zero_iff (i : Fin m) : M i ≠ 0 ↔ (i : ℕ) < r

theorem isRowEchelon_of_leading (hp : StrictMono p)
    (hlead : ∀ k, M.IsLeadingEntry (k.castLE hr) (p k))
    (hrest : ∀ i : Fin m, r ≤ i → M i = 0) : M.IsRowEchelon := by
  intro i₁ i₂ hlt j₂ hzero
  rcases Nat.lt_or_ge i₂ r with hi₂ | hi₂
  · have hi₁ : (i₁ : ℕ) < r := (Fin.lt_def.mp hlt).trans hi₂
    have hlead₁ := hlead ⟨i₁, hi₁⟩
    have hlead₂ := hlead ⟨i₂, hi₂⟩
    have hle : j₂ ≤ p ⟨i₁, hi₁⟩ := by
      by_contra hgt
      exact hlead₁.2 (hzero _ (not_le.mp hgt))
    exact hlead₂.1 j₂ (hle.trans_lt (hp hlt))
  · rw [hrest i₂ hi₂, Pi.zero_apply]

/-- Rows that lead further and further right, above rows that are zero. -/
theorem leadingRows_of_leading (hp : StrictMono p)
    (hlead : ∀ k, M.IsLeadingEntry (k.castLE hr) (p k))
    (hrest : ∀ i : Fin m, r ≤ i → M i = 0) : LeadingRows M hr p where
  isRowEchelon := isRowEchelon_of_leading hp hlead hrest
  strictMono := hp
  isLeadingEntry := hlead
  below_eq_zero := fun h => isRowEchelon_of_leading hp hlead hrest h (hlead _).1
  row_ne_zero_iff i := by
    constructor
    · intro hne
      by_contra hge
      exact hne (hrest i (Nat.le_of_not_lt hge))
    · intro hi
      exact (hlead ⟨i, hi⟩).row_ne_zero

end Matrices

namespace Reduction

/-- The row has its first entry other than zero, among some columns, in the column. -/
structure Leads (normalize : Bool) (columns : List ℕ) (column : ℕ) (row : Vec Fraction) :
    Prop where
  ne_zero : row.values column ≠ 0
  eq_one (h : normalize = true) : row.values column = 1
  left_eq_zero {j : ℕ} (hj : j ∈ columns) (h : j < column) : row.values j = 0

variable {normalize : Bool}

theorem Leads.cons {columns : List ℕ} {column j : ℕ} {row : Vec Fraction}
    (h : Leads normalize columns column row) (hj : row.values j = 0) :
    Leads normalize (j :: columns) column row := by
  refine ⟨h.ne_zero, h.eq_one, fun {i} hi hlt => ?_⟩
  rcases List.mem_cons.mp hi with rfl | hi
  · exact hj
  · exact h.left_eq_zero hi hlt

theorem forall₂_leads_cons {columns ps : List ℕ} {j : ℕ} {rows : List (Vec Fraction)}
    (h : List.Forall₂ (Leads normalize columns) ps rows) (hj : ∀ r ∈ rows, r.values j = 0) :
    List.Forall₂ (Leads normalize (j :: columns)) ps rows := by
  induction h with
  | nil => exact .nil
  | cons hlead htail ih =>
      obtain ⟨hrow, hrows⟩ := List.forall_mem_cons.mp hj
      exact .cons (hlead.cons hrow) (ih hrows)

/-- The pivot rows lead in some of the columns, in the order of the columns. -/
theorem Echelon.exists_leads {columns pivots rest} (h : Echelon normalize columns pivots rest)
    (hsorted : columns.Pairwise (· < ·)) :
    ∃ ps : List ℕ, ps.Sublist columns ∧ List.Forall₂ (Leads normalize columns) ps pivots := by
  induction h with
  | finished => exact ⟨[], .slnil, .nil⟩
  | @skipped column columns pivots rest hzero tail ih =>
      obtain ⟨ps, hps, hleads⟩ := ih hsorted.of_cons
      exact ⟨ps, hps.cons column,
        forall₂_leads_cons hleads fun r hr => hzero r (List.mem_append_left _ hr)⟩
  | @pivot column columns p pivots rest hpivot hone hzero tail ih =>
      obtain ⟨ps, hps, hleads⟩ := ih hsorted.of_cons
      refine ⟨column :: ps, hps.cons_cons column, .cons ⟨hpivot, hone, ?_⟩
        (forall₂_leads_cons hleads fun r hr => hzero r (List.mem_append_left _ hr))⟩
      -- No column of a sorted list stands before the first one.
      intro j hj hlt
      rcases List.mem_cons.mp hj with rfl | hj
      · exact absurd hlt (Nat.lt_irrefl j)
      · exact absurd hlt (List.rel_of_pairwise_cons hsorted hj).not_gt

end Reduction

namespace Mat

open Reduction

section Shape

variable {α : Type} [Scalar α]

/-- The matrix that a reduction leaves, the pivot rows first. -/
def reduced (a : Mat α) (columns : ℕ) (normalize : Bool) : Mat α where
  rows := (a.reduce columns normalize).rows
  ncols := a.ncols
  rows_ne_nil := by
    have hlength := (a.run_reduce columns normalize).length_eq
    have hpos : 0 < (a.reduce columns normalize).rows.length := by
      rw [Reduction.rows, List.length_append]
      exact a.nrows_pos.trans_eq hlength.symm
    exact List.length_pos_iff.mp hpos
  dim_row := (a.run_reduce columns normalize).uniform a.dim_row

@[simp] theorem nrows_reduced (a : Mat α) (columns : ℕ) (normalize : Bool) :
    (a.reduced columns normalize).nrows = a.nrows := by
  have hlength := (a.run_reduce columns normalize).length_eq
  rwa [Reduction.rank, ← List.length_append] at hlength

end Shape

section Transformation

theorem map_values_rows (a : Mat Fraction) :
    a.rows.map Vec.values = List.ofFn fun i => (a.row i).values := by
  calc
    a.rows.map Vec.values = (List.ofFn a.rows.get).map Vec.values := by rw [List.ofFn_get]
    _ = List.ofFn fun i => (a.row i).values := List.map_ofFn ..

theorem value_entry_of_eq_ofFn {a : Mat Fraction} {m : ℕ} {v : Fin m → ℕ → ℚ}
    (h : a.rows.map Vec.values = List.ofFn v) (i : Fin m) (j : ℕ) :
    (a.entry i j).value = v i j := by
  rw [map_values_rows] at h
  obtain rfl : a.nrows = m := by simpa using congrArg List.length h
  rw [← List.ofFn_injective h, ← a.entry_row i j]
  rfl

/-- What a reduction leaves is the product of an invertible matrix with the matrix. -/
theorem exists_isUnit_represents (a : Mat Fraction) (columns : ℕ) (normalize : Bool) :
    ∃ E : Matrix (Fin a.nrows) (Fin a.nrows) ℚ,
      IsUnit E ∧ (a.reduced columns normalize).Represents (E * a.toMatrix) := by
  obtain ⟨m, v, E, hE, hv, hw⟩ := (a.run_reduce columns normalize).rowEquivalent a.dim_row
  rw [map_values_rows] at hv
  obtain rfl : a.nrows = m := by simpa using congrArg List.length hv
  obtain rfl := List.ofFn_injective hv
  refine ⟨E, hE, a.nrows_reduced columns normalize, rfl, fun i j => ?_⟩
  rw [value_entry_of_eq_ofFn (a := a.reduced columns normalize) hw, Matrix.mul_apply,
    Matrix.Module.smul_apply, Finset.sum_apply]
  rfl

end Transformation

section Echelon

variable {a : Mat Fraction} {columns : ℕ} {normalize : Bool}

theorem rank_le_nrows (a : Mat Fraction) (columns : ℕ) (normalize : Bool) :
    (a.reduce columns normalize).rank ≤ a.nrows :=
  Nat.le_of_add_right_le (a.run_reduce columns normalize).length_eq.le

theorem row_reduced_of_lt {i : Fin (a.reduced columns normalize).nrows}
    (h : (i : ℕ) < (a.reduce columns normalize).rank) :
    (a.reduced columns normalize).row i = (a.reduce columns normalize).pivots[(i : ℕ)] :=
  List.getElem_append_left h

theorem row_reduced_mem_rest {i : Fin (a.reduced columns normalize).nrows}
    (h : (a.reduce columns normalize).rank ≤ i) :
    (a.reduced columns normalize).row i ∈ (a.reduce columns normalize).rest := by
  have hrow : (a.reduced columns normalize).row i =
      ((a.reduce columns normalize).pivots ++ (a.reduce columns normalize).rest)[(i : ℕ)] := rfl
  rw [hrow, List.getElem_append_right h]
  exact List.getElem_mem _

theorem Represents.eq_values_row {m n : ℕ} {b : Mat Fraction} {M : Matrix (Fin m) (Fin n) ℚ}
    (h : b.Represents M) (i : Fin m) (j : Fin n) :
    M i j = (b.row (i.cast h.nrows_eq.symm)).values j := by
  rw [← h.value_entry]
  exact congrArg Fraction.value (b.entry_row (i.cast h.nrows_eq.symm) j).symm

/-- In its columns a reduction leaves rows that lead further and further right above rows that are
zero. -/
theorem exists_leadingRows {M : Matrix (Fin a.nrows) (Fin a.ncols) ℚ}
    (hM : (a.reduced columns normalize).Represents M) :
    ∃ p : Fin (a.reduce columns normalize).rank → Fin (min columns a.ncols),
      LeadingRows (M.submatrix id (Fin.castLE (Nat.min_le_right ..)))
        (a.rank_le_nrows columns normalize) p ∧
      (normalize = true → ∀ k, M (k.castLE (a.rank_le_nrows columns normalize))
        ((p k).castLE (Nat.min_le_right ..)) = 1) := by
  have hechelon := (a.run_reduce columns normalize).echelon a.dim_row
  obtain ⟨ps, hps, hleads⟩ := hechelon.exists_leads List.pairwise_lt_range
  have hlength : ps.length = (a.reduce columns normalize).rank := hleads.length_eq
  have hlead (k : Fin (a.reduce columns normalize).rank) :=
    hleads.get (k.isLt.trans_eq hlength.symm) k.isLt
  have hpivot (k : Fin (a.reduce columns normalize).rank) (j : Fin a.ncols) :
      M (k.castLE (a.rank_le_nrows columns normalize)) j =
        (a.reduce columns normalize).pivots[(k : ℕ)].values j := by
    rw [hM.eq_values_row, row_reduced_of_lt k.isLt]
    rfl
  refine ⟨fun k => ⟨ps[k], List.mem_range.mp (hps.subset (List.getElem_mem _))⟩,
    leadingRows_of_leading ?_ ?_ ?_, ?_⟩
  · intro k l hkl
    have hsorted := List.pairwise_lt_range.sublist hps
    exact List.pairwise_iff_getElem.mp hsorted k l _ _ hkl
  · intro k
    refine ⟨fun j hj => ?_, ?_⟩
    · rw [Matrix.submatrix_apply, id_eq, hpivot]
      exact (hlead k).left_eq_zero (List.mem_range.mpr j.isLt) hj
    · rw [Matrix.submatrix_apply, id_eq, hpivot]
      exact (hlead k).ne_zero
  · intro i hi
    ext j
    rw [Matrix.submatrix_apply, id_eq, hM.eq_values_row]
    exact hechelon.rest_eq_zero (List.mem_range.mpr j.isLt) _ (row_reduced_mem_rest hi)
  · intro hnormalize k
    rw [hpivot]
    exact (hlead k).eq_one hnormalize

end Echelon

/-- The matrix that a reduction leaves has the shape of the matrix and is the product of an
invertible matrix with it, so both have one row space, and the equations of their rows, the last
entries being the constants, have the same solutions. In the columns of the reduction it is in row
echelon form. Its first rows, as many as there are pivots, lead there further and further right,
with ones if the pivots are scaled to one, all entries below a pivot are zero, and the other rows
are zero. -/
theorem reduced_rowEchelon (a : Mat Fraction) (columns : ℕ) (normalize : Bool) :
    let b := a.reduced columns normalize
    let r := (a.reduce columns normalize).rank
    ∃ (E : Matrix (Fin a.nrows) (Fin a.nrows) ℚ) (hr : r ≤ a.nrows)
      (p : Fin r → Fin (min columns a.ncols)),
      IsUnit E ∧ b.Represents (E * a.toMatrix) ∧
      rowSpace b.rows = rowSpace a.rows ∧
      (∀ f, Solves (a.ncols - 1) b.rows f ↔ Solves (a.ncols - 1) a.rows f) ∧
      LeadingRows ((E * a.toMatrix).submatrix id (Fin.castLE (Nat.min_le_right ..))) hr p ∧
      (normalize = true → ∀ k,
        (E * a.toMatrix) (k.castLE hr) ((p k).castLE (Nat.min_le_right ..)) = 1) := by
  intro b r
  obtain ⟨E, hE, hrepresents⟩ := a.exists_isUnit_represents columns normalize
  obtain ⟨p, hleading, hone⟩ := exists_leadingRows hrepresents
  have hspace : rowSpace b.rows = rowSpace a.rows :=
    (a.run_reduce columns normalize).rowSpace_eq a.dim_row
  exact ⟨E, a.rank_le_nrows columns normalize, p, hE, hrepresents, hspace,
    fun f => solves_congr hspace, hleading, hone⟩

end Mat

end RowReduction

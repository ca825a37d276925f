import RowReduction.Proofs.Reduction.RowSpace
import Mathlib.LinearAlgebra.FiniteDimensional.Lemmas

/-!
# Echelon form

A reduction leaves rows in echelon form: from column to column, either all
rows that follow vanish there, or the first of them is the only one that does
not. The pivot rows are then independent and the rows that are left vanish in
all columns of the reduction, so the number of pivots is the dimension of the
row space.

## Implementation notes

The form is stated by recursion on the columns, like the reduction. The order
of the pivot columns is the order of the list of columns.
-/

namespace RowReduction.Reduction

/-- Pivot rows and the rows below them in echelon form in a list of columns. -/
inductive Echelon (normalize : Bool) :
    List ℕ → List (Vec Fraction) → List (Vec Fraction) → Prop
  | finished {rest} : Echelon normalize [] [] rest
  | skipped {column columns pivots rest}
      (hzero : ∀ r ∈ pivots ++ rest, r.values column = 0)
      (tail : Echelon normalize columns pivots rest) :
      Echelon normalize (column :: columns) pivots rest
  | pivot {column columns p pivots rest} (hpivot : p.values column ≠ 0)
      (hone : normalize = true → p.values column = 1)
      (hzero : ∀ r ∈ pivots ++ rest, r.values column = 0)
      (tail : Echelon normalize columns pivots rest) :
      Echelon normalize (column :: columns) (p :: pivots) rest

variable {normalize : Bool}

theorem Echelon.no_rows (columns : List ℕ) : Echelon normalize columns [] [] := by
  induction columns with
  | nil => exact Echelon.finished
  | cons column columns ih => exact Echelon.skipped (by simp) ih

/-- The vectors that vanish in a column. -/
def vanishing (column : ℕ) : Submodule ℚ (ℕ → ℚ) :=
  LinearMap.ker (LinearMap.proj column : (ℕ → ℚ) →ₗ[ℚ] ℚ)

theorem rowSpace_le_vanishing_iff {column : ℕ} {rows : List (Vec Fraction)} :
    rowSpace rows ≤ vanishing column ↔ ∀ r ∈ rows, r.values column = 0 :=
  rowSpace_le_iff

/-- Where all rows vanish, the rows of their reduction vanish. -/
theorem Run.values_eq_zero {n columns rank} {rows : List (Vec Fraction)}
    {r : Reduction Fraction} (run : Run normalize columns rank rows r) (hdim : Uniform n rows)
    {column : ℕ} (hzero : ∀ r ∈ rows, r.values column = 0) :
    ∀ q ∈ r.pivots ++ r.rest, q.values column = 0 := by
  rw [← rowSpace_le_vanishing_iff] at hzero ⊢
  exact (run.rowSpace_eq hdim).trans_le hzero

theorem values_cleared {n column : ℕ} {rows : List (Vec Fraction)}
    {choice : PivotChoice (Vec Fraction)} {inverse : Fraction}
    (hchoice : PivotChoice.first? (isPivot column) rows = some choice)
    (hinv : Scalar.inv? (choice.pivot.entry column) = .ok inverse)
    (hdim : Uniform n (choice.pivot :: choice.others)) :
    ∀ r ∈ cleared normalize column inverse choice, r.values column = 0 := by
  intro r hr
  obtain ⟨s, hs, rfl⟩ := List.mem_map.mp hr
  rw [values_clear_of_mem_others hdim inverse hs, value_inverse hchoice hinv, Pi.sub_apply,
    Pi.smul_apply, smul_eq_mul, inv_mul_cancel_right₀ (values_pivot_ne_zero hchoice), sub_self]

/-- A run leaves its rows in echelon form. -/
theorem Run.echelon {n columns rank} {rows : List (Vec Fraction)} {r : Reduction Fraction}
    (run : Run normalize columns rank rows r) (hdim : Uniform n rows) :
    Echelon normalize columns r.pivots r.rest := by
  induction run with
  | finished => exact Echelon.finished
  | exhausted => exact Echelon.no_rows _
  | skipped hne hnone run ih =>
      have hzero := PivotChoice.first?_eq_none_iff.mp hnone
      simp only [isPivot_eq_false_iff] at hzero
      apply Echelon.skipped
      · exact run.values_eq_zero hdim hzero
      · exact ih hdim
  | failed hchoice hinv run ih => exact absurd hinv (inv?_ne_error invertsNonzero_fraction hchoice)
  | @eliminated column columns rank rows choice inverse tail hchoice hinv run ih =>
      have hall := hdim.perm (PivotChoice.perm_of_first? hchoice)
      have hne := values_pivot_ne_zero hchoice
      have hzero : ∀ r ∈ cleared normalize column inverse choice, r.values column = 0 :=
        values_cleared hchoice hinv hall
      have hvalue : (pivotRow normalize inverse choice.pivot).values column =
          (if normalize then inverse.value else 1) * choice.pivot.values column := by
        rw [values_pivotRow, Pi.smul_apply, smul_eq_mul]
      rw [value_inverse hchoice hinv] at hvalue
      apply Echelon.pivot
      · rw [hvalue]
        exact mul_ne_zero (pivotFactor_ne_zero (inv_ne_zero hne)) hne
      · intro hnormalize
        rw [hvalue, if_pos hnormalize, inv_mul_cancel₀ hne]
      · exact run.values_eq_zero hall.cleared hzero
      · exact ih hall.cleared

/-- The rows that are left vanish in all columns of the form. -/
theorem Echelon.rest_eq_zero {columns pivots rest} (h : Echelon normalize columns pivots rest)
    {column : ℕ} (hcolumn : column ∈ columns) : ∀ r ∈ rest, r.values column = 0 := by
  induction h with
  | finished => simp at hcolumn
  | skipped hzero tail ih =>
      intro r hr
      rcases List.mem_cons.mp hcolumn with rfl | hcolumn
      · exact hzero r (List.mem_append_right _ hr)
      · exact ih hcolumn r hr
  | pivot hpivot hone hzero tail ih =>
      intro r hr
      rcases List.mem_cons.mp hcolumn with rfl | hcolumn
      · exact hzero r (List.mem_append_right _ hr)
      · exact ih hcolumn r hr

instance (rows : List (Vec Fraction)) : FiniteDimensional ℚ (rowSpace rows) :=
  FiniteDimensional.span_of_finite ℚ (rows.finite_toSet.image _)

/-- The pivot rows are a basis of the space they span. -/
theorem Echelon.finrank_pivots {columns pivots rest}
    (h : Echelon normalize columns pivots rest) :
    Module.finrank ℚ (rowSpace pivots) = pivots.length := by
  induction h with
  | finished => rw [rowSpace_nil, finrank_bot, List.length_nil]
  | skipped hzero tail ih => exact ih
  | @pivot column columns p pivots rest hpivot hone hzero tail ih =>
      have hne : p.values ≠ 0 := fun h => hpivot (congrFun h column)
      have hvanishing : rowSpace pivots ≤ vanishing column :=
        rowSpace_le_vanishing_iff.mpr fun r hr => hzero r (List.mem_append_left _ hr)
      have hdisjoint : Disjoint (rowSpace pivots) (ℚ ∙ p.values) :=
        (Submodule.disjoint_span_singleton' hne).mpr fun hmem => hpivot (hvanishing hmem)
      have hsum := Submodule.finrank_sup_add_finrank_inf_eq (rowSpace pivots) (ℚ ∙ p.values)
      rw [hdisjoint.eq_bot, finrank_bot, add_zero, ih, finrank_span_singleton hne] at hsum
      rw [rowSpace_cons, sup_comm, hsum, List.length_cons]

/-- A reduction in all columns finds as many pivots as the row space has dimensions. -/
theorem Run.finrank_rowSpace {n rank} {rows : List (Vec Fraction)} {r : Reduction Fraction}
    (run : Run normalize (List.range n) rank rows r) (hdim : Uniform n rows) :
    Module.finrank ℚ (rowSpace rows) = r.rank := by
  have hechelon := run.echelon hdim
  have hrest : ∀ q ∈ r.rest, q.values = 0 := by
    intro q hq
    ext j
    by_cases hj : j < n
    · exact hechelon.rest_eq_zero (List.mem_range.mpr hj) q hq
    · apply Vec.values_eq_zero_of_dim_le
      rw [run.uniform hdim q (List.mem_append_right _ hq)]
      exact Nat.le_of_not_lt hj
  have hspace : rowSpace rows = rowSpace r.pivots := by
    rw [← run.rowSpace_eq hdim]
    apply le_antisymm
    · apply rowSpace_le_iff.mpr
      intro q hq
      rcases List.mem_append.mp hq with hq | hq
      · exact values_mem_rowSpace hq
      · rw [hrest q hq]
        exact Submodule.zero_mem _
    · exact rowSpace_le_iff.mpr fun q hq => values_mem_rowSpace (List.mem_append_left _ hq)
  rw [hspace]
  exact hechelon.finrank_pivots

end RowReduction.Reduction

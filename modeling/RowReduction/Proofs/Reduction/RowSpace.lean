import RowReduction.Proofs.Reduction.Run
import RowReduction.Proofs.Vec.Values
import Mathlib.Algebra.Algebra.Operations
import Mathlib.Algebra.Algebra.Pi
import Mathlib.LinearAlgebra.Span.Basic

/-!
# The row space under reduction

The row space of a list of rows is the span of their values. A reduction keeps
it: rows are exchanged, scaled by numbers other than zero, and changed by
multiples of a pivot row that stays in the list.
-/

namespace RowReduction.Reduction

/-- The span of the values of the rows. -/
def rowSpace (rows : List (Vec Fraction)) : Submodule ℚ (ℕ → ℚ) :=
  Submodule.span ℚ (Vec.values '' {r | r ∈ rows})

theorem values_mem_rowSpace {rows : List (Vec Fraction)} {r : Vec Fraction} (h : r ∈ rows) :
    r.values ∈ rowSpace rows :=
  Submodule.subset_span ⟨r, h, rfl⟩

/-- A space contains the row space exactly if it contains every row. -/
theorem rowSpace_le_iff {rows : List (Vec Fraction)} {p : Submodule ℚ (ℕ → ℚ)} :
    rowSpace rows ≤ p ↔ ∀ r ∈ rows, r.values ∈ p := by
  rw [rowSpace, Submodule.span_le, Set.image_subset_iff]
  rfl

theorem rowSpace_perm {rows rows' : List (Vec Fraction)} (h : rows.Perm rows') :
    rowSpace rows = rowSpace rows' := by
  unfold rowSpace
  congr 2
  ext r
  exact h.mem_iff

@[simp] theorem rowSpace_nil : rowSpace [] = ⊥ := by
  rw [eq_bot_iff, rowSpace_le_iff]
  simp

theorem rowSpace_cons (r : Vec Fraction) (rows : List (Vec Fraction)) :
    rowSpace (r :: rows) = ℚ ∙ r.values ⊔ rowSpace rows := by
  have hset : Vec.values '' {q | q ∈ r :: rows} =
      insert r.values (Vec.values '' {q | q ∈ rows}) := by
    rw [← Set.image_insert_eq]
    congr 1
    ext q
    exact List.mem_cons
  rw [rowSpace, hset, Submodule.span_insert, rowSpace]

/-- Rows with the row space in common may be put behind a row. -/
theorem rowSpace_cons_congr {p q : Vec Fraction} {rows rows' : List (Vec Fraction)}
    (hp : ℚ ∙ p.values = ℚ ∙ q.values) (h : rowSpace rows = rowSpace rows') :
    rowSpace (p :: rows) = rowSpace (q :: rows') := by
  rw [rowSpace_cons, rowSpace_cons, hp, h]

section Pivots

variable {normalize : Bool} {column : ℕ} {rows : List (Vec Fraction)}
  {choice : PivotChoice (Vec Fraction)}

theorem invertsNonzero_fraction : InvertsNonzero Fraction := by
  intro a h
  obtain ⟨b, hb, -⟩ := Fraction.inv?_of_value_ne_zero fun hzero =>
    Bool.false_ne_true (h.symm.trans (Fraction.isZero_eq_true_iff_value.mpr hzero))
  exact ⟨b, hb⟩

theorem isPivot_eq_false_iff {r : Vec Fraction} :
    isPivot column r = false ↔ r.values column = 0 := by
  rw [isPivot, Bool.not_eq_false', Fraction.isZero_eq_true_iff_value, Vec.values]

/-- The chosen pivot is not zero. -/
theorem values_pivot_ne_zero (h : PivotChoice.first? (isPivot column) rows = some choice) :
    choice.pivot.values column ≠ 0 := by
  intro hzero
  have hpivot := PivotChoice.test_of_first? h
  rw [isPivot_eq_false_iff.mpr hzero] at hpivot
  cases hpivot

/-- The chosen pivot has an inverse, and its value is the inverse value. -/
theorem value_inverse (h : PivotChoice.first? (isPivot column) rows = some choice)
    {inverse : Fraction} (hinv : Scalar.inv? (choice.pivot.entry column) = .ok inverse) :
    inverse.value = (choice.pivot.values column)⁻¹ := by
  obtain ⟨b, hb, hvalue⟩ := Fraction.inv?_of_value_ne_zero (values_pivot_ne_zero h)
  rw [hinv] at hb
  cases hb
  exact hvalue

theorem values_pivotRow (inverse : Fraction) (p : Vec Fraction) :
    (pivotRow normalize inverse p).values =
      (if normalize then inverse.value else 1) • p.values := by
  cases normalize with
  | false => exact (one_smul ℚ p.values).symm
  | true => exact Vec.values_scale inverse p

theorem pivotFactor_ne_zero {q : ℚ} (h : q ≠ 0) : (if normalize then q else 1) ≠ 0 := by
  split
  · exact h
  · exact one_ne_zero

/-- The multiple of the pivot that a row loses is its entry times the inverse, whether or not the
pivot row has been scaled before. -/
theorem values_clear_pivotRow {inverse : Fraction} {p row : Vec Fraction}
    (hdim : row.dim = p.dim) :
    (clear normalize column inverse (pivotRow normalize inverse p) row).values =
      row.values - (row.values column * inverse.value) • p.values := by
  by_cases hzero : Scalar.isZero (row.entry column) = true
  · have hvalue : row.values column = 0 := Fraction.isZero_eq_true_iff_value.mp hzero
    rw [clear, if_pos hzero, hvalue, zero_mul, zero_smul, sub_zero]
  · rw [clear, if_neg hzero, Vec.values_zipWith_add_mul _ (by simpa using hdim), values_pivotRow,
      smul_smul]
    cases normalize with
    | false => simp [Vec.values]
    | true => simp [Vec.values]

theorem values_clear_of_mem_others {n : ℕ} (hdim : Uniform n (choice.pivot :: choice.others))
    (inverse : Fraction) {s : Vec Fraction} (hs : s ∈ choice.others) :
    (clear normalize column inverse (pivotRow normalize inverse choice.pivot) s).values =
      s.values - (s.values column * inverse.value) • choice.pivot.values := by
  have hrow : s.dim = n := hdim s (List.mem_cons_of_mem _ hs)
  have hpivot : choice.pivot.dim = n := hdim _ List.mem_cons_self
  exact values_clear_pivotRow (hrow.trans hpivot.symm)

/-- Removing a column by multiples of the pivot keeps the row space. -/
theorem rowSpace_cleared {n : ℕ} {inverse : Fraction} (hinv : inverse.value ≠ 0)
    (hdim : Uniform n (choice.pivot :: choice.others)) :
    rowSpace (pivotRow normalize inverse choice.pivot ::
      cleared normalize column inverse choice) = rowSpace (choice.pivot :: choice.others) := by
  have hpivot : ℚ ∙ (pivotRow normalize inverse choice.pivot).values = ℚ ∙ choice.pivot.values := by
    rw [values_pivotRow]
    exact Submodule.span_singleton_smul_eq (IsUnit.mk0 _ (pivotFactor_ne_zero hinv)) _
  have hmem : choice.pivot.values ∈ ℚ ∙ choice.pivot.values := Submodule.mem_span_singleton_self _
  rw [rowSpace_cons, rowSpace_cons, hpivot]
  apply le_antisymm
  · apply sup_le le_sup_left
    apply rowSpace_le_iff.mpr
    intro r hr
    obtain ⟨s, hs, rfl⟩ := List.mem_map.mp hr
    rw [values_clear_of_mem_others hdim inverse hs]
    exact Submodule.sub_mem _ (Submodule.mem_sup_right (values_mem_rowSpace hs))
      (Submodule.smul_mem _ _ (Submodule.mem_sup_left hmem))
  · apply sup_le le_sup_left
    apply rowSpace_le_iff.mpr
    intro s hs
    have hs' := values_mem_rowSpace (List.mem_map_of_mem (f := clear normalize column inverse
      (pivotRow normalize inverse choice.pivot)) hs)
    rw [values_clear_of_mem_others hdim inverse hs] at hs'
    rw [← sub_add_cancel s.values ((s.values column * inverse.value) • choice.pivot.values)]
    exact Submodule.add_mem _ (Submodule.mem_sup_right hs')
      (Submodule.smul_mem _ _ (Submodule.mem_sup_left hmem))

end Pivots

/-- A run keeps the row space. -/
theorem Run.rowSpace_eq {normalize : Bool} {n : ℕ} {columns rank} {rows : List (Vec Fraction)}
    {r : Reduction Fraction} (run : Run normalize columns rank rows r) (hdim : Uniform n rows) :
    rowSpace r.rows = rowSpace rows := by
  induction run with
  | finished => rfl
  | exhausted => rfl
  | skipped hne hnone run ih => exact ih hdim
  | failed hchoice hinv run ih => exact absurd hinv (inv?_ne_error invertsNonzero_fraction hchoice)
  | @eliminated column columns rank rows choice inverse tail hchoice hinv run ih =>
      have hperm := PivotChoice.perm_of_first? hchoice
      have hall := hdim.perm hperm
      have hinverse : inverse.value ≠ 0 := by
        rw [value_inverse hchoice hinv]
        exact inv_ne_zero (values_pivot_ne_zero hchoice)
      calc
        rowSpace (pivotRow normalize inverse choice.pivot :: tail.rows) =
            rowSpace (pivotRow normalize inverse choice.pivot ::
              cleared normalize column inverse choice) :=
          rowSpace_cons_congr rfl (ih hall.cleared)
        _ = rowSpace (choice.pivot :: choice.others) := rowSpace_cleared hinverse hall
        _ = rowSpace rows := rowSpace_perm hperm

end RowReduction.Reduction

import RowReduction.Proofs.Reduction.RowSpace

/-!
# Reductions to unit pivots

A reduction of fractions chooses the same pivots whether or not it scales the
pivot rows. Before each column the rows that are left are the same, because the
entry of a row times the scaled pivot row is the entry over the pivot times the
pivot row. Both reductions report the same, and the scaled pivot rows are the
others divided by their pivots.
-/

namespace RowReduction

/-- The column of the pivot that an event reports, if it reports one. -/
def ReductionEvent.pivotColumn? : ReductionEvent → Option Nat
  | skipped _ => none
  | eliminated column _ _ => some column

namespace Reduction

/-- The columns of the pivots, in the order of the pivot rows. -/
def pivotColumns {α : Type} (r : Reduction α) : List Nat :=
  r.events.filterMap ReductionEvent.pivotColumn?

/-- The second reduction reports what the first reports and leaves the same rows, and its pivot
rows are those of the first, each divided by its pivot. -/
structure Normalizes (plain unit : Reduction Fraction) : Prop where
  rank : unit.rank = plain.rank
  events : unit.events = plain.events
  rest : unit.rest = plain.rest
  pivots : unit.pivots.map Except.ok =
    List.zipWith (fun column p => p.divScalar? (p.entry column)) plain.pivotColumns plain.pivots

namespace Normalizes

variable {plain unit : Reduction Fraction} {i : ℕ}

/-- The rows without a pivot are the same. -/
theorem rows_of_rank_le (h : Normalizes plain unit) (hi : plain.rank ≤ i) :
    unit.rows[i]? = plain.rows[i]? := by
  have hunit : unit.pivots.length ≤ i := Nat.le_trans (Nat.le_of_eq h.rank) hi
  have hlength : unit.pivots.length = plain.pivots.length := h.rank
  rw [rows, rows, List.getElem?_append_right hunit, List.getElem?_append_right hi, h.rest, hlength]

/-- Each row with a pivot is divided by the pivot. -/
theorem rows_of_lt_rank (h : Normalizes plain unit) (hi : i < plain.rank) :
    ∃ column p q, plain.pivotColumns[i]? = some column ∧ plain.rows[i]? = some p ∧
      unit.rows[i]? = some q ∧ p.divScalar? (p.entry column) = .ok q := by
  have hunit : i < unit.pivots.length := Nat.lt_of_lt_of_eq hi h.rank.symm
  have hq := congrArg (·[i]?) h.pivots
  rw [List.getElem?_map, List.getElem?_eq_getElem hunit, eq_comm, Option.map_some,
    List.getElem?_zipWith_eq_some] at hq
  obtain ⟨column, p, hcolumn, hp, hdiv⟩ := hq
  refine ⟨column, p, unit.pivots[i], hcolumn, ?_, ?_, hdiv⟩
  · rw [rows, List.getElem?_append_left hi, hp]
  · rw [rows, List.getElem?_append_left hunit, List.getElem?_eq_getElem hunit]

end Normalizes

/-- The rows below a pivot are the same after both ways of removing its column. -/
theorem cleared_normalize {n column : ℕ} {choice : PivotChoice (Vec Fraction)}
    (hdim : Uniform n (choice.pivot :: choice.others)) (inverse : Fraction) :
    cleared true column inverse choice = cleared false column inverse choice := by
  apply List.map_congr_left
  intro row hrow
  have hpivot : row.dim = choice.pivot.dim :=
    (hdim row (List.mem_cons_of_mem _ hrow)).trans (hdim _ List.mem_cons_self).symm
  apply Vec.ext_values
  · rw [dim_clear (by rw [hpivot, dim_pivotRow]), dim_clear (by rw [hpivot, dim_pivotRow])]
  · intro j _
    rw [values_clear_of_mem_others hdim inverse hrow, values_clear_of_mem_others hdim inverse hrow]

/-- A run that does not scale the pivot rows is matched, on the same rows, by one that does. -/
theorem Run.exists_normalizes {n columns rank} {rows : List (Vec Fraction)}
    {r : Reduction Fraction} (run : Run false columns rank rows r) (hdim : Uniform n rows) :
    ∃ s, Run true columns rank rows s ∧ Normalizes r s := by
  induction run with
  | finished => exact ⟨_, Run.finished, ⟨rfl, rfl, rfl, rfl⟩⟩
  | exhausted => exact ⟨_, Run.exhausted, ⟨rfl, rfl, rfl, rfl⟩⟩
  | skipped hne hnone run ih =>
      obtain ⟨s, hs, hrank, hevents, hrest, hpivots⟩ := ih hdim
      exact ⟨_, Run.skipped hne hnone hs,
        ⟨hrank, congrArg (List.cons _) hevents, hrest, hpivots⟩⟩
  | failed hchoice hinv run ih => exact absurd hinv (inv?_ne_error invertsNonzero_fraction hchoice)
  | @eliminated column columns rank rows choice inverse tail hchoice hinv run ih =>
      have hall := hdim.perm (PivotChoice.perm_of_first? hchoice)
      obtain ⟨s, hs, hrank, hevents, hrest, hpivots⟩ := ih hall.cleared
      rw [← cleared_normalize hall] at hs
      have hpivot := Vec.divScalar?_eq_scale hinv choice.pivot
      exact ⟨_, Run.eliminated hchoice hinv hs,
        ⟨congrArg (· + 1) hrank, congrArg (List.cons _) hevents, hrest,
          congrArg₂ List.cons hpivot.symm hpivots⟩⟩

end Reduction

namespace Mat

open Reduction

/-- The reduction of a matrix to unit pivots is its reduction without scaled pivots, up to the
scale of the pivot rows. -/
theorem normalizes_reduce (a : Mat Fraction) (columns : ℕ) :
    Normalizes (a.reduce columns false) (a.reduce columns true) := by
  obtain ⟨s, run, h⟩ := (a.run_reduce columns false).exists_normalizes a.dim_row
  rw [(a.run_reduce columns true).eq_ofRows, ← run.eq_ofRows]
  exact h

end Mat

end RowReduction

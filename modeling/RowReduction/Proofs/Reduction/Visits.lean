import RowReduction.Proofs.Reduction.Run
import Mathlib.Data.Nat.Init

/-!
# The visits of a reduction

A reduction goes through its columns one after the other, and as long as some row
is left it visits them. If every value that does not count as zero has an
inverse, a visit ends in one of two ways: no row can be the pivot, or the column
is cleared below the first row that can.

## Implementation notes

Before a column is visited, the rows are those that the reduction in the columns
before it leaves. The steps of a reduction are therefore its reductions in more
and more columns.
-/

namespace RowReduction

namespace Reduction

variable {α : Type} [Scalar α]

/-- A visit of a column. Either no row can be its pivot, or the first row that can be is set aside
with a pivot that has an inverse, and the column is cleared. There is no other way. -/
inductive Visit (normalize : Bool) (column : ℕ) : Reduction α → Reduction α → Prop
  | skipped {r : Reduction α}
      (hnone : PivotChoice.first? (isPivot column) r.rest = none) :
      Visit normalize column r ⟨r.pivots, r.rest, r.events ++ [.skipped column]⟩
  | eliminated {r : Reduction α} {choice : PivotChoice (Vec α)} {inverse : α}
      (hchoice : PivotChoice.first? (isPivot column) r.rest = some choice)
      (hinv : Scalar.inv? (choice.pivot.entry column) = .ok inverse) :
      Visit normalize column r
        ⟨r.pivots ++ [pivotRow normalize inverse choice.pivot],
          cleared normalize column inverse choice,
          r.events ++ [.eliminated column (r.rank + choice.offset) r.rank]⟩

end Reduction

namespace Mat

open Reduction

variable {α : Type} [Scalar α] (a : Mat α) (normalize : Bool) {j columns : ℕ}

theorem reduce_zero : a.reduce 0 normalize = ⟨[], a.rows, []⟩ := by
  rw [reduce, Nat.zero_min, List.range_zero, ofRows]

theorem reduce_min (columns : ℕ) :
    a.reduce (min columns a.ncols) normalize = a.reduce columns normalize := by
  rw [reduce, Nat.min_assoc, Nat.min_self, reduce]

/-- Fewer pivots than rows means that some row is left. -/
theorem rank_reduce_lt_nrows_iff (columns : ℕ) :
    (a.reduce columns normalize).rank < a.nrows ↔ (a.reduce columns normalize).rest ≠ [] := by
  have hlength := (a.run_reduce columns normalize).length_eq
  rw [← List.length_pos_iff, nrows]
  omega

/-- One more column is a reduction, in this column alone, of the rows that are left. -/
theorem exists_run_column (hj : j < a.ncols) :
    ∃ s, Run normalize [j] (a.reduce j normalize).rank (a.reduce j normalize).rest s ∧
      a.reduce (j + 1) normalize =
        ⟨(a.reduce j normalize).pivots ++ s.pivots, s.rest,
          (a.reduce j normalize).events ++ s.events⟩ := by
  have run := a.run_reduce j normalize
  rw [Nat.min_eq_left (Nat.le_of_lt hj)] at run
  obtain ⟨s, next⟩ : ∃ s,
      Run normalize [j] (a.reduce j normalize).rank (a.reduce j normalize).rest s :=
    ⟨_, run_ofRows ..⟩
  refine ⟨s, next, ?_⟩
  rw [← Nat.zero_add (a.reduce j normalize).rank] at next
  have both := run.append next
  rw [← List.range_succ] at both
  rw [reduce, Nat.min_eq_left hj, ← both.eq_ofRows]

/-- The events of the first columns stand at the beginning of the report. -/
theorem events_reduce_prefix (hle : j ≤ columns) (hcolumns : columns ≤ a.ncols) :
    (a.reduce j normalize).events <+: (a.reduce columns normalize).events := by
  induction columns, hle using Nat.le_induction with
  | base => exact List.prefix_refl _
  | succ column hle ih =>
      obtain ⟨s, -, hreduce⟩ := a.exists_run_column normalize hcolumns
      rw [hreduce]
      exact (ih (Nat.le_of_succ_le hcolumns)).trans (List.prefix_append ..)

variable {a normalize}

/-- Once every row has a pivot, no more column changes anything. -/
theorem reduce_of_rest_eq_nil (hrest : (a.reduce j normalize).rest = []) (hle : j ≤ columns)
    (hcolumns : columns ≤ a.ncols) : a.reduce columns normalize = a.reduce j normalize := by
  induction columns, hle using Nat.le_induction with
  | base => rfl
  | succ column hle ih =>
      obtain ⟨s, run, hreduce⟩ := a.exists_run_column normalize hcolumns
      rw [ih (Nat.le_of_succ_le hcolumns)] at run hreduce
      rw [hreduce]
      generalize a.reduce j normalize = r at run hrest
      obtain ⟨pivots, rest, events⟩ := r
      subst hrest
      cases run with
      | exhausted => simp
      | skipped hne => exact absurd rfl hne
      | failed hchoice => exact absurd rfl (PivotChoice.ne_nil_of_first? hchoice)
      | eliminated hchoice => exact absurd rfl (PivotChoice.ne_nil_of_first? hchoice)

/-- While rows are left, one more column is one more visit. -/
theorem visit_reduce (hinverts : InvertsNonzero α) (hj : j < a.ncols)
    (hrest : (a.reduce j normalize).rest ≠ []) :
    Visit normalize j (a.reduce j normalize) (a.reduce (j + 1) normalize) := by
  obtain ⟨s, run, hreduce⟩ := a.exists_run_column normalize hj
  rw [hreduce]
  generalize a.reduce j normalize = r at run hrest ⊢
  generalize hrows : r.rest = rows at run
  cases run with
  | exhausted => exact absurd hrows hrest
  | skipped hne hnone run =>
      cases run with
      | finished =>
          subst hrows
          simpa using Visit.skipped hnone
  | failed hchoice hinv run => exact absurd hinv (inv?_ne_error hinverts hchoice)
  | eliminated hchoice hinv run =>
      cases run with
      | finished => exact Visit.eliminated (hrows ▸ hchoice) hinv

end Mat

end RowReduction

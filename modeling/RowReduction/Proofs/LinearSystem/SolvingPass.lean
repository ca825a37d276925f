import RowReduction.Proofs.LinearSystem.BackSubstitution
import RowReduction.Proofs.Reduction.Normalization

/-!
# The solving pass

A system with one solution is reduced twice in the columns of its variables:
once without its constants and without scaled pivots, to classify it, and once
with both, to solve it. The two reductions choose the same pivots, so the log
of a system that has not been solved before reports the first one a second
time.
-/

namespace RowReduction.LinearSystem

open Reduction

/-- The solving pass reports what the rank of the coefficients reports. -/
theorem events_normalizedReduction (s : LinearSystem Fraction) :
    s.normalizedReduction.events = s.coefficients.echelon.events := by
  rw [s.normalizedReduction_agrees.1]
  exact (s.coefficients.normalizes_reduce s.coefficients.ncols).events

/-- The log of a system with one solution that has not been solved before. -/
theorem solveLog_of_unique {s : LinearSystem Fraction} (hnew : s.outcome = none)
    (htype : s.computeStats.solutionType = .unique) :
    s.solveLog = .solving s.equations s.unknowns ::
      ((s.coefficients.echelon.events ++ s.augmented.echelon.events).map LogEntry.reduced ++
        .classified s.computeStats :: s.coefficients.echelon.events.map LogEntry.reduced) := by
  obtain ⟨x, hsolutions, -, -, -, hcandidate⟩ := candidate?_of_unique htype
  have hx : x ∈ s.solutions := (hsolutions x).mpr rfl
  rw [solveLog, settle, hnew]
  simp only [resolve, if_pos htype, solveUnique_of_candidate hcandidate hx,
    events_normalizedReduction, List.append_assoc, List.singleton_append]

/-- Scaling the pivot rows changes neither the number of pivots nor the report nor the rows
without a pivot, and it divides each row with a pivot by that pivot. The solving pass of a system
with one solution that has not been solved before therefore reports, entry by entry, what the rank
of the coefficients reports. -/
theorem normalized_pass_agrees :
    (∀ (a : Mat Fraction) (columns : ℕ),
      let plain := a.reduce columns false
      let unit := a.reduce columns true
      unit.rank = plain.rank ∧ unit.events = plain.events ∧
      (∀ i, plain.rank ≤ i → unit.rows[i]? = plain.rows[i]?) ∧
      ∀ i < plain.rank, ∃ column p q, plain.pivotColumns[i]? = some column ∧
        plain.rows[i]? = some p ∧ unit.rows[i]? = some q ∧
        p.divScalar? (p.entry column) = .ok q) ∧
    (∀ s : LinearSystem Fraction, s.outcome = none → s.solve.solutionType? = some .unique →
      s.normalizedReduction.events = s.coefficients.echelon.events ∧
      s.solveLog = .solving s.equations s.unknowns ::
        ((s.coefficients.echelon.events ++ s.augmented.echelon.events).map LogEntry.reduced ++
          .classified s.computeStats ::
            s.coefficients.echelon.events.map LogEntry.reduced)) := by
  constructor
  · intro a columns
    have h := a.normalizes_reduce columns
    exact ⟨h.rank, h.events, fun i => h.rows_of_rank_le, fun i => h.rows_of_lt_rank⟩
  · intro s hnew htype
    have hreachable : s.Reachable := Reachable.make (make?_eq_ok_iff.mpr ⟨rfl, rfl, hnew⟩)
    rw [hreachable.solutionType?_solve, Option.some_inj] at htype
    exact ⟨s.events_normalizedReduction, solveLog_of_unique hnew htype⟩

/-- The equations `2 * i * x + 4 * y = 6 * i + 20` for `i` from zero to five. -/
def stretchedPoints : LinearSystem Fraction where
  coefficients := Mat.ofFn 6 2 (Nat.succ_pos 5) Nat.two_pos fun i j =>
    Fraction.ofInt (if j = 0 then 2 * i else 4)
  constants := Vec.ofFn 6 (Nat.succ_pos 5) fun i => Fraction.ofInt (6 * i + 20)
  dim_constants := rfl
  outcome := none

/-- The first two points change places, the others are left without a pivot, and the first pivot row
is divided by two. -/
theorem normalized_pass_agrees_stretchedPoints :
    stretchedPoints.outcome = none ∧ stretchedPoints.solve.solutionType? = some .unique ∧
    stretchedPoints.coefficients.echelon.events = [.eliminated 0 1 0, .eliminated 1 1 1] ∧
    stretchedPoints.normalizedReduction.events = stretchedPoints.coefficients.echelon.events ∧
    (stretchedPoints.coefficients.reduce 2 true).rows[2]? =
      (stretchedPoints.coefficients.reduce 2 false).rows[2]? ∧
    ∃ column p q, (stretchedPoints.coefficients.reduce 2 false).pivotColumns[0]? = some column ∧
      (stretchedPoints.coefficients.reduce 2 false).rows[0]? = some p ∧
      (stretchedPoints.coefficients.reduce 2 true).rows[0]? = some q ∧ q ≠ p ∧
      p.divScalar? (p.entry column) = .ok q := by
  obtain ⟨hmatrices, hsystems⟩ := normalized_pass_agrees
  obtain ⟨-, -, hrest, hpivots⟩ := hmatrices stretchedPoints.coefficients 2
  have htype : stretchedPoints.solve.solutionType? = some .unique := by decide
  have hrank : (stretchedPoints.coefficients.reduce 2 false).rank = 2 := by decide
  have hscaled : (stretchedPoints.coefficients.reduce 2 true).rows[0]? ≠
      (stretchedPoints.coefficients.reduce 2 false).rows[0]? := by decide
  obtain ⟨column, p, q, hcolumn, hp, hq, hdiv⟩ := hpivots 0 (by decide)
  refine ⟨rfl, htype, by decide, (hsystems stretchedPoints rfl htype).1,
    hrest 2 (Nat.le_of_eq hrank), column, p, q, hcolumn, hp, hq, ?_, hdiv⟩
  rintro rfl
  exact hscaled (hq.trans hp.symm)

end RowReduction.LinearSystem

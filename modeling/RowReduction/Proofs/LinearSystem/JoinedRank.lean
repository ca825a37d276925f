import RowReduction.Fraction.Scalar
import RowReduction.Proofs.LinearSystem.Reachable
import RowReduction.Proofs.Reduction.Widening

/-!
# The rank of the joined matrix

The reduction of a matrix joined with a column begins with the reduction of the
matrix, and goes on with the last column. Its rank is the rank of the matrix or
one more, so a system has no more pivots in its coefficients than in its joined
matrix. The scalars need not obey any law.
-/

namespace RowReduction

namespace Mat

variable {α : Type} [Scalar α]

/-- The reduction of the second matrix begins with that of the first and finds at most one pivot
more. -/
structure ExtendsReduction (a c : Mat α) : Prop where
  rank_le : a.rank ≤ c.rank
  rank_le_succ : c.rank ≤ a.rank + 1
  events_prefix : a.echelon.events <+: c.echelon.events

/-- The reduction of the joined matrix goes on where that of the matrix ends. -/
theorem extendsReduction_augment (a : Mat α) (b : Vec α) (h : b.dim = a.nrows) :
    a.ExtendsReduction (a.augment b) := by
  obtain ⟨s, run, hevents, hrank⟩ := a.exists_run_augment b h false
  let t := Reduction.ofRows false [a.ncols] (0 + s.rank) s.rest
  have hlast : Reduction.Run false [a.ncols] (0 + s.rank) s.rest t := Reduction.run_ofRows ..
  have hjoined : (a.augment b).echelon =
      ⟨s.pivots ++ t.pivots, t.rest, s.events ++ t.events⟩ := by
    rw [(run.append hlast).eq_ofRows, ← List.range_succ, echelon, reduce, Nat.min_self]
    rfl
  have hsum : (a.augment b).rank = a.rank + t.rank := by
    rw [rank, hjoined, rank, echelon, ← hrank]
    exact List.length_append
  have ht : t.rank ≤ 1 := hlast.rank_le
  constructor
  · omega
  · omega
  · rw [hjoined, echelon, ← hevents]
    exact List.prefix_append _ _

end Mat

namespace Stats

/-- The constants do not lower the rank, and infinitely many solutions mean that they do not raise
it either and that some variable has no pivot. -/
def Coherent (st : Stats) : Prop :=
  st.rank ≤ st.augmentedRank ∧
    (st.solutionType = .infinite →
      st.rank = st.augmentedRank ∧ st.augmentedRank < st.unknowns)

theorem coherent_of_le {st : Stats} (hle : st.rank ≤ st.augmentedRank)
    (hunknowns : st.rank ≤ st.unknowns) : st.Coherent := by
  constructor
  · exact hle
  · intro h
    unfold solutionType at h
    split at h
    · cases h
    · split at h
      · cases h
      · omega

end Stats

namespace LinearSystem

variable {α : Type} [Scalar α]

/-- The computed ranks of every system are coherent. -/
theorem coherent_computeStats (s : LinearSystem α) : s.computeStats.Coherent := by
  apply Stats.coherent_of_le
  · exact (s.coefficients.extendsReduction_augment s.constants s.dim_constants).rank_le
  · exact (Nat.le_min.mp s.coefficients.rank_le_min).2

/-- The rank is bounded by the shape, joining a column extends the reduction and raises the rank
by one at most, and so the ranks that systems know or report are coherent. -/
theorem joined_rank_bounds :
    (∀ (a : Mat α) (b : Vec α), b.dim = a.nrows →
      a.rank ≤ min a.nrows a.ncols ∧
      (∃ c, a.augment? b = .ok c ∧ a.ExtendsReduction c) ∧
      (∃ s, make? a b = .ok s ∧ a.ExtendsReduction s.augmented)) ∧
    (∀ s : LinearSystem α, s.Reachable →
      (∀ st, s.stats? = some st → st.Coherent) ∧
      (s.analyze = .infinite ∨ s.solve.solutionType? = some .infinite →
        s.coefficients.rank = s.augmented.rank ∧ s.augmented.rank < s.unknowns)) ∧
    (∀ (solver : Solver α) (a : Mat α) (b place : Vec α) (st : Stats),
      (solver.solve a b place).result = .ok st → st.Coherent) := by
  refine ⟨?_, ?_, ?_⟩
  · intro a b h
    refine ⟨a.rank_le_min, ⟨a.augment b, if_pos h, a.extendsReduction_augment b h⟩, ?_⟩
    exact ⟨_, make?_eq_ok a b h, a.extendsReduction_augment b h⟩
  · intro s hs
    have hcoherent := s.coherent_computeStats
    refine ⟨fun st hst => hs.eq_computeStats hst ▸ hcoherent, fun h => ?_⟩
    rw [hs.analyze_eq, hs.solutionType?_solve, Option.some_inj, or_self] at h
    exact hcoherent.2 h
  · intro solver a b place st h
    by_cases hb : b.dim = a.nrows
    · by_cases hplace : place.dim = a.ncols
      · rw [solver.solve_eq a b place hb hplace] at h
        cases h
        exact coherent_computeStats _
      · rw [Solver.solve, dif_pos hb, if_neg hplace] at h
        cases h
    · rw [Solver.solve, dif_neg hb] at h
      cases h

/-- Five multiples of one equation in four variables. -/
def repeatedEquation : LinearSystem Fraction where
  coefficients := Mat.ofFn 5 4 (Nat.succ_pos 4) (Nat.succ_pos 3) fun i j =>
    Fraction.ofInt ((i + 1) * (j + 1))
  constants := Vec.ofFn 5 (Nat.succ_pos 4) fun i => Fraction.ofInt (3 * (i + 1))
  dim_constants := rfl
  outcome := none

theorem joined_rank_bounds_repeatedEquation :
    repeatedEquation.constants.dim = repeatedEquation.coefficients.nrows ∧
    repeatedEquation.coefficients.ExtendsReduction repeatedEquation.augmented ∧
    repeatedEquation.Reachable ∧
    repeatedEquation.solve.solutionType? = some .infinite ∧
    repeatedEquation.coefficients.rank = repeatedEquation.augmented.rank ∧
    repeatedEquation.augmented.rank < repeatedEquation.unknowns ∧
    (∃ st, repeatedEquation.solve.stats? = some st ∧ st.Coherent) ∧
    ∃ st, (Solver.fresh.solve repeatedEquation.coefficients repeatedEquation.constants
      (Vec.ofFn 4 (Nat.succ_pos 3) fun _ => 0)).result = .ok st ∧ st.Coherent := by
  obtain ⟨hmatrices, hsystems, hsolvers⟩ := joined_rank_bounds (α := Fraction)
  have hdim := repeatedEquation.dim_constants
  have hmake := make?_eq_ok repeatedEquation.coefficients repeatedEquation.constants hdim
  have hreachable : repeatedEquation.Reachable := Reachable.make hmake
  have htype : repeatedEquation.solve.solutionType? = some .infinite := by decide
  obtain ⟨-, -, s, hs, hextends⟩ :=
    hmatrices repeatedEquation.coefficients repeatedEquation.constants hdim
  obtain ⟨hranks, hlt⟩ := (hsystems _ hreachable).2 (Or.inr htype)
  cases hmake.symm.trans hs
  refine ⟨hdim, hextends, hreachable, htype, hranks, hlt, ⟨⟨1, 1, 4⟩, by decide, ?_⟩,
    ⟨⟨1, 1, 4⟩, by decide, ?_⟩⟩
  · exact (hsystems _ hreachable.solve).1 _ (by decide)
  · exact hsolvers Solver.fresh repeatedEquation.coefficients repeatedEquation.constants
      (Vec.ofFn 4 (Nat.succ_pos 3) fun _ => 0) _ (by decide)

end LinearSystem

end RowReduction

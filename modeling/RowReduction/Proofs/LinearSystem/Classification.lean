import RowReduction.Proofs.LinearSystem.JoinedRank
import RowReduction.Proofs.LinearSystem.Solutions
import RowReduction.Proofs.Mat.Rank

/-!
# The classification of systems of fractions

A system has a solution exactly if its constants lie in the span of the columns,
that is if they do not raise the rank. The solutions then differ by the vectors
that the matrix sends to zero, and only zero is sent to zero exactly if the rank
is the number of variables.
-/

namespace RowReduction

open Matrix

section Ranks

variable {m n : ℕ} {M : Matrix (Fin m) (Fin n) ℚ} {b : Fin m → ℚ}

/-- The equation of a matrix is solvable exactly if the right side joined as a last column does
not raise the rank. -/
theorem exists_mulVec_eq_iff_rank {N : Matrix (Fin m) (Fin (n + 1)) ℚ}
    (hcols : ∀ j : Fin n, N.col j.castSucc = M.col j) (hlast : N.col (Fin.last n) = b) :
    (∃ f, M *ᵥ f = b) ↔ N.rank = M.rank := by
  have hrange : Set.range N.col = insert b (Set.range M.col) := by
    ext c
    constructor
    · rintro ⟨j, rfl⟩
      induction j using Fin.lastCases with
      | last => exact Or.inl hlast
      | cast j => exact Or.inr ⟨j, (hcols j).symm⟩
    · rintro (rfl | ⟨j, rfl⟩)
      · exact ⟨Fin.last n, hlast⟩
      · exact ⟨j.castSucc, hcols j⟩
  have hspan : (∃ f, M *ᵥ f = b) ↔ b ∈ Submodule.span ℚ (Set.range M.col) := by
    rw [← Matrix.range_mulVecLin]
    rfl
  rw [hspan, Matrix.rank_eq_finrank_span_cols, Matrix.rank_eq_finrank_span_cols, hrange]
  constructor
  · intro h
    rw [Submodule.span_insert_eq_span h]
  · intro h
    have hle : Submodule.span ℚ (Set.range M.col) ≤
        Submodule.span ℚ (insert b (Set.range M.col)) :=
      Submodule.span_mono (Set.subset_insert b _)
    rw [Submodule.eq_of_le_of_finrank_eq hle h.symm]
    exact Submodule.subset_span (Set.mem_insert b _)

/-- The rank is the number of columns exactly if only zero is sent to zero. -/
theorem rank_eq_ncols_iff : M.rank = n ↔ ∀ f, M *ᵥ f = 0 → f = 0 := by
  have hsum := LinearMap.finrank_range_add_finrank_ker M.mulVecLin
  rw [Module.finrank_fin_fun] at hsum
  rw [← Matrix.ker_mulVecLin_eq_bot_iff, ← Submodule.finrank_eq_zero, Matrix.rank]
  omega

/-- A solution is the only one if the rank is the number of columns. -/
theorem eq_of_mulVec_eq (h : M.rank = n) {f g : Fin n → ℚ} (hf : M *ᵥ f = b)
    (hg : M *ᵥ g = b) : f = g := by
  apply sub_eq_zero.mp
  apply rank_eq_ncols_iff.mp h
  rw [Matrix.mulVec_sub, hf, hg, sub_self]

/-- A solution is one of infinitely many if the rank is another number. -/
theorem infinite_mulVec_eq (h : M.rank ≠ n) {f : Fin n → ℚ} (hf : M *ᵥ f = b) :
    {g | M *ᵥ g = b}.Infinite := by
  rw [ne_eq, rank_eq_ncols_iff] at h
  push Not at h
  obtain ⟨k, hk, hne⟩ := h
  refine Set.infinite_of_injective_forall_mem (f := fun t : ℚ => f + t • k) ?_ ?_
  · intro t u htu
    exact smul_left_injective ℚ hne (add_left_cancel htu)
  · intro t
    rw [Set.mem_ofPred_eq, Matrix.mulVec_add, Matrix.mulVec_smul, hf, hk, smul_zero, add_zero]

end Ranks

namespace SolutionType

variable {β : Type} {t : SolutionType} {S : Set β}

/-- The set has no, exactly one, or infinitely many elements, as the kind says. -/
def Describes : SolutionType → Set β → Prop
  | none, S => S = ∅
  | unique, S => ∃! x, x ∈ S
  | infinite, S => S.Infinite

theorem Describes.eq_none_iff (h : t.Describes S) : t = none ↔ S = ∅ := by
  cases t with
  | none => exact iff_of_true rfl h
  | unique =>
      obtain ⟨x, hx, -⟩ := h
      exact iff_of_false SolutionType.noConfusion (Set.nonempty_of_mem hx).ne_empty
  | infinite => exact iff_of_false SolutionType.noConfusion h.nonempty.ne_empty

theorem Describes.eq_unique_iff (h : t.Describes S) : t = unique ↔ ∃! x, x ∈ S := by
  cases t with
  | none =>
      apply iff_of_false SolutionType.noConfusion
      rintro ⟨x, hx, -⟩
      exact Set.notMem_empty x (h ▸ hx)
  | unique => exact iff_of_true rfl h
  | infinite =>
      apply iff_of_false SolutionType.noConfusion
      rintro ⟨x, hx, honly⟩
      exact h ((Set.finite_singleton x).subset honly)

/-- Two elements are enough to tell that there are infinitely many. -/
theorem Describes.eq_infinite_iff (h : t.Describes S) : t = infinite ↔ S.Nontrivial := by
  cases t with
  | none =>
      apply iff_of_false SolutionType.noConfusion
      intro hS
      exact hS.nonempty.ne_empty h
  | unique =>
      apply iff_of_false SolutionType.noConfusion
      rintro ⟨x, hx, y, hy, hne⟩
      exact hne (h.unique hx hy)
  | infinite => exact iff_of_true rfl h.nontrivial

end SolutionType

namespace Mat

theorem rank_joinedMatrix (a : Mat Fraction) (b : Vec Fraction) (h : b.dim = a.nrows) :
    (a.joinedMatrix b).rank = (a.augment b).rank := by
  rw [rank, echelon, rank_reduce]
  exact (Reduction.finrank_rowSpace_eq_rank _ (a.mem_rows_augment_iff b h)
    (a.augment b).dim_row).symm

end Mat

namespace LinearSystem

variable (s : LinearSystem Fraction)

/-- There is a solution exactly if the constants do not raise the rank. -/
theorem solutions_nonempty_iff :
    s.solutions.Nonempty ↔ s.augmented.rank = s.coefficients.rank := by
  have hrank := exists_mulVec_eq_iff_rank (s.coefficients.col_castSucc_joinedMatrix s.constants)
    (s.coefficients.col_last_joinedMatrix s.constants)
  rw [s.coefficients.rank_joinedMatrix _ s.dim_constants, s.coefficients.rank_toMatrix] at hrank
  rw [augmented, ← hrank]
  constructor
  · rintro ⟨x, hx⟩
    exact ⟨_, (mem_solutions_iff.mp hx).2⟩
  · rintro ⟨f, hf⟩
    obtain ⟨x, hx, -⟩ := s.bijOn_solutions.surjOn hf
    exact ⟨x, hx⟩

/-- The computed classification describes the solutions. -/
theorem describes_computeStats : s.computeStats.solutionType.Describes s.solutions := by
  have hle := (s.coefficients.extendsReduction_augment _ s.dim_constants).rank_le
  have hnonempty := s.solutions_nonempty_iff
  have hrank := s.coefficients.rank_toMatrix
  cases htype : s.computeStats.solutionType with
  | none =>
      have hlt : s.coefficients.rank < s.augmented.rank :=
        (Stats.solutionType_eq_none_iff _).mp htype
      apply Set.not_nonempty_iff_eq_empty.mp
      rw [hnonempty]
      exact Nat.ne_of_gt hlt
  | unique =>
      obtain ⟨hge, hfull⟩ := (Stats.solutionType_eq_unique_iff _).mp htype
      obtain ⟨x, hx⟩ := hnonempty.mpr (Nat.le_antisymm hge hle)
      refine ⟨x, hx, fun y hy => ?_⟩
      apply s.bijOn_solutions.injOn hy hx
      exact eq_of_mulVec_eq (hrank.trans hfull) (mem_solutions_iff.mp hy).2
        (mem_solutions_iff.mp hx).2
  | infinite =>
      have hnone : ¬ s.coefficients.rank < s.augmented.rank := by
        intro hlt
        rw [(Stats.solutionType_eq_none_iff _).mpr hlt] at htype
        cases htype
      have hge := Nat.le_of_not_lt hnone
      have hne : s.coefficients.rank ≠ s.unknowns := by
        intro hfull
        rw [(Stats.solutionType_eq_unique_iff _).mpr ⟨hge, hfull⟩] at htype
        cases htype
      obtain ⟨x, hx⟩ := hnonempty.mpr (Nat.le_antisymm hge hle)
      apply Set.Infinite.of_image (Vec.coords s.unknowns)
      rw [s.bijOn_solutions.image_eq]
      exact infinite_mulVec_eq (hrank ▸ hne) (mem_solutions_iff.mp hx).2

/-- The classification that solving a new system reports is the number of its solutions: none,
exactly one, or at least two and then infinitely many. -/
theorem solve_classifies_solutions (a : Mat Fraction) (b : Vec Fraction) (h : b.dim = a.nrows) :
    ∃ s, make? a b = .ok s ∧
      (∀ x, x ∈ s.solutions ↔ x.dim = a.ncols ∧
        a.toMatrix *ᵥ x.coords a.ncols = b.coords a.nrows) ∧
      (s.solve.solutionType? = some .none ↔ s.solutions = ∅) ∧
      (s.solve.solutionType? = some .unique ↔ ∃! x, x ∈ s.solutions) ∧
      (s.solve.solutionType? = some .infinite ↔ s.solutions.Nontrivial) ∧
      (s.solutions.Nontrivial → s.solutions.Infinite) := by
  have hmake := make?_eq_ok a b h
  have htype := (Reachable.make hmake).solutionType?_solve
  have hdescribes := describes_computeStats ⟨a, b, h, none⟩
  refine ⟨_, hmake, fun x => mem_solutions_iff, ?_, ?_, ?_, ?_⟩
  · rw [htype, Option.some_inj]
    exact hdescribes.eq_none_iff
  · rw [htype, Option.some_inj]
    exact hdescribes.eq_unique_iff
  · rw [htype, Option.some_inj]
    exact hdescribes.eq_infinite_iff
  · intro hnontrivial
    rw [hdescribes.eq_infinite_iff.mpr hnontrivial] at hdescribes
    exact hdescribes

theorem solve_classifies_repeatedEquation :
    repeatedEquation.constants.dim = repeatedEquation.coefficients.nrows ∧
    make? repeatedEquation.coefficients repeatedEquation.constants = .ok repeatedEquation ∧
    repeatedEquation.solve.solutionType? = some .infinite ∧
    repeatedEquation.solutions.Infinite := by
  have hdim := repeatedEquation.dim_constants
  obtain ⟨s, hmake, -, -, -, hinfinite, hmany⟩ :=
    solve_classifies_solutions repeatedEquation.coefficients repeatedEquation.constants hdim
  have htype : repeatedEquation.solve.solutionType? = some .infinite := by decide
  cases (make?_eq_ok repeatedEquation.coefficients _ hdim).symm.trans hmake
  exact ⟨hdim, hmake, htype, hmany (hinfinite.mp htype)⟩

end LinearSystem

end RowReduction

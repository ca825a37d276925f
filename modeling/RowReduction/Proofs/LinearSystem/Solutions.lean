import RowReduction.LinearSystem.Basic
import RowReduction.Proofs.Mat.Values
import RowReduction.Proofs.Reduction.RowSpace
import Mathlib.Algebra.Module.Submodule.Ker

/-!
# The solutions of a system of fractions

The vectors that pass the check of a system are the solutions of its equations
over the rational numbers. The equations are the rows of the joined matrix, and
they may be replaced by any rows with the same row space.
-/

namespace RowReduction

namespace Reduction

/-- The equations with the first entries of the rows as coefficients and the next as constants
hold. -/
def Solves (n : ℕ) (rows : List (Vec Fraction)) (f : ℕ → ℚ) : Prop :=
  ∀ r ∈ rows, ∑ j ∈ Finset.range n, r.values j * f j = r.values n

/-- What the left side of the equation of a row exceeds the right side by. -/
def excess (n : ℕ) (f : ℕ → ℚ) : (ℕ → ℚ) →ₗ[ℚ] ℚ where
  toFun q := ∑ j ∈ Finset.range n, q j * f j - q n
  map_add' p q := by
    simp only [Pi.add_apply, add_mul, Finset.sum_add_distrib]
    ring
  map_smul' c q := by
    simp only [Pi.smul_apply, smul_eq_mul, mul_assoc, ← Finset.mul_sum, RingHom.id_apply]
    ring

theorem solves_iff_rowSpace_le {n : ℕ} {rows : List (Vec Fraction)} {f : ℕ → ℚ} :
    Solves n rows f ↔ rowSpace rows ≤ LinearMap.ker (excess n f) := by
  rw [rowSpace_le_iff]
  exact forall₂_congr fun r _ => sub_eq_zero.symm

/-- The solutions depend on the row space only. -/
theorem solves_congr {n : ℕ} {rows rows' : List (Vec Fraction)} {f : ℕ → ℚ}
    (h : rowSpace rows = rowSpace rows') : Solves n rows f ↔ Solves n rows' f := by
  rw [solves_iff_rowSpace_le, solves_iff_rowSpace_le, h]

end Reduction

namespace LinearSystem

open Matrix

/-- The vectors that pass the check of the system. -/
def solutions {α : Type} [Scalar α] (s : LinearSystem α) : Set (Vec α) :=
  {x | s.verify x = true}

/-- A vector passes the check exactly if it has the right dimension and the product is the
constants. -/
theorem verify_eq_true_iff (s : LinearSystem Fraction) (x : Vec Fraction) :
    s.verify x = true ↔ x.dim = s.unknowns ∧ s.coefficients.mulVec x = s.constants := by
  unfold verify Mat.mulVec? unknowns
  by_cases hx : x.dim = s.coefficients.ncols
  · rw [if_pos hx.symm]
    refine Iff.trans ?_ (and_iff_right hx).symm
    rw [Vec.ext_iff]
    exact beq_iff_eq (α := List Fraction)
  · rw [if_neg (Ne.symm hx)]
    simp [hx]

/-- The product of the coefficients with a solution is the constants. -/
theorem mulVec?_of_mem_solutions {s : LinearSystem Fraction} {x : Vec Fraction}
    (h : x ∈ s.solutions) : s.coefficients.mulVec? x = .ok s.constants := by
  obtain ⟨hdim, hproduct⟩ := (s.verify_eq_true_iff x).mp h
  have hcols : s.coefficients.ncols = x.dim := hdim.symm
  rw [Mat.mulVec?, if_pos hcols, hproduct]

theorem mem_solutions_iff {s : LinearSystem Fraction} {x : Vec Fraction} :
    x ∈ s.solutions ↔ x.dim = s.unknowns ∧
      s.coefficients.toMatrix *ᵥ x.coords s.unknowns = s.constants.coords s.equations :=
  (s.verify_eq_true_iff x).trans
    (and_congr_right fun hx => s.coefficients.mulVec_eq_iff hx s.dim_constants)

/-- The solutions are the solutions of the equation over the rational numbers. -/
theorem bijOn_solutions (s : LinearSystem Fraction) :
    Set.BijOn (Vec.coords s.unknowns) s.solutions
      {f | s.coefficients.toMatrix *ᵥ f = s.constants.coords s.equations} := by
  have hcoords := Vec.bijOn_coords s.coefficients.ncols_pos
  refine ⟨fun x hx => (mem_solutions_iff.mp hx).2, ?_, ?_⟩
  · intro x hx y hy h
    exact hcoords.injOn (mem_solutions_iff.mp hx).1 (mem_solutions_iff.mp hy).1 h
  · intro f hf
    obtain ⟨x, hx, rfl⟩ := hcoords.surjOn (Set.mem_univ f)
    exact ⟨x, mem_solutions_iff.mpr ⟨hx, hf⟩, rfl⟩

/-- The solutions are the solutions of the equations that the rows of the joined matrix hold. -/
theorem mem_solutions_iff_solves {s : LinearSystem Fraction} {x : Vec Fraction} :
    x ∈ s.solutions ↔
      x.dim = s.unknowns ∧ Reduction.Solves s.unknowns s.augmented.rows x.values := by
  rw [mem_solutions_iff]
  apply and_congr_right
  intro hx
  have hrow : ∀ i : Fin s.coefficients.nrows,
      (∑ j ∈ Finset.range s.unknowns,
          ((s.coefficients.row i).push (s.constants.entry i)).values j * x.values j =
        ((s.coefficients.row i).push (s.constants.entry i)).values s.unknowns) ↔
      (s.coefficients.toMatrix *ᵥ x.coords s.unknowns) i = s.constants.coords s.equations i := by
    intro i
    have hlast := congrFun (s.coefficients.col_last_joinedMatrix s.constants) i
    have hcols := fun j => congrFun (s.coefficients.col_castSucc_joinedMatrix s.constants j) i
    rw [← Fin.sum_univ_eq_sum_range
      (fun j => ((s.coefficients.row i).push (s.constants.entry i)).values j * x.values j)]
    refine Eq.congr ?_ hlast
    exact Finset.sum_congr rfl fun j _ => congrArg (· * x.values j) (hcols j)
  constructor
  · intro h r hr
    obtain ⟨i, rfl⟩ := (s.coefficients.mem_rows_augment_iff _ s.dim_constants r).mp hr
    exact (hrow i).mpr (congrFun h i)
  · intro h
    ext i
    apply (hrow i).mp
    exact h _ ((s.coefficients.mem_rows_augment_iff _ s.dim_constants _).mpr ⟨i, rfl⟩)

end LinearSystem

end RowReduction

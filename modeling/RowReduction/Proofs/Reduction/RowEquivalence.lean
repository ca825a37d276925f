import RowReduction.Proofs.Reduction.RowSpace
import Mathlib.LinearAlgebra.Matrix.Module
import Mathlib.LinearAlgebra.Matrix.Swap

/-!
# Row equivalence under reduction

Two lists of vectors are row equivalent if an invertible matrix takes one to the
other. A rearrangement is one, and so is a step that scales the first vector by
a number other than zero and takes multiples of it from the vectors behind it.
A reduction makes such steps only, so that it is the product with an invertible
matrix.
-/

namespace RowReduction.Reduction

open scoped Matrix.Module

section Families

variable {V : Type} [AddCommGroup V] [Module ℚ V] {m : ℕ}

/-- A matrix with a first row and column around a matrix, and zeros behind the first entry. -/
def bordered (s : ℚ) (d : Fin m → ℚ) (E : Matrix (Fin m) (Fin m) ℚ) :
    Matrix (Fin (m + 1)) (Fin (m + 1)) ℚ :=
  Matrix.of (Fin.cons (Fin.cons s 0) fun i => Fin.cons (d i) (E i))

theorem det_bordered (s : ℚ) (d : Fin m → ℚ) (E : Matrix (Fin m) (Fin m) ℚ) :
    (bordered s d E).det = s * E.det := by
  have hminor : (bordered s d E).submatrix Fin.succ (Fin.succAbove 0) = E := by
    ext i j
    rfl
  have hfirst : bordered s d E 0 0 = s := rfl
  have hzero (j : Fin m) : bordered s d E 0 j.succ = 0 := rfl
  rw [Matrix.det_succ_row_zero, Fin.sum_univ_succ, hminor, hfirst]
  simp [hzero]

theorem isUnit_bordered {s : ℚ} (hs : s ≠ 0) (d : Fin m → ℚ) {E : Matrix (Fin m) (Fin m) ℚ}
    (hE : IsUnit E) : IsUnit (bordered s d E) := by
  rw [Matrix.isUnit_iff_isUnit_det] at hE ⊢
  rw [det_bordered]
  exact (IsUnit.mk0 s hs).mul hE

theorem bordered_smul_cons (s : ℚ) (d : Fin m → ℚ) (E : Matrix (Fin m) (Fin m) ℚ) (x : V)
    (v : Fin m → V) :
    bordered s d E • (Fin.cons x v : Fin (m + 1) → V) =
      Fin.cons (s • x) fun i => d i • x + (E • v) i := by
  ext i
  rw [Matrix.Module.smul_apply, Fin.sum_univ_succ]
  cases i using Fin.cases with
  | zero => simp [bordered]
  | succ i => simp [bordered]

theorem swap_smul (i j : Fin m) (v : Fin m → V) : Matrix.swap ℚ i j • v = v ∘ Equiv.swap i j := by
  ext k
  rw [Matrix.Module.smul_apply]
  simp [Matrix.swap, PEquiv.toMatrix_apply]

theorem isUnit_swap (i j : Fin m) : IsUnit (Matrix.swap ℚ i j) :=
  IsUnit.of_mul_eq_one _ (Matrix.swap_mul_self i j)

end Families

section Lists

variable {V : Type} [AddCommGroup V] [Module ℚ V] {x y : V} {xs ys zs : List V}

/-- An invertible matrix takes the first list of vectors to the second one. -/
def RowEquivalent (xs ys : List V) : Prop :=
  ∃ (m : ℕ) (v : Fin m → V) (E : Matrix (Fin m) (Fin m) ℚ),
    IsUnit E ∧ xs = List.ofFn v ∧ ys = List.ofFn (E • v)

omit [AddCommGroup V] [Module ℚ V] in
theorem exists_ofFn (xs : List V) : ∃ (m : ℕ) (v : Fin m → V), xs = List.ofFn v :=
  ⟨xs.length, xs.get, (List.ofFn_get xs).symm⟩

theorem RowEquivalent.refl (xs : List V) : RowEquivalent xs xs := by
  obtain ⟨m, v, rfl⟩ := exists_ofFn xs
  exact ⟨m, v, 1, isUnit_one, rfl, by rw [one_smul]⟩

theorem RowEquivalent.trans (h : RowEquivalent xs ys) (h' : RowEquivalent ys zs) :
    RowEquivalent xs zs := by
  obtain ⟨m, v, E, hE, rfl, rfl⟩ := h
  obtain ⟨n, w, F, hF, hw, rfl⟩ := h'
  obtain rfl : m = n := by simpa using congrArg List.length hw
  obtain rfl := List.ofFn_injective hw
  exact ⟨m, v, F * E, hF.mul hE, rfl, by rw [mul_smul]⟩

theorem RowEquivalent.cons (h : RowEquivalent xs ys) (x : V) :
    RowEquivalent (x :: xs) (x :: ys) := by
  obtain ⟨m, v, E, hE, rfl, rfl⟩ := h
  refine ⟨m + 1, Fin.cons x v, bordered 1 0 E, isUnit_bordered one_ne_zero 0 hE,
    (List.ofFn_cons ..).symm, ?_⟩
  simp only [bordered_smul_cons, List.ofFn_cons, one_smul, Pi.zero_apply, zero_smul, zero_add]

theorem rowEquivalent_swap (x y : V) (xs : List V) :
    RowEquivalent (x :: y :: xs) (y :: x :: xs) := by
  obtain ⟨m, v, rfl⟩ := exists_ofFn xs
  refine ⟨m + 2, Fin.cons x (Fin.cons y v), Matrix.swap ℚ 0 1, isUnit_swap 0 1, ?_, ?_⟩
  · rw [List.ofFn_cons, List.ofFn_cons]
  · have hswap : (Fin.cons x (Fin.cons y v) : Fin (m + 2) → V) ∘ Equiv.swap 0 1 =
        Fin.cons y (Fin.cons x v) := by
      ext i
      rw [Function.comp_apply]
      cases i using Fin.cases with
      | zero => rw [Equiv.swap_apply_left]; rfl
      | succ i =>
          cases i using Fin.cases with
          | zero => rw [Fin.succ_zero_eq_one, Equiv.swap_apply_right]; rfl
          | succ i =>
              rw [Equiv.swap_apply_of_ne_of_ne (Fin.succ_ne_zero _) (Fin.succ_succ_ne_one i)]
              rfl
    rw [swap_smul, hswap, List.ofFn_cons, List.ofFn_cons]

theorem RowEquivalent.of_perm (h : xs.Perm ys) : RowEquivalent xs ys := by
  induction h with
  | nil => exact .refl []
  | cons x h ih => exact ih.cons x
  | swap x y l => exact rowEquivalent_swap y x l
  | trans h h' ih ih' => exact ih.trans ih'

/-- The first vector is scaled, and multiples of it are taken from the others. -/
theorem rowEquivalent_clear {s : ℚ} (hs : s ≠ 0) (d : V → ℚ) (x : V) (xs : List V) :
    RowEquivalent (x :: xs) (s • x :: xs.map fun y => y - d y • x) := by
  obtain ⟨m, v, rfl⟩ := exists_ofFn xs
  refine ⟨m + 1, Fin.cons x v, bordered s (fun i => -d (v i)) 1, isUnit_bordered hs _ isUnit_one,
    (List.ofFn_cons ..).symm, ?_⟩
  have hothers : (fun y => y - d y • x) ∘ v = fun i => -d (v i) • x + v i := by
    ext i
    rw [Function.comp_apply, neg_smul, neg_add_eq_sub]
  rw [bordered_smul_cons, List.ofFn_cons, one_smul, List.map_ofFn, hothers]

end Lists

section Runs

variable {normalize : Bool} {n column : ℕ} {choice : PivotChoice (Vec Fraction)}

/-- Removing a column by multiples of the pivot is a row equivalence. -/
theorem rowEquivalent_cleared {inverse : Fraction} (hinv : inverse.value ≠ 0)
    (hdim : Uniform n (choice.pivot :: choice.others)) :
    RowEquivalent ((choice.pivot :: choice.others).map Vec.values)
      ((pivotRow normalize inverse choice.pivot ::
        cleared normalize column inverse choice).map Vec.values) := by
  have hothers : (cleared normalize column inverse choice).map Vec.values =
      (choice.others.map Vec.values).map
        fun y => y - (y column * inverse.value) • choice.pivot.values := by
    rw [cleared, List.map_map, List.map_map]
    exact List.map_congr_left fun s hs => values_clear_of_mem_others hdim inverse hs
  rw [List.map_cons, List.map_cons, values_pivotRow, hothers]
  exact rowEquivalent_clear (pivotFactor_ne_zero hinv) _ _ _

/-- A run takes its rows to the pivot rows and the rows that are left by an invertible matrix. -/
theorem Run.rowEquivalent {columns rank} {rows : List (Vec Fraction)} {r : Reduction Fraction}
    (run : Run normalize columns rank rows r) (hdim : Uniform n rows) :
    RowEquivalent (rows.map Vec.values) (r.rows.map Vec.values) := by
  induction run with
  | finished => exact .refl _
  | exhausted => exact .refl _
  | skipped hne hnone run ih => exact ih hdim
  | failed hchoice hinv run ih => exact absurd hinv (inv?_ne_error invertsNonzero_fraction hchoice)
  | @eliminated column columns rank rows choice inverse tail hchoice hinv run ih =>
      have hperm := PivotChoice.perm_of_first? hchoice
      have hall := hdim.perm hperm
      have hinverse : inverse.value ≠ 0 := by
        rw [value_inverse hchoice hinv]
        exact inv_ne_zero (values_pivot_ne_zero hchoice)
      have hchosen : RowEquivalent (rows.map Vec.values)
          ((choice.pivot :: choice.others).map Vec.values) :=
        .of_perm (hperm.symm.map Vec.values)
      exact (hchosen.trans (rowEquivalent_cleared hinverse hall)).trans ((ih hall.cleared).cons _)

end Runs

end RowReduction.Reduction

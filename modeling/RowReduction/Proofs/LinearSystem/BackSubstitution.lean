import RowReduction.Proofs.LinearSystem.Classification
import Mathlib.Algebra.BigOperators.Intervals

/-!
# Back substitution

If every variable has a pivot, the reduction of the joined matrix to unit pivots
leaves pivot rows in triangular form with ones on the diagonal. Back
substitution then divides by nothing but one, and finds the only values that
satisfy the pivot rows. A system with one solution is solved by them, so the
check of the found values never fails.
-/

namespace RowReduction

namespace Reduction

/-- Rows of `n` coefficients and a constant, from a column on, with a one in their columns and
zeros below. -/
inductive Triangular (n : ℕ) : ℕ → List (Vec Fraction) → Prop
  | nil : Triangular n n []
  | cons {i p pivots} (hone : p.values i = 1) (hzero : ∀ r ∈ pivots, r.values i = 0)
      (tail : Triangular n (i + 1) pivots) : Triangular n i (p :: pivots)

theorem Echelon.length_le {normalize : Bool} {columns pivots rest}
    (h : Echelon normalize columns pivots rest) : pivots.length ≤ columns.length := by
  induction h with
  | finished => exact Nat.zero_le _
  | skipped hzero tail ih => exact Nat.le_succ_of_le ih
  | pivot hpivot hone hzero tail ih => exact Nat.succ_le_succ ih

/-- An echelon form with as many unit pivots as columns has the pivots on the diagonal. -/
theorem Echelon.triangular {i k : ℕ} {pivots rest}
    (h : Echelon true (List.range' i k) pivots rest) (hlen : pivots.length = k) :
    Triangular (i + k) i pivots := by
  induction k generalizing i pivots with
  | zero =>
      rw [List.eq_nil_of_length_eq_zero hlen]
      exact Triangular.nil
  | succ k ih =>
      rw [List.range'_succ] at h
      cases h with
      | skipped hzero tail =>
          have hle := tail.length_le
          rw [List.length_range'] at hle
          omega
      | pivot hpivot hone hzero tail =>
          have hshift : i + (k + 1) = i + 1 + k := by omega
          rw [hshift]
          apply Triangular.cons
          · exact hone rfl
          · intro r hr
            exact hzero r (List.mem_append_left _ hr)
          · exact ih tail (Nat.succ.inj hlen)

theorem Triangular.add_length {n i : ℕ} {pivots : List (Vec Fraction)}
    (h : Triangular n i pivots) : i + pivots.length = n := by
  induction h with
  | nil => rfl
  | cons hone hzero tail ih =>
      rw [List.length_cons]
      omega

end Reduction

namespace LinearSystem

open Matrix Reduction Finset

/-- With a one as pivot, the value that substitution finds is the one that satisfies the row
together with the known values. -/
theorem substitute?_of_one {n i : ℕ} {row : Vec Fraction} {later : List Fraction}
    (hone : row.values i = 1) (hn : i + 1 + later.length = n) :
    ∃ v, substitute? n i row later = some v ∧
      ∀ f : ℕ → ℚ, (∀ t < later.length, f (i + 1 + t) = (later.getD t 0).value) →
        (∑ j ∈ Ico i n, row.values j * f j = row.values n ↔ f i = v.value) := by
  have hpivot : Scalar.isOne (row.entry i) = true :=
    Fraction.beq_iff_value.mpr (hone.trans Fraction.value_one.symm)
  refine ⟨_, if_pos hpivot, ?_⟩
  intro f hknown
  have hsum : ∑ j ∈ Ico (i + 1) n, row.values j * f j =
      (Scalar.weightedSum (row.toList.drop (i + 1)) later).value := by
    have hcount : n - (i + 1) = later.length := by omega
    rw [Vec.value_weightedSum, sum_Ico_eq_sum_range, hcount]
    apply sum_congr rfl
    intro t ht
    rw [hknown t (mem_range.mp ht)]
    simp only [List.getD_eq_getElem?_getD, List.getElem?_drop, Vec.values, Vec.entry]
  have hlt : i < n := by omega
  rw [sum_eq_sum_Ico_succ_bot hlt, hone, one_mul, hsum, Fraction.value_sub]
  exact eq_sub_iff_add_eq.symm

/-- Back substitution in a triangular form succeeds, and finds the only values that satisfy its
rows. -/
theorem backSubstitute?_of_triangular {n i : ℕ} {pivots : List (Vec Fraction)}
    (h : Triangular n i pivots) :
    ∃ xs, backSubstitute? n i pivots = some xs ∧ xs.length = pivots.length ∧
      ∀ f : ℕ → ℚ, (∀ r ∈ pivots, ∑ j ∈ Ico i n, r.values j * f j = r.values n) ↔
        ∀ t < xs.length, f (i + t) = (xs.getD t 0).value := by
  induction h with
  | nil => exact ⟨[], rfl, rfl, by simp⟩
  | @cons i p pivots hone hzero tail ih =>
      obtain ⟨later, hlater, hlen, hvalues⟩ := ih
      have hn : i + 1 + later.length = n := hlen ▸ tail.add_length
      have hlt : i < n := by omega
      obtain ⟨v, hv, hvalue⟩ := substitute?_of_one hone hn
      refine ⟨v :: later, ?_, congrArg Nat.succ hlen, ?_⟩
      · rw [backSubstitute?, hlater]
        simp [hv]
      · intro f
        have htail : (∀ r ∈ pivots, ∑ j ∈ Ico i n, r.values j * f j = r.values n) ↔
            ∀ t < later.length, f (i + 1 + t) = (later.getD t 0).value := by
          rw [← hvalues f]
          apply forall₂_congr
          intro r hr
          rw [sum_eq_sum_Ico_succ_bot hlt, hzero r hr, zero_mul, zero_add]
        have hfound : (∀ t < (v :: later).length, f (i + t) = ((v :: later).getD t 0).value) ↔
            f i = v.value ∧ ∀ t < later.length, f (i + 1 + t) = (later.getD t 0).value := by
          rw [List.length_cons, Nat.forall_lt_succ_left]
          apply and_congr Iff.rfl
          apply forall₂_congr
          intro t _
          rw [List.getD_cons_succ, ← Nat.add_assoc, Nat.add_right_comm]
        rw [List.forall_mem_cons, htail, hfound]
        apply and_congr_left
        exact hvalue f

/-- Back substitution finds every vector that satisfies the rows of a triangular form. -/
theorem backSubstitute?_eq_of_solves {n : ℕ} {pivots : List (Vec Fraction)} {x : Vec Fraction}
    (h : Triangular n 0 pivots) (hdim : x.dim = n) (hx : Solves n pivots x.values) :
    backSubstitute? n 0 pivots = some x.toList := by
  obtain ⟨xs, hxs, hlen, hvalues⟩ := backSubstitute?_of_triangular h
  have hpivots : pivots.length = n := (Nat.zero_add _).symm.trans h.add_length
  have hlist : xs = x.toList := by
    apply List.ext_getElem (hlen.trans (hpivots.trans hdim.symm))
    intro t ht ht'
    apply Fraction.value_injective
    rw [Solves, range_eq_Ico] at hx
    have hvalue := (hvalues x.values).mp hx t ht
    rw [Nat.zero_add, Vec.values_of_lt ht', List.getD_eq_getElem?_getD,
      List.getElem?_eq_getElem ht, Option.getD_some] at hvalue
    exact hvalue.symm
  rw [hxs, hlist]

theorem run_normalizedReduction {α : Type} [Scalar α] (s : LinearSystem α) :
    Run true (List.range s.unknowns) 0 s.augmented.rows s.normalizedReduction := by
  have run := s.augmented.run_reduce s.unknowns true
  have hmin : min s.unknowns s.augmented.ncols = s.unknowns := Nat.min_eq_left (Nat.le_succ _)
  rw [hmin] at run
  exact run

/-- The reduction of the joined matrix to unit pivots chooses its pivots as that of the coefficients
does. -/
theorem normalizedReduction_agrees {α : Type} [Scalar α] (s : LinearSystem α) :
    s.normalizedReduction.events = (s.coefficients.reduce s.coefficients.ncols true).events ∧
      s.normalizedReduction.rank = (s.coefficients.reduce s.coefficients.ncols true).rank := by
  obtain ⟨r, run, hevents, hrank⟩ :=
    s.coefficients.exists_run_augment s.constants s.dim_constants true
  have hsame : s.normalizedReduction = r :=
    s.run_normalizedReduction.eq_ofRows.trans run.eq_ofRows.symm
  rw [hsame]
  exact ⟨hevents, hrank⟩

/-- The reduction to unit pivots finds the rank of the coefficients. -/
theorem rank_normalizedReduction (s : LinearSystem Fraction) :
    s.normalizedReduction.rank = s.coefficients.rank := by
  rw [s.normalizedReduction_agrees.2, Mat.rank_reduce, Mat.rank, Mat.echelon, Mat.rank_reduce]

/-- If every variable has a pivot, the pivots are ones on the diagonal. -/
theorem triangular_normalizedReduction {s : LinearSystem Fraction}
    (hrank : s.normalizedReduction.rank = s.unknowns) :
    Triangular s.unknowns 0 s.normalizedReduction.pivots := by
  have hechelon := s.run_normalizedReduction.echelon s.augmented.dim_row
  rw [List.range_eq_range'] at hechelon
  have h := hechelon.triangular hrank
  rwa [Nat.zero_add] at h

/-- The pivots of a system with one solution are ones on the diagonal, and back substitution
finds the solution. -/
theorem candidate?_of_unique {s : LinearSystem Fraction}
    (htype : s.computeStats.solutionType = .unique) :
    ∃ x, (∀ y, y ∈ s.solutions ↔ y = x) ∧ s.normalizedReduction.rank = s.unknowns ∧
      Triangular s.unknowns 0 s.normalizedReduction.pivots ∧
      backSubstitute? s.unknowns 0 s.normalizedReduction.pivots = some x.toList ∧
      s.candidate? = some x := by
  have hrank : s.normalizedReduction.rank = s.unknowns :=
    s.rank_normalizedReduction.trans ((Stats.solutionType_eq_unique_iff _).mp htype).2
  have htriangular := triangular_normalizedReduction hrank
  -- The solution exists by the classification. It satisfies the pivot rows, so it is what back
  -- substitution finds, and the rows below need not be looked at.
  have hdescribes := s.describes_computeStats
  rw [htype] at hdescribes
  obtain ⟨x, hx, honly⟩ := hdescribes
  have hsolutions : ∀ y, y ∈ s.solutions ↔ y = x := fun y => ⟨honly y, fun h => h ▸ hx⟩
  obtain ⟨hdim, hsolves⟩ := mem_solutions_iff_solves.mp hx
  have hrows : Solves s.unknowns s.normalizedReduction.rows x.values :=
    (solves_congr (s.run_normalizedReduction.rowSpace_eq s.augmented.dim_row)).mpr hsolves
  have hback := backSubstitute?_eq_of_solves htriangular hdim
    fun r hr => hrows r (List.mem_append_left _ hr)
  refine ⟨x, hsolutions, hrank, htriangular, hback, ?_⟩
  simp only [candidate?, if_pos hrank, hback]
  exact congrArg Except.toOption x.ofList?_toList

/-- Solving a system with one solution finds the solution. -/
theorem solveUnique_of_candidate {s : LinearSystem Fraction} {x : Vec Fraction}
    (hcandidate : s.candidate? = some x) (hx : x ∈ s.solutions) (stats : Stats) :
    s.solveUnique stats =
      (⟨stats, some x⟩, s.normalizedReduction.events.map LogEntry.reduced) := by
  have hverify : s.verify x = true := hx
  simp only [solveUnique, hcandidate, if_pos hverify]

/-- Solving anew keeps the solution of a system with one solution. -/
theorem solution_resolve {s : LinearSystem Fraction}
    (htype : s.computeStats.solutionType = .unique) {x : Vec Fraction}
    (hcandidate : s.candidate? = some x) (hx : x ∈ s.solutions) :
    s.resolve.1.solution = some x := by
  simp only [resolve, if_pos htype, solveUnique_of_candidate hcandidate hx]

/-- Solving anew discards nothing. -/
theorem discarded_notMem_resolve (s : LinearSystem Fraction) (x : Vec Fraction) :
    LogEntry.discarded x ∉ s.resolve.2 := by
  by_cases htype : s.computeStats.solutionType = .unique
  · obtain ⟨y, hy, -, -, -, hcandidate⟩ := candidate?_of_unique htype
    simp [resolve, htype, solveUnique_of_candidate hcandidate ((hy y).mpr rfl)]
  · simp [resolve, htype]

/-- A system of fractions that is classified as uniquely solvable has, after solving, its only
solution, found by back substitution from unit pivots on the diagonal, and no found values are
ever discarded. -/
theorem solve_unique_exact {s : LinearSystem Fraction} (hs : s.Reachable) :
    (s.solve.solutionType? = some .unique →
      ∃ x, s.solve.solution? = some x ∧ x.dim = s.unknowns ∧
        (∀ f, s.coefficients.toMatrix *ᵥ f = s.constants.coords s.equations ↔
          f = x.coords s.unknowns) ∧
        (∀ y, s.solve.verify y = true ↔ y = x) ∧
        s.normalizedReduction.rank = s.unknowns ∧
        Triangular s.unknowns 0 s.normalizedReduction.pivots ∧
        backSubstitute? s.unknowns 0 s.normalizedReduction.pivots = some x.toList) ∧
    ∀ x, LogEntry.discarded x ∉ s.solveLog := by
  constructor
  · intro htype
    rw [hs.solutionType?_solve, Option.some_inj] at htype
    obtain ⟨x, hsolutions, hrank, htriangular, hback, hcandidate⟩ := candidate?_of_unique htype
    have hx : x ∈ s.solutions := (hsolutions x).mpr rfl
    obtain ⟨hdim, hequation⟩ := mem_solutions_iff.mp hx
    refine ⟨x, ?_, hdim, ?_, hsolutions, hrank, htriangular, hback⟩
    · rw [← solution_resolve htype hcandidate hx, ← hs.settle_fst]
      rfl
    · intro f
      constructor
      · intro hf
        obtain ⟨y, hy, rfl⟩ := s.bijOn_solutions.surjOn hf
        rw [(hsolutions y).mp hy]
      · rintro rfl
        exact hequation
  · intro x
    rw [solveLog, List.mem_cons, not_or]
    constructor
    · intro h
      cases h
    · rcases hs.outcome_cases with h | h
      · rw [settle, h]
        exact s.discarded_notMem_resolve x
      · rw [settle, h]
        exact List.not_mem_nil

/-- Three points of one line, the first of which leaves no pivot in its place. -/
def linePoints : LinearSystem Fraction where
  coefficients := Mat.ofFn 3 2 (Nat.succ_pos 2) (Nat.succ_pos 1) fun i j =>
    Fraction.ofInt (if j = 0 then i else 1)
  constants := Vec.ofFn 3 (Nat.succ_pos 2) fun i => Fraction.ofInt (3 * i + 5)
  dim_constants := rfl
  outcome := none

theorem solve_unique_exact_linePoints :
    linePoints.Reachable ∧ linePoints.solve.solutionType? = some .unique ∧
    linePoints.solve.solution? =
      some (Vec.ofFn 2 (Nat.succ_pos 1) fun j => Fraction.ofInt (if j = 0 then 3 else 5)) ∧
    ∃ x, linePoints.solve.solution? = some x ∧ ∀ y, linePoints.solve.verify y = true ↔ y = x := by
  have hreachable : linePoints.Reachable :=
    Reachable.make (make?_eq_ok linePoints.coefficients _ linePoints.dim_constants)
  have htype : linePoints.solve.solutionType? = some .unique := by decide
  obtain ⟨x, hx, -, -, hverify, -⟩ := (solve_unique_exact hreachable).1 htype
  exact ⟨hreachable, htype, by decide, x, hx, hverify⟩

end LinearSystem

end RowReduction

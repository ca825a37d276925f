import RowReduction.Proofs.LinearSystem.BackSubstitution
import RowReduction.Proofs.Mat.Representation
import RowReduction.Proofs.Shape.Table

/-!
# Sampled systems with one solution

The systems that are sampled to have one solution have five on the diagonal and
a half elsewhere. From eleven variables on the diagonal does not outweigh the
rest of a row. Still, only zero is sent to zero: the sum of all equations is a
multiple of the sum of the variables, which is therefore zero, and then every
equation is a multiple of a variable. So the matrix has full rank for every size,
and every square system of full rank has one solution, which solving finds.
-/

namespace RowReduction

namespace Sampler

variable {β γ : Type} {P : β → Prop}

/-- The choice succeeds from every source, with a value that has the property. -/
def AlwaysGives (P : β → Prop) (x : Sampler β) : Prop :=
  ∀ source, ∃ v source', x.run source = (.ok v, source') ∧ P v

theorem AlwaysGives.bind {Q : γ → Prop} {x : Sampler β} {f : β → Sampler γ}
    (hx : AlwaysGives P x) (hf : ∀ v, P v → AlwaysGives Q (f v)) : AlwaysGives Q (x >>= f) := by
  intro source
  obtain ⟨v, next, hv, hP⟩ := hx source
  obtain ⟨w, last, hw, hQ⟩ := hf v hP next
  refine ⟨w, last, ?_, hQ⟩
  rw [ExceptT.run_bind]
  simp only [Bind.bind, StateT.bind, hv]
  exact hw

theorem alwaysGives_of_eq_ok {x : Except Error β} {v : β} (h : x = .ok v) (hv : P v) :
    AlwaysGives P (liftM x : Sampler β) := by
  intro source
  exact ⟨v, source, by rw [h]; rfl, hv⟩

theorem alwaysGives_sample (x : StateM Source β) :
    AlwaysGives (fun _ => True) (liftM x : Sampler β) :=
  fun source => ⟨(x source).1, (x source).2, rfl, trivial⟩

/-- Choices made one after another are as many as they are asked for. -/
theorem alwaysGives_mapM {f : γ → Sampler β} (hf : ∀ c, AlwaysGives P (f c)) (cs : List γ) :
    AlwaysGives (fun vs => vs.length = cs.length) (cs.mapM f) := by
  induction cs with
  | nil => exact fun source => ⟨[], source, rfl, rfl⟩
  | cons c cs ih =>
      rw [List.mapM_cons]
      apply (hf c).bind
      intro v _
      apply ih.bind
      intro vs hvs source
      exact ⟨v :: vs, source, rfl, congrArg Nat.succ hvs⟩

end Sampler

/-- A random vector of a positive dimension has that dimension. -/
theorem Vec.alwaysGives_random? {α : Type} [Sampled α] {n : ℕ} (hn : 0 < n) (o : SampleOptions) :
    Sampler.AlwaysGives (fun v : Vec α => v.dim = n) (Vec.random? n o) := by
  apply (Sampler.alwaysGives_mapM
    (fun _ => Sampler.alwaysGives_sample (Sampled.unbounded o)) (List.range n)).bind
  intro xs hxs
  have hlen : xs.length = n := hxs.trans List.length_range
  have hne : xs ≠ [] := List.ne_nil_of_length_pos (hlen ▸ hn)
  exact Sampler.alwaysGives_of_eq_ok (Vec.ofList?_toList ⟨xs, hne⟩) hlen

namespace LinearSystem

open Matrix

/-- Solving finds full ranks, and it finds the only solution, which satisfies the equations. -/
structure SolvesUniquely (n : ℕ) (s : LinearSystem Fraction) : Prop where
  solutionType?_solve : s.solve.solutionType? = some .unique
  stats?_solve : s.solve.stats? = some ⟨n, n, n⟩
  solution?_solve : ∃ x, s.solve.solution? = some x ∧
    s.coefficients.mulVec? x = .ok s.constants ∧ ∀ y, s.verify y = true ↔ y = x

section FullRank

variable {n : ℕ} {s : LinearSystem Fraction} {M : Matrix (Fin n) (Fin n) ℚ}

/-- The constants do not raise a rank that is the number of equations. -/
theorem computeStats_of_rank (hM : s.coefficients.Represents M) (hrank : M.rank = n) :
    s.computeStats = ⟨n, n, n⟩ := by
  have hcoefficients : s.coefficients.rank = n := hM.rank_eq.trans hrank
  have hextends := s.coefficients.extendsReduction_augment s.constants s.dim_constants
  have hjoined : s.augmented.rank = n := by
    apply Nat.le_antisymm
    · have hrows : s.augmented.nrows = n := (Mat.nrows_augment s.dim_constants).trans hM.nrows_eq
      exact hrows ▸ (Nat.le_min.mp s.augmented.rank_le_min).1
    · exact hcoefficients ▸ hextends.rank_le
  simp only [computeStats, hcoefficients, hjoined, unknowns, hM.ncols_eq]

/-- A square system of full rank is solved uniquely, whatever its constants. -/
theorem solvesUniquely_of_rank (hs : s.Reachable) (hM : s.coefficients.Represents M)
    (hrank : M.rank = n) : s.SolvesUniquely n := by
  have hstats := computeStats_of_rank hM hrank
  have htype : s.computeStats.solutionType = .unique := by
    rw [hstats, Stats.solutionType_eq_unique_iff]
    exact ⟨le_rfl, rfl⟩
  obtain ⟨x, hsolutions, -, -, -, hcandidate⟩ := candidate?_of_unique htype
  have hx : x ∈ s.solutions := (hsolutions x).mpr rfl
  constructor
  · rw [hs.solutionType?_solve, htype]
  · rw [hs.stats?_solve, hstats]
  · refine ⟨x, ?_, mulVec?_of_mem_solutions hx, hsolutions⟩
    rw [hs.solution?_solve, solution_resolve htype hcandidate hx]

/-- The equations with the rows of a square matrix of full rank are solved uniquely, whatever the
constants. -/
theorem exists_ofEquations?_of_rank {a : Mat Fraction} {b : Vec Fraction} (ha : a.Represents M)
    (hrank : M.rank = n) (hb : b.dim = n) :
    ∃ s, ofEquations? a.rows b = .ok s ∧ s.coefficients = a ∧ s.constants = b ∧
      s.SolvesUniquely n := by
  have hdim : b.dim = a.nrows := hb.trans ha.nrows_eq.symm
  have hmake : ofEquations? a.rows b = .ok ⟨a, b, hdim, none⟩ := by
    rw [ofEquations?, Table.ofRows?_rows]
    exact make?_eq_ok a b hdim
  exact ⟨_, hmake, rfl, rfl, solvesUniquely_of_rank (Reachable.ofEquations hmake) ha hrank⟩

end FullRank

section Dominant

/-- The matrix with five on the diagonal and a half elsewhere. -/
def dominantMatrix (n : ℕ) : Matrix (Fin n) (Fin n) ℚ :=
  Matrix.of fun i j => if i = j then 5 else 1 / 2

variable {n : ℕ}

/-- A row adds a multiple of its variable to half the sum of all variables. -/
theorem dominantMatrix_mulVec (f : Fin n → ℚ) (i : Fin n) :
    (dominantMatrix n *ᵥ f) i = 9 / 2 * f i + 1 / 2 * ∑ j, f j := by
  have hentry : ∀ j, dominantMatrix n i j = (if i = j then 9 / 2 else 0) + 1 / 2 := by
    intro j
    by_cases hij : i = j
    · norm_num [dominantMatrix, hij]
    · simp [dominantMatrix, hij]
  simp only [Matrix.mulVec, dotProduct, hentry, add_mul, Finset.sum_add_distrib, ite_mul, zero_mul,
    Finset.sum_ite_eq, Finset.mem_univ, if_true, Finset.mul_sum]

/-- Only zero is sent to zero, so the rank is full. -/
theorem rank_dominantMatrix : (dominantMatrix n).rank = n := by
  apply rank_eq_ncols_iff.mpr
  intro f hf
  have hrow : ∀ i, 9 / 2 * f i + 1 / 2 * ∑ j, f j = 0 := by
    intro i
    rw [← dominantMatrix_mulVec, hf, Pi.zero_apply]
  -- All rows together give a positive multiple of the sum of the variables, for every size.
  have hsum : (9 / 2 + n / 2 : ℚ) * ∑ j, f j = 0 := by
    calc
      (9 / 2 + n / 2 : ℚ) * ∑ j, f j = ∑ i, (9 / 2 * f i + 1 / 2 * ∑ j, f j) := by
        rw [Finset.sum_add_distrib, ← Finset.mul_sum, Finset.sum_const, Finset.card_univ,
          Fintype.card_fin, nsmul_eq_mul]
        ring
      _ = 0 := Finset.sum_eq_zero fun i _ => hrow i
  have hpos : (0 : ℚ) < 9 / 2 + n / 2 :=
    add_pos_of_pos_of_nonneg (by norm_num) (div_nonneg n.cast_nonneg (by norm_num))
  have hzero : ∑ j, f j = 0 := (mul_eq_zero.mp hsum).resolve_left (ne_of_gt hpos)
  ext i
  have hi := hrow i
  rw [hzero, mul_zero, add_zero] at hi
  exact (mul_eq_zero.mp hi).resolve_left (by norm_num)

/-- The coefficients of the systems with one solution are the rows of a matrix of full rank. -/
theorem exists_dominant? (hn : 0 < n) :
    ∃ a : Mat Fraction, dominant? n = .ok a.rows ∧ a.Represents (dominantMatrix n) := by
  have htwo : (1 + 1 : Fraction).value = 2 := by
    rw [Fraction.value_add, Fraction.value_one]
    norm_num
  obtain ⟨half, hhalf, hvalue⟩ :=
    Fraction.div?_of_value_ne_zero 1 (htwo.trans_ne two_ne_zero)
  let entry : ℕ → ℕ → Fraction := fun i j => if i = j then 1 + 1 + (1 + 1) + 1 else half
  refine ⟨Mat.ofFn n n hn hn entry, ?_, ?_⟩
  · have hrows : ∀ i ∈ List.range n, Vec.ofFn? n (entry i) = pure (Vec.ofFn n hn (entry i)) :=
      fun i _ => dif_pos hn
    dsimp only [dominant?]
    rw [hhalf]
    exact mapM_eq_pure hrows
  · refine ⟨Mat.nrows_ofFn .., rfl, fun i j => ?_⟩
    rw [Mat.entry_ofFn hn hn _ i.isLt j.isLt]
    by_cases hij : i = j
    · norm_num [entry, dominantMatrix, hij]
    · have hval : (i : ℕ) ≠ j := fun h => hij (Fin.ext h)
      simp [entry, dominantMatrix, hij, hval, hvalue, htwo]

/-- The square systems with five on the diagonal and a half elsewhere are solved uniquely, whatever
their constants. So those with random constants are solved uniquely, whatever words the source
hands out. -/
theorem randomUnique_solves_uniquely (hn : 0 < n) :
    ∃ a : Mat Fraction, dominant? n = .ok a.rows ∧ a.Represents (dominantMatrix n) ∧
      (∀ b : Vec Fraction, b.dim = n → ∃ s, ofEquations? a.rows b = .ok s ∧ s.coefficients = a ∧
        s.constants = b ∧ s.SolvesUniquely n) ∧
      ∀ o, Sampler.AlwaysGives (fun s => s.coefficients = a ∧ s.SolvesUniquely n)
        (randomUnique? n o) := by
  obtain ⟨a, hrows, ha⟩ := exists_dominant? hn
  have hsystems := fun (b : Vec Fraction) (hb : b.dim = n) =>
    exists_ofEquations?_of_rank ha rank_dominantMatrix hb
  refine ⟨a, hrows, ha, hsystems, fun o => ?_⟩
  dsimp only [randomUnique?]
  rw [if_neg (Nat.ne_of_gt hn)]
  apply (Sampler.alwaysGives_of_eq_ok hrows (P := (· = a.rows)) rfl).bind
  rintro _ rfl
  apply (Vec.alwaysGives_random? hn o).bind
  intro b hb
  obtain ⟨s, hs, hcoefficients, -, hsolves⟩ := hsystems b hb
  exact Sampler.alwaysGives_of_eq_ok hs ⟨hcoefficients, hsolves⟩

/-- With eleven variables the diagonal no longer outweighs the rest of its row. -/
theorem randomUnique_solves_uniquely_eleven :
    0 < 11 ∧
    (∃ rows s x, dominant? 11 = .ok rows ∧
      ofEquations? rows (Vec.ofFn 11 (Nat.succ_pos 10) fun _ => Fraction.ofInt 10) = .ok s ∧
      s.solve.stats? = some ⟨11, 11, 11⟩ ∧ s.solve.solution? = some x) ∧
    ∃ s source, (randomUnique? 11 {}).run ⟨[], 0, 0⟩ = (.ok (s : LinearSystem Fraction), source) ∧
      s.solve.solutionType? = some .unique := by
  have hn : 0 < 11 := Nat.succ_pos 10
  obtain ⟨a, hrows, -, hsystems, hrandom⟩ := randomUnique_solves_uniquely hn
  obtain ⟨s, hs, -, -, hsolves⟩ :=
    hsystems (Vec.ofFn 11 (Nat.succ_pos 10) fun _ => Fraction.ofInt 10) (Vec.dim_ofFn ..)
  obtain ⟨x, hx, -⟩ := hsolves.solution?_solve
  obtain ⟨t, source, ht, -, hunique⟩ := hrandom {} ⟨[], 0, 0⟩
  exact ⟨hn, ⟨a.rows, s, x, hrows, hs, hsolves.stats?_solve, hx⟩,
    ⟨t, source, ht, hunique.solutionType?_solve⟩⟩

end Dominant

end LinearSystem

end RowReduction

import RowReduction.LinearSystem.Solver
import RowReduction.Sampling.LinearSystem

/-!
# The states of a system

A system is made unsolved and may then be solved, any number of times. In every
state that this reaches, an outcome that is known is the one that solving the
coefficients and constants anew would give, so the classification does not
depend on what was done before.
-/

namespace RowReduction

namespace Sampler

/-- A choice that succeeds after another one has been given the value of that one. -/
theorem exists_of_bind_eq_ok {β γ : Type} {x : Sampler β} {f : β → Sampler γ} {c : γ}
    {s t : Source} (h : (x >>= f).run s = (.ok c, t)) :
    ∃ b u, x.run s = (.ok b, u) ∧ (f b).run u = (.ok c, t) := by
  obtain ⟨r, u, hx⟩ : ∃ r u, x.run s = (r, u) := ⟨_, _, rfl⟩
  rw [ExceptT.run_bind] at h
  simp only [bind, StateT.bind, hx] at h
  cases r with
  | error e => cases h
  | ok b => exact ⟨b, u, hx, h⟩

end Sampler

namespace LinearSystem

section States

variable {α : Type} [Scalar α]

/-- The system is made from its parts and then solved any number of times. -/
inductive Reachable : LinearSystem α → Prop
  | make {a : Mat α} {b : Vec α} {s : LinearSystem α} (h : make? a b = .ok s) : Reachable s
  | solve {s : LinearSystem α} (h : Reachable s) : Reachable s.solve

omit [Scalar α] in
theorem make?_eq_ok (a : Mat α) (b : Vec α) (h : b.dim = a.nrows) :
    make? a b = .ok ⟨a, b, h, none⟩ := by
  rw [make?, dif_pos h]

omit [Scalar α] in
theorem make?_eq_ok_iff {a : Mat α} {b : Vec α} {s : LinearSystem α} :
    make? a b = .ok s ↔ s.coefficients = a ∧ s.constants = b ∧ s.outcome = none := by
  constructor
  · intro h
    rw [make?] at h
    split at h
    · cases h
      exact ⟨rfl, rfl, rfl⟩
    · cases h
  · rintro ⟨rfl, rfl, h⟩
    cases s
    cases h
    exact make?_eq_ok _ _ _

theorem Reachable.ofEquations {rows : List (Vec α)} {b : Vec α} {s : LinearSystem α}
    (h : ofEquations? rows b = .ok s) : s.Reachable := by
  rw [ofEquations?] at h
  cases hrows : Mat.ofRows? rows with
  | error e => rw [hrows] at h; cases h
  | ok a => rw [hrows] at h; exact Reachable.make h

theorem stats_solveUnique (s : LinearSystem α) (stats : Stats) :
    (s.solveUnique stats).1.stats = stats := by
  unfold solveUnique
  split
  · rfl
  · split <;> rfl

/-- Solving anew finds the computed ranks. -/
theorem stats_resolve (s : LinearSystem α) : s.resolve.1.stats = s.computeStats := by
  dsimp only [resolve]
  split
  · exact stats_solveUnique s _
  · rfl

/-- An outcome that is known is the outcome of solving the system anew. -/
theorem Reachable.outcome_cases {s : LinearSystem α} (h : s.Reachable) :
    s.outcome = none ∨ s.outcome = some s.resolve.1 := by
  induction h with
  | make h => exact Or.inl (make?_eq_ok_iff.mp h).2.2
  | @solve s h ih =>
      have hsettle : s.settle.1 = s.resolve.1 := by
        rcases ih with ih | ih <;> rw [settle, ih]
      exact Or.inr (congrArg some hsettle)

/-- Solving gives a reachable system the outcome of solving it anew. -/
theorem Reachable.settle_fst {s : LinearSystem α} (h : s.Reachable) :
    s.settle.1 = s.resolve.1 := by
  rcases h.outcome_cases with h | h <;> rw [settle, h]

/-- The ranks that a reachable system knows are the computed ones. -/
theorem Reachable.eq_computeStats {s : LinearSystem α} (h : s.Reachable) {st : Stats}
    (hst : s.stats? = some st) : st = s.computeStats := by
  rcases h.outcome_cases with h | h
  · rw [stats?, h] at hst
    cases hst
  · rw [stats?, h] at hst
    rw [← stats_resolve]
    exact (Option.some.inj hst).symm

theorem Reachable.stats?_solve {s : LinearSystem α} (h : s.Reachable) :
    s.solve.stats? = some s.computeStats := by
  rw [← stats_resolve, ← h.settle_fst]
  rfl

/-- Solving gives a reachable system the solution that solving it anew finds. -/
theorem Reachable.solution?_solve {s : LinearSystem α} (h : s.Reachable) :
    s.solve.solution? = s.resolve.1.solution := by
  rw [← h.settle_fst]
  rfl

/-- Solving gives a reachable system the computed classification. -/
theorem Reachable.solutionType?_solve {s : LinearSystem α} (h : s.Reachable) :
    s.solve.solutionType? = some s.computeStats.solutionType := by
  rw [solutionType?, h.stats?_solve]
  rfl

/-- The classification of a reachable system, known or not, is the computed one. -/
theorem Reachable.analyze_eq {s : LinearSystem α} (h : s.Reachable) :
    s.analyze = s.computeStats.solutionType := by
  rcases h.outcome_cases with h | h
  · rw [analyze, h]
  · rw [analyze, h, ← stats_resolve]

end States

section Samples

variable {α : Type} [Sampled α]

theorem Reachable.random {m n : Nat} {o : SampleOptions} {src src' : Source}
    {s : LinearSystem α} (h : (random? m n o).run src = (.ok s, src')) : s.Reachable := by
  dsimp only [random?] at h
  split at h
  · obtain ⟨_, _, hthrow, -⟩ := Sampler.exists_of_bind_eq_ok h
    cases hthrow
  · obtain ⟨rows, _, -, h⟩ := Sampler.exists_of_bind_eq_ok h
    obtain ⟨b, _, -, h⟩ := Sampler.exists_of_bind_eq_ok h
    exact Reachable.ofEquations (congrArg Prod.fst h)

theorem Reachable.randomUnique {n : Nat} {o : SampleOptions} {src src' : Source}
    {s : LinearSystem α} (h : (randomUnique? n o).run src = (.ok s, src')) : s.Reachable := by
  dsimp only [randomUnique?] at h
  split at h
  · obtain ⟨_, _, hthrow, -⟩ := Sampler.exists_of_bind_eq_ok h
    cases hthrow
  · obtain ⟨rows, _, -, h⟩ := Sampler.exists_of_bind_eq_ok h
    obtain ⟨b, _, -, h⟩ := Sampler.exists_of_bind_eq_ok h
    exact Reachable.ofEquations (congrArg Prod.fst h)

end Samples

end LinearSystem

namespace Solver

variable {α : Type} [Scalar α]

/-- A call of a solver with fitting dimensions makes and solves a system, keeps it, and reports
its ranks. -/
theorem solve_eq (solver : Solver α) (a : Mat α) (b place : Vec α) (hb : b.dim = a.nrows)
    (hplace : place.dim = a.ncols) :
    let system : LinearSystem α := ⟨a, b, hb, none⟩
    solver.solve a b place =
      ⟨⟨some system.solve⟩, system.solve.solution?.getD place, .ok system.computeStats⟩ := by
  intro system
  rw [← system.stats_resolve, solve, dif_pos hb, if_pos hplace]
  rfl

/-- A call of a solver keeps a reachable system, or what the solver had. -/
theorem reachable_system {solver : Solver α} {a : Mat α} {b place : Vec α}
    (h : ∀ s, solver.system = some s → s.Reachable) :
    ∀ s, (solver.solve a b place).solver.system = some s → s.Reachable := by
  intro s hs
  by_cases hb : b.dim = a.nrows
  · by_cases hplace : place.dim = a.ncols
    · rw [solve_eq solver a b place hb hplace] at hs
      cases hs
      exact (LinearSystem.Reachable.make (LinearSystem.make?_eq_ok a b hb)).solve
    · rw [solve, dif_pos hb, if_neg hplace] at hs
      exact h s hs
  · rw [solve, dif_neg hb] at hs
    exact h s hs

end Solver

end RowReduction

import RowReduction.Complex.Scalar
import RowReduction.Proofs.LinearSystem.Reachable

/-!
# Sessions with a system

A system answers requests one after another. Only a request to solve it changes
it, and only the first one does: it adds the outcome, which stays. A solution
that is known belongs to a system classified as uniquely solvable, and satisfies
it. The scalars need not obey any law.
-/

namespace RowReduction.LinearSystem

variable {α : Type}

/-- What can be asked of a system. -/
inductive Request (α : Type) where
  | solve
  | analyze
  | verify (values : Vec α)
  | stats
  | solutionType
  | solution
  | coefficients
  | constants
  | equations
  | unknowns

/-- What a system answers: a classification, a known classification, known ranks, a known solution,
whether values satisfy it, or one of its parts. -/
inductive Answer (α : Type) where
  | classification (t : SolutionType)
  | knownClassification (t : Option SolutionType)
  | knownStats (st : Option Stats)
  | knownSolution (x : Option (Vec α))
  | verdict (b : Bool)
  | matrix (a : Mat α)
  | vector (b : Vec α)
  | count (n : Nat)

variable [Scalar α]

/-- The answer to a request. -/
def answer (s : LinearSystem α) : Request α → Answer α
  | .solve => .classification s.settle.1.stats.solutionType
  | .analyze => .classification s.analyze
  | .verify x => .verdict (s.verify x)
  | .stats => .knownStats s.stats?
  | .solutionType => .knownClassification s.solutionType?
  | .solution => .knownSolution s.solution?
  | .coefficients => .matrix s.coefficients
  | .constants => .vector s.constants
  | .equations => .count s.equations
  | .unknowns => .count s.unknowns

/-- The system after a request. -/
def next (s : LinearSystem α) : Request α → LinearSystem α
  | .solve => s.solve
  | _ => s

/-- The system after a session. -/
def after (s : LinearSystem α) : List (Request α) → LinearSystem α
  | [] => s
  | r :: rs => (s.next r).after rs

section Steps

variable {s : LinearSystem α}

/-- A solved system does not change when it is solved again. -/
theorem solve_of_outcome {o : Outcome α} (h : s.outcome = some o) : s.solve = s := by
  cases s
  cases h
  rfl

theorem next_of_outcome {o : Outcome α} (h : s.outcome = some o) (r : Request α) :
    s.next r = s := by
  cases r with
  | solve => exact solve_of_outcome h
  | _ => rfl

theorem next_of_ne_solve {r : Request α} (h : r ≠ .solve) : s.next r = s := by
  cases r with
  | solve => exact absurd rfl h
  | _ => rfl

/-- A solved system does not change any more. -/
theorem after_of_outcome {o : Outcome α} (h : s.outcome = some o) (rs : List (Request α)) :
    s.after rs = s := by
  induction rs with
  | nil => rfl
  | cons r rs ih => rw [after, next_of_outcome h, ih]

/-- A session changes a system exactly if it solves it, and then as solving it once does. -/
theorem after_cases (s : LinearSystem α) (rs : List (Request α)) :
    Request.solve ∉ rs ∧ s.after rs = s ∨ Request.solve ∈ rs ∧ s.after rs = s.solve := by
  induction rs with
  | nil => exact Or.inl ⟨List.not_mem_nil, rfl⟩
  | cons r rs ih =>
      by_cases hr : r = .solve
      · subst hr
        exact Or.inr ⟨List.mem_cons_self, after_of_outcome rfl rs⟩
      · rw [after, next_of_ne_solve hr, List.mem_cons, or_iff_right (Ne.symm hr)]
        exact ih

theorem Reachable.after (h : s.Reachable) (rs : List (Request α)) : (s.after rs).Reachable := by
  rcases s.after_cases rs with ⟨-, hs⟩ | ⟨-, hs⟩
  · rw [hs]
    exact h
  · rw [hs]
    exact h.solve

end Steps

section Solutions

/-- Values that pass the check are as many as there are variables. -/
theorem dim_of_verify {s : LinearSystem α} {x : Vec α} (h : s.verify x = true) :
    x.dim = s.unknowns := by
  unfold verify Mat.mulVec? at h
  by_cases hdim : s.coefficients.ncols = x.dim
  · exact hdim.symm
  · rw [if_neg hdim] at h
    cases h

/-- Values that are kept for a system with given ranks have passed its check. -/
theorem verify_of_solveUnique {s : LinearSystem α} {st : Stats} {x : Vec α}
    (h : (s.solveUnique st).1.solution = some x) : s.verify x = true := by
  unfold solveUnique at h
  split at h
  · cases h
  · split at h
    · cases h
      assumption
    · cases h

/-- Solving anew keeps values only for a system that is classified as uniquely solvable, and only
if they satisfy it. -/
theorem solution_resolve_eq_some {s : LinearSystem α} {x : Vec α}
    (h : s.resolve.1.solution = some x) :
    s.computeStats.solutionType = .unique ∧ s.verify x = true := by
  dsimp only [resolve] at h
  split at h
  · exact ⟨‹_›, verify_of_solveUnique h⟩
  · cases h

/-- A solution that is known belongs to a system that is known to be uniquely solvable, has a value
for each variable, and satisfies the system. -/
structure Consistent (s : LinearSystem α) (x : Vec α) : Prop where
  unique : s.solutionType? = some .unique
  dim : x.dim = s.unknowns
  verify : s.verify x = true

/-- A solution that a reachable system knows is consistent with it. -/
theorem Reachable.consistent {s : LinearSystem α} (h : s.Reachable) {x : Vec α}
    (hx : s.solution? = some x) : s.Consistent x := by
  rcases h.outcome_cases with ho | ho
  · rw [solution?, ho] at hx
    cases hx
  · rw [solution?, ho] at hx
    obtain ⟨hunique, hverify⟩ := solution_resolve_eq_some hx
    refine ⟨?_, dim_of_verify hverify, hverify⟩
    rw [solutionType?, stats?, ho, Option.map_some, Option.map_some, stats_resolve, hunique]

end Solutions

/-- Throughout a session with a new system its parts stay what they are, its ranks are known exactly
from the first time it is solved and then stay, a solution stays once it is known, is known only of
a system classified as uniquely solvable and satisfies it, and every request for the classification
or for solving has the same answer. -/
theorem session_invariant {a : Mat α} {b : Vec α} {s : LinearSystem α} (h : make? a b = .ok s) :
    ∃ t : SolutionType, ∀ past : List (Request α),
      let u := s.after past
      u.coefficients = a ∧ u.constants = b ∧
      (u.stats? = none ↔ Request.solve ∉ past) ∧
      (∀ x, u.solution? = some x →
        u.solutionType? = some .unique ∧ x.dim = u.unknowns ∧ u.verify x = true) ∧
      (u.solutionType? = some .none ∨ u.solutionType? = some .infinite → u.solution? = none) ∧
      u.answer .analyze = .classification t ∧ u.answer .solve = .classification t ∧
      ∀ future : List (Request α),
        (∀ st, u.stats? = some st → (u.after future).stats? = some st) ∧
        (∀ x, u.solution? = some x → (u.after future).solution? = some x) := by
  obtain ⟨ha, hb, hnew⟩ := make?_eq_ok_iff.mp h
  refine ⟨s.computeStats.solutionType, fun past => ?_⟩
  intro u
  have hu : u.Reachable := (Reachable.make h).after past
  -- The outcome is all that a session changes.
  have hparts : u.coefficients = s.coefficients ∧ u.constants = s.constants ∧
      u.computeStats = s.computeStats := by
    rcases s.after_cases past with ⟨-, hs⟩ | ⟨-, hs⟩
    · simp only [u, hs, and_self]
    · simp only [u, hs]
      exact ⟨rfl, rfl, rfl⟩
  have hconsistent := fun x (hx : u.solution? = some x) => hu.consistent hx
  refine ⟨hparts.1.trans ha, hparts.2.1.trans hb, ?_, ?_, ?_, ?_, ?_, fun future => ⟨?_, ?_⟩⟩
  · rcases s.after_cases past with ⟨hsolve, hs⟩ | ⟨hsolve, hs⟩
    · simp only [u, hs, stats?, hnew, Option.map_none, hsolve, not_false_eq_true]
    · simp only [u, hs, (Reachable.make h).stats?_solve, reduceCtorEq, hsolve, not_true_eq_false]
  · intro x hx
    exact ⟨(hconsistent x hx).unique, (hconsistent x hx).dim, (hconsistent x hx).verify⟩
  · intro htype
    apply Option.eq_none_iff_forall_ne_some.mpr
    intro x hx
    rw [(hconsistent x hx).unique] at htype
    simp at htype
  · rw [answer, hu.analyze_eq, hparts.2.2]
  · rw [answer, hu.settle_fst, stats_resolve, hparts.2.2]
  · intro st hst
    obtain ⟨o, ho, -⟩ := Option.map_eq_some_iff.mp hst
    rw [after_of_outcome ho, hst]
  · intro x hx
    obtain ⟨o, ho, -⟩ := Option.bind_eq_some_iff.mp hx
    rw [after_of_outcome ho, hx]

/-- The equation of a quotient of natural numbers, over the complex numbers. -/
def quotientEquation (dividend divisor : Nat) : LinearSystem Complex where
  coefficients := Mat.ofFn 1 1 Nat.one_pos Nat.one_pos fun _ _ => Complex.ofReal (.ofNat divisor)
  constants := Vec.ofFn 1 Nat.one_pos fun _ => Complex.ofReal (.ofNat dividend)
  dim_constants := rfl
  outcome := none

/-- The rounded quotient of ten by nine satisfies its equation, that of a hundred million is
discarded although the system is classified as uniquely solvable, and nothing is divided by
zero. -/
theorem session_invariant_quotientEquation :
    (∃ x, ((quotientEquation 10 9).after [.solve]).solution? = some x ∧
      ((quotientEquation 10 9).after [.solve]).verify x = true ∧
      (((quotientEquation 10 9).after [.solve]).after [.verify x, .solve]).solution? = some x) ∧
    (∃ st, ((quotientEquation 100000000 9).after [.solve]).stats? = some st ∧
      st.solutionType = .unique ∧ ((quotientEquation 100000000 9).after [.solve]).solution? = none ∧
      (((quotientEquation 100000000 9).after [.solve]).after [.analyze, .solve]).stats? =
        some st) ∧
    ((quotientEquation 1 0).after [.solve]).solutionType? = some .none ∧
    ((quotientEquation 1 0).after [.solve]).solution? = none := by
  have hmake := fun m n => make?_eq_ok (quotientEquation m n).coefficients
    (quotientEquation m n).constants (quotientEquation m n).dim_constants
  obtain ⟨_, hkept⟩ := session_invariant (hmake 10 9)
  obtain ⟨_, hdiscarded⟩ := session_invariant (hmake 100000000 9)
  obtain ⟨_, hzero⟩ := session_invariant (hmake 1 0)
  refine ⟨?_, ?_, ?_, ?_⟩
  · have hsome : ((quotientEquation 10 9).after [.solve]).solution?.isSome = true := by
      decide +kernel
    obtain ⟨x, hx⟩ := Option.isSome_iff_exists.mp hsome
    obtain ⟨-, -, -, hconsistent, -, -, -, hfuture⟩ := hkept [.solve]
    exact ⟨x, hx, (hconsistent x hx).2.2, (hfuture [.verify x, .solve]).2 x hx⟩
  · have hst : ((quotientEquation 100000000 9).after [.solve]).stats? = some ⟨1, 1, 1⟩ := by
      decide +kernel
    have hnone : ((quotientEquation 100000000 9).after [.solve]).solution?.isNone = true := by
      decide +kernel
    obtain ⟨-, -, -, -, -, -, -, hfuture⟩ := hdiscarded [.solve]
    exact ⟨_, hst, by decide, Option.isNone_iff_eq_none.mp hnone,
      (hfuture [.analyze, .solve]).1 _ hst⟩
  · decide +kernel
  · have htype : ((quotientEquation 1 0).after [.solve]).solutionType? = some .none := by
      decide +kernel
    obtain ⟨-, -, -, -, hnone, -⟩ := hzero [.solve]
    exact hnone (Or.inl htype)

end RowReduction.LinearSystem

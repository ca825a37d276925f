/-!
# Classification of linear systems

A system is classified by the rank of its coefficients, the rank of its
coefficients joined with its constants, and the number of its variables.
-/

namespace RowReduction

/-- How many solutions a system has. -/
inductive SolutionType where
  | unique
  | infinite
  | none
  deriving DecidableEq, Repr

/-- The name of a kind of solution set. -/
def SolutionType.name : SolutionType → String
  | unique => "UniqueSolution"
  | infinite => "InfiniteSolutions"
  | none => "NoSolution"

/-- The two ranks of a system and the number of its variables. -/
structure Stats where
  rank : Nat
  augmentedRank : Nat
  unknowns : Nat
  deriving DecidableEq, Repr

namespace Stats

/-- There is no solution when the constants raise the rank, one when the rank is the number of
variables, and infinitely many otherwise. -/
def solutionType (s : Stats) : SolutionType :=
  if s.rank < s.augmentedRank then .none
  else if s.rank = s.unknowns then .unique
  else .infinite

theorem solutionType_eq_none_iff (s : Stats) :
    s.solutionType = .none ↔ s.rank < s.augmentedRank := by
  unfold solutionType
  split
  · simp_all
  · split <;> simp_all

theorem solutionType_eq_unique_iff (s : Stats) :
    s.solutionType = .unique ↔ s.augmentedRank ≤ s.rank ∧ s.rank = s.unknowns := by
  unfold solutionType
  split
  · simp; omega
  · split <;> simp_all

end Stats

end RowReduction

import RowReduction.LinearSystem.Basic

/-!
# Solvers

A solver takes coefficients, constants and a place for the solution, and keeps
the last system it solved. A call with wrong dimensions changes neither the
place nor the solver.
-/

namespace RowReduction

/-- A solver with the last system it solved. -/
structure Solver (α : Type) where
  system : Option (LinearSystem α)

/-- What a call of a solver leaves behind: the solver, the place for the solution, and the ranks
of the system or the cause of failure. -/
structure SolverReply (α : Type) where
  solver : Solver α
  place : Vec α
  result : Except Error Stats

namespace Solver

variable {α : Type} [Scalar α]

/-- The solver that has solved nothing yet. -/
def fresh : Solver α :=
  ⟨none⟩

/-- Solve the system of coefficients and constants, and put its solution in the place. -/
def solve (solver : Solver α) (a : Mat α) (b place : Vec α) : SolverReply α :=
  if h : b.dim = a.nrows then
    if place.dim = a.ncols then
      let system : LinearSystem α := ⟨a, b, h, none⟩
      let outcome := system.settle.1
      ⟨⟨some { system with outcome := some outcome }⟩, outcome.solution.getD place,
        .ok outcome.stats⟩
    else ⟨solver, place, .error (.solutionVector place.dim a.ncols)⟩
  else ⟨solver, place, .error (.rightHandSide b.dim a.nrows)⟩

end Solver

end RowReduction

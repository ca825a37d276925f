import RowReduction.Mat.Elimination
import RowReduction.LinearSystem.Stats

/-!
# Linear systems

A system has coefficients, one constant for each equation, and the outcome of
its solution once it has been solved. Only a system with one solution is
solved: its joined matrix is reduced to unit pivots in the columns of the
variables, the values of the variables are found from the last one up, and
they are kept only if they satisfy the system.
-/

namespace RowReduction

/-- What solving a system found out: its ranks, and its solution if there is exactly one and it
satisfies the system. -/
structure Outcome (α : Type) where
  stats : Stats
  solution : Option (Vec α)

/-- A linear system, with its outcome if it has been solved. -/
structure LinearSystem (α : Type) where
  coefficients : Mat α
  constants : Vec α
  dim_constants : constants.dim = coefficients.nrows
  outcome : Option (Outcome α)

/-- The levels of the log. -/
inductive LogLevel where
  | trace
  | debug
  | warn
  deriving DecidableEq, Repr

/-- The entries of the log: the start of a solution, what a reduction did, a classification,
and values that do not satisfy the system. -/
inductive LogEntry (α : Type) where
  | solving (equations unknowns : Nat)
  | reduced (event : ReductionEvent)
  | classified (stats : Stats)
  | discarded (values : Vec α)

namespace LogEntry

variable {α : Type}

/-- The level of an entry. -/
def level : LogEntry α → LogLevel
  | solving .. | classified _ => .debug
  | reduced _ => .trace
  | discarded _ => .warn

/-- The words of an entry. -/
def message : LogEntry α → String
  | solving .. => "solve"
  | reduced (.skipped _) => "no pivot in column"
  | reduced (.eliminated ..) => "eliminated column"
  | classified _ => "classified system"
  | discarded _ => "computed solution does not satisfy the system; discarding"

end LogEntry

namespace LinearSystem

variable {α : Type}

/-- The unsolved system of coefficients and constants, one constant for each row. -/
def make? (coefficients : Mat α) (constants : Vec α) : Except Error (LinearSystem α) :=
  if h : constants.dim = coefficients.nrows then .ok ⟨coefficients, constants, h, none⟩
  else .error (.constantsCount constants.dim coefficients.nrows)

/-- The unsolved system whose equations have the rows as coefficients. -/
def ofEquations? (rows : List (Vec α)) (constants : Vec α) : Except Error (LinearSystem α) := do
  make? (← Mat.ofRows? rows) constants

/-- The number of equations. -/
def equations (s : LinearSystem α) : Nat :=
  s.coefficients.nrows

/-- The number of variables. -/
def unknowns (s : LinearSystem α) : Nat :=
  s.coefficients.ncols

/-- The ranks, once the system has been solved. -/
def stats? (s : LinearSystem α) : Option Stats :=
  s.outcome.map (·.stats)

/-- The kind of solution set, once the system has been solved. -/
def solutionType? (s : LinearSystem α) : Option SolutionType :=
  s.stats?.map (·.solutionType)

/-- The solution, once the system has been solved and if it has one. -/
def solution? (s : LinearSystem α) : Option (Vec α) :=
  s.outcome.bind (·.solution)

variable [Scalar α]

/-- The coefficients joined with the constants as a last column. -/
def augmented (s : LinearSystem α) : Mat α :=
  s.coefficients.augment s.constants

/-- The ranks that reductions of the coefficients and of the joined matrix give. -/
def computeStats (s : LinearSystem α) : Stats where
  rank := s.coefficients.rank
  augmentedRank := s.augmented.rank
  unknowns := s.unknowns

/-- The kind of solution set, known or computed. -/
def analyze (s : LinearSystem α) : SolutionType :=
  match s.outcome with
  | some o => o.stats.solutionType
  | none => s.computeStats.solutionType

/-- The products of the coefficients with the values are the constants. -/
def verify (s : LinearSystem α) (x : Vec α) : Bool :=
  match s.coefficients.mulVec? x with
  | .ok y => y == s.constants
  | .error _ => false

/-- The value of the variable with the given index, from the pivot row that starts in its
column and the values of the variables after it. The constant stands in column `n`. -/
def substitute? (n i : Nat) (row : Vec α) (later : List α) : Option α :=
  let known := Scalar.weightedSum (row.toList.drop (i + 1)) later
  let value := row.entry n - known
  let pivot := row.entry i
  if Scalar.isOne pivot then some value else (Scalar.div? value pivot).toOption

/-- The values of the variables from the given index on, found from the last one up. -/
def backSubstitute? (n : Nat) : Nat → List (Vec α) → Option (List α)
  | _, [] => some []
  | i, row :: rows => do
      let later ← backSubstitute? n (i + 1) rows
      let value ← substitute? n i row later
      return value :: later

/-- The reduction of the joined matrix to unit pivots in the columns of the variables. -/
def normalizedReduction (s : LinearSystem α) : Reduction α :=
  s.augmented.reduce s.unknowns true

/-- The values of the variables, if every variable has a pivot. -/
def candidate? (s : LinearSystem α) : Option (Vec α) :=
  let r := s.normalizedReduction
  if r.rank = s.unknowns then do
    (Vec.ofList? (← backSubstitute? s.unknowns 0 r.pivots)).toOption
  else none

/-- The outcome and the log of finding the one solution of a system with the given ranks. -/
def solveUnique (s : LinearSystem α) (stats : Stats) : Outcome α × List (LogEntry α) :=
  let events := s.normalizedReduction.events.map LogEntry.reduced
  match s.candidate? with
  | none => (⟨stats, none⟩, events)
  | some x =>
      if s.verify x then (⟨stats, some x⟩, events)
      else (⟨stats, none⟩, events ++ [.discarded x])

/-- The outcome of solving a system anew, and the log of it. -/
def resolve (s : LinearSystem α) : Outcome α × List (LogEntry α) :=
  let stats := s.computeStats
  let events := s.coefficients.echelon.events ++ s.augmented.echelon.events
  let log := events.map LogEntry.reduced ++ [.classified stats]
  if stats.solutionType = .unique then
    let solved := s.solveUnique stats
    (solved.1, log ++ solved.2)
  else (⟨stats, none⟩, log)

/-- The known outcome of a system, or the outcome of solving it, with the log. -/
def settle (s : LinearSystem α) : Outcome α × List (LogEntry α) :=
  match s.outcome with
  | some o => (o, [])
  | none => s.resolve

/-- The system with its outcome. -/
def solve (s : LinearSystem α) : LinearSystem α :=
  { s with outcome := some s.settle.1 }

/-- The log of solving a system. -/
def solveLog (s : LinearSystem α) : List (LogEntry α) :=
  .solving s.equations s.unknowns :: s.settle.2

end LinearSystem

end RowReduction

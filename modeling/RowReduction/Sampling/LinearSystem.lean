import RowReduction.LinearSystem.Basic
import RowReduction.Sampling.Scalar

/-!
# Random vectors and systems

Vectors are sampled component by component and systems row by row, before
their constants. The systems with one solution have a dominant diagonal, and
only their constants are sampled.
-/

namespace RowReduction

variable {α : Type} [Sampled α]

namespace Vec

/-- A vector of samples without a range. -/
def random? (n : Nat) (o : SampleOptions) : Sampler (Vec α) := do
  let components ← (List.range n).mapM fun _ => (Sampled.unbounded o : StateM Source α)
  ofList? components

/-- A vector of samples of a range. -/
def randomInRange? (n : Nat) (lower upper : α) (o : SampleOptions) : Sampler (Vec α) := do
  let components ← (List.range n).mapM fun _ => Sampled.inRange lower upper o
  ofList? components

end Vec

namespace LinearSystem

/-- A system of samples. -/
def random? (m n : Nat) (o : SampleOptions) : Sampler (LinearSystem α) := do
  if m = 0 ∨ n = 0 then throw (.emptySystem ⟨m, n⟩)
  let rows ← (List.range m).mapM fun _ => Vec.random? n o
  let constants ← Vec.random? m o
  ofEquations? rows constants

/-- The coefficients with five on the diagonal and a half elsewhere. -/
def dominant? (n : Nat) : Except Error (List (Vec α)) := do
  let two : α := 1 + 1
  let half ← Scalar.div? 1 two
  let five := two + two + 1
  (List.range n).mapM fun i => Vec.ofFn? n fun j => if i = j then five else half

/-- A square system with one solution, whose constants are samples. -/
def randomUnique? (n : Nat) (o : SampleOptions) : Sampler (LinearSystem α) := do
  if n = 0 then throw .noVariables
  let rows ← (dominant? n : Except Error (List (Vec α)))
  let constants ← Vec.random? n o
  ofEquations? rows constants

end LinearSystem

end RowReduction

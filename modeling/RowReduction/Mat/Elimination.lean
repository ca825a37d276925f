import RowReduction.Mat.Basic

/-!
# Row reduction

The columns are visited from left to right. The first row that can be a pivot
in a column changes places with the first row that is left, is set aside, and
is added to the rows below it so that their entries in the column vanish. A
column without such a row is skipped. The reduction ends with the columns or
with the rows, and reports what it did in each column.

## Implementation notes

The rows that are left are a list of their own, so that the place of a pivot
among all rows is its place in that list plus the number of pivots before it.
-/

namespace RowReduction

/-- What a reduction did in a column: it found no pivot, or it cleared the column below the
pivot that stood in a row, with a number of pivots set aside before. -/
inductive ReductionEvent where
  | skipped (column : Nat)
  | eliminated (column pivotRow rank : Nat)
  deriving DecidableEq, Repr

/-- A row chosen from a list: how many rows stand before it, the row, and the other rows after
the first of them has taken its place. -/
structure PivotChoice (β : Type) where
  offset : Nat
  pivot : β
  others : List β

namespace PivotChoice

variable {β : Type}

/-- The choice of the first row that satisfies a test after a first row that does not. -/
def exchange? (test : β → Bool) (first : β) : List β → Option (PivotChoice β)
  | [] => none
  | r :: rs =>
      if test r then some ⟨1, r, first :: rs⟩
      else (exchange? test first rs).map fun c => ⟨c.offset + 1, c.pivot, r :: c.others⟩

/-- The choice of the first row that satisfies a test. -/
def first? (test : β → Bool) : List β → Option (PivotChoice β)
  | [] => none
  | r :: rs => if test r then some ⟨0, r, rs⟩ else exchange? test r rs

end PivotChoice

/-- The outcome of a reduction: the pivot rows, the rows that are left, and the report. -/
structure Reduction (α : Type) where
  pivots : List (Vec α)
  rest : List (Vec α)
  events : List ReductionEvent

namespace Reduction

variable {α : Type} [Scalar α]

/-- The number of pivots. -/
def rank (r : Reduction α) : Nat :=
  r.pivots.length

/-- All rows, the pivot rows first. -/
def rows (r : Reduction α) : List (Vec α) :=
  r.pivots ++ r.rest

/-- A row plus a multiple of the pivot row. The multiple removes the entry of the column, which
a normalized pivot row does by the entry itself and any other by the entry times the inverse of
the pivot. A row whose entry counts as zero stays. -/
def clear (normalized : Bool) (column : Nat) (inverse : α) (pivot row : Vec α) : Vec α :=
  let entry := row.entry column
  if Scalar.isZero entry then row
  else
    let factor := if normalized then entry else entry * inverse
    Vec.zipWith (fun t s => t + -factor * s) row pivot

/-- The reduction of the rows that are left in the columns that are left, after a number of
pivots. -/
def ofRows (normalize : Bool) : List Nat → Nat → List (Vec α) → Reduction α
  | [], _, rows => ⟨[], rows, []⟩
  | _ :: _, _, [] => ⟨[], [], []⟩
  | column :: columns, rank, r :: rs =>
      match PivotChoice.first? (fun row => !Scalar.isZero (row.entry column)) (r :: rs) with
      | none =>
          let tail := ofRows normalize columns rank (r :: rs)
          ⟨tail.pivots, tail.rest, .skipped column :: tail.events⟩
      | some choice =>
          match Scalar.inv? (choice.pivot.entry column) with
          | .error _ => ofRows normalize columns rank (choice.pivot :: choice.others)
          | .ok inverse =>
              let pivot := if normalize then choice.pivot.scale inverse else choice.pivot
              let tail := ofRows normalize columns (rank + 1)
                (choice.others.map (clear normalize column inverse pivot))
              ⟨pivot :: tail.pivots, tail.rest,
                .eliminated column (rank + choice.offset) rank :: tail.events⟩

end Reduction

namespace Mat

variable {α : Type} [Scalar α]

/-- The reduction of a matrix in its first columns, with or without pivots scaled to one. -/
def reduce (a : Mat α) (columns : Nat) (normalize : Bool) : Reduction α :=
  Reduction.ofRows normalize (List.range (min columns a.ncols)) 0 a.rows

/-- The reduction of a matrix in all its columns. -/
def echelon (a : Mat α) : Reduction α :=
  a.reduce a.ncols false

/-- The number of pivots in all columns. -/
def rank (a : Mat α) : Nat :=
  a.echelon.rank

end Mat

end RowReduction

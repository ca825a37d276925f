import RowReduction.Proofs.Shape.Systems

/-!
# Calls for vectors and matrices

A call makes vectors and matrices, from nothing but scalars, numbers and texts or
from vectors and matrices. It is carried out in two ways: on vectors and matrices,
and on the lists and tables they are stored as, where rows are built without
checks and entries are reached for by their places. Both ways end alike.
-/

namespace RowReduction

open Access

variable {α : Type}

/-- A vector or a matrix, each in some form. -/
inductive Value (V M : Type) where
  | vector (v : V)
  | matrix (a : M)

namespace Value

/-- The form in which a vector or a matrix is stored. -/
def stored : Value (Vec α) (Mat α) → Value (List α) (Table α)
  | vector v => vector v.toList
  | matrix a => matrix a.stored

/-- A vector has a component. A matrix has a row and a column, and every row has as many entries
as there are columns. -/
def WellShaped : Value (List α) (Table α) → Prop
  | vector v => v ≠ []
  | matrix t => t.WellShaped

theorem wellShaped_stored (x : Value (Vec α) (Mat α)) : x.stored.WellShaped := by
  cases x with
  | vector v => exact v.ne_nil
  | matrix a => exact Table.wellShaped_stored a

end Value

/-- Ways to make a vector of scalars, numbers, texts and samples. -/
inductive VectorMaker (α : Type) where
  | ofList (xs : List α)
  | zeros (n : Nat)
  | basis (n direction : Nat)
  | parse (text : String)
  | random (n : Nat) (o : SampleOptions) (source : Source)
  | randomInRange (n : Nat) (lower upper : α) (o : SampleOptions) (source : Source)

/-- Ways to make a matrix of scalars and numbers. -/
inductive MatrixMaker (α : Type) where
  | ofEntries (entries : List (List α))
  | zeros (m n : Nat)
  | identity (n : Nat)

/-- Ways to make the coefficients and constants of a system of samples. -/
inductive SystemMaker where
  | random (m n : Nat) (o : SampleOptions) (source : Source)
  | randomUnique (n : Nat) (o : SampleOptions) (source : Source)

/-- Operations from one vector to another. -/
inductive VectorOperation (α : Type) where
  | neg
  | scale (a : α)
  | divScalar (a : α)
  | normalize

/-- Operations from two vectors to a third. -/
inductive VectorPairOperation where
  | add
  | sub
  | cross
  | project

/-- Operations on one matrix. -/
inductive MatrixOperation (α : Type) where
  | row (i : Nat)
  | column (j : Nat)
  | transpose
  | scale (c : α)

/-- Operations from two matrices to a third. -/
inductive MatrixPairOperation where
  | add
  | sub
  | mul

/-- Operations on a matrix and a vector. The last two are those of the system whose coefficients
and constants they are. -/
inductive MixedOperation where
  | augment
  | mulVec
  | joined
  | solution

/-- What can be asked for vectors and matrices, with operands in some form. -/
inductive Call (α V M : Type) where
  | makeVector (maker : VectorMaker α)
  | makeMatrix (maker : MatrixMaker α)
  | makeSystem (maker : SystemMaker)
  | ofRows (rows : List V)
  | onVector (operation : VectorOperation α) (v : V)
  | onVectors (operation : VectorPairOperation) (v w : V)
  | onMatrix (operation : MatrixOperation α) (a : M)
  | onMatrices (operation : MatrixPairOperation) (a b : M)
  | onBoth (operation : MixedOperation) (a : M) (b : V)
  | solveInto (a : M) (b place : V)

section Makers

variable [Sampled α]

/-- The vector that is made. -/
def VectorMaker.run : VectorMaker α → Except Error (Vec α)
  | ofList xs => Vec.ofList? xs
  | zeros n => Vec.zeros? n
  | basis n direction => Vec.basis? n direction
  | parse text => Vec.parse? text
  | random n o source => ((Vec.random? n o).run source).1
  | randomInRange n lower upper o source => ((Vec.randomInRange? n lower upper o).run source).1

/-- The list of components that is made. -/
def VectorMaker.indexed : VectorMaker α → Access (List α)
  | ofList xs => checked (Components.make? xs)
  | zeros n => checked (Components.zeros? n)
  | basis n direction => Components.basis? n direction
  | parse text => checked (Components.parse? text)
  | random n o source => checked ((Components.random? n o).run source).1
  | randomInRange n lower upper o source =>
      checked ((Components.randomInRange? n lower upper o).run source).1

theorem fst_run_map {β γ : Type} (f : β → γ) (x : Sampler β) (source : Source) :
    ((f <$> x).run source).1 = (x.run source).1.map f := by
  rw [ExceptT.run_map]
  rfl

theorem VectorMaker.agrees (maker : VectorMaker α) :
    Agrees Vec.toList maker.indexed maker.run := by
  cases maker with
  | ofList xs => exact Agrees.checked (Components.make?_eq xs)
  | zeros n => exact Agrees.checked (Components.zeros?_eq n)
  | basis n direction => exact Components.basis?_agrees n direction
  | parse text => exact Agrees.checked (Components.parse?_eq text)
  | random n o source =>
      apply Agrees.checked
      rw [Components.random?_eq, fst_run_map]
      rfl
  | randomInRange n lower upper o source =>
      apply Agrees.checked
      rw [Components.randomInRange?_eq, fst_run_map]
      rfl

/-- The matrix that is made. -/
def MatrixMaker.run : MatrixMaker α → Except Error (Mat α)
  | ofEntries entries => Mat.ofEntries? entries
  | zeros m n => Mat.zeros? m n
  | identity n => Mat.identity? n

/-- The table that is made. -/
def MatrixMaker.indexed : MatrixMaker α → Access (Table α)
  | ofEntries entries => checked (Table.ofEntries? entries)
  | zeros m n => checked (Table.zeros? m n)
  | identity n => Table.identity? n

theorem MatrixMaker.agrees (maker : MatrixMaker α) :
    Agrees Mat.stored maker.indexed maker.run := by
  cases maker with
  | ofEntries entries => exact Agrees.checked (Table.ofEntries?_eq entries)
  | zeros m n => exact Agrees.checked (Table.zeros?_eq m n)
  | identity n => exact Table.identity?_agrees n

/-- The system that is made. -/
def SystemMaker.run : SystemMaker → Except Error (LinearSystem α)
  | random m n o source => ((LinearSystem.random? m n o).run source).1
  | randomUnique n o source => ((LinearSystem.randomUnique? n o).run source).1

/-- The coefficients and constants that are made. -/
def SystemMaker.indexed : SystemMaker → Access (Table α × List α)
  | random m n o source => checked ((LinearSystem.storedRandom? m n o).run source).1
  | randomUnique n o source => checked ((LinearSystem.storedRandomUnique? n o).run source).1

theorem SystemMaker.agrees (maker : SystemMaker) :
    Agrees (LinearSystem.stored (α := α)) maker.indexed maker.run := by
  cases maker with
  | random m n o source =>
      apply Agrees.checked
      rw [LinearSystem.storedRandom?_eq, fst_run_map]
      rfl
  | randomUnique n o source =>
      apply Agrees.checked
      rw [LinearSystem.storedRandomUnique?_eq, fst_run_map]
      rfl

end Makers

section Operations

variable [Scalar α]

/-- The result of the operation. -/
def VectorOperation.run (v : Vec α) : VectorOperation α → Except Error (Vec α)
  | neg => .ok (-v)
  | scale a => .ok (v.scale a)
  | divScalar a => v.divScalar? a
  | normalize => v.normalize?

/-- The result of the operation on a list of components. -/
def VectorOperation.indexed (v : List α) : VectorOperation α → Access (List α)
  | neg => pure (v.map (- ·))
  | scale a => pure (Components.scale a v)
  | divScalar a => checked (Components.divScalar? v a)
  | normalize => checked (Components.normalize? v)

theorem VectorOperation.agrees (operation : VectorOperation α) (v : Vec α) :
    Agrees Vec.toList (operation.indexed v.toList) (operation.run v) := by
  cases operation with
  | neg => rfl
  | scale a => rfl
  | divScalar a => exact Agrees.checked (Components.divScalar?_eq v a)
  | normalize => exact Agrees.checked (Components.normalize?_eq v)

/-- The result of the operation. -/
def VectorPairOperation.run (v w : Vec α) : VectorPairOperation → Except Error (Vec α)
  | add => v.add? w
  | sub => v.sub? w
  | cross => v.cross? w
  | project => v.project? w

/-- The result of the operation on two lists of components. -/
def VectorPairOperation.indexed (v w : List α) : VectorPairOperation → Access (List α)
  | add => checked (Components.pairwise? .sum (· + ·) v w)
  | sub => checked (Components.pairwise? .difference (· - ·) v w)
  | cross => Components.cross? v w
  | project => checked (Components.project? v w)

theorem VectorPairOperation.agrees (operation : VectorPairOperation) (v w : Vec α) :
    Agrees Vec.toList (operation.indexed v.toList w.toList) (operation.run v w) := by
  cases operation with
  | add => exact Agrees.checked (Components.pairwise?_eq .sum (· + ·) v w)
  | sub => exact Agrees.checked (Components.pairwise?_eq .difference (· - ·) v w)
  | cross => exact Components.cross?_agrees v w
  | project => exact Agrees.checked (Components.project?_eq v w)

/-- The result of the operation. -/
def MatrixOperation.run (a : Mat α) : MatrixOperation α → Except Error (Value (Vec α) (Mat α))
  | row i => (a.row? i).map .vector
  | column j => (a.column? j).map .vector
  | transpose => .ok (.matrix a.transpose)
  | scale c => .ok (.matrix (a.scale c))

/-- The result of the operation on a table. -/
def MatrixOperation.indexed (t : Table α) :
    MatrixOperation α → Access (Value (List α) (Table α))
  | row i => .vector <$> checked (t.row? i)
  | column j => .vector <$> t.column? j
  | transpose => .matrix <$> found t.transpose?
  | scale c => pure (.matrix (t.scale c))

theorem MatrixOperation.agrees (operation : MatrixOperation α) (a : Mat α) :
    Agrees Value.stored (operation.indexed a.stored) (operation.run a) := by
  cases operation with
  | row i => exact (Agrees.checked (Table.row?_eq a i)).map fun _ => rfl
  | column j => exact (Table.column?_agrees a j).map fun _ => rfl
  | transpose => exact (Table.transpose?_agrees a).map (g := Value.matrix) fun _ => rfl
  | scale c =>
      change Agrees _ (pure (Value.matrix (a.stored.scale c)) : Access _) _
      rw [Table.scale_stored]
      rfl

/-- The result of the operation. -/
def MatrixPairOperation.run (a b : Mat α) : MatrixPairOperation → Except Error (Mat α)
  | add => a.add? b
  | sub => a.sub? b
  | mul => a.mul? b

/-- The result of the operation on two tables. -/
def MatrixPairOperation.indexed (t u : Table α) : MatrixPairOperation → Access (Table α)
  | add => checked (Table.pairwise? .sum (· + ·) t u)
  | sub => checked (Table.pairwise? .difference (· - ·) t u)
  | mul => Table.product? t u

theorem MatrixPairOperation.agrees (operation : MatrixPairOperation) (a b : Mat α) :
    Agrees Mat.stored (operation.indexed a.stored b.stored) (operation.run a b) := by
  cases operation with
  | add => exact Agrees.checked (Table.pairwise?_eq .sum (· + ·) a b)
  | sub => exact Agrees.checked (Table.pairwise?_eq .difference (· - ·) a b)
  | mul => exact Table.product?_agrees a b

/-- The results of the operation: the solution is a result if there is one. -/
def MixedOperation.run (a : Mat α) (b : Vec α) :
    MixedOperation → Except Error (List (Value (Vec α) (Mat α)))
  | augment => (a.augment? b).map fun c => [.matrix c]
  | mulVec => (a.mulVec? b).map fun v => [.vector v]
  | joined => (LinearSystem.make? a b).map fun s => [.matrix s.augmented]
  | solution =>
      ((LinearSystem.make? a b).map fun s => s.solve.solution?).map fun x =>
        (x.map .vector).toList

/-- The results of the operation on a table and a list. -/
def MixedOperation.indexed (t : Table α) (b : List α) :
    MixedOperation → Access (List (Value (List α) (Table α)))
  | augment => (fun c => [.matrix c]) <$> checked (t.augment? b)
  | mulVec => (fun v => [.vector v]) <$> checked (t.mulVec? b)
  | joined => (fun s => [.matrix (s.1.joined s.2)]) <$> checked (t.system? b)
  | solution =>
      (fun x => (x.map .vector).toList) <$> do
        let s ← checked (t.system? b)
        found (s.1.solution? s.2)

theorem MixedOperation.agrees (operation : MixedOperation) (a : Mat α) (b : Vec α) :
    Agrees (List.map Value.stored) (operation.indexed a.stored b.toList) (operation.run a b) := by
  cases operation with
  | augment => exact (Agrees.checked (Table.augment?_eq a b)).map fun _ => rfl
  | mulVec => exact (Agrees.checked (Table.mulVec?_eq a b)).map fun _ => rfl
  | joined =>
      apply (Agrees.checked (LinearSystem.system?_eq a b)).map
      intro s
      simp only [LinearSystem.stored, LinearSystem.joined_stored]
      rfl
  | solution =>
      apply (newSolution_agrees a b).map
      intro x
      cases x <;> rfl

end Operations

namespace Call

variable [Sampled α]

/-- The vectors and matrices that a call makes. -/
def run : Call α (Vec α) (Mat α) → Except Error (List (Value (Vec α) (Mat α)))
  | makeVector maker => maker.run.map fun v => [.vector v]
  | makeMatrix maker => maker.run.map fun a => [.matrix a]
  | makeSystem maker => maker.run.map fun s => [.matrix s.coefficients, .vector s.constants]
  | ofRows rows => (Mat.ofRows? rows).map fun a => [.matrix a]
  | onVector operation v => (operation.run v).map fun w => [.vector w]
  | onVectors operation v w => (operation.run v w).map fun u => [.vector u]
  | onMatrix operation a => (operation.run a).map fun x => [x]
  | onMatrices operation a b => (operation.run a b).map fun c => [.matrix c]
  | onBoth operation a b => operation.run a b
  | solveInto a b place => (solvedPlace? a b place).map fun v => [.vector v]

/-- The lists and tables that a call on stored operands makes. -/
def indexed : Call α (List α) (Table α) → Access (List (Value (List α) (Table α)))
  | makeVector maker => (fun v => [.vector v]) <$> maker.indexed
  | makeMatrix maker => (fun t => [.matrix t]) <$> maker.indexed
  | makeSystem maker => (fun s => [.matrix s.1, .vector s.2]) <$> maker.indexed
  | ofRows rows => (fun t => [.matrix t]) <$> checked (Table.ofRows? rows)
  | onVector operation v => (fun w => [.vector w]) <$> operation.indexed v
  | onVectors operation v w => (fun u => [.vector u]) <$> operation.indexed v w
  | onMatrix operation t => (fun x => [x]) <$> operation.indexed t
  | onMatrices operation t u => (fun c => [.matrix c]) <$> operation.indexed t u
  | onBoth operation t b => operation.indexed t b
  | solveInto t b place => (fun v => [.vector v]) <$> t.solvedPlace? b place

/-- The call on stored operands. -/
def stored : Call α (Vec α) (Mat α) → Call α (List α) (Table α)
  | makeVector maker => makeVector maker
  | makeMatrix maker => makeMatrix maker
  | makeSystem maker => makeSystem maker
  | ofRows rows => ofRows (rows.map Vec.toList)
  | onVector operation v => onVector operation v.toList
  | onVectors operation v w => onVectors operation v.toList w.toList
  | onMatrix operation a => onMatrix operation a.stored
  | onMatrices operation a b => onMatrices operation a.stored b.stored
  | onBoth operation a b => onBoth operation a.stored b.toList
  | solveInto a b place => solveInto a.stored b.toList place.toList

/-- A call on stored operands ends as it does on vectors and matrices. -/
theorem indexed_agrees (c : Call α (Vec α) (Mat α)) :
    Agrees (List.map Value.stored) c.stored.indexed c.run := by
  cases c with
  | makeVector maker => exact maker.agrees.map fun _ => rfl
  | makeMatrix maker => exact maker.agrees.map fun _ => rfl
  | makeSystem maker => exact maker.agrees.map fun _ => rfl
  | ofRows rows => exact (Agrees.checked (Table.ofRows?_eq rows)).map fun _ => rfl
  | onVector operation v => exact (operation.agrees v).map fun _ => rfl
  | onVectors operation v w => exact (operation.agrees v w).map fun _ => rfl
  | onMatrix operation a => exact (operation.agrees a).map fun _ => rfl
  | onMatrices operation a b => exact (operation.agrees a b).map fun _ => rfl
  | onBoth operation a b => exact operation.agrees a b
  | solveInto a b place => exact (solvedPlace?_agrees a b place).map fun _ => rfl

end Call

end RowReduction

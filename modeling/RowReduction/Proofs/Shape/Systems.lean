import RowReduction.Proofs.Shape.Substitution

/-!
# Systems as stored tables

A system is stored as the table of its coefficients and the list of its
constants. New systems, systems of samples and the place that a solver fills are
made here of tables and lists, and end as they do for systems.
-/

namespace RowReduction

open Access

variable {α : Type}

/-- The coefficients and constants of a new system, one constant for each row. -/
def Table.system? (t : Table α) (b : List α) : Except Error (Table α × List α) :=
  if b.length ≠ t.rows.length then .error (.constantsCount b.length t.rows.length) else .ok (t, b)

namespace LinearSystem

/-- The coefficients and constants that a system is stored as. -/
def stored (s : LinearSystem α) : Table α × List α :=
  (s.coefficients.stored, s.constants.toList)

theorem system?_eq (a : Mat α) (b : Vec α) :
    a.stored.system? b.toList = (make? a b).map stored := by
  rw [Table.system?, make?, Table.length_rows_stored, ite_not, Components.length_toList]
  by_cases h : b.dim = a.nrows
  · rw [if_pos h, dif_pos h]
    rfl
  · rw [if_neg h, dif_neg h]
    rfl

/-- The coefficients and constants of a new system whose equations have the rows as
coefficients. -/
def storedEquations? (rows : List (List α)) (constants : List α) :
    Except Error (Table α × List α) := do
  (← Table.ofRows? rows).system? constants

theorem storedEquations?_eq (rows : List (Vec α)) (constants : Vec α) :
    storedEquations? (rows.map Vec.toList) constants.toList =
      (ofEquations? rows constants).map stored := by
  rw [storedEquations?, Table.ofRows?_eq, ofEquations?]
  cases Mat.ofRows? rows with
  | error e => rfl
  | ok a => exact system?_eq a constants

variable [Sampled α]

/-- The coefficients and constants of a system of samples. -/
def storedRandom? (m n : Nat) (o : SampleOptions) : Sampler (Table α × List α) := do
  if m = 0 ∨ n = 0 then throw (.emptySystem ⟨m, n⟩)
  let rows ← (List.range m).mapM fun _ => Components.random? n o
  let constants ← Components.random? m o
  storedEquations? rows constants

theorem storedRandom?_eq (m n : Nat) (o : SampleOptions) :
    (storedRandom? m n o : Sampler (Table α × List α)) = stored <$> random? m n o := by
  unfold storedRandom? random?
  simp only [Components.random?_eq, mapM_map_result, bind_map_left, storedEquations?_eq,
    Components.liftM_map]
  by_cases h : m = 0 ∨ n = 0
  · simp only [if_pos h, map_bind]
  · simp only [if_neg h, map_bind]

/-- The rows with five on the diagonal and a half elsewhere. -/
def storedDominant? (n : Nat) : Except Error (List (List α)) := do
  let two : α := 1 + 1
  let half ← Scalar.div? 1 two
  let five := two + two + 1
  (List.range n).mapM fun i =>
    Components.make? ((List.range n).map fun j => if i = j then five else half)

theorem storedDominant?_eq (n : Nat) :
    (storedDominant? n : Except Error (List (List α))) =
      (dominant? n).map (List.map Vec.toList) := by
  unfold storedDominant? dominant?
  have hrows (f : Nat → Nat → α) :
      ((List.range n).mapM fun i => Components.make? ((List.range n).map (f i))) =
        ((List.range n).mapM fun i => Vec.ofFn? n (f i)).map (List.map Vec.toList) := by
    simp only [Components.make?_range]
    exact mapM_map_result Vec.toList (fun i => Vec.ofFn? n (f i)) (List.range n)
  dsimp only
  cases Scalar.div? (1 : α) (1 + 1) with
  | error e => rfl
  | ok half => exact hrows _

/-- The coefficients and constants of a square system with one solution. -/
def storedRandomUnique? (n : Nat) (o : SampleOptions) : Sampler (Table α × List α) := do
  if n = 0 then throw .noVariables
  let rows ← (storedDominant? n : Except Error (List (List α)))
  let constants ← Components.random? n o
  storedEquations? rows constants

theorem storedRandomUnique?_eq (n : Nat) (o : SampleOptions) :
    (storedRandomUnique? n o : Sampler (Table α × List α)) = stored <$> randomUnique? n o := by
  unfold storedRandomUnique? randomUnique?
  simp only [Components.random?_eq, storedDominant?_eq, bind_map_left, storedEquations?_eq,
    Components.liftM_map]
  by_cases h : n = 0
  · simp only [if_pos h, map_bind]
  · simp only [if_neg h, map_bind]

end LinearSystem

section Solving

variable [Scalar α]

omit [Scalar α] in
theorem outcome_of_make? {a : Mat α} {b : Vec α} {s : LinearSystem α}
    (h : LinearSystem.make? a b = .ok s) : s.outcome = none := by
  rw [LinearSystem.make?] at h
  split at h
  · rw [← Except.ok.inj h]
  · cases h

/-- A new system is solved as its coefficients and constants are. -/
theorem newSolution_agrees (a : Mat α) (b : Vec α) :
    Agrees (Option.map Vec.toList)
      (do
        let s ← checked (a.stored.system? b.toList)
        found (s.1.solution? s.2))
      ((LinearSystem.make? a b).map fun s => s.solve.solution?) := by
  rw [LinearSystem.system?_eq]
  cases hs : LinearSystem.make? a b with
  | error e => rfl
  | ok s => exact s.solution?_agrees (outcome_of_make? hs)

/-- The place after a call of a solver that has solved nothing yet. -/
def solvedPlace? (a : Mat α) (b place : Vec α) : Except Error (Vec α) :=
  let reply := Solver.fresh.solve a b place
  reply.result.map fun _ => reply.place

/-- The place that a solution is put in, with the solution of the table and the constants if there
is one. -/
def Table.solvedPlace? (t : Table α) (b place : List α) : Access (List α) :=
  if b.length ≠ t.rows.length then throw (.rightHandSide b.length t.rows.length)
  else if place.length ≠ t.ncols then throw (.solutionVector place.length t.ncols)
  else (·.getD place) <$> found (t.solution? b)

theorem solvedPlace?_agrees (a : Mat α) (b place : Vec α) :
    Agrees Vec.toList (a.stored.solvedPlace? b.toList place.toList) (solvedPlace? a b place) := by
  rw [Table.solvedPlace?, Table.length_rows_stored, solvedPlace?, Solver.solve,
    Components.length_toList, Components.length_toList, Table.ncols_stored]
  by_cases hb : b.dim = a.nrows
  · by_cases hplace : place.dim = a.ncols
    · rw [if_neg (not_not_intro hb), if_neg (not_not_intro hplace), dif_pos hb, if_pos hplace]
      have hsolution := LinearSystem.solution?_agrees ⟨a, b, hb, none⟩ rfl
      apply hsolution.map (g := fun x => x.getD place)
      intro x
      cases x <;> rfl
    · rw [if_neg (not_not_intro hb), if_pos hplace, dif_pos hb, if_neg hplace]
      exact Agrees.throw ..
  · rw [if_pos hb, dif_neg hb]
    exact Agrees.throw ..

end Solving

end RowReduction

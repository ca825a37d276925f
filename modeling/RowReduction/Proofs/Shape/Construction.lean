import RowReduction.Proofs.Shape.Calls
import Mathlib.Data.Set.List

/-!
# Construction of vectors and matrices

Calls follow each other, each on what earlier ones have made. Because a call on
stored operands ends as it does on vectors and matrices, whatever a sequence of
calls makes is well shaped, and no call misses a place.
-/

namespace RowReduction

open Access

variable {α : Type}

instance : CanLift (List α) (Vec α) Vec.toList (· ≠ []) :=
  ⟨fun xs h => ⟨⟨xs, h⟩, rfl⟩⟩

instance : CanLift (Table α) (Mat α) Mat.stored Table.WellShaped :=
  ⟨fun _ h => h.exists_stored⟩

namespace Call

/-- The vectors and matrices that a call starts from. -/
def operands {V M : Type} : Call α V M → List (Value V M)
  | makeVector _ | makeMatrix _ | makeSystem _ => []
  | ofRows rows => rows.map .vector
  | onVector _ v => [.vector v]
  | onVectors _ v w => [.vector v, .vector w]
  | onMatrix _ a => [.matrix a]
  | onMatrices _ a b => [.matrix a, .matrix b]
  | onBoth _ a b => [.matrix a, .vector b]
  | solveInto a b place => [.matrix a, .vector b, .vector place]

/-- A call on well-shaped operands is a call on vectors and matrices. -/
theorem exists_stored {c : Call α (List α) (Table α)} (h : ∀ s ∈ c.operands, s.WellShaped) :
    ∃ d : Call α (Vec α) (Mat α), d.stored = c := by
  cases c with
  | makeVector maker => exact ⟨makeVector maker, rfl⟩
  | makeMatrix maker => exact ⟨makeMatrix maker, rfl⟩
  | makeSystem maker => exact ⟨makeSystem maker, rfl⟩
  | ofRows rows =>
      have hrows : ∀ r ∈ rows, r ≠ [] := fun r hr => h _ (List.mem_map_of_mem hr)
      lift rows to List (Vec α) using hrows
      exact ⟨ofRows rows, rfl⟩
  | onVector operation v =>
      lift v to Vec α using h (.vector v) (by simp [operands])
      exact ⟨onVector operation v, rfl⟩
  | onVectors operation v w =>
      have hv : v ≠ [] := h (.vector v) (by simp [operands])
      have hw : w ≠ [] := h (.vector w) (by simp [operands])
      lift v to Vec α using hv
      lift w to Vec α using hw
      exact ⟨onVectors operation v w, rfl⟩
  | onMatrix operation t =>
      lift t to Mat α using h (.matrix t) (by simp [operands])
      exact ⟨onMatrix operation t, rfl⟩
  | onMatrices operation t u =>
      have ht : t.WellShaped := h (.matrix t) (by simp [operands])
      have hu : u.WellShaped := h (.matrix u) (by simp [operands])
      lift t to Mat α using ht
      lift u to Mat α using hu
      exact ⟨onMatrices operation t u, rfl⟩
  | onBoth operation t b =>
      have ht : t.WellShaped := h (.matrix t) (by simp [operands])
      have hb : b ≠ [] := h (.vector b) (by simp [operands])
      lift t to Mat α using ht
      lift b to Vec α using hb
      exact ⟨onBoth operation t b, rfl⟩
  | solveInto t b place =>
      have ht : t.WellShaped := h (.matrix t) (by simp [operands])
      have hb : b ≠ [] := h (.vector b) (by simp [operands])
      have hplace : place ≠ [] := h (.vector place) (by simp [operands])
      lift t to Mat α using ht
      lift b to Vec α using hb
      lift place to Vec α using hplace
      exact ⟨solveInto t b place, rfl⟩

/-- What a call makes of well-shaped operands is well shaped. -/
theorem wellShaped_of_indexed [Sampled α] {c : Call α (List α) (Table α)}
    {results : List (Value (List α) (Table α))} (hc : ∀ s ∈ c.operands, s.WellShaped)
    (h : c.indexed.run = some (.ok results)) : ∀ s ∈ results, s.WellShaped := by
  obtain ⟨d, rfl⟩ := exists_stored hc
  have hagrees : d.stored.indexed.run = some (d.run.map (List.map Value.stored)) := d.indexed_agrees
  rw [h] at hagrees
  have hresults := Option.some.inj hagrees
  cases hd : d.run with
  | error e => rw [hd] at hresults; cases hresults
  | ok values =>
      rw [hd] at hresults
      intro s hs
      rw [Except.ok.inj hresults] at hs
      obtain ⟨x, -, rfl⟩ := List.mem_map.mp hs
      exact x.wellShaped_stored

end Call

/-- What sequences of calls make, each from what earlier ones have made. -/
inductive Reachable [Sampled α] : Value (List α) (Table α) → Prop
  | result {c : Call α (List α) (Table α)} {results : List (Value (List α) (Table α))}
      {s : Value (List α) (Table α)} (operands : ∀ o ∈ c.operands, Reachable o)
      (run : c.indexed.run = some (.ok results)) (mem : s ∈ results) : Reachable s

section Reachable

variable [Sampled α]

theorem Reachable.wellShaped {s : Value (List α) (Table α)} (h : Reachable s) : s.WellShaped := by
  induction h with
  | result operands run mem ih => exact Call.wellShaped_of_indexed ih run _ mem

/-- Sequences of calls make the lists with a component and the well-shaped tables. -/
theorem reachable_iff_wellShaped {s : Value (List α) (Table α)} :
    Reachable s ↔ s.WellShaped := by
  constructor
  · exact Reachable.wellShaped
  · intro h
    cases s with
    | vector v =>
        lift v to Vec α using h
        have hmake : Components.make? v.toList = .ok v.toList := by
          rw [Components.make?_eq, Vec.ofList?_toList]
          rfl
        refine Reachable.result (c := .makeVector (.ofList v.toList)) (by simp [Call.operands]) ?_
          (List.mem_singleton_self _)
        change ((fun v => [Value.vector v]) <$> checked (Components.make? v.toList)).run = _
        rw [hmake]
        rfl
    | matrix t =>
        have hmake : Table.ofEntries? t.rows = .ok t := Table.WellShaped.ofEntries?_rows h
        refine Reachable.result (c := .makeMatrix (.ofEntries t.rows)) (by simp [Call.operands]) ?_
          (List.mem_singleton_self _)
        change ((fun t => [Value.matrix t]) <$> checked (Table.ofEntries? t.rows)).run = _
        rw [hmake]
        rfl

/-- Whatever sequences of calls make is well shaped. Every call on it finds every place that it
reads or writes, and ends as on vectors and matrices. So does every reduction, which passes through
well-shaped tables of the same numbers of rows and columns only. So does the substitution for a
system, and it starts only if the reduced table has a row for each variable and a column more than
there are variables. -/
theorem construction_keeps_shape (α : Type) [Sampled α] :
    (∀ s : Value (List α) (Table α), Reachable s ↔ s.WellShaped) ∧
    (∀ c : Call α (List α) (Table α), (∀ o ∈ c.operands, Reachable o) →
      ∃ d : Call α (Vec α) (Mat α), d.stored = c ∧
        c.indexed.run = some (d.run.map (List.map Value.stored))) ∧
    (∀ t : Table α, Reachable (.matrix t) → ∀ (columns : Nat) (normalize : Bool),
      ∃ (a : Mat α) (w : Workspace α), a.stored = t ∧ t.reduce? columns normalize = some w ∧
        w.rank = (a.reduce columns normalize).rank ∧
        w.rows = (a.reduce columns normalize).rows.map Vec.toList ∧
        ∀ rows ∈ w.rows :: w.past,
          rows.length = t.rows.length ∧ (⟨rows, t.ncols⟩ : Table α).WellShaped) ∧
    (∀ (t : Table α) (b : List α), Reachable (.matrix t) → Reachable (.vector b) →
      b.length = t.rows.length →
      ∃ (s : LinearSystem α) (w : Workspace α), s.stored = (t, b) ∧
        (t.joined b).reduce? t.ncols true = some w ∧
        t.candidate? b = some (s.candidate?.map Vec.toList) ∧
        (w.rank = t.ncols → t.ncols ≤ w.rows.length ∧
          (∀ r ∈ w.rows, r.length = t.ncols + 1) ∧
          Yields (Table.substituteBack? w.rows t.ncols)
            (LinearSystem.backSubstitute? t.ncols 0 s.normalizedReduction.pivots))) := by
  refine ⟨fun s => reachable_iff_wellShaped, ?_, ?_, ?_⟩
  · intro c hc
    obtain ⟨d, rfl⟩ := Call.exists_stored fun o ho => (hc o ho).wellShaped
    exact ⟨d, rfl, d.indexed_agrees⟩
  · intro t ht columns normalize
    have hshape : t.WellShaped := ht.wellShaped
    obtain ⟨a, rfl⟩ := hshape.exists_stored
    obtain ⟨w, hrun, hrank, hrows⟩ := a.exists_reduce?_stored columns normalize
    exact ⟨a, w, rfl, hrun, hrank, hrows, Workspace.wellShaped_of_reduce? hshape hrun⟩
  · intro t b ht hb hlen
    have hshape : t.WellShaped := ht.wellShaped
    have hne : b ≠ [] := hb.wellShaped
    obtain ⟨a, rfl⟩ := hshape.exists_stored
    let s : LinearSystem α := ⟨a, ⟨b, hne⟩, by rw [← Table.length_rows_stored]; exact hlen, none⟩
    obtain ⟨w, hrun, hrank, hrows⟩ := s.augmented.exists_reduce?_stored s.unknowns true
    have hreduce : (a.stored.joined b).reduce? a.stored.ncols true = some w := by
      rw [← hrun]
      exact congrArg (Table.reduce? · s.unknowns true) s.joined_stored
    refine ⟨s, w, rfl, hreduce, s.candidate?_stored, fun hfull => ?_⟩
    obtain ⟨hheight, hwidth⟩ := Table.bounds_of_reduce?_joined hshape hreduce hfull
    exact ⟨hheight, hwidth, s.substituteBack?_yields (hrank.symm.trans hfull) hrows⟩

/-- The coefficients of `2 * y = 4`, `x + y = 5` and `x + 3 * y = 9`, the first of which leaves no
pivot in its place. -/
def crossedLines : Table Fraction where
  rows := [[0, .ofInt 2], [1, 1], [1, .ofInt 3]]
  ncols := 2

/-- The joined table is changed five times until there is a pivot for each of the two variables. -/
theorem construction_keeps_shape_crossedLines :
    crossedLines.WellShaped ∧
    ∃ (s : LinearSystem Fraction) (w : Workspace Fraction),
      s.stored = (crossedLines, [.ofInt 4, .ofInt 5, .ofInt 9]) ∧
      (crossedLines.joined [.ofInt 4, .ofInt 5, .ofInt 9]).reduce? 2 true = some w ∧
      w.rank = 2 ∧ w.past.length = 5 ∧ 2 ≤ w.rows.length ∧ (∀ r ∈ w.rows, r.length = 3) ∧
      Yields (Table.substituteBack? w.rows 2)
        (LinearSystem.backSubstitute? 2 0 s.normalizedReduction.pivots) := by
  have hshape : crossedLines.WellShaped := ⟨by decide, by decide, by decide⟩
  obtain ⟨hreachable, -, -, hsystems⟩ := construction_keeps_shape Fraction
  obtain ⟨s, w, hstored, hreduce, -, hbounds⟩ := hsystems crossedLines
    [.ofInt 4, .ofInt 5, .ofInt 9] ((hreachable (.matrix crossedLines)).mpr hshape)
    ((hreachable (.vector _)).mpr (List.cons_ne_nil _ _)) rfl
  have hsizes : ((crossedLines.joined [.ofInt 4, .ofInt 5, .ofInt 9]).reduce? crossedLines.ncols
      true).map (fun w => (w.rank, w.past.length)) = some (2, 5) := by decide
  rw [hreduce] at hsizes
  obtain ⟨hrank, hpast⟩ := Prod.mk.inj (Option.some.inj hsizes)
  exact ⟨hshape, s, w, hstored, hreduce, hrank, hpast, hbounds hrank⟩

end Reachable

end RowReduction

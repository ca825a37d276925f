import RowReduction.Proofs.Shape.Elimination
import RowReduction.LinearSystem.Solver

/-!
# Solving in place

The values of the variables are written from the last place of a list of zeros
to the first, each from the row of the reduced table with its number. There is a
row for each variable once the reduction has found as many pivots as there are
variables, because it never finds more pivots than rows. On the table of a
linear system no entry is missing, and the outcome is that of the system.
-/

namespace RowReduction

open Access Components

namespace Access

variable {β γ δ : Type}

/-- The computation asks for no place outside a list, and has the given value if it has one. -/
def Yields (x : Access β) (y : Option β) : Prop :=
  x.run.map Except.toOption = some y

/-- A computation goes on from the stored form of the value that the one before yields. -/
theorem Yields.bind {stored : β → γ} {x : Access γ} {y : Option β} {f : γ → Access δ}
    {g : β → Option δ} (hx : Yields x (y.map stored))
    (hf : ∀ b, y = some b → Yields (f (stored b)) (g b)) : Yields (x >>= f) (y.bind g) := by
  obtain ⟨outcome, hrun, hvalue⟩ := Option.map_eq_some_iff.mp hx
  unfold Yields
  rw [ExceptT.run_bind, hrun]
  cases y with
  | none =>
      cases outcome with
      | error e => rfl
      | ok c => cases hvalue
  | some b =>
      cases outcome with
      | error e => cases hvalue
      | ok c =>
          obtain rfl : c = stored b := Option.some.inj hvalue
          exact hf b rfl

end Access

variable {α : Type} [Scalar α]

namespace Table

/-- The quotient by a pivot, which is the value itself if the pivot is one. -/
def quotient? (value pivot : α) : Except Error α :=
  if Scalar.isOne pivot then .ok value else Scalar.div? value pivot

/-- The value of a variable put in its place, from the row with its number and the values of the
variables after it. The constant stands in column `n`. -/
def substituteRow? (rows : List (List α)) (n : Nat) (x : List α) (i : Nat) : Access (List α) := do
  let terms ← found ((List.range' (i + 1) (n - (i + 1))).mapM fun j => do
    return (← entryAt? rows i j) * (← x[j]?))
  let constant ← found (entryAt? rows i n)
  let pivot ← found (entryAt? rows i i)
  let value ← checked (quotient? (constant - Scalar.sum terms) pivot)
  found (set? x i value)

/-- The values of all variables, put in the places of zeros from the last one up. -/
def substituteBack? (rows : List (List α)) (n : Nat) : Access (List α) :=
  (List.range n).reverse.foldlM (substituteRow? rows n) (List.replicate n 0)

section Agreement

variable {rows : List (List α)} {n i : Nat} {row : Vec α} {later : List α}

omit [Scalar α] in
theorem entryAt?_of_row (hrow : rows[i]? = some row.toList) (j : Nat) :
    entryAt? rows i j = row.toList[j]? := by
  rw [entryAt?, hrow]
  rfl

/-- The products of the known values with the entries beyond the pivot. -/
theorem mapM_known (hrow : rows[i]? = some row.toList) (hdim : row.dim = n + 1)
    (hlen : i + 1 + later.length = n) :
    ((List.range' (i + 1) (n - (i + 1))).mapM fun j => do
      return (← entryAt? rows i j) * (← (List.replicate (i + 1) 0 ++ later)[j]?)) =
      some (List.zipWith (· * ·) (row.toList.drop (i + 1)) later) := by
  have hrowLen : row.toList.length = n + 1 := hdim
  have hterms : n - (i + 1) = (List.zipWith (· * ·) (row.toList.drop (i + 1)) later).length := by
    rw [List.length_zipWith, List.length_drop]
    omega
  rw [hterms]
  apply mapM_range'_eq_some
  intro k hk
  rw [← hterms] at hk
  have hentry : entryAt? rows i (i + 1 + k) = some (row.toList[i + 1 + k]) := by
    rw [entryAt?_of_row hrow, List.getElem?_eq_getElem]
  have hvalue : (List.replicate (i + 1) 0 ++ later)[i + 1 + k]? = some later[k] := by
    rw [List.getElem?_append_right (by simp), List.length_replicate, Nat.add_sub_cancel_left,
      List.getElem?_eq_getElem]
  rw [hentry, hvalue, List.getElem_zipWith, List.getElem_drop]
  rfl

/-- The last zero gives way to the value of its variable. -/
theorem set?_replicate_append (i : Nat) (value : α) (later : List α) :
    set? (List.replicate (i + 1) 0 ++ later) i value =
      some (List.replicate i 0 ++ value :: later) := by
  have hlt : i < (List.replicate (i + 1) 0 ++ later).length := by simp; omega
  rw [set?_of_lt hlt, List.replicate_succ', List.append_assoc,
    List.set_append_right _ _ (by simp), List.length_replicate, Nat.sub_self]
  rfl

/-- A row gives the value of its variable. -/
theorem substituteRow?_yields (hrow : rows[i]? = some row.toList) (hdim : row.dim = n + 1)
    (hlen : i + 1 + later.length = n) :
    Yields (substituteRow? rows n (List.replicate (i + 1) 0 ++ later) i)
      ((LinearSystem.substitute? n i row later).map fun value =>
        List.replicate i 0 ++ value :: later) := by
  have hconstant : entryAt? rows i n = some (row.entry n) := by
    rw [entryAt?_of_row hrow]
    exact getElem?_toList (by omega)
  have hpivot : entryAt? rows i i = some (row.entry i) := by
    rw [entryAt?_of_row hrow]
    exact getElem?_toList (by omega)
  have hvalue : LinearSystem.substitute? n i row later =
      (quotient? (row.entry n - Scalar.weightedSum (row.toList.drop (i + 1)) later)
        (row.entry i)).toOption := by
    simp only [LinearSystem.substitute?, quotient?]
    split <;> rfl
  rw [hvalue, substituteRow?, mapM_known hrow hdim hlen, hconstant, hpivot]
  change Yields (checked (quotient?
      (row.entry n - Scalar.weightedSum (row.toList.drop (i + 1)) later) (row.entry i)) >>=
    fun value => found (set? (List.replicate (i + 1) 0 ++ later) i value)) _
  generalize quotient? _ (row.entry i) = quotient
  cases quotient with
  | error e => rfl
  | ok value =>
      change Yields (found (set? (List.replicate (i + 1) 0 ++ later) i value)) _
      rw [set?_replicate_append]
      rfl

theorem length_of_backSubstitute? {pivots : List (Vec α)}
    (h : LinearSystem.backSubstitute? n i pivots = some later) : later.length = pivots.length := by
  induction pivots generalizing i later with
  | nil =>
      rw [← Option.some.inj h]
      rfl
  | cons row pivots ih =>
      rw [LinearSystem.backSubstitute?] at h
      obtain ⟨known, hknown, h⟩ := Option.bind_eq_some_iff.mp h
      obtain ⟨value, -, h⟩ := Option.bind_eq_some_iff.mp h
      rw [← Option.some.inj h, List.length_cons, List.length_cons, ih hknown]

/-- The rows from a number on give the values of their variables, from the last one up. -/
theorem foldlM_substituteRow?_yields {pivots : List (Vec α)}
    (hrows : ∀ k (hk : k < pivots.length), rows[i + k]? = some pivots[k].toList)
    (hdim : ∀ row ∈ pivots, row.dim = n + 1) (hlen : i + pivots.length = n) :
    Yields ((List.range' i pivots.length).reverse.foldlM (substituteRow? rows n)
        (List.replicate n 0))
      ((LinearSystem.backSubstitute? n i pivots).map (List.replicate i 0 ++ ·)) := by
  induction pivots generalizing i with
  | nil =>
      obtain rfl : i = n := hlen
      rw [LinearSystem.backSubstitute?, Option.map_some, List.append_nil]
      rfl
  | cons row pivots ih =>
      have hrow : rows[i]? = some row.toList := hrows 0 (by simp)
      have htail := ih (i := i + 1)
        (fun k hk => by
          rw [Nat.add_assoc, Nat.add_comm 1 k]
          exact hrows (k + 1) (by simpa using hk))
        (fun r hr => hdim r (by simp [hr]))
        (by rw [← hlen, List.length_cons]; omega)
      rw [List.length_cons, List.range'_succ, List.reverse_cons, List.foldlM_append,
        LinearSystem.backSubstitute?, Option.bind_eq_bind, Option.map_bind]
      apply htail.bind
      intro later hlater
      have hlast : i + 1 + later.length = n := by
        rw [length_of_backSubstitute? hlater, ← hlen, List.length_cons]
        omega
      have hstep := substituteRow?_yields hrow (hdim row (by simp)) hlast
      simp only [List.foldlM_cons, List.foldlM_nil, bind_pure, Function.comp_apply]
      cases hvalue : LinearSystem.substitute? n i row later with
      | none => rwa [hvalue] at hstep
      | some value => rwa [hvalue] at hstep

end Agreement

/-- The values of the variables, if the reduction of the joined table finds a pivot for every
variable. -/
def candidate? (t : Table α) (b : List α) : Option (Option (List α)) := do
  let w ← (t.joined b).reduce? t.ncols true
  if w.rank = t.ncols then
    let x ← (substituteBack? w.rows t.ncols).run
    return (x.bind make?).toOption
  else return none

/-- The ranks that reductions of the table and of the joined table give. -/
def stats? (t : Table α) (b : List α) : Option Stats := do
  let w ← t.reduce? t.ncols false
  let v ← (t.joined b).reduce? (t.joined b).ncols false
  return ⟨w.rank, v.rank, t.ncols⟩

/-- The products of the table with the values are the constants. -/
def verify (t : Table α) (b x : List α) : Bool :=
  match t.mulVec? x with
  | .ok y => y == b
  | .error _ => false

/-- The values that solve a system, if exactly one does and the found ones satisfy it. -/
def solution? (t : Table α) (b : List α) : Option (Option (List α)) := do
  let stats ← t.stats? b
  if stats.solutionType = .unique then
    return (← t.candidate? b).filter (t.verify b)
  else return none

/-- The first rows of a reduction with as many pivots as variables are enough for substitution,
and long enough. -/
theorem bounds_of_reduce?_joined {t : Table α} (ht : t.WellShaped) {b : List α} {w : Workspace α}
    (hw : (t.joined b).reduce? t.ncols true = some w) (hrank : w.rank = t.ncols) :
    t.ncols ≤ w.rows.length ∧ ∀ r ∈ w.rows, r.length = t.ncols + 1 := by
  have hrow : ∀ r ∈ (t.joined b).rows, r.length = t.ncols + 1 := by
    intro r hr
    obtain ⟨s, hs, x, -, rfl⟩ := Mat.exists_of_mem_zipWith hr
    rw [List.length_append, List.length_singleton, ht.length_row s hs]
  have hshaped := Workspace.shaped_of_reduce? hrow hw
  constructor
  · rw [hshaped.length_rows w.rows (by simp), ← hrank]
    exact hshaped.rank_le
  · exact hshaped.length_row w.rows (by simp)

end Table

namespace LinearSystem

variable (s : LinearSystem α)

omit [Scalar α] in
theorem joined_stored :
    s.coefficients.stored.joined s.constants.toList =
      (s.coefficients.augment s.constants).stored :=
  Table.joined_stored ..

/-- With a pivot for every variable, the rows of the reduced table give the values of the
variables. -/
theorem substituteBack?_yields {w : Workspace α} (hfull : s.normalizedReduction.rank = s.unknowns)
    (hrows : w.rows = s.normalizedReduction.rows.map Vec.toList) :
    Yields (Table.substituteBack? w.rows s.unknowns)
      (backSubstitute? s.unknowns 0 s.normalizedReduction.pivots) := by
  have hlen : s.normalizedReduction.pivots.length = s.unknowns := hfull
  have hdim : ∀ row ∈ s.normalizedReduction.pivots, row.dim = s.unknowns + 1 := by
    intro row hrow
    exact (s.augmented.run_reduce s.unknowns true).uniform s.augmented.dim_row row
      (List.mem_append_left _ hrow)
  have hplaces : ∀ k (hk : k < s.normalizedReduction.pivots.length),
      w.rows[0 + k]? = some s.normalizedReduction.pivots[k].toList := by
    intro k hk
    rw [Nat.zero_add, hrows, List.getElem?_map, Reduction.rows, List.getElem?_append_left hk,
      List.getElem?_eq_getElem hk]
    rfl
  have hyields := Table.foldlM_substituteRow?_yields hplaces hdim (by omega)
  rw [hlen, ← List.range_eq_range'] at hyields
  simp only [List.replicate_zero, List.nil_append, Option.map_id'] at hyields
  exact hyields

theorem candidate?_stored :
    s.coefficients.stored.candidate? s.constants.toList = some (s.candidate?.map Vec.toList) := by
  obtain ⟨w, hrun, hrank, hrows⟩ := s.augmented.exists_reduce?_stored s.unknowns true
  have hreduce : (s.coefficients.stored.joined s.constants.toList).reduce?
      s.coefficients.stored.ncols true = some w := by
    rw [s.joined_stored]
    exact hrun
  rw [Table.candidate?, hreduce, candidate?]
  change (if w.rank = s.unknowns then _ else _) = _
  rw [show w.rank = s.normalizedReduction.rank from hrank]
  by_cases hfull : s.normalizedReduction.rank = s.unknowns
  · obtain ⟨outcome, houtcome, hvalue⟩ :=
      Option.map_eq_some_iff.mp (s.substituteBack?_yields hfull hrows)
    rw [if_pos hfull, if_pos hfull, ← hvalue]
    change (ExceptT.run (Table.substituteBack? w.rows s.unknowns) >>= _) = _
    rw [houtcome]
    cases outcome with
    | error e => rfl
    | ok xs => cases xs <;> rfl
  · rw [if_neg hfull, if_neg hfull]
    rfl

theorem stats?_stored :
    s.coefficients.stored.stats? s.constants.toList = some s.computeStats := by
  obtain ⟨w, hrun, hrank, -⟩ :=
    s.coefficients.exists_reduce?_stored s.coefficients.stored.ncols false
  obtain ⟨v, hrun', hrank', -⟩ := s.augmented.exists_reduce?_stored s.augmented.stored.ncols false
  have hjoined : s.coefficients.stored.joined s.constants.toList = s.augmented.stored :=
    s.joined_stored
  rw [Table.stats?, hjoined, hrun, hrun']
  change some (⟨w.rank, v.rank, s.unknowns⟩ : Stats) = _
  rw [hrank, hrank']
  rfl

theorem verify_stored (x : Vec α) :
    s.coefficients.stored.verify s.constants.toList x.toList = s.verify x := by
  unfold Table.verify verify
  rw [Table.mulVec?_eq]
  cases s.coefficients.mulVec? x <;> rfl

/-- Solving a new system in place gives its solution. -/
theorem solution?_stored (hs : s.outcome = none) :
    s.coefficients.stored.solution? s.constants.toList =
      some (s.solve.solution?.map Vec.toList) := by
  have hsolve : s.solve.solution? = s.resolve.1.solution := by
    unfold solution? solve settle
    rw [hs]
    rfl
  rw [hsolve, Table.solution?, s.stats?_stored, s.candidate?_stored]
  change (if s.computeStats.solutionType = .unique then _ else _) = _
  unfold resolve
  dsimp only
  by_cases hunique : s.computeStats.solutionType = .unique
  · rw [if_pos hunique, if_pos hunique]
    unfold solveUnique
    cases s.candidate? with
    | none => rfl
    | some x =>
        change some (Option.filter (s.coefficients.stored.verify s.constants.toList)
          (some x.toList)) = _
        rw [Option.filter_some, s.verify_stored]
        dsimp only
        split <;> rfl
  · rw [if_neg hunique, if_neg hunique]
    rfl

theorem solution?_agrees (hs : s.outcome = none) :
    Agrees (Option.map Vec.toList)
      (found (s.coefficients.stored.solution? s.constants.toList)) (.ok s.solve.solution?) :=
  Agrees.found (s.solution?_stored hs)

end LinearSystem

end RowReduction

import RowReduction.Proofs.Shape.Table

/-!
# Row reduction in place

The reduction of a table in its own list of rows: rows change places, are scaled
and are added to each other by their numbers, and every list of rows that comes
up on the way is remembered. Whatever the rows are, no step changes their number
or their lengths, and there are never more pivots than rows.
-/

namespace RowReduction

/-- A table under reduction: its rows, the lists of rows it had before from the last to the
first, and the number of pivots found. -/
structure Workspace (α : Type) where
  rows : List (List α)
  past : List (List (List α))
  rank : Nat

namespace Workspace

variable {α : Type}

/-- The same number of pivots in other rows. -/
def put (rows : List (List α)) (w : Workspace α) : Workspace α :=
  { w with rows := rows, past := w.rows :: w.past }

/-- Two rows change places. -/
def swapRows? (i k : Nat) (w : Workspace α) : Option (Workspace α) := do
  let r ← w.rows[i]?
  let s ← w.rows[k]?
  return w.put ((w.rows.set i s).set k r)

/-- The row in a place and the row of the next pivot change places, unless they are one. -/
def bringRow? (i : Nat) (w : Workspace α) : Option (Workspace α) :=
  if i = w.rank then some w else w.swapRows? w.rank i

variable [Scalar α]

/-- The scalar times every entry of a row. -/
def scaleRow? (i : Nat) (c : α) (w : Workspace α) : Option (Workspace α) := do
  let r ← w.rows[i]?
  return w.put (w.rows.set i (Components.scale c r))

/-- Every entry plus a multiple of the entry in the same place of a source, as far as the source
goes. -/
def addScaled (c : α) (source target : List α) : List α :=
  List.zipWith (fun t s => t + c * s) target source ++ target.drop source.length

/-- A row plus a multiple of another row. -/
def addScaledRow? (source target : Nat) (c : α) (w : Workspace α) : Option (Workspace α) := do
  let s ← w.rows[source]?
  let t ← w.rows[target]?
  return w.put (w.rows.set target (addScaled c s t))

/-- The first row from a place on whose entry in a column does not count as zero. -/
def findPivotRow? (start column : Nat) (w : Workspace α) : Option (Option Nat) :=
  (List.range' start (w.rows.length - start)).findM? fun i => do
    return !Scalar.isZero (← Table.entryAt? w.rows i column)

/-- The pivot row scaled by the inverse of its pivot, if pivots are to be one. -/
def scalePivotRow? (normalize : Bool) (inverse : α) (w : Workspace α) : Option (Workspace α) :=
  if normalize then w.scaleRow? w.rank inverse else some w

/-- A row below the pivot row with its entry in the column of the pivot removed. -/
def clearRow? (normalize : Bool) (column : Nat) (inverse : α) (w : Workspace α) (i : Nat) :
    Option (Workspace α) := do
  let entry ← Table.entryAt? w.rows i column
  if Scalar.isZero entry then return w
  else w.addScaledRow? w.rank i (-(if normalize then entry else entry * inverse))

/-- The entries of a column removed from all rows below the pivot row. -/
def clearBelow? (normalize : Bool) (column : Nat) (inverse : α) (w : Workspace α) :
    Option (Workspace α) :=
  (List.range' (w.rank + 1) (w.rows.length - (w.rank + 1))).foldlM
    (clearRow? normalize column inverse) w

/-- What the reduction does in a column whose pivot stands in a row. -/
def eliminate? (normalize : Bool) (column i : Nat) (w : Workspace α) : Option (Workspace α) := do
  let brought ← w.bringRow? i
  match Scalar.inv? (← Table.entryAt? brought.rows w.rank column) with
  | .error _ => return brought
  | .ok inverse =>
      let scaled ← brought.scalePivotRow? normalize inverse
      let cleared ← scaled.clearBelow? normalize column inverse
      return { cleared with rank := w.rank + 1 }

/-- What the reduction does in a column: nothing if every row has a pivot or no row can be one. -/
def visitColumn? (normalize : Bool) (w : Workspace α) (column : Nat) : Option (Workspace α) :=
  if w.rank = w.rows.length then some w
  else do
    match ← w.findPivotRow? w.rank column with
    | none => return w
    | some i => w.eliminate? normalize column i

end Workspace

/-- The reduction of a table in its first columns. -/
def Table.reduce? {α : Type} [Scalar α] (t : Table α) (columns : Nat) (normalize : Bool) :
    Option (Workspace α) :=
  (List.range (min columns t.ncols)).foldlM (Workspace.visitColumn? normalize) ⟨t.rows, [], 0⟩

namespace Workspace

variable {α : Type}

section Shape

/-- All lists of rows, past and present, are as many rows of one length, and there are no more
pivots than rows. -/
structure Shaped (m n : Nat) (w : Workspace α) : Prop where
  length_rows : ∀ rows ∈ w.rows :: w.past, rows.length = m
  length_row : ∀ rows ∈ w.rows :: w.past, ∀ r ∈ rows, r.length = n
  rank_le : w.rank ≤ m

variable {m n : Nat} {w w' : Workspace α}

theorem Shaped.put {rows : List (List α)} (h : w.Shaped m n) (hlen : rows.length = m)
    (hrow : ∀ r ∈ rows, r.length = n) : (w.put rows).Shaped m n where
  length_rows := List.forall_mem_cons.mpr ⟨hlen, h.length_rows⟩
  length_row := List.forall_mem_cons.mpr ⟨hrow, h.length_row⟩
  rank_le := h.rank_le

theorem Shaped.set {i : Nat} {r : List α} (h : w.Shaped m n) (hr : r.length = n) :
    (w.put (w.rows.set i r)).Shaped m n := by
  apply h.put
  · rw [List.length_set]
    exact h.length_rows _ (by simp)
  · intro s hs
    rcases List.mem_or_eq_of_mem_set hs with hs | rfl
    · exact h.length_row _ (by simp) s hs
    · exact hr

theorem Shaped.length_of_getElem? {i : Nat} {r : List α} (h : w.Shaped m n)
    (hr : w.rows[i]? = some r) : r.length = n :=
  h.length_row _ (by simp) r (List.mem_of_getElem? hr)

theorem Shaped.swapRows? {i k : Nat} (h : w.Shaped m n) (hw : w.swapRows? i k = some w') :
    w'.Shaped m n := by
  unfold Workspace.swapRows? at hw
  obtain ⟨r, hr, hw⟩ := Option.bind_eq_some_iff.mp hw
  obtain ⟨s, hs, hw⟩ := Option.bind_eq_some_iff.mp hw
  rw [← Option.some.inj hw]
  apply h.put
  · rw [List.length_set, List.length_set]
    exact h.length_rows _ (by simp)
  · intro q hq
    rcases List.mem_or_eq_of_mem_set hq with hq | rfl
    · have hset : (w.put (w.rows.set i s)).Shaped m n := h.set (h.length_of_getElem? hs)
      exact hset.length_row (w.rows.set i s) (List.mem_cons_self ..) q hq
    · exact h.length_of_getElem? hr

theorem Shaped.bringRow? {i : Nat} (h : w.Shaped m n) (hw : w.bringRow? i = some w') :
    w'.Shaped m n := by
  unfold Workspace.bringRow? at hw
  split at hw
  · exact Option.some.inj hw ▸ h
  · exact h.swapRows? hw

variable [Scalar α]

theorem length_addScaled (c : α) (source target : List α) :
    (addScaled c source target).length = target.length := by
  rw [addScaled, List.length_append, List.length_zipWith, List.length_drop]
  omega

theorem Shaped.scaleRow? {i : Nat} {c : α} (h : w.Shaped m n) (hw : w.scaleRow? i c = some w') :
    w'.Shaped m n := by
  unfold Workspace.scaleRow? at hw
  obtain ⟨r, hr, hw⟩ := Option.bind_eq_some_iff.mp hw
  rw [← Option.some.inj hw]
  exact h.set (by rw [Components.scale, List.length_map, h.length_of_getElem? hr])

theorem Shaped.addScaledRow? {source target : Nat} {c : α} (h : w.Shaped m n)
    (hw : w.addScaledRow? source target c = some w') : w'.Shaped m n := by
  unfold Workspace.addScaledRow? at hw
  obtain ⟨s, -, hw⟩ := Option.bind_eq_some_iff.mp hw
  obtain ⟨t, ht, hw⟩ := Option.bind_eq_some_iff.mp hw
  rw [← Option.some.inj hw]
  exact h.set (by rw [length_addScaled, h.length_of_getElem? ht])

theorem Shaped.scalePivotRow? {normalize : Bool} {inverse : α} (h : w.Shaped m n)
    (hw : w.scalePivotRow? normalize inverse = some w') : w'.Shaped m n := by
  unfold Workspace.scalePivotRow? at hw
  split at hw
  · exact h.scaleRow? hw
  · exact Option.some.inj hw ▸ h

theorem Shaped.clearRow? {normalize : Bool} {column i : Nat} {inverse : α} (h : w.Shaped m n)
    (hw : w.clearRow? normalize column inverse i = some w') : w'.Shaped m n := by
  unfold Workspace.clearRow? at hw
  obtain ⟨entry, -, hw⟩ := Option.bind_eq_some_iff.mp hw
  split at hw
  · exact Option.some.inj hw ▸ h
  · exact h.addScaledRow? hw

theorem Shaped.clearBelow? {normalize : Bool} {column : Nat} {inverse : α} (h : w.Shaped m n)
    (hw : w.clearBelow? normalize column inverse = some w') : w'.Shaped m n :=
  foldlM_invariant (P := Shaped m n) (fun _ _ _ hshaped hstep => hshaped.clearRow? hstep) h hw

theorem Shaped.eliminate? {normalize : Bool} {column i : Nat} (h : w.Shaped m n)
    (hlt : w.rank < m) (hw : w.eliminate? normalize column i = some w') : w'.Shaped m n := by
  unfold Workspace.eliminate? at hw
  obtain ⟨brought, hbrought, hw⟩ := Option.bind_eq_some_iff.mp hw
  obtain ⟨pivot, -, hw⟩ := Option.bind_eq_some_iff.mp hw
  have hshaped : brought.Shaped m n := h.bringRow? hbrought
  split at hw
  · exact Option.some.inj hw ▸ hshaped
  · obtain ⟨scaled, hscaled, hw⟩ := Option.bind_eq_some_iff.mp hw
    obtain ⟨cleared, hcleared, hw⟩ := Option.bind_eq_some_iff.mp hw
    have hend : cleared.Shaped m n := (hshaped.scalePivotRow? hscaled).clearBelow? hcleared
    rw [← Option.some.inj hw]
    exact ⟨hend.length_rows, hend.length_row, hlt⟩

/-- A column is visited without a change of shape. -/
theorem Shaped.visitColumn? {normalize : Bool} {column : Nat} (h : w.Shaped m n)
    (hw : w.visitColumn? normalize column = some w') : w'.Shaped m n := by
  unfold Workspace.visitColumn? at hw
  split at hw
  · exact Option.some.inj hw ▸ h
  · rename_i hrank
    have hlt : w.rank < m := by
      rw [h.length_rows w.rows (by simp)] at hrank
      exact Nat.lt_of_le_of_ne h.rank_le hrank
    obtain ⟨found, -, hw⟩ := Option.bind_eq_some_iff.mp hw
    cases found with
    | none => exact Option.some.inj hw ▸ h
    | some i => exact h.eliminate? hlt hw

/-- A reduction keeps the shape of its table in all lists of rows that come up. -/
theorem shaped_of_reduce? {t : Table α} (ht : ∀ r ∈ t.rows, r.length = t.ncols) {columns : Nat}
    {normalize : Bool} (hw : t.reduce? columns normalize = some w) :
    w.Shaped t.rows.length t.ncols := by
  have hstart : (⟨t.rows, [], 0⟩ : Workspace α).Shaped t.rows.length t.ncols :=
    ⟨by simp, by simpa using ht, Nat.zero_le _⟩
  exact foldlM_invariant (P := Shaped t.rows.length t.ncols)
    (fun _ _ _ hshaped hstep => hshaped.visitColumn? hstep) hstart hw

/-- The reduction of a well-shaped table passes through well-shaped tables only. -/
theorem wellShaped_of_reduce? {t : Table α} (ht : t.WellShaped) {columns : Nat}
    {normalize : Bool} (hw : t.reduce? columns normalize = some w) :
    ∀ rows ∈ w.rows :: w.past,
      rows.length = t.rows.length ∧ (⟨rows, t.ncols⟩ : Table α).WellShaped := by
  have hshaped := shaped_of_reduce? ht.length_row hw
  intro rows hrows
  have hlen : rows.length = t.rows.length := hshaped.length_rows rows hrows
  have hne : rows ≠ [] := by
    apply List.length_pos_iff.mp
    rw [hlen]
    exact List.length_pos_iff.mpr ht.rows_ne_nil
  exact ⟨hlen, hne, ht.ncols_pos, hshaped.length_row rows hrows⟩

end Shape

end Workspace

end RowReduction

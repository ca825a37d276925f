import RowReduction.Proofs.Shape.Workspace
import RowReduction.Proofs.Reduction.Run

/-!
# Row reduction in place and row by row

On the table of a matrix the reduction in place misses no row and no entry, and
the rows at the end are those of the reduction that sets its pivots aside.

## Implementation notes

The pivots that are set aside are the first rows of the table, and the rows that
are left stand below them. The agreement is an induction on the run of the
reduction, with the rows above as a list that grows.
-/

namespace RowReduction

namespace Workspace

variable {α : Type}

section Agreement

variable [Scalar α] {normalize : Bool} {w : Workspace α}

/-- The rows of the table are those above a place and then the given rows. -/
def Holds (above : List (List α)) (rest : List (Vec α)) (w : Workspace α) : Prop :=
  w.rows = above ++ rest.map Vec.toList

variable {above : List (List α)} {rest : List (Vec α)}

omit [Scalar α] in
theorem Holds.length_rows (h : w.Holds above rest) :
    w.rows.length = above.length + rest.length := by
  rw [h, List.length_append, List.length_map]

omit [Scalar α] in
theorem Holds.getElem? (h : w.Holds above rest) (k : Nat) :
    w.rows[above.length + k]? = rest[k]?.map Vec.toList := by
  rw [h, List.getElem?_append_right (Nat.le_add_right ..), Nat.add_sub_cancel_left,
    List.getElem?_map]

theorem Holds.entryAt? (h : w.Holds above rest) {column k : Nat} {v : Vec α}
    (hv : rest[k]? = some v) (hcolumn : column < v.dim) :
    Table.entryAt? w.rows (above.length + k) column = some (v.entry column) := by
  rw [Table.entryAt?, h.getElem? k, hv]
  exact Table.getElem?_toList hcolumn

/-- The pivot row is looked for among the rows that are left. -/
theorem Holds.findPivotRow? (h : w.Holds above rest) {column : Nat}
    (hcolumn : ∀ v ∈ rest, column < v.dim) :
    w.findPivotRow? above.length column =
      some ((rest.findIdx? (Reduction.isPivot column)).map (above.length + ·)) := by
  rw [Workspace.findPivotRow?, h.length_rows, Nat.add_sub_cancel_left]
  apply findM?_range'
  intro k hk
  rw [h.entryAt? (List.getElem?_eq_getElem hk) (hcolumn _ (List.getElem_mem hk))]
  rfl

omit [Scalar α] in
theorem Holds.set (h : w.Holds above rest) (k : Nat) (v : Vec α) :
    (w.put (w.rows.set (above.length + k) v.toList)).Holds above (rest.set k v) := by
  change w.rows.set (above.length + k) v.toList = _
  rw [h, List.set_append_right _ _ (Nat.le_add_right ..), Nat.add_sub_cancel_left, List.map_set]

omit [Scalar α] in
theorem holds_concat {v : Vec α} :
    w.Holds (above ++ [v.toList]) rest ↔ w.Holds above (v :: rest) := by
  simp [Holds]

omit [Scalar α] in
/-- The chosen row is brought to the top of the rows that are left. -/
theorem Holds.bringRow? (h : w.Holds above rest) (hrank : w.rank = above.length)
    {test : Vec α → Bool} {c : PivotChoice (Vec α)}
    (hc : PivotChoice.first? test rest = some c) :
    ∃ w', w.bringRow? (above.length + c.offset) = some w' ∧ w'.rank = w.rank ∧
      w'.Holds above (c.pivot :: c.others) := by
  cases rest with
  | nil => simp [PivotChoice.first?] at hc
  | cons r rs =>
      rw [PivotChoice.first?] at hc
      split at hc
      · obtain rfl := Option.some.inj hc
        exact ⟨w, if_pos hrank.symm, rfl, h⟩
      · obtain ⟨k, hoffset, -, hpivot, hothers⟩ := PivotChoice.exists_place_of_exchange? hc
        have hne : above.length + c.offset ≠ w.rank := by omega
        have hfirst : w.rows[w.rank]? = some r.toList := by
          rw [hrank]
          exact h.getElem? 0
        have hchosen : w.rows[above.length + c.offset]? = some c.pivot.toList := by
          rw [h.getElem?, hoffset, List.getElem?_cons_succ, hpivot]
          rfl
        refine ⟨w.put ((w.rows.set w.rank c.pivot.toList).set (above.length + c.offset) r.toList),
          ?_, rfl, ?_⟩
        · rw [Workspace.bringRow?, if_neg hne, Workspace.swapRows?, hfirst, hchosen]
          rfl
        · have hboth := (h.set 0 c.pivot).set c.offset r
          rw [hrank, hothers]
          rw [hoffset] at hboth ⊢
          exact hboth

theorem Holds.scalePivotRow? (normalize : Bool) {pivot : Vec α}
    (h : w.Holds above (pivot :: rest)) (hrank : w.rank = above.length) (inverse : α) :
    ∃ w', w.scalePivotRow? normalize inverse = some w' ∧ w'.rank = w.rank ∧
      w'.Holds above (Reduction.pivotRow normalize inverse pivot :: rest) := by
  cases normalize with
  | false => exact ⟨w, rfl, rfl, h⟩
  | true =>
      have hpivot : w.rows[w.rank]? = some pivot.toList := by
        rw [hrank]
        exact h.getElem? 0
      refine ⟨w.put (w.rows.set w.rank (pivot.scale inverse).toList), ?_, rfl, ?_⟩
      · rw [Workspace.scalePivotRow?, if_pos rfl, Workspace.scaleRow?, hpivot]
        rfl
      · rw [hrank]
        exact h.set 0 (pivot.scale inverse)

theorem addScaled_toList (c : α) {source target : Vec α} (h : target.dim = source.dim) :
    addScaled c source.toList target.toList =
      (Vec.zipWith (fun t s => t + c * s) target source).toList := by
  have hrest : target.toList.drop source.toList.length = [] :=
    List.drop_eq_nil_of_le (Nat.le_of_eq h)
  rw [addScaled, hrest, List.append_nil]
  rfl

theorem Holds.addScaledRow? {source target : Vec α} (h : w.Holds above (target :: rest))
    (hsource : above[w.rank]? = some source.toList) (hdim : target.dim = source.dim) (c : α) :
    ∃ w', w.addScaledRow? w.rank above.length c = some w' ∧ w'.rank = w.rank ∧
      w'.Holds above (Vec.zipWith (fun t s => t + c * s) target source :: rest) := by
  have hread : w.rows[w.rank]? = some source.toList := by
    rw [h, List.getElem?_append_left (List.getElem?_eq_some_iff.mp hsource).1, hsource]
  have htarget : w.rows[above.length]? = some target.toList := h.getElem? 0
  refine ⟨w.put (w.rows.set above.length (addScaled c source.toList target.toList)), ?_, rfl, ?_⟩
  · rw [Workspace.addScaledRow?, hread, htarget]
    rfl
  · rw [addScaled_toList c hdim]
    exact h.set 0 _

/-- One row is cleared. -/
theorem Holds.clearRow? (normalize : Bool) {pivot v : Vec α} {column : Nat}
    (h : w.Holds above (v :: rest)) (hpivot : above[w.rank]? = some pivot.toList)
    (hdim : v.dim = pivot.dim) (hcolumn : column < v.dim) (inverse : α) :
    ∃ w', w.clearRow? normalize column inverse above.length = some w' ∧ w'.rank = w.rank ∧
      w'.Holds above (Reduction.clear normalize column inverse pivot v :: rest) := by
  have hentry : Table.entryAt? w.rows above.length column = some (v.entry column) :=
    h.entryAt? (k := 0) rfl hcolumn
  unfold Workspace.clearRow? Reduction.clear
  rw [hentry, Option.bind_eq_bind, Option.bind_some]
  by_cases hzero : Scalar.isZero (v.entry column) = true
  · rw [if_pos hzero, if_pos hzero]
    exact ⟨w, rfl, rfl, h⟩
  · rw [if_neg hzero, if_neg hzero]
    exact h.addScaledRow? hpivot hdim _

/-- The rows that are left are cleared one after the other, and each one counts to the rows above
from then on. -/
theorem Holds.foldlM_clearRow? (normalize : Bool) {pivot : Vec α} {column : Nat} (inverse : α)
    (h : w.Holds above rest) (hpivot : above[w.rank]? = some pivot.toList)
    (hdim : ∀ v ∈ rest, v.dim = pivot.dim) (hcolumn : column < pivot.dim) :
    ∃ w', (List.range' above.length rest.length).foldlM
        (Workspace.clearRow? normalize column inverse) w = some w' ∧ w'.rank = w.rank ∧
      w'.Holds above (rest.map (Reduction.clear normalize column inverse pivot)) := by
  induction rest generalizing w above with
  | nil => exact ⟨w, rfl, rfl, h⟩
  | cons v rest ih =>
      have hv : v.dim = pivot.dim := hdim v (by simp)
      obtain ⟨w₁, hstep, hrank, hholds⟩ :=
        h.clearRow? normalize hpivot hv (hv ▸ hcolumn) inverse
      rw [← holds_concat] at hholds
      have habove : (above ++ [(Reduction.clear normalize column inverse pivot v).toList])[w₁.rank]?
          = some pivot.toList := by
        rw [hrank, List.getElem?_append_left (List.getElem?_eq_some_iff.mp hpivot).1, hpivot]
      obtain ⟨w₂, hrun, hrank₂, hend⟩ := ih hholds habove fun u hu => hdim u (by simp [hu])
      refine ⟨w₂, ?_, hrank₂.trans hrank, holds_concat.mp hend⟩
      rw [List.length_append, List.length_singleton] at hrun
      rw [List.length_cons, List.range'_succ, List.foldlM_cons, hstep]
      exact hrun

theorem Holds.clearBelow? (normalize : Bool) {pivot : Vec α} {column : Nat} (inverse : α)
    (h : w.Holds above (pivot :: rest)) (hrank : w.rank = above.length)
    (hdim : ∀ v ∈ rest, v.dim = pivot.dim) (hcolumn : column < pivot.dim) :
    ∃ w', w.clearBelow? normalize column inverse = some w' ∧ w'.rank = w.rank ∧
      w'.Holds above (pivot :: rest.map (Reduction.clear normalize column inverse pivot)) := by
  rw [← holds_concat] at h
  have hplace : (above ++ [pivot.toList])[w.rank]? = some pivot.toList := by
    rw [hrank, List.getElem?_concat_length]
  obtain ⟨w', hrun, hrank', hend⟩ := h.foldlM_clearRow? normalize inverse hplace
    hdim hcolumn
  refine ⟨w', ?_, hrank', holds_concat.mp hend⟩
  rw [Workspace.clearBelow?, h.length_rows, hrank]
  rw [List.length_append, List.length_singleton] at hrun ⊢
  rw [Nat.add_sub_cancel_left]
  exact hrun

theorem visitColumn?_of_full {column : Nat} (h : w.rank = w.rows.length) :
    w.visitColumn? normalize column = some w :=
  if_pos h

theorem foldlM_visitColumn?_of_full {columns : List Nat} (h : w.rank = w.rows.length) :
    columns.foldlM (visitColumn? normalize) w = some w := by
  induction columns with
  | nil => rfl
  | cons column columns ih =>
      rw [List.foldlM_cons, visitColumn?_of_full h]
      exact ih

/-- While rows are left, a visit looks for a pivot among them. -/
theorem Holds.visitColumn? (h : w.Holds above rest) (hrank : w.rank = above.length)
    (hne : rest ≠ []) {column : Nat} (hcolumn : ∀ v ∈ rest, column < v.dim) :
    w.visitColumn? normalize column =
      match rest.findIdx? (Reduction.isPivot column) with
      | none => some w
      | some k => w.eliminate? normalize column (above.length + k) := by
  have hleft : w.rank ≠ w.rows.length := by
    have hpos := List.length_pos_iff.mpr hne
    rw [hrank, h.length_rows]
    omega
  rw [Workspace.visitColumn?, if_neg hleft, hrank, h.findPivotRow? hcolumn]
  cases rest.findIdx? (Reduction.isPivot column) <;> rfl

/-- A pivot without an inverse is brought up and left there. -/
theorem Holds.eliminate?_of_error (normalize : Bool) {column : Nat}
    {choice : PivotChoice (Vec α)} {e : Error} (h : w.Holds above rest)
    (hrank : w.rank = above.length)
    (hchoice : PivotChoice.first? (Reduction.isPivot column) rest = some choice)
    (hcolumn : column < choice.pivot.dim)
    (hinv : Scalar.inv? (choice.pivot.entry column) = .error e) :
    ∃ w', w.eliminate? normalize column (above.length + choice.offset) = some w' ∧
      w'.rank = w.rank ∧ w'.Holds above (choice.pivot :: choice.others) := by
  obtain ⟨brought, hbrought, hrank', hholds⟩ := h.bringRow? hrank hchoice
  have hentry : Table.entryAt? brought.rows w.rank column = some (choice.pivot.entry column) := by
    rw [hrank]
    exact hholds.entryAt? (k := 0) rfl hcolumn
  refine ⟨brought, ?_, hrank', hholds⟩
  simp only [Workspace.eliminate?, hbrought, hentry, hinv, Option.bind_eq_bind, Option.bind_some,
    Option.pure_def]

/-- A pivot with an inverse is brought up, and the rows below it are cleared. -/
theorem Holds.eliminate?_of_ok (normalize : Bool) {column : Nat}
    {choice : PivotChoice (Vec α)} {inverse : α} (h : w.Holds above rest)
    (hrank : w.rank = above.length)
    (hchoice : PivotChoice.first? (Reduction.isPivot column) rest = some choice)
    (hdim : ∀ v ∈ choice.others, v.dim = choice.pivot.dim) (hcolumn : column < choice.pivot.dim)
    (hinv : Scalar.inv? (choice.pivot.entry column) = .ok inverse) :
    ∃ w', w.eliminate? normalize column (above.length + choice.offset) = some w' ∧
      w'.rank = w.rank + 1 ∧
      w'.Holds above (Reduction.pivotRow normalize inverse choice.pivot ::
        Reduction.cleared normalize column inverse choice) := by
  obtain ⟨brought, hbrought, hrank₁, hholds₁⟩ := h.bringRow? hrank hchoice
  have hentry : Table.entryAt? brought.rows w.rank column = some (choice.pivot.entry column) := by
    rw [hrank]
    exact hholds₁.entryAt? (k := 0) rfl hcolumn
  obtain ⟨scaled, hscaled, hrank₂, hholds₂⟩ :=
    hholds₁.scalePivotRow? normalize (hrank₁.trans hrank) inverse
  have hplace : scaled.rank = above.length := by rw [hrank₂, hrank₁, hrank]
  obtain ⟨cleared, hcleared, -, hholds₃⟩ :=
    hholds₂.clearBelow? normalize inverse hplace (by simpa using hdim)
      ((Reduction.dim_pivotRow inverse choice.pivot).symm ▸ hcolumn)
  refine ⟨{ cleared with rank := w.rank + 1 }, ?_, rfl, hholds₃⟩
  simp only [Workspace.eliminate?, hbrought, hentry, hinv, hscaled, hcleared, Option.bind_eq_bind,
    Option.bind_some, Option.pure_def]

/-- The visits of the columns find every place and carry out the run of a reduction. -/
theorem exists_foldlM_visitColumn? {n : Nat} {columns : List Nat} {rank : Nat} {r : Reduction α}
    (run : Reduction.Run normalize columns rank rest r) (h : w.Holds above rest)
    (hrank : w.rank = above.length) (hdim : Reduction.Uniform n rest)
    (hcolumns : ∀ column ∈ columns, column < n) :
    ∃ w', columns.foldlM (visitColumn? normalize) w = some w' ∧ w'.rank = w.rank + r.rank ∧
      w'.Holds above r.rows := by
  induction run generalizing w above with
  | finished => exact ⟨w, rfl, rfl, h⟩
  | exhausted =>
      refine ⟨w, foldlM_visitColumn?_of_full ?_, rfl, h⟩
      rw [hrank, h.length_rows]
      rfl
  | @skipped column columns rank rows tail hne hnone run ih =>
      have hcolumn : ∀ v ∈ rows, column < v.dim := fun v hv =>
        hdim v hv ▸ hcolumns column (by simp)
      have hfind : rows.findIdx? (Reduction.isPivot column) = none :=
        List.findIdx?_eq_none_iff.mpr (PivotChoice.first?_eq_none_iff.mp hnone)
      obtain ⟨w', hrun, hend⟩ := ih h hrank hdim fun c hc => hcolumns c (by simp [hc])
      refine ⟨w', ?_, hend⟩
      rw [List.foldlM_cons, h.visitColumn? hrank hne hcolumn, hfind]
      exact hrun
  | @failed column columns rank rows choice e tail hchoice hinv run ih =>
      have hne : rows ≠ [] := PivotChoice.ne_nil_of_first? hchoice
      have hcolumn : ∀ v ∈ rows, column < v.dim := fun v hv =>
        hdim v hv ▸ hcolumns column (by simp)
      have hperm := PivotChoice.perm_of_first? hchoice
      have hpivot : column < choice.pivot.dim := hcolumn _ (hperm.mem_iff.mp (by simp))
      obtain ⟨w₁, hvisit, hrank₁, hholds⟩ :=
        h.eliminate?_of_error normalize hrank hchoice hpivot hinv
      obtain ⟨w', hrun, hrank', hend⟩ := ih hholds (hrank₁.trans hrank) (hdim.perm hperm)
        fun c hc => hcolumns c (by simp [hc])
      refine ⟨w', ?_, hrank₁ ▸ hrank', hend⟩
      rw [List.foldlM_cons, h.visitColumn? hrank hne hcolumn,
        PivotChoice.findIdx?_of_first? hchoice]
      dsimp only
      rw [hvisit]
      exact hrun
  | @eliminated column columns rank rows choice inverse tail hchoice hinv run ih =>
      have hne : rows ≠ [] := PivotChoice.ne_nil_of_first? hchoice
      have hcolumn : ∀ v ∈ rows, column < v.dim := fun v hv =>
        hdim v hv ▸ hcolumns column (by simp)
      have hperm := PivotChoice.perm_of_first? hchoice
      have hpivot : column < choice.pivot.dim := hcolumn _ (hperm.mem_iff.mp (by simp))
      have hall := hdim.perm hperm
      have hothers : ∀ v ∈ choice.others, v.dim = choice.pivot.dim := by
        intro v hv
        rw [hall v (by simp [hv]), hall choice.pivot (by simp)]
      obtain ⟨w₁, hvisit, hrank₁, hholds⟩ :=
        h.eliminate?_of_ok normalize hrank hchoice hothers hpivot hinv
      rw [← holds_concat] at hholds
      obtain ⟨w', hrun, hrank', hend⟩ := ih hholds (by simp [hrank₁, hrank]) hall.cleared
        fun c hc => hcolumns c (by simp [hc])
      refine ⟨w', ?_, ?_, holds_concat.mp hend⟩
      · rw [List.foldlM_cons, h.visitColumn? hrank hne hcolumn,
          PivotChoice.findIdx?_of_first? hchoice]
        dsimp only
        rw [hvisit]
        exact hrun
      · rw [hrank', hrank₁]
        simp only [Reduction.rank, List.length_cons]
        omega

end Agreement

end Workspace

/-- The reduction of a matrix in its own rows finds every place, and ends with the rows and the
rank of the reduction. -/
theorem Mat.exists_reduce?_stored {α : Type} [Scalar α] (a : Mat α) (columns : Nat)
    (normalize : Bool) :
    ∃ w, a.stored.reduce? columns normalize = some w ∧
      w.rank = (a.reduce columns normalize).rank ∧
      w.rows = (a.reduce columns normalize).rows.map Vec.toList := by
  have hstart : (⟨a.stored.rows, [], 0⟩ : Workspace α).Holds [] a.rows := rfl
  obtain ⟨w, hrun, hrank, hrows⟩ :=
    Workspace.exists_foldlM_visitColumn? (a.run_reduce columns normalize) hstart rfl a.dim_row
      fun column hcolumn => Nat.lt_of_lt_of_le (List.mem_range.mp hcolumn) (Nat.min_le_right ..)
  exact ⟨w, hrun, by rw [hrank]; exact Nat.zero_add _, hrows⟩

end RowReduction

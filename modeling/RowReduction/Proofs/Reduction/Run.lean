import RowReduction.Proofs.Reduction.PivotChoice

/-!
# Runs of a reduction

A run says column by column what a reduction does, and the reduction of a list
of rows is its only run. Whatever the scalars are, a run neither adds nor loses
rows, keeps their dimension, and finds at most one pivot in each column. Runs
in the columns of two lists, the second in the rows that the first has left,
make one run.

## Implementation notes

The failure of an inverse has a constructor of its own. It leaves no event, so
the events alone do not tell the columns in which it happened.
-/

namespace RowReduction.Reduction

variable {α : Type} [Scalar α]

/-- The row can be the pivot of a column. -/
def isPivot (column : Nat) (row : Vec α) : Bool :=
  !Scalar.isZero (row.entry column)

/-- The pivot row as it is set aside. -/
def pivotRow (normalize : Bool) (inverse : α) (row : Vec α) : Vec α :=
  if normalize then row.scale inverse else row

/-- The rows below a pivot with their entries in its column removed. -/
def cleared (normalize : Bool) (column : Nat) (inverse : α) (choice : PivotChoice (Vec α)) :
    List (Vec α) :=
  choice.others.map (clear normalize column inverse (pivotRow normalize inverse choice.pivot))

/-- What a reduction does in the columns that are left, after a number of pivots. -/
inductive Run (normalize : Bool) : List Nat → Nat → List (Vec α) → Reduction α → Prop
  | finished {rank rows} : Run normalize [] rank rows ⟨[], rows, []⟩
  | exhausted {column columns rank} : Run normalize (column :: columns) rank [] ⟨[], [], []⟩
  | skipped {column columns rank rows tail} (hne : rows ≠ [])
      (hnone : PivotChoice.first? (isPivot column) rows = none)
      (run : Run normalize columns rank rows tail) :
      Run normalize (column :: columns) rank rows
        ⟨tail.pivots, tail.rest, .skipped column :: tail.events⟩
  | failed {column columns rank rows choice e tail}
      (hchoice : PivotChoice.first? (isPivot column) rows = some choice)
      (hinv : Scalar.inv? (choice.pivot.entry column) = .error e)
      (run : Run normalize columns rank (choice.pivot :: choice.others) tail) :
      Run normalize (column :: columns) rank rows tail
  | eliminated {column columns rank rows choice inverse tail}
      (hchoice : PivotChoice.first? (isPivot column) rows = some choice)
      (hinv : Scalar.inv? (choice.pivot.entry column) = .ok inverse)
      (run : Run normalize columns (rank + 1) (cleared normalize column inverse choice) tail) :
      Run normalize (column :: columns) rank rows
        ⟨pivotRow normalize inverse choice.pivot :: tail.pivots, tail.rest,
          .eliminated column (rank + choice.offset) rank :: tail.events⟩

variable {normalize : Bool}

/-- The reduction of a list of rows is a run. -/
theorem run_ofRows (normalize : Bool) (columns : List Nat) (rank : Nat) (rows : List (Vec α)) :
    Run normalize columns rank rows (ofRows normalize columns rank rows) := by
  fun_induction ofRows normalize columns rank rows with
  | case1 => exact Run.finished
  | case2 => exact Run.exhausted
  | case3 column columns rank r rs h tail ih => exact Run.skipped (by simp) h ih
  | case4 column columns rank r rs choice h e hinv ih => exact Run.failed h hinv ih
  | case5 column columns rank r rs choice h inverse hinv pivot tail ih =>
      exact Run.eliminated h hinv ih

/-- A run has one outcome, the reduction of its rows. -/
theorem Run.eq_ofRows {columns rank} {rows : List (Vec α)} {r : Reduction α}
    (run : Run normalize columns rank rows r) : r = ofRows normalize columns rank rows := by
  induction run with
  | finished => rw [ofRows]
  | exhausted => rw [ofRows]
  | @skipped column columns rank rows tail hne hnone run ih =>
      obtain ⟨r, rs, rfl⟩ := List.exists_cons_of_ne_nil hne
      unfold isPivot at hnone
      rw [ofRows, hnone, ih]
  | @failed column columns rank rows choice e tail hchoice hinv run ih =>
      cases rows with
      | nil => simp [PivotChoice.first?] at hchoice
      | cons r rs =>
          unfold isPivot at hchoice
          simp only [ofRows, hchoice, hinv, ih]
  | @eliminated column columns rank rows choice inverse tail hchoice hinv run ih =>
      cases rows with
      | nil => simp [PivotChoice.first?] at hchoice
      | cons r rs =>
          unfold isPivot at hchoice
          simp only [ofRows, hchoice, hinv, ih, pivotRow, cleared]

/-- The pivot rows and the rows that are left are as many as the rows at the start. -/
theorem Run.length_eq {columns rank} {rows : List (Vec α)} {r : Reduction α}
    (run : Run normalize columns rank rows r) : r.rank + r.rest.length = rows.length := by
  induction run with
  | finished => simp [Reduction.rank]
  | exhausted => simp [Reduction.rank]
  | skipped hne hnone run ih => exact ih
  | failed hchoice hinv run ih =>
      rw [ih, (PivotChoice.perm_of_first? hchoice).length_eq]
  | eliminated hchoice hinv run ih =>
      have hlen := (PivotChoice.perm_of_first? hchoice).length_eq
      simp only [Reduction.rank, cleared, List.length_map, List.length_cons] at ih hlen ⊢
      omega

/-- Each column has at most one pivot. -/
theorem Run.rank_le {columns rank} {rows : List (Vec α)} {r : Reduction α}
    (run : Run normalize columns rank rows r) : r.rank ≤ columns.length := by
  induction run with
  | finished => simp [Reduction.rank]
  | exhausted => simp [Reduction.rank]
  | skipped hne hnone run ih => exact Nat.le_succ_of_le ih
  | failed hchoice hinv run ih => exact Nat.le_succ_of_le ih
  | eliminated hchoice hinv run ih => exact Nat.succ_le_succ ih

/-- Two runs, the second in the rows that the first has left, make one run. -/
theorem Run.append {columns more rank} {rows : List (Vec α)} {r s : Reduction α}
    (run : Run normalize columns rank rows r)
    (next : Run normalize more (rank + r.rank) r.rest s) :
    Run normalize (columns ++ more) rank rows
      ⟨r.pivots ++ s.pivots, s.rest, r.events ++ s.events⟩ := by
  induction run with
  | finished => exact next
  | exhausted =>
      cases next with
      | finished => exact Run.exhausted
      | exhausted => exact Run.exhausted
      | skipped hne => exact absurd rfl hne
      | failed hchoice => simp [PivotChoice.first?] at hchoice
      | eliminated hchoice => simp [PivotChoice.first?] at hchoice
  | skipped hne hnone run ih => exact Run.skipped hne hnone (ih next)
  | failed hchoice hinv run ih => exact Run.failed hchoice hinv (ih next)
  | @eliminated column columns rank rows choice inverse tail hchoice hinv run ih =>
      have hrank : rank + (tail.rank + 1) = rank + 1 + tail.rank := by omega
      exact Run.eliminated hchoice hinv (ih (hrank ▸ next))

section Inverses

/-- Every value that does not count as zero has an inverse. -/
def InvertsNonzero (α : Type) [Scalar α] : Prop :=
  ∀ a : α, Scalar.isZero a = false → ∃ b, Scalar.inv? a = .ok b

/-- The inverse of a chosen pivot does not fail. -/
theorem inv?_ne_error (hinverts : InvertsNonzero α) {column : Nat} {rows : List (Vec α)}
    {choice : PivotChoice (Vec α)} (h : PivotChoice.first? (isPivot column) rows = some choice)
    {e : Error} : Scalar.inv? (choice.pivot.entry column) ≠ .error e := by
  intro hinv
  have hpivot := PivotChoice.test_of_first? h
  rw [isPivot, Bool.not_eq_true'] at hpivot
  obtain ⟨b, hb⟩ := hinverts _ hpivot
  rw [hinv] at hb
  cases hb

end Inverses

section Dimensions

/-- Rows of one dimension. -/
def Uniform (n : Nat) (rows : List (Vec α)) : Prop :=
  ∀ r ∈ rows, r.dim = n

omit [Scalar α] in
theorem Uniform.perm {n : Nat} {rows rows' : List (Vec α)} (h : Uniform n rows)
    (hperm : rows'.Perm rows) : Uniform n rows' :=
  fun r hr => h r (hperm.mem_iff.mp hr)

@[simp] theorem dim_pivotRow (inverse : α) (row : Vec α) :
    (pivotRow normalize inverse row).dim = row.dim := by
  unfold pivotRow
  split <;> simp [Vec.scale]

theorem dim_clear {column : Nat} {inverse : α} {pivot row : Vec α} (h : row.dim = pivot.dim) :
    (clear normalize column inverse pivot row).dim = row.dim := by
  by_cases hzero : Scalar.isZero (row.entry column) = true
  · rw [clear, if_pos hzero]
  · rw [clear, if_neg hzero, Vec.dim_zipWith, h, Nat.min_self]

/-- Removing the entries of a column keeps the dimension. -/
theorem Uniform.cleared {n column : Nat} {inverse : α} {choice : PivotChoice (Vec α)}
    (h : Uniform n (choice.pivot :: choice.others)) :
    Uniform n (cleared normalize column inverse choice) := by
  intro r hr
  obtain ⟨s, hs, rfl⟩ := List.mem_map.mp hr
  have hpivot : choice.pivot.dim = n := h _ (by simp)
  have hrow : s.dim = n := h _ (by simp [hs])
  rw [dim_clear (by simp [hpivot, hrow]), hrow]

/-- A run keeps the dimension of its rows. -/
theorem Run.uniform {n columns rank} {rows : List (Vec α)} {r : Reduction α}
    (run : Run normalize columns rank rows r) (h : Uniform n rows) : Uniform n r.rows := by
  induction run with
  | finished => exact h
  | exhausted => exact h
  | skipped hne hnone run ih => exact ih h
  | failed hchoice hinv run ih => exact ih (h.perm (PivotChoice.perm_of_first? hchoice))
  | @eliminated column columns rank rows choice inverse tail hchoice hinv run ih =>
      have hall := h.perm (PivotChoice.perm_of_first? hchoice)
      intro q hq
      rcases List.mem_cons.mp hq with rfl | hq
      · rw [dim_pivotRow]
        exact hall _ (by simp)
      · exact ih hall.cleared q hq

end Dimensions

end RowReduction.Reduction

namespace RowReduction.Mat

variable {α : Type} [Scalar α]

theorem run_reduce (a : Mat α) (columns : Nat) (normalize : Bool) :
    Reduction.Run normalize (List.range (min columns a.ncols)) 0 a.rows
      (a.reduce columns normalize) :=
  Reduction.run_ofRows ..

/-- The rank is at most the number of rows and at most the number of columns. -/
theorem rank_le_min (a : Mat α) : a.rank ≤ min a.nrows a.ncols := by
  have hrows := (a.run_reduce a.ncols false).length_eq
  have hcols := (a.run_reduce a.ncols false).rank_le
  rw [Nat.min_self, List.length_range] at hcols
  apply Nat.le_min.mpr
  constructor
  · exact Nat.le_of_add_right_le (Nat.le_of_eq hrows)
  · exact hcols

end RowReduction.Mat

import RowReduction.Proofs.Shape.Components

/-!
# Matrices as stored tables

A table is what a matrix is stored as: rows of any lengths, and a number of
columns kept next to them. It is well shaped if it has a row and a column and
every row has as many entries as there are columns. The operations on matrices
act here on bare tables. They build rows without a check and reach for entries
by their places, and on the tables of matrices they end as the operations on
matrices do.
-/

namespace RowReduction

open Access Components

/-- Rows of entries, and a number of columns. -/
structure Table (α : Type) where
  rows : List (List α)
  ncols : Nat

variable {α : Type}

/-- The table that a matrix is stored as. -/
def Mat.stored (a : Mat α) : Table α :=
  ⟨a.rows.map Vec.toList, a.ncols⟩

namespace Table

theorem ncols_stored (a : Mat α) : a.stored.ncols = a.ncols :=
  rfl

theorem length_rows_stored (a : Mat α) : a.stored.rows.length = a.nrows :=
  List.length_map ..

/-- There is a row and a column, and every row has as many entries as there are columns. -/
structure WellShaped (t : Table α) : Prop where
  rows_ne_nil : t.rows ≠ []
  ncols_pos : 0 < t.ncols
  length_row : ∀ r ∈ t.rows, r.length = t.ncols

theorem wellShaped_stored (a : Mat α) : a.stored.WellShaped where
  rows_ne_nil := by simpa [Mat.stored] using a.rows_ne_nil
  ncols_pos := a.ncols_pos
  length_row := by
    intro r hr
    obtain ⟨v, hv, rfl⟩ := List.mem_map.mp hr
    exact a.dim_row v hv

/-- Well-shaped tables are the tables of matrices. -/
theorem WellShaped.exists_stored {t : Table α} (h : t.WellShaped) : ∃ a : Mat α, a.stored = t := by
  have hne : ∀ r ∈ t.rows, r ≠ [] := by
    intro r hr
    apply List.length_pos_iff.mp
    rw [h.length_row r hr]
    exact h.ncols_pos
  refine ⟨⟨t.rows.attach.map fun r => ⟨r.1, hne r.1 r.2⟩, t.ncols, ?_, ?_⟩, ?_⟩
  · simpa using h.rows_ne_nil
  · intro v hv
    obtain ⟨r, -, rfl⟩ := List.mem_map.mp hv
    exact h.length_row r.1 r.2
  · simp [Mat.stored, Function.comp_def]

/-- The numbers of rows and columns. -/
def shape (t : Table α) : Shape :=
  ⟨t.rows.length, t.ncols⟩

@[simp] theorem shape_stored (a : Mat α) : a.stored.shape = a.shape := by
  rw [shape, length_rows_stored, ncols_stored, Mat.shape]

/-- The entry in a row and a column of a list of rows. -/
def entryAt? (rows : List (List α)) (i j : Nat) : Option α := do
  (← rows[i]?)[j]?

/-- The entries of a column. -/
def columnEntries? (t : Table α) (j : Nat) : Option (List α) :=
  t.rows.mapM (·[j]?)

/-- The table of a list of rows, unless there are none or they differ in length. -/
def ofRows? (rows : List (List α)) : Except Error (Table α) :=
  match rows with
  | [] => .error .emptyMatrix
  | first :: _ =>
      match rows.zipIdx.find? fun p => p.1.length != first.length with
      | some (row, i) => .error (.raggedRow i row.length first.length)
      | none => .ok ⟨rows, first.length⟩

theorem ofRows?_eq (rows : List (Vec α)) :
    ofRows? (rows.map Vec.toList) = (Mat.ofRows? rows).map Mat.stored := by
  cases rows with
  | nil => rfl
  | cons first others =>
      have hfind : ((first :: others).map Vec.toList).zipIdx.find?
            (fun p => p.1.length != first.toList.length) =
          ((first :: others).zipIdx.find? fun p => p.1.dim != first.dim).map
            fun p => (p.1.toList, p.2) := by
        rw [List.zipIdx_map, List.find?_map]
        rfl
      rw [Mat.ofRows?]
      split
      · rename_i row i h
        rw [h] at hfind
        simp only [ofRows?, List.map_cons] at hfind ⊢
        rw [hfind]
        rfl
      · rename_i h
        rw [h] at hfind
        simp only [ofRows?, List.map_cons] at hfind ⊢
        rw [hfind]
        rfl

/-- The table of the entries of its rows, unless a row has none or the rows differ in length. -/
def ofEntries? (entries : List (List α)) : Except Error (Table α) := do
  ofRows? (← entries.zipIdx.mapM fun p => (make? p.1).mapError fun _ => .emptyRow p.2)

theorem ofEntries?_eq (entries : List (List α)) :
    ofEntries? entries = (Mat.ofEntries? entries).map Mat.stored := by
  have hrow (p : List α × Nat) : (make? p.1).mapError (fun _ => Error.emptyRow p.2) =
      Vec.toList <$> (Vec.ofList? p.1).mapError fun _ => .emptyRow p.2 := by
    rw [make?_eq]
    cases Vec.ofList? p.1 <;> rfl
  unfold ofEntries? Mat.ofEntries?
  simp only [hrow]
  rw [mapM_map_result]
  generalize (List.mapM _ _ : Except Error (List (Vec α))) = rows
  cases rows with
  | error e => rfl
  | ok rows => exact ofRows?_eq rows

theorem ofRows?_of_uniform {rows : List (List α)} {n : Nat} (hne : rows ≠ [])
    (h : ∀ r ∈ rows, r.length = n) : ofRows? rows = .ok ⟨rows, n⟩ := by
  obtain ⟨first, others, rfl⟩ := List.exists_cons_of_ne_nil hne
  have hfirst : first.length = n := h first (by simp)
  have hfind : (first :: others).zipIdx.find? (fun p => p.1.length != first.length) = none := by
    rw [List.find?_eq_none]
    intro p hp
    simp [hfirst, h p.1 (List.fst_mem_of_mem_zipIdx hp)]
  simp only [ofRows?]
  rw [hfind, hfirst]

/-- Matrices that are stored alike are equal. -/
theorem stored_injective : Function.Injective (Mat.stored (α := α)) := by
  intro a b h
  ext1
  have hvec : Function.Injective (Vec.toList (α := α)) := fun _ _ => Vec.ext
  exact List.map_injective_iff.mpr hvec (congrArg Table.rows h)

theorem eq_ok_of_map_stored {x : Except Error (Mat α)} {a : Mat α}
    (h : x.map Mat.stored = .ok a.stored) : x = .ok a := by
  cases x with
  | error e => cases h
  | ok b => rw [stored_injective (Except.ok.inj h)]

theorem WellShaped.ofEntries?_rows {t : Table α} (h : t.WellShaped) :
    ofEntries? t.rows = .ok t := by
  have hrows : t.rows.zipIdx.mapM (fun p => (make? p.1).mapError fun _ => Error.emptyRow p.2) =
      .ok (t.rows.zipIdx.map Prod.fst) := by
    apply mapM_eq_pure
    intro p hp
    have hlen : p.1.length = t.ncols := h.length_row p.1 (List.fst_mem_of_mem_zipIdx hp)
    have hne : p.1 ≠ [] := List.length_pos_iff.mp (hlen ▸ h.ncols_pos)
    rw [make?, if_neg (by simpa using hne)]
    rfl
  rw [List.zipIdx_map_fst] at hrows
  rw [ofEntries?, hrows]
  exact ofRows?_of_uniform h.rows_ne_nil h.length_row

/-- A matrix is made of its rows. -/
theorem ofRows?_rows (a : Mat α) : Mat.ofRows? a.rows = .ok a := by
  have h := wellShaped_stored a
  apply eq_ok_of_map_stored
  rw [← ofRows?_eq]
  exact ofRows?_of_uniform h.rows_ne_nil h.length_row

/-- A matrix is made of the entries of its rows. -/
theorem ofEntries?_rows (a : Mat α) : Mat.ofEntries? a.stored.rows = .ok a := by
  apply eq_ok_of_map_stored
  rw [← ofEntries?_eq]
  exact (wellShaped_stored a).ofEntries?_rows

/-- The row in a place. -/
def row? (t : Table α) (i : Nat) : Except Error (List α) :=
  match t.rows[i]? with
  | some r => .ok r
  | none => .error (.rowIndex i t.shape)

theorem row?_eq (a : Mat α) (i : Nat) : a.stored.row? i = (a.row? i).map Vec.toList := by
  have hrow : a.stored.rows[i]? = a.rows[i]?.map Vec.toList := List.getElem?_map ..
  unfold row? Mat.row?
  rw [hrow, shape_stored]
  cases a.rows[i]? <;> rfl

/-- Every row with one more entry, the one in the same place of a list. -/
def joined (t : Table α) (b : List α) : Table α :=
  ⟨List.zipWith (fun r x => r ++ [x]) t.rows b, t.ncols + 1⟩

theorem joined_stored (a : Mat α) (b : Vec α) :
    a.stored.joined b.toList = (a.augment b).stored := by
  unfold joined Mat.stored Mat.augment
  rw [List.zipWith_map_left, List.map_zipWith]
  rfl

/-- The table with one more column, as high as the others. -/
def augment? (t : Table α) (b : List α) : Except Error (Table α) :=
  if b.length ≠ t.rows.length then .error (.augmentation b.length t.rows.length)
  else .ok (t.joined b)

theorem augment?_eq (a : Mat α) (b : Vec α) :
    a.stored.augment? b.toList = (a.augment? b).map Mat.stored := by
  rw [augment?, Mat.augment?, length_rows_stored, joined_stored, ite_not]
  unfold Vec.dim
  split <;> rfl

/-- The table of a function of the entries in the same place of two tables of one shape. -/
def pairwise? (operation : Operation) (f : α → α → α) (t u : Table α) : Except Error (Table α) :=
  if t.shape ≠ u.shape then .error (.matrixShapes operation t.shape u.shape)
  else do
    let rows ← (List.zip t.rows u.rows).mapM fun p => Components.pairwise? operation f p.1 p.2
    return ⟨rows, t.ncols⟩

theorem pairwise?_eq (operation : Operation) (f : α → α → α) (a b : Mat α) :
    pairwise? operation f a.stored b.stored =
      (if h : a.shape = b.shape then .ok (Mat.zipWith f a b h)
        else .error (.matrixShapes operation a.shape b.shape) : Except Error (Mat α)).map
          Mat.stored := by
  rw [pairwise?, shape_stored, shape_stored]
  by_cases h : a.shape = b.shape
  · rw [if_neg (not_not_intro h), dif_pos h]
    have hrows : ((List.zip a.stored.rows b.stored.rows).mapM fun p =>
          Components.pairwise? operation f p.1 p.2) =
        .ok ((Mat.zipWith f a b h).rows.map Vec.toList) := by
      unfold Mat.stored Mat.zipWith
      rw [List.zip_map, List.mapM_map, List.map_zipWith, ← List.map_uncurry_zip_eq_zipWith]
      apply mapM_eq_pure
      intro p hp
      have hdim : p.1.dim = p.2.dim := by
        rw [a.dim_row p.1 (List.of_mem_zip hp).1, b.dim_row p.2 (List.of_mem_zip hp).2]
        exact congrArg Shape.columns h
      change Components.pairwise? operation f p.1.toList p.2.toList = _
      rw [Components.pairwise?_eq, Vec.ifSameDim, if_pos hdim]
      rfl
    rw [hrows]
    rfl
  · rw [if_pos h, dif_neg h]
    rfl

section Operations

variable [Scalar α]

theorem getElem?_toList {v : Vec α} {i : Nat} (h : i < v.dim) :
    v.toList[i]? = some (v.entry i) := by
  rw [List.getElem?_eq_getElem h, Vec.entry_of_lt h]

/-- Rows of zeros. -/
def zeros? (m n : Nat) : Except Error (Table α) :=
  if m = 0 ∨ n = 0 then .error (.emptyShape ⟨m, n⟩)
  else do ofRows? (List.replicate m (← Components.zeros? n))

theorem zeros?_of_pos {m n : Nat} (hm : 0 < m) (hn : 0 < n) :
    (zeros? m n : Except Error (Table α)) =
      .ok ⟨List.replicate m (List.replicate n 0), n⟩ := by
  rw [zeros?, if_neg (by omega), Components.zeros?_of_pos hn]
  apply ofRows?_of_uniform
  · simpa using Nat.ne_of_gt hm
  · intro r hr
    rw [List.eq_of_mem_replicate hr, List.length_replicate]

theorem zeros?_eq (m n : Nat) :
    (zeros? m n : Except Error (Table α)) = (Mat.zeros? m n).map Mat.stored := by
  rw [Mat.zeros?, Mat.ofFn?]
  by_cases h : 0 < m ∧ 0 < n
  · rw [dif_pos h, zeros?_of_pos h.1 h.2]
    simp [Except.map, Mat.stored, Mat.ofFn, Vec.ofFn]
  · rw [dif_neg h, zeros?, if_pos (by omega)]
    rfl

/-- Zeros with ones put on the diagonal. -/
def identity? (n : Nat) : Access (Table α) := do
  let t ← checked (zeros? n n)
  let rows ← found (t.rows.zipIdx.mapM fun p => set? p.1 p.2 1)
  return { t with rows := rows }

theorem identity?_agrees (n : Nat) :
    Agrees Mat.stored (identity? n : Access (Table α)) (Mat.identity? n) := by
  rw [Mat.identity?, Mat.ofFn?]
  by_cases h : 0 < n
  · have hrows : ((List.replicate n (List.replicate n (0 : α))).zipIdx.mapM fun p =>
          set? p.1 p.2 1) =
        some ((List.range n).map fun i => (List.replicate n 0).set i 1) := by
      have hzip : (List.replicate n (List.replicate n (0 : α))).zipIdx =
          (List.range n).map fun i => (List.replicate n 0, i) := by
        apply List.ext_getElem <;> simp
      rw [hzip, List.mapM_map]
      apply mapM_eq_pure
      intro i hi
      exact set?_of_lt (by simpa using hi) 1
    have hstored : (⟨(List.range n).map fun i => (List.replicate n 0).set i 1, n⟩ : Table α) =
        (Mat.ofFn n n h h fun i j => if i = j then 1 else 0).stored := by
      simp [Mat.stored, Mat.ofFn, Vec.ofFn, set_replicate_zero, eq_comm]
    rw [dif_pos ⟨h, h⟩, identity?, zeros?_of_pos h h]
    change ((found (List.mapM _ _) >>= fun rows => pure ⟨rows, n⟩ : Access (Table α))).run =
      some (.ok (Mat.ofFn n n h h _).stored)
    rw [hrows, ← hstored]
    rfl
  · rw [dif_neg (by omega), identity?, zeros?, if_pos (by omega)]
    exact Agrees.throw ..

/-- The column in a place. -/
def column? (t : Table α) (j : Nat) : Access (List α) :=
  if t.ncols ≤ j then throw (.columnIndex j t.shape)
  else do checked (make? (← found (t.columnEntries? j)))

theorem columnEntries?_stored (a : Mat α) {j : Nat} (h : j < a.ncols) :
    a.stored.columnEntries? j = some (a.column j).toList := by
  unfold columnEntries? Mat.stored
  rw [List.mapM_map]
  apply mapM_eq_pure
  intro r hr
  exact getElem?_toList (by rw [a.dim_row r hr]; exact h)

theorem column?_agrees (a : Mat α) (j : Nat) :
    Agrees Vec.toList (a.stored.column? j) (a.column? j) := by
  rw [Mat.column?, column?, shape_stored]
  apply Agrees.guard _ Nat.not_lt.symm
  intro h
  rw [columnEntries?_stored a h]
  apply Agrees.checked
  rw [make?_eq, Vec.ofList?_toList]

/-- The table whose rows are the columns. -/
def transpose? (t : Table α) : Option (Table α) := do
  let rows ← (List.range t.ncols).mapM t.columnEntries?
  return ⟨rows, t.rows.length⟩

theorem transpose?_stored (a : Mat α) : a.stored.transpose? = some a.transpose.stored := by
  have hrows : (List.range a.ncols).mapM a.stored.columnEntries? =
      some ((List.range a.ncols).map fun j => (a.column j).toList) := by
    apply mapM_eq_pure
    intro j hj
    exact columnEntries?_stored a (List.mem_range.mp hj)
  rw [transpose?, ncols_stored, hrows, length_rows_stored]
  simp [Mat.stored, Mat.transpose, Function.comp_def]

theorem transpose?_agrees (a : Mat α) :
    Agrees Mat.stored (found a.stored.transpose?) (.ok a.transpose) :=
  Agrees.found (transpose?_stored a)

/-- The sum of the products of a row's entries with the entries of a column. -/
def productAt? (n : Nat) (r : List α) (u : Table α) (j : Nat) : Option α := do
  let terms ← (List.range n).mapM fun k => do return (← r[k]?) * (← entryAt? u.rows k j)
  return Scalar.sum terms

/-- The product of two tables, the first as wide as the second is high. -/
def product? (t u : Table α) : Access (Table α) :=
  if t.ncols ≠ u.rows.length then throw (.matrixShapes .product t.shape u.shape)
  else do
    let rows ← found (t.rows.mapM fun r => (List.range u.ncols).mapM (productAt? t.ncols r u))
    return ⟨rows, u.ncols⟩

theorem productAt?_stored {v : Vec α} {b : Mat α} {j : Nat} (hdim : v.dim = b.nrows)
    (hj : j < b.ncols) :
    productAt? b.nrows v.toList b.stored j =
      some (Scalar.sum (List.zipWith (fun x s => x * s.entry j) v.toList b.rows)) := by
  have hlen : (List.zipWith (fun x s => x * s.entry j) v.toList b.rows).length = b.nrows := by
    rw [List.length_zipWith]
    exact Nat.min_eq_right (Nat.le_of_eq hdim.symm)
  rw [productAt?, mapM_range_eq_some hlen]
  · rfl
  · intro k hk
    rw [List.length_zipWith] at hk
    have hcomponent : k < v.toList.length := Nat.lt_of_lt_of_le hk (Nat.min_le_left ..)
    have hrow : k < b.rows.length := Nat.lt_of_lt_of_le hk (Nat.min_le_right ..)
    have hentry : entryAt? b.stored.rows k j = some (b.rows[k].entry j) := by
      rw [entryAt?, Mat.stored, List.getElem?_map, List.getElem?_eq_getElem hrow]
      exact getElem?_toList (by rw [b.dim_row _ (List.getElem_mem hrow)]; exact hj)
    rw [List.getElem?_eq_getElem hcomponent, hentry, List.getElem_zipWith]
    rfl

theorem product?_agrees (a b : Mat α) :
    Agrees Mat.stored (a.stored.product? b.stored) (a.mul? b) := by
  unfold product? Mat.mul?
  rw [shape_stored, shape_stored, length_rows_stored]
  apply Agrees.guard _ Iff.rfl
  intro (h : a.ncols = b.nrows)
  have hrows : a.stored.rows.mapM (fun r =>
        (List.range b.stored.ncols).mapM (productAt? a.stored.ncols r b.stored)) =
      some ((a.rows.map (Mat.combineRows · b)).map Vec.toList) := by
    unfold Mat.stored
    rw [List.mapM_map, List.map_map]
    apply mapM_eq_pure
    intro v hv
    apply mapM_eq_pure
    intro j hj
    change productAt? a.ncols v.toList b.stored j = _
    rw [h, productAt?_stored (by rw [a.dim_row v hv, h]) (List.mem_range.mp hj)]
    rfl
  rw [hrows]
  rfl

/-- The dot products of the rows with a list of as many entries as there are columns. -/
def mulVec? (t : Table α) (x : List α) : Except Error (List α) :=
  if t.ncols ≠ x.length then .error (.matrixVector t.shape x.length)
  else t.rows.mapM (dot? · x)

theorem mulVec?_eq (a : Mat α) (x : Vec α) :
    a.stored.mulVec? x.toList = (a.mulVec? x).map Vec.toList := by
  rw [mulVec?, Mat.mulVec?, shape_stored, ite_not, ncols_stored, length_toList]
  by_cases h : a.ncols = x.dim
  · have hrows : a.stored.rows.mapM (dot? · x.toList) = .ok (a.rows.map (·.dot x)) := by
      unfold Mat.stored
      rw [List.mapM_map]
      apply mapM_eq_pure
      intro v hv
      change dot? v.toList x.toList = _
      rw [dot?_eq, Vec.dot?, Vec.ifSameDim, if_pos (by rw [a.dim_row v hv, h])]
      rfl
    rw [if_pos h, if_pos h, hrows]
    rfl
  · rw [if_neg h, if_neg h]
    rfl

/-- The scalar times every entry. -/
def scale (c : α) (t : Table α) : Table α :=
  ⟨t.rows.map (Components.scale c), t.ncols⟩

theorem scale_stored (c : α) (a : Mat α) : a.stored.scale c = (a.scale c).stored := by
  simp [scale, Mat.stored, Mat.scale, Mat.mapRows, Components.scale, Vec.scale, Vec.map]

end Operations

end Table

end RowReduction

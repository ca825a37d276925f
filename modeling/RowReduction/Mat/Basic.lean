import RowReduction.Vec.Basic

/-!
# Matrices

A matrix is a non-empty list of rows of one dimension. Operations whose shapes
may not fit check them before anything is computed.
-/

namespace RowReduction

/-- A non-empty list of rows of equal dimension. -/
structure Mat (α : Type) where
  rows : List (Vec α)
  ncols : Nat
  rows_ne_nil : rows ≠ []
  dim_row : ∀ r ∈ rows, r.dim = ncols

namespace Mat

variable {α : Type}

theorem exists_of_mem_zipWith {β γ δ : Type} {f : β → γ → δ} {xs : List β} {ys : List γ} {z : δ}
    (h : z ∈ List.zipWith f xs ys) : ∃ x ∈ xs, ∃ y ∈ ys, f x y = z := by
  rw [← List.map_uncurry_zip_eq_zipWith] at h
  obtain ⟨p, hp, rfl⟩ := List.mem_map.mp h
  exact ⟨p.1, (List.of_mem_zip hp).1, p.2, (List.of_mem_zip hp).2, rfl⟩

instance [BEq α] : BEq (Mat α) := ⟨fun a b => a.rows == b.rows⟩

/-- The entries of a row within brackets, and the rows on lines of their own. -/
instance [ToString α] : ToString (Mat α) where
  toString a :=
    String.intercalate "\n" (a.rows.map fun r =>
      "[" ++ String.intercalate "  " (r.toList.map toString) ++ "]")

/-- The number of rows. -/
def nrows (a : Mat α) : Nat :=
  a.rows.length

theorem nrows_pos (a : Mat α) : 0 < a.nrows :=
  List.length_pos_iff.mpr a.rows_ne_nil

theorem ncols_pos (a : Mat α) : 0 < a.ncols := by
  obtain ⟨r, hr⟩ := List.exists_mem_of_ne_nil a.rows a.rows_ne_nil
  exact a.dim_row r hr ▸ r.dim_pos

/-- The numbers of rows and columns. -/
def shape (a : Mat α) : Shape :=
  ⟨a.nrows, a.ncols⟩

@[ext] theorem ext {a b : Mat α} (h : a.rows = b.rows) : a = b := by
  obtain ⟨r, hr⟩ := List.exists_mem_of_ne_nil a.rows a.rows_ne_nil
  have hcols : a.ncols = b.ncols := by
    rw [← a.dim_row r hr, b.dim_row r (h ▸ hr)]
  cases a
  cases b
  simp_all

/-- The matrix of a list of rows, unless there are none or they differ in dimension. -/
def ofRows? : List (Vec α) → Except Error (Mat α)
  | [] => .error .emptyMatrix
  | first :: others =>
      match h : (first :: others).zipIdx.find? fun p => p.1.dim != first.dim with
      | some (row, i) => .error (.raggedRow i row.dim first.dim)
      | none => .ok {
          rows := first :: others
          ncols := first.dim
          rows_ne_nil := List.cons_ne_nil first others
          dim_row := by
            intro r hr
            obtain ⟨i, hi, rfl⟩ := List.getElem_of_mem hr
            simpa using List.find?_eq_none.mp h (_, i) (List.mk_mem_zipIdx_iff_getElem?.mpr
              (List.getElem?_eq_getElem hi)) }

/-- The matrix of the entries of its rows, unless a row has none or the rows differ in length. -/
def ofEntries? (entries : List (List α)) : Except Error (Mat α) := do
  ofRows? (← entries.zipIdx.mapM fun p => (Vec.ofList? p.1).mapError fun _ => .emptyRow p.2)

/-- The matrix of the values of a function below a positive shape. -/
def ofFn (m n : Nat) (hm : 0 < m) (hn : 0 < n) (f : Nat → Nat → α) : Mat α where
  rows := (List.range m).map fun i => Vec.ofFn n hn (f i)
  ncols := n
  rows_ne_nil := by simpa using Nat.ne_of_gt hm
  dim_row := by simp

/-- The matrix of a function on places, unless the shape has no places. -/
def ofFn? (m n : Nat) (f : Nat → Nat → α) : Except Error (Mat α) :=
  if h : 0 < m ∧ 0 < n then .ok (ofFn m n h.1 h.2 f) else .error (.emptyShape ⟨m, n⟩)

/-- The matrix of the images of the rows under a function to vectors of one dimension. -/
def mapRows (a : Mat α) (n : Nat) (f : Vec α → Vec α) (h : ∀ r ∈ a.rows, (f r).dim = n) :
    Mat α where
  rows := a.rows.map f
  ncols := n
  rows_ne_nil := by simpa using a.rows_ne_nil
  dim_row := by simpa using h

/-- The row in a place. -/
def row? (a : Mat α) (i : Nat) : Except Error (Vec α) :=
  match a.rows[i]? with
  | some r => .ok r
  | none => .error (.rowIndex i a.shape)

variable [Scalar α]

/-- The zero matrix of a shape. -/
def zeros? (m n : Nat) : Except Error (Mat α) :=
  ofFn? m n fun _ _ => 0

/-- The square matrix with ones on the diagonal and zeros elsewhere. -/
def identity? (n : Nat) : Except Error (Mat α) :=
  ofFn? n n fun i j => if i = j then 1 else 0

/-- The entries of a column, from the first row to the last. -/
def column (a : Mat α) (j : Nat) : Vec α where
  toList := a.rows.map (·.entry j)
  ne_nil := by simpa using a.rows_ne_nil

/-- The column in a place. -/
def column? (a : Mat α) (j : Nat) : Except Error (Vec α) :=
  if j < a.ncols then .ok (a.column j) else .error (.columnIndex j a.shape)

/-- The entry in a row and a column. -/
def get? (a : Mat α) (i j : Nat) : Except Error α :=
  match a.rows[i]? with
  | some r => if j < a.ncols then .ok (r.entry j) else .error (.matrixIndex i j a.shape)
  | none => .error (.matrixIndex i j a.shape)

/-- The matrix whose rows are the columns. -/
def transpose (a : Mat α) : Mat α where
  rows := (List.range a.ncols).map a.column
  ncols := a.nrows
  rows_ne_nil := by simpa using Nat.ne_of_gt a.ncols_pos
  dim_row := by simp [column, Vec.dim, nrows]

/-- Every row with one more entry, the component in the same place of a column; as many rows as
both have. -/
def augment (a : Mat α) (b : Vec α) : Mat α where
  rows := List.zipWith Vec.push a.rows b.toList
  ncols := a.ncols + 1
  rows_ne_nil := by simp [a.rows_ne_nil, b.ne_nil]
  dim_row := by
    intro r hr
    obtain ⟨s, hs, x, hx, rfl⟩ := exists_of_mem_zipWith hr
    rw [Vec.dim_push, a.dim_row s hs]

/-- The matrix with one more column, as high as the others. -/
def augment? (a : Mat α) (b : Vec α) : Except Error (Mat α) :=
  if b.dim = a.nrows then .ok (a.augment b) else .error (.augmentation b.dim a.nrows)

/-- The matrix of a function of the entries in the same place of two matrices of one shape. -/
def zipWith (f : α → α → α) (a b : Mat α) (h : a.shape = b.shape) : Mat α where
  rows := List.zipWith (Vec.zipWith f) a.rows b.rows
  ncols := a.ncols
  rows_ne_nil := by simp [a.rows_ne_nil, b.rows_ne_nil]
  dim_row := by
    intro r hr
    obtain ⟨s, hs, t, ht, rfl⟩ := exists_of_mem_zipWith hr
    have hcols : a.ncols = b.ncols := congrArg Shape.columns h
    rw [Vec.dim_zipWith, a.dim_row s hs, b.dim_row t ht, ← hcols, Nat.min_self]

/-- The sum of two matrices of one shape. -/
def add? (a b : Mat α) : Except Error (Mat α) :=
  if h : a.shape = b.shape then .ok (zipWith (· + ·) a b h)
  else .error (.matrixShapes .sum a.shape b.shape)

/-- The difference of two matrices of one shape. -/
def sub? (a b : Mat α) : Except Error (Mat α) :=
  if h : a.shape = b.shape then .ok (zipWith (· - ·) a b h)
  else .error (.matrixShapes .difference a.shape b.shape)

/-- The combination of the rows of a matrix whose coefficients are the components of a vector. -/
def combineRows (r : Vec α) (b : Mat α) : Vec α :=
  Vec.ofFn b.ncols b.ncols_pos fun j =>
    Scalar.sum (List.zipWith (fun x s => x * s.entry j) r.toList b.rows)

/-- The product of two matrices, the first as wide as the second is high. -/
def mul? (a b : Mat α) : Except Error (Mat α) :=
  if a.ncols = b.nrows then
    .ok (a.mapRows b.ncols (combineRows · b) (by simp [combineRows]))
  else .error (.matrixShapes .product a.shape b.shape)

/-- The dot products of the rows with a vector. -/
def mulVec (a : Mat α) (x : Vec α) : Vec α where
  toList := a.rows.map (·.dot x)
  ne_nil := by simpa using a.rows_ne_nil

/-- The product of a matrix and a vector of as many components as there are columns. -/
def mulVec? (a : Mat α) (x : Vec α) : Except Error (Vec α) :=
  if a.ncols = x.dim then .ok (a.mulVec x) else .error (.matrixVector a.shape x.dim)

/-- The scalar times every entry. -/
def scale (c : α) (a : Mat α) : Mat α :=
  a.mapRows a.ncols (Vec.scale c) (by simpa [Vec.scale] using a.dim_row)

end Mat

end RowReduction

import RowReduction.Proofs.Mat.Values

/-!
# The entries of a matrix in their places

A matrix is determined by its shape and by the entries in its places. Each
operation is described by the entries of its result. A product has, in every
place, the sum over all indices of the products of an entry of a row with an
entry of a column; no law of the scalars is needed for this.
-/

namespace RowReduction

section Vectors

variable {α : Type} [Scalar α]

/-- The sum of the terms of the indices below a number, in ascending order. -/
def Scalar.indexedSum (n : ℕ) (f : ℕ → α) : α :=
  Scalar.sum ((List.range n).map f)

/-- The elements in the same place of two lists of one length, met in the order of the places. -/
theorem zipWith_eq_map_range {β γ δ : Type} (f : β → γ → δ) {xs : List β} {ys : List γ} {n : ℕ}
    (hx : xs.length = n) (hy : ys.length = n) (b : β) (c : γ) :
    List.zipWith f xs ys = (List.range n).map fun k => f (xs.getD k b) (ys.getD k c) := by
  apply List.ext_getElem
  · simp [hx, hy]
  · intro k hk _
    have hlen : k < xs.length ∧ k < ys.length := by simpa using hk
    simp [hlen.1, hlen.2]

/-- The dot product is the sum over the indices of the components. -/
theorem Vec.dot_eq_indexedSum {v w : Vec α} (h : v.dim = w.dim) :
    v.dot w = Scalar.indexedSum v.dim fun k => v.entry k * w.entry k :=
  congrArg Scalar.sum (zipWith_eq_map_range (· * ·) rfl h.symm 0 0)

/-- The sum of the squares is the dot product of the vector with itself. -/
theorem Vec.normSquared_eq_dot (v : Vec α) : v.normSquared = v.dot v := by
  unfold normSquared dot Scalar.weightedSum
  rw [List.zipWith_self]

@[simp] theorem Vec.entry_ofFn {n : ℕ} (h : 0 < n) (f : ℕ → α) {i : ℕ} (hi : i < n) :
    (Vec.ofFn n h f).entry i = f i := by
  simp [Vec.entry, Vec.ofFn, hi]

/-- A vector is determined by its dimension and its components. -/
theorem Vec.ext_entries {v w : Vec α} (hdim : v.dim = w.dim)
    (h : ∀ i < v.dim, v.entry i = w.entry i) : v = w := by
  ext1
  apply List.ext_getElem hdim
  intro i hv hw
  rw [← entry_of_lt hv, ← entry_of_lt hw, h i hv]

theorem Vec.entry_zipWith (f : α → α → α) {v w : Vec α} {i : ℕ} (hv : i < v.dim) (hw : i < w.dim) :
    (Vec.zipWith f v w).entry i = f (v.entry i) (w.entry i) := by
  have hi : i < (Vec.zipWith f v w).dim := by simp [hv, hw]
  rw [entry_of_lt hi, entry_of_lt hv, entry_of_lt hw]
  exact List.getElem_zipWith

theorem Vec.entry_scale (c : α) {v : Vec α} {i : ℕ} (h : i < v.dim) :
    (v.scale c).entry i = c * v.entry i := by
  have hi : i < (v.scale c).dim := by simpa [Vec.scale] using h
  rw [entry_of_lt hi, entry_of_lt h]
  exact List.getElem_map ..

end Vectors

namespace Mat

variable {α : Type}

section Shapes

theorem shape_eq_iff {a b : Mat α} : a.shape = b.shape ↔ a.nrows = b.nrows ∧ a.ncols = b.ncols :=
  Shape.mk.injEq .. ▸ Iff.rfl

@[simp] theorem nrows_ofFn {m n : ℕ} (hm : 0 < m) (hn : 0 < n) (f : ℕ → ℕ → α) :
    (ofFn m n hm hn f).nrows = m := by
  simp [nrows, ofFn]

@[simp] theorem nrows_mapRows (a : Mat α) (n : ℕ) (f : Vec α → Vec α) (h) :
    (a.mapRows n f h).nrows = a.nrows :=
  List.length_map ..

theorem shape_zipWith (f : α → α → α) {a b : Mat α} (h : a.shape = b.shape) :
    (zipWith f a b h).shape = a.shape := by
  have hrows : a.rows.length = b.rows.length := congrArg Shape.rows h
  simp [shape, nrows, zipWith, hrows]

theorem nrows_zipWith (f : α → α → α) {a b : Mat α} (h : a.shape = b.shape) :
    (zipWith f a b h).nrows = a.nrows :=
  (shape_eq_iff.mp (shape_zipWith f h)).1

theorem nrows_augment {a : Mat α} {b : Vec α} (h : b.dim = a.nrows) :
    (a.augment b).nrows = a.nrows :=
  List.length_zipWith.trans (Nat.min_eq_left (Nat.le_of_eq h.symm))

theorem row?_of_lt {a : Mat α} {i : ℕ} (hi : i < a.nrows) : a.row? i = .ok (a.row ⟨i, hi⟩) := by
  unfold row?
  rw [List.getElem?_eq_getElem hi]
  rfl

end Shapes

variable [Scalar α]

@[simp] theorem nrows_transpose (a : Mat α) : a.transpose.nrows = a.ncols := by
  simp [nrows, transpose]

@[simp] theorem ncols_transpose (a : Mat α) : a.transpose.ncols = a.nrows :=
  rfl

@[simp] theorem shape_transpose (a : Mat α) : a.transpose.shape = ⟨a.ncols, a.nrows⟩ := by
  rw [shape, nrows_transpose, ncols_transpose]

@[simp] theorem shape_scale (c : α) (a : Mat α) : (scale c a).shape = a.shape :=
  shape_eq_iff.mpr ⟨nrows_mapRows .., rfl⟩

@[simp] theorem dim_column (a : Mat α) (j : ℕ) : (a.column j).dim = a.nrows :=
  List.length_map ..

/-- The entry in a row and a column, or zero outside the matrix. -/
def entry (a : Mat α) (i j : ℕ) : α :=
  (a.column j).entry i

@[simp] theorem entry_column (a : Mat α) (i j : ℕ) : (a.column j).entry i = a.entry i j :=
  rfl

theorem entry_row (a : Mat α) (i : Fin a.nrows) (j : ℕ) : (a.row i).entry j = a.entry i j := by
  have hi : (i : ℕ) < (a.column j).toList.length := Nat.lt_of_lt_of_eq i.isLt (a.dim_column j).symm
  rw [entry, Vec.entry_of_lt hi]
  simp [column, row]

theorem entry_of_nrows_le {a : Mat α} {i : ℕ} (h : a.nrows ≤ i) (j : ℕ) : a.entry i j = 0 :=
  Vec.entry_of_dim_le (by simpa using h)

theorem entry_of_ncols_le {a : Mat α} {j : ℕ} (h : a.ncols ≤ j) (i : ℕ) : a.entry i j = 0 := by
  by_cases hi : i < a.nrows
  · rw [← a.entry_row ⟨i, hi⟩]
    exact Vec.entry_of_dim_le (by simpa [a.dim_row_get] using h)
  · exact entry_of_nrows_le (Nat.le_of_not_lt hi) j

/-- A matrix is determined by its shape and the entries in its places. -/
theorem ext_entries {a b : Mat α} (hshape : a.shape = b.shape)
    (h : ∀ i < a.nrows, ∀ j < a.ncols, a.entry i j = b.entry i j) : a = b := by
  obtain ⟨hrows, hcols⟩ := shape_eq_iff.mp hshape
  ext1
  apply List.ext_getElem hrows
  intro i hi hi'
  have hdim : (a.row ⟨i, hi⟩).dim = (b.row ⟨i, hi'⟩).dim := by
    rw [a.dim_row_get, b.dim_row_get, hcols]
  apply Vec.ext_entries (v := a.row ⟨i, hi⟩) (w := b.row ⟨i, hi'⟩) hdim
  intro j hj
  rw [a.dim_row_get] at hj
  rw [entry_row, entry_row, h i hi j hj]

theorem column?_of_lt {a : Mat α} {j : ℕ} (hj : j < a.ncols) : a.column? j = .ok (a.column j) :=
  if_pos hj

theorem get?_of_lt {a : Mat α} {i j : ℕ} (hi : i < a.nrows) (hj : j < a.ncols) :
    a.get? i j = .ok (a.entry i j) := by
  unfold get?
  rw [List.getElem?_eq_getElem hi, ← a.entry_row ⟨i, hi⟩]
  exact if_pos hj

section Operations

@[simp] theorem entry_transpose (a : Mat α) (i j : ℕ) : a.transpose.entry j i = a.entry i j := by
  by_cases hj : j < a.ncols
  · have hj' : j < a.transpose.nrows := by simpa using hj
    rw [← a.transpose.entry_row ⟨j, hj'⟩, ← entry_column]
    simp [row, transpose]
  · rw [entry_of_ncols_le (Nat.le_of_not_lt hj), entry_of_nrows_le (by simpa using hj)]

theorem entry_ofFn {m n : ℕ} (hm : 0 < m) (hn : 0 < n) (f : ℕ → ℕ → α) {i j : ℕ} (hi : i < m)
    (hj : j < n) : (ofFn m n hm hn f).entry i j = f i j := by
  have hi' : i < (ofFn m n hm hn f).nrows := by simpa using hi
  rw [← entry_row _ ⟨i, hi'⟩]
  simp [row, ofFn, hj]

theorem entry_mapRows (a : Mat α) {n : ℕ} {f : Vec α → Vec α} (h) (i : Fin a.nrows) (j : ℕ) :
    (a.mapRows n f h).entry i j = (f (a.row i)).entry j := by
  have hi : (i : ℕ) < (a.mapRows n f h).nrows := by simp
  rw [← entry_row _ ⟨i, hi⟩]
  simp [row, mapRows]

theorem entry_zipWith (f : α → α → α) {a b : Mat α} (h : a.shape = b.shape) {i j : ℕ}
    (hi : i < a.nrows) (hj : j < a.ncols) :
    (zipWith f a b h).entry i j = f (a.entry i j) (b.entry i j) := by
  obtain ⟨hrows, hcols⟩ := shape_eq_iff.mp h
  have hib : i < b.nrows := hrows ▸ hi
  have hiz : i < (zipWith f a b h).nrows := by rwa [nrows_zipWith]
  have hrow : (zipWith f a b h).row ⟨i, hiz⟩ =
      Vec.zipWith f (a.row ⟨i, hi⟩) (b.row ⟨i, hib⟩) := by
    simp [row, zipWith]
  have hja : j < (a.row ⟨i, hi⟩).dim := by rwa [a.dim_row_get]
  have hjb : j < (b.row ⟨i, hib⟩).dim := by rwa [b.dim_row_get, ← hcols]
  rw [← entry_row _ ⟨i, hiz⟩, hrow, Vec.entry_zipWith f hja hjb, a.entry_row, b.entry_row]

theorem entry_scale (c : α) (a : Mat α) {i j : ℕ} (hi : i < a.nrows) (hj : j < a.ncols) :
    (scale c a).entry i j = c * a.entry i j := by
  have hj' : j < (a.row ⟨i, hi⟩).dim := by rwa [a.dim_row_get]
  rw [scale, a.entry_mapRows _ ⟨i, hi⟩, Vec.entry_scale c hj', a.entry_row]

theorem dim_combineRows (b : Mat α) (r : Vec α) : (combineRows r b).dim = b.ncols :=
  Vec.dim_ofFn ..

/-- The product of two matrices whose shapes fit. -/
def product (a b : Mat α) : Mat α :=
  a.mapRows b.ncols (combineRows · b) fun r _ => b.dim_combineRows r

theorem mul?_eq (a b : Mat α) :
    a.mul? b = if a.ncols = b.nrows then .ok (a.product b)
      else .error (.matrixShapes .product a.shape b.shape) :=
  rfl

theorem mul?_of_fits {a b : Mat α} (h : a.ncols = b.nrows) : a.mul? b = .ok (a.product b) :=
  if_pos h

@[simp] theorem nrows_product (a b : Mat α) : (a.product b).nrows = a.nrows :=
  nrows_mapRows ..

@[simp] theorem ncols_product (a b : Mat α) : (a.product b).ncols = b.ncols :=
  rfl

@[simp] theorem shape_product (a b : Mat α) : (a.product b).shape = ⟨a.nrows, b.ncols⟩ := by
  rw [shape, nrows_product, ncols_product]

theorem entry_combineRows (r : Vec α) (b : Mat α) {j : ℕ} (hj : j < b.ncols) :
    (combineRows r b).entry j = r.dot (b.column j) := by
  rw [combineRows, Vec.entry_ofFn _ _ hj, ← List.zipWith_map_right]
  rfl

/-- The columns of a product are the products with the columns. -/
theorem column_product (a b : Mat α) {j : ℕ} (hj : j < b.ncols) :
    (a.product b).column j = a.mulVec (b.column j) := by
  ext1
  change (a.rows.map (combineRows · b)).map (·.entry j) = a.rows.map (·.dot (b.column j))
  rw [List.map_map]
  exact List.map_congr_left fun r _ => entry_combineRows r b hj

theorem entry_mulVec (a : Mat α) (x : Vec α) (i : Fin a.nrows) :
    (a.mulVec x).entry i = (a.row i).dot x := by
  have hi : (i : ℕ) < (a.mulVec x).toList.length := by
    rw [mulVec, List.length_map]
    exact i.isLt
  rw [Vec.entry_of_lt hi]
  simp [mulVec, row]

/-- The entry of a product is the dot product of a row and a column. -/
theorem entry_product_eq_dot (a b : Mat α) (i : Fin a.nrows) {j : ℕ} (hj : j < b.ncols) :
    (a.product b).entry i j = (a.row i).dot (b.column j) := by
  rw [← entry_column, column_product a b hj, entry_mulVec]

/-- The entry of a product is the sum, in the order of the indices, of the products of the entries
of a row with those of a column. -/
theorem entry_product {a b : Mat α} (h : a.ncols = b.nrows) {i j : ℕ} (hi : i < a.nrows)
    (hj : j < b.ncols) :
    (a.product b).entry i j =
      Scalar.indexedSum a.ncols fun k => a.entry i k * b.entry k j := by
  have hdim : (a.row ⟨i, hi⟩).dim = (b.column j).dim := by rw [a.dim_row_get, dim_column, h]
  rw [a.entry_product_eq_dot b ⟨i, hi⟩ hj, Vec.dot_eq_indexedSum hdim, a.dim_row_get]
  simp only [entry_row, entry_column]

end Operations

end Mat

end RowReduction

import RowReduction.Complex.Scalar
import RowReduction.Proofs.Failure
import RowReduction.Proofs.Mat.Entries
import RowReduction.Proofs.Shape.Table

/-!
# The ways to compute a product

A product of matrices is computed entry by entry, a product with a vector row by
row, and dot products and linear combinations walk along two lists. All of them
add the same terms in the same order, the order of the indices, and start from
zero. They agree for scalars that obey no law at all, so that rounded arithmetic
gives the same elements to the last bit.
-/

namespace RowReduction

variable {α : Type}

/-- The matrix whose only column is the vector. -/
def Vec.asColumn (x : Vec α) : Mat α where
  rows := x.toList.map fun t => ⟨[t], List.cons_ne_nil t []⟩
  ncols := 1
  rows_ne_nil := by simpa using x.ne_nil
  dim_row := by simp [dim]

namespace Mat

@[simp] theorem nrows_asColumn (x : Vec α) : x.asColumn.nrows = x.dim :=
  List.length_map ..

/-- The matrix with one column is made of one list for each component. -/
theorem ofEntries?_asColumn (x : Vec α) :
    ofEntries? (x.toList.map fun t => [t]) = .ok x.asColumn := by
  have hstored : x.asColumn.stored.rows = x.toList.map fun t => [t] := List.map_map
  rw [← hstored, Table.ofEntries?_rows]

variable [Scalar α]

theorem column_asColumn (x : Vec α) : x.asColumn.column 0 = x := by
  ext1
  exact List.map_map.trans x.toList.map_id

end Mat

section Agreement

variable [Scalar α]

/-- The product with a vector is the only column of the product with the matrix that has the vector
as its only column. -/
theorem Mat.mulVec?_eq_column? {a : Mat α} {x : Vec α} (h : a.ncols = x.dim) :
    a.mulVec? x = (a.product x.asColumn).column? 0 := by
  rw [column?_of_lt Nat.one_pos, column_product a x.asColumn Nat.one_pos, column_asColumn]
  exact if_pos h

theorem Mat.get?_product {a b : Mat α} {i j : ℕ} (hi : i < a.nrows) (hj : j < b.ncols) :
    (a.product b).get? i j = .ok ((a.product b).entry i j) := by
  have hi' : i < (a.product b).nrows := by simpa using hi
  exact get?_of_lt hi' hj

/-- The entries of a product are the dot products of rows with columns. -/
theorem Mat.get?_product_eq_dot? {a b : Mat α} (h : a.ncols = b.nrows) {i j : ℕ}
    (hi : i < a.nrows) (hj : j < b.ncols) :
    (a.product b).get? i j = (a.row ⟨i, hi⟩).dot? (b.column j) := by
  have hdim : (a.row ⟨i, hi⟩).dim = (b.column j).dim := by rw [a.dim_row_get, dim_column, h]
  rw [get?_product hi hj, a.entry_product_eq_dot b ⟨i, hi⟩ hj]
  exact (if_pos hdim).symm

/-- The dot product is the linear combination, and both ask for equal dimensions. -/
theorem Vec.dot?_eq_linearCombination? (v w : Vec α) :
    byKind (v.dot? w) = byKind (Scalar.linearCombination? v.toList w.toList) := by
  unfold dot? ifSameDim Scalar.linearCombination? dim
  split <;> rfl

theorem Vec.dot?_of_dim_eq {v w : Vec α} (h : v.dim = w.dim) :
    v.dot? w = .ok (Scalar.indexedSum v.dim fun k => v.entry k * w.entry k) := by
  rw [← dot_eq_indexedSum h]
  exact if_pos h

theorem Vec.dot?_self (v : Vec α) : v.dot? v = .ok v.normSquared := by
  rw [normSquared_eq_dot]
  exact if_pos rfl

end Agreement

/-- The ways to compute a product give the same elements, whatever laws the scalars obey. The
product with a vector is the only column of a matrix product. The entries of a matrix product are
the dot products of rows with columns. Dot products are linear combinations, and squared norms are
dot products. Every one of them is the sum of its terms in the order of their indices. -/
theorem products_agree (α : Type) [Scalar α] :
    (∀ (a : Mat α) (x : Vec α), a.ncols = x.dim →
      ∃ c p y, Mat.ofEntries? (x.toList.map fun t => [t]) = .ok c ∧ a.mul? c = .ok p ∧
        p.ncols = 1 ∧ p.column? 0 = .ok y ∧ a.mulVec? x = .ok y) ∧
    (∀ a b : Mat α, a.ncols = b.nrows →
      ∃ p, a.mul? b = .ok p ∧ p.nrows = a.nrows ∧ p.ncols = b.ncols ∧
        ∀ i < a.nrows, ∀ j < b.ncols, ∃ r c, a.row? i = .ok r ∧ b.column? j = .ok c ∧
          p.get? i j = r.dot? c ∧
          p.get? i j = .ok (Scalar.indexedSum a.ncols fun k => a.entry i k * b.entry k j)) ∧
    (∀ v w : Vec α,
      byKind (v.dot? w) = byKind (Scalar.linearCombination? v.toList w.toList) ∧
      (v.dim = w.dim →
        v.dot? w = .ok (Scalar.indexedSum v.dim fun k => v.entry k * w.entry k))) ∧
    (∀ v : Vec α, v.dot? v = .ok v.normSquared) := by
  refine ⟨?_, ?_, ?_, Vec.dot?_self⟩
  · intro a x h
    have hproduct : a.mulVec? x = .ok (a.mulVec x) := if_pos h
    refine ⟨x.asColumn, a.product x.asColumn, a.mulVec x, Mat.ofEntries?_asColumn x,
      Mat.mul?_of_fits (by simpa using h), rfl, ?_, hproduct⟩
    rw [← Mat.mulVec?_eq_column? h, hproduct]
  · intro a b h
    refine ⟨a.product b, Mat.mul?_of_fits h, a.nrows_product b, rfl, ?_⟩
    intro i hi j hj
    refine ⟨a.row ⟨i, hi⟩, b.column j, Mat.row?_of_lt hi, Mat.column?_of_lt hj,
      Mat.get?_product_eq_dot? h hi hj, ?_⟩
    rw [Mat.get?_product hi hj, Mat.entry_product h hi hj]
  · intro v w
    exact ⟨v.dot?_eq_linearCombination? w, Vec.dot?_of_dim_eq⟩

/-- One before a great number and its opposite, and one behind them. A one that is added before
the others is lost to rounding. -/
def roundedSums : Mat Complex :=
  Mat.ofFn 2 3 Nat.two_pos (by decide) fun i j =>
    let great := Complex.ofReal (.ofNat 1000000000000000000)
    if j = 2 * i then 1 else if j = 1 then -great else great

theorem products_agree_roundedSums :
    let x : Vec Complex := ⟨[1, 1, 1], List.cons_ne_nil _ _⟩
    roundedSums.ncols = x.dim ∧ roundedSums.ncols = roundedSums.transpose.nrows ∧
    (∃ c p y, Mat.ofEntries? [[1], [1], [1]] = .ok c ∧ roundedSums.mul? c = .ok p ∧
      p.column? 0 = .ok y ∧ roundedSums.mulVec? x = .ok y ∧
      y.toList.map Complex.re = [0, .ofNat 1]) ∧
    (∃ p r c, roundedSums.mul? roundedSums.transpose = .ok p ∧ roundedSums.row? 0 = .ok r ∧
      roundedSums.transpose.column? 1 = .ok c ∧ p.get? 0 1 = r.dot? c) ∧
    x.dot? x = .ok (Scalar.indexedSum 3 fun k => x.entry k * x.entry k) := by
  intro x
  obtain ⟨hvectors, hmatrices, hdots, -⟩ := products_agree Complex
  obtain ⟨c, p, y, hc, hp, -, hcolumn, hy⟩ := hvectors roundedSums x rfl
  have hheight : roundedSums.ncols = roundedSums.transpose.nrows :=
    roundedSums.nrows_transpose.symm
  obtain ⟨q, hq, -, -, hentries⟩ := hmatrices roundedSums roundedSums.transpose hheight
  obtain ⟨r, d, hr, hd, hget, -⟩ := hentries 0 (by decide) 1 (by decide)
  have hsums : (roundedSums.mulVec x).toList.map Complex.re = [0, .ofNat 1] := by decide +kernel
  have hproduct : roundedSums.mulVec? x = .ok (roundedSums.mulVec x) := if_pos rfl
  have hvalue : roundedSums.mulVec x = y := Except.ok.inj (hproduct.symm.trans hy)
  exact ⟨rfl, hheight, ⟨c, p, y, hc, hp, hcolumn, hy, hvalue ▸ hsums⟩, ⟨q, r, d, hq, hr, hd, hget⟩,
    (hdots x x).2 rfl⟩

end RowReduction

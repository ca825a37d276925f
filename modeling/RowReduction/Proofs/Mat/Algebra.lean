import RowReduction.Proofs.Failure
import RowReduction.Proofs.Mat.Representation

/-!
# The algebra of matrices of fractions

Products, sums, transposes and multiples of matrices of fractions obey the laws
of matrices over a field, for all shapes that fit, and their entries have the
values that rational arithmetic gives. Where shapes do not fit, both sides of a
law fail as a mismatch of dimensions. The rank of a matrix is the rank of its
transpose, and a product has at most the rank of each of its factors.
-/

namespace RowReduction

namespace Mat

section Fitting

variable {α : Type} [Scalar α]

theorem mul?_eq_ok_iff {a b p : Mat α} :
    a.mul? b = .ok p ↔ a.ncols = b.nrows ∧ a.product b = p := by
  rw [mul?_eq]
  split <;> simp [*]

theorem add?_eq_ok_iff {a b s : Mat α} :
    a.add? b = .ok s ↔ ∃ h : a.shape = b.shape, zipWith (· + ·) a b h = s := by
  unfold add?
  split <;> simp [*]

theorem mulVec?_eq_ok_iff {a : Mat α} {x y : Vec α} :
    a.mulVec? x = .ok y ↔ a.ncols = x.dim ∧ a.mulVec x = y := by
  unfold mulVec?
  split <;> simp [*]

variable (a b : Mat α)

theorem add?_asksFor :
    AsksFor (a.shape = b.shape) (·.shape = a.shape) .dimensionMismatch (a.add? b) :=
  ⟨fun h => ⟨_, dif_pos h, shape_zipWith _ h⟩, fun h => ⟨_, dif_neg h, rfl⟩⟩

theorem sub?_asksFor :
    AsksFor (a.shape = b.shape) (·.shape = a.shape) .dimensionMismatch (a.sub? b) :=
  ⟨fun h => ⟨_, dif_pos h, shape_zipWith _ h⟩, fun h => ⟨_, dif_neg h, rfl⟩⟩

theorem mul?_asksFor :
    AsksFor (a.ncols = b.nrows) (·.shape = ⟨a.nrows, b.ncols⟩) .dimensionMismatch (a.mul? b) :=
  ⟨fun h => ⟨_, if_pos h, a.shape_product b⟩, fun h => ⟨_, if_neg h, rfl⟩⟩

theorem mulVec?_asksFor (x : Vec α) :
    AsksFor (a.ncols = x.dim) (·.dim = a.nrows) .dimensionMismatch (a.mulVec? x) :=
  ⟨fun h => ⟨_, if_pos h, List.length_map ..⟩, fun h => ⟨_, if_neg h, rfl⟩⟩

end Fitting

section Laws

open Matrix

variable {a b c : Mat Fraction}

theorem product_assoc (hab : a.ncols = b.nrows) (hbc : b.ncols = c.nrows) :
    (a.product b).product c = a.product (b.product c) := by
  obtain ⟨A, hA⟩ := exists_represents (a := a) rfl hab
  obtain ⟨B, hB⟩ := exists_represents (a := b) rfl hbc
  have hC := c.represents_toMatrix
  apply ((hA.product hB).product hC).unique
  rw [Matrix.mul_assoc]
  exact hA.product (hB.product hC)

theorem product_add (hab : a.ncols = b.nrows) (hbc : b.shape = c.shape)
    (h : (a.product b).shape = (a.product c).shape) :
    a.product (zipWith (· + ·) b c hbc) = zipWith (· + ·) (a.product b) (a.product c) h := by
  obtain ⟨hrows, hcols⟩ := shape_eq_iff.mp hbc
  obtain ⟨A, hA⟩ := exists_represents (a := a) rfl hab
  have hB := b.represents_toMatrix
  obtain ⟨C, hC⟩ := exists_represents hrows.symm hcols.symm
  apply (hA.product (hB.add hC hbc)).unique
  rw [Matrix.mul_add]
  exact (hA.product hB).add (hA.product hC) h

theorem add_product (hab : a.shape = b.shape) (hac : a.ncols = c.nrows)
    (h : (a.product c).shape = (b.product c).shape) :
    (zipWith (· + ·) a b hab).product c = zipWith (· + ·) (a.product c) (b.product c) h := by
  obtain ⟨hrows, hcols⟩ := shape_eq_iff.mp hab
  have hA := a.represents_toMatrix
  obtain ⟨B, hB⟩ := exists_represents hrows.symm hcols.symm
  obtain ⟨C, hC⟩ := exists_represents hac.symm (rfl : c.ncols = _)
  apply ((hA.add hB hab).product hC).unique
  rw [Matrix.add_mul]
  exact (hA.product hC).add (hB.product hC) h

/-- The matrix with ones on the diagonal leaves the matrix on its right as it is. -/
theorem identity_product (a : Mat Fraction) :
    (ofFn a.nrows a.nrows a.nrows_pos a.nrows_pos
      fun i j => if i = j then (1 : Fraction) else 0).product a = a := by
  apply ((represents_identity a.nrows_pos).product a.represents_toMatrix).unique
  rw [Matrix.one_mul]
  exact a.represents_toMatrix

/-- The matrix with ones on the diagonal leaves the matrix on its left as it is. -/
theorem product_identity (a : Mat Fraction) :
    a.product (ofFn a.ncols a.ncols a.ncols_pos a.ncols_pos
      fun i j => if i = j then (1 : Fraction) else 0) = a := by
  apply (a.represents_toMatrix.product (represents_identity a.ncols_pos)).unique
  rw [Matrix.mul_one]
  exact a.represents_toMatrix

theorem transpose_product (hab : a.ncols = b.nrows) :
    (a.product b).transpose = b.transpose.product a.transpose := by
  obtain ⟨A, hA⟩ := exists_represents (a := a) rfl hab
  have hB := b.represents_toMatrix
  apply (hA.product hB).transpose.unique
  rw [Matrix.transpose_mul]
  exact hB.transpose.product hA.transpose

theorem mulVec_product {x : Vec Fraction} (hab : a.ncols = b.nrows) (hx : b.ncols = x.dim) :
    (a.product b).mulVec x = a.mulVec (b.mulVec x) := by
  obtain ⟨A, hA⟩ := exists_represents (a := a) rfl hab
  have hB := b.represents_toMatrix
  apply (Vec.bijOn_coords a.nrows_pos).injOn
  · exact ((a.product b).dim_mulVec x).trans (a.nrows_product b)
  · exact a.dim_mulVec (b.mulVec x)
  · rw [(hA.product hB).coords_mulVec hx.symm, hA.coords_mulVec (b.dim_mulVec x),
      hB.coords_mulVec hx.symm, Matrix.mulVec_mulVec]

theorem scale_product (s : Fraction) (hab : a.ncols = b.nrows) :
    (scale s a).product b = scale s (a.product b) := by
  obtain ⟨A, hA⟩ := exists_represents (a := a) rfl hab
  have hB := b.represents_toMatrix
  apply ((hA.scale s).product hB).unique
  rw [Matrix.smul_mul]
  exact (hA.product hB).scale s

end Laws

section Computations

variable (a b c : Mat Fraction)

theorem mul?_assoc : byKind (do (← a.mul? b).mul? c) = byKind (do a.mul? (← b.mul? c)) := by
  -- Every step of both sides fails by a mismatch only, so it is enough that they have the same
  -- values: each side has one exactly if all shapes fit, and then the law of the total operations
  -- applies. The other laws are shown in the same way.
  have hleft := (a.mul?_asksFor b).failsOnlyBy.bind fun p => (p.mul?_asksFor c).failsOnlyBy
  have hright := (b.mul?_asksFor c).failsOnlyBy.bind fun p => (a.mul?_asksFor p).failsOnlyBy
  apply hleft.byKind_eq hright
  intro w
  simp only [bind_eq_ok_iff, mul?_eq_ok_iff]
  constructor
  · rintro ⟨_, ⟨hab, rfl⟩, hbc, rfl⟩
    exact ⟨_, ⟨hbc, rfl⟩, by simpa using hab, (product_assoc hab hbc).symm⟩
  · rintro ⟨_, ⟨hbc, rfl⟩, hab, rfl⟩
    have hab : a.ncols = b.nrows := by simpa using hab
    exact ⟨_, ⟨hab, rfl⟩, hbc, product_assoc hab hbc⟩

theorem mul?_add? :
    byKind (do a.mul? (← b.add? c)) = byKind (do (← a.mul? b).add? (← a.mul? c)) := by
  have hleft := (b.add?_asksFor c).failsOnlyBy.bind fun s => (a.mul?_asksFor s).failsOnlyBy
  have hright := (a.mul?_asksFor b).failsOnlyBy.bind fun p =>
    (a.mul?_asksFor c).failsOnlyBy.bind fun q => (p.add?_asksFor q).failsOnlyBy
  apply hleft.byKind_eq hright
  intro w
  simp only [bind_eq_ok_iff, mul?_eq_ok_iff, add?_eq_ok_iff]
  constructor
  · rintro ⟨_, ⟨hbc, rfl⟩, hab, rfl⟩
    obtain ⟨hrows, hcols⟩ := shape_eq_iff.mp hbc
    have hab : a.ncols = b.nrows := hab.trans (nrows_zipWith (· + ·) hbc)
    have hshapes : (a.product b).shape = (a.product c).shape := by simp [hcols]
    exact ⟨_, ⟨hab, rfl⟩, _, ⟨hab.trans hrows, rfl⟩, hshapes, (product_add hab hbc hshapes).symm⟩
  · rintro ⟨_, ⟨hab, rfl⟩, _, ⟨hac, rfl⟩, hshapes, rfl⟩
    have hbc : b.shape = c.shape :=
      shape_eq_iff.mpr ⟨hab.symm.trans hac, (shape_eq_iff.mp hshapes).2⟩
    have hsum : a.ncols = (zipWith (· + ·) b c hbc).nrows :=
      hab.trans (nrows_zipWith (· + ·) hbc).symm
    exact ⟨_, ⟨hbc, rfl⟩, hsum, product_add hab hbc hshapes⟩

theorem add?_mul? :
    byKind (do (← a.add? b).mul? c) = byKind (do (← a.mul? c).add? (← b.mul? c)) := by
  have hleft := (a.add?_asksFor b).failsOnlyBy.bind fun s => (s.mul?_asksFor c).failsOnlyBy
  have hright := (a.mul?_asksFor c).failsOnlyBy.bind fun p =>
    (b.mul?_asksFor c).failsOnlyBy.bind fun q => (p.add?_asksFor q).failsOnlyBy
  apply hleft.byKind_eq hright
  intro w
  simp only [bind_eq_ok_iff, mul?_eq_ok_iff, add?_eq_ok_iff]
  constructor
  · rintro ⟨_, ⟨hab, rfl⟩, hac, rfl⟩
    obtain ⟨hrows, hcols⟩ := shape_eq_iff.mp hab
    have hac : a.ncols = c.nrows := hac
    have hshapes : (a.product c).shape = (b.product c).shape := by simp [hrows]
    exact ⟨_, ⟨hac, rfl⟩, _, ⟨hcols.symm.trans hac, rfl⟩, hshapes,
      (add_product hab hac hshapes).symm⟩
  · rintro ⟨_, ⟨hac, rfl⟩, _, ⟨hbc, rfl⟩, hshapes, rfl⟩
    have hrows : a.nrows = b.nrows := by simpa using (shape_eq_iff.mp hshapes).1
    have hab : a.shape = b.shape := shape_eq_iff.mpr ⟨hrows, hac.trans hbc.symm⟩
    exact ⟨_, ⟨hab, rfl⟩, hac, add_product hab hac hshapes⟩

theorem transpose_mul? :
    byKind ((a.mul? b).map transpose) = byKind (b.transpose.mul? a.transpose) := by
  have hleft := (a.mul?_asksFor b).failsOnlyBy.map transpose
  have hright := (b.transpose.mul?_asksFor a.transpose).failsOnlyBy
  apply hleft.byKind_eq hright
  intro w
  simp only [map_eq_ok_iff, mul?_eq_ok_iff, ncols_transpose, nrows_transpose]
  constructor
  · rintro ⟨_, ⟨hab, rfl⟩, rfl⟩
    exact ⟨hab.symm, (transpose_product hab).symm⟩
  · rintro ⟨hba, rfl⟩
    exact ⟨_, ⟨hba.symm, rfl⟩, transpose_product hba.symm⟩

theorem mul?_mulVec? (x : Vec Fraction) :
    byKind (do (← a.mul? b).mulVec? x) = byKind (do a.mulVec? (← b.mulVec? x)) := by
  have hleft := (a.mul?_asksFor b).failsOnlyBy.bind fun p => (p.mulVec?_asksFor x).failsOnlyBy
  have hright := (b.mulVec?_asksFor x).failsOnlyBy.bind fun y => (a.mulVec?_asksFor y).failsOnlyBy
  apply hleft.byKind_eq hright
  intro w
  simp only [bind_eq_ok_iff, mul?_eq_ok_iff, mulVec?_eq_ok_iff]
  constructor
  · rintro ⟨_, ⟨hab, rfl⟩, hx, rfl⟩
    exact ⟨_, ⟨hx, rfl⟩, by simpa using hab, (mulVec_product hab hx).symm⟩
  · rintro ⟨_, ⟨hx, rfl⟩, hab, rfl⟩
    have hab : a.ncols = b.nrows := by simpa using hab
    exact ⟨_, ⟨hab, rfl⟩, hx, mulVec_product hab hx⟩

theorem scale_mul? (s : Fraction) : (scale s a).mul? b = (a.mul? b).map (scale s) := by
  rw [mul?_eq, mul?_eq]
  by_cases hab : a.ncols = b.nrows
  · have hscaled : (scale s a).ncols = b.nrows := hab
    rw [if_pos hscaled, if_pos hab, scale_product s hab]
    rfl
  · have hscaled : (scale s a).ncols ≠ b.nrows := hab
    rw [if_neg hscaled, if_neg hab, shape_scale]
    rfl

theorem identity?_mul? : (do (← identity? a.nrows).mul? a) = .ok a := by
  rw [bind_eq_ok_iff]
  exact ⟨_, dif_pos ⟨a.nrows_pos, a.nrows_pos⟩, mul?_eq_ok_iff.mpr ⟨rfl, a.identity_product⟩⟩

theorem mul?_identity? : (do a.mul? (← identity? a.ncols)) = .ok a := by
  rw [bind_eq_ok_iff]
  exact ⟨_, dif_pos ⟨a.ncols_pos, a.ncols_pos⟩,
    mul?_eq_ok_iff.mpr ⟨(nrows_ofFn ..).symm, a.product_identity⟩⟩

theorem add?_hasValues :
    AsksFor (a.shape = b.shape) (·.HasValues a.shape (a.values + b.values)) .dimensionMismatch
      (a.add? b) :=
  (a.add?_asksFor b).strengthen fun h =>
    ⟨_, dif_pos h, hasValues_zipWith Fraction.value_add (add_zero 0) h⟩

theorem sub?_hasValues :
    AsksFor (a.shape = b.shape) (·.HasValues a.shape (a.values - b.values)) .dimensionMismatch
      (a.sub? b) :=
  (a.sub?_asksFor b).strengthen fun h =>
    ⟨_, dif_pos h, hasValues_zipWith Fraction.value_sub (sub_zero 0) h⟩

theorem mul?_hasValues :
    AsksFor (a.ncols = b.nrows)
      (·.HasValues ⟨a.nrows, b.ncols⟩
        fun i j => ∑ k ∈ Finset.range a.ncols, a.values i k * b.values k j)
      .dimensionMismatch (a.mul? b) :=
  (a.mul?_asksFor b).strengthen fun h => ⟨_, if_pos h, hasValues_product h⟩

theorem mulVec?_hasValues (x : Vec Fraction) :
    AsksFor (a.ncols = x.dim)
      (·.HasValues a.nrows fun i => ∑ k ∈ Finset.range a.ncols, a.values i k * x.values k)
      .dimensionMismatch (a.mulVec? x) :=
  (a.mulVec?_asksFor x).strengthen fun h => ⟨_, if_pos h, hasValues_mulVec h⟩

/-- Matrices of fractions multiply as matrices of rational numbers do: products are associative,
distribute over sums, have the identities of fitting size as neutral elements, are reversed by
transposition, and agree with products with vectors and with multiples. If shapes do not fit, both
sides fail alike. Sums, differences and products ask for fitting shapes and for nothing else, and
report a mismatch of dimensions otherwise. Entry by entry, their values are the sums, differences
and sums of products of the values of the operands. A multiple has the values times that of the
factor, and a transpose has the values in exchanged places. -/
theorem algebra_of_fractions (s : Fraction) (x : Vec Fraction) :
    byKind (do (← a.mul? b).mul? c) = byKind (do a.mul? (← b.mul? c)) ∧
    byKind (do a.mul? (← b.add? c)) = byKind (do (← a.mul? b).add? (← a.mul? c)) ∧
    byKind (do (← a.add? b).mul? c) = byKind (do (← a.mul? c).add? (← b.mul? c)) ∧
    (do (← identity? a.nrows).mul? a) = .ok a ∧
    (do a.mul? (← identity? a.ncols)) = .ok a ∧
    byKind ((a.mul? b).map transpose) = byKind (b.transpose.mul? a.transpose) ∧
    byKind (do (← a.mul? b).mulVec? x) = byKind (do a.mulVec? (← b.mulVec? x)) ∧
    (scale s a).mul? b = (a.mul? b).map (scale s) ∧
    AsksFor (a.shape = b.shape) (·.HasValues a.shape (a.values + b.values)) .dimensionMismatch
      (a.add? b) ∧
    AsksFor (a.shape = b.shape) (·.HasValues a.shape (a.values - b.values)) .dimensionMismatch
      (a.sub? b) ∧
    AsksFor (a.ncols = b.nrows)
      (·.HasValues ⟨a.nrows, b.ncols⟩
        fun i j => ∑ k ∈ Finset.range a.ncols, a.values i k * b.values k j)
      .dimensionMismatch (a.mul? b) ∧
    AsksFor (a.ncols = x.dim)
      (·.HasValues a.nrows fun i => ∑ k ∈ Finset.range a.ncols, a.values i k * x.values k)
      .dimensionMismatch (a.mulVec? x) ∧
    (scale s a).HasValues a.shape (s.value • a.values) ∧
    a.transpose.HasValues ⟨a.ncols, a.nrows⟩ (Function.swap a.values) :=
  ⟨a.mul?_assoc b c, a.mul?_add? b c, a.add?_mul? b c, a.identity?_mul?, a.mul?_identity?,
    a.transpose_mul? b, a.mul?_mulVec? b x, a.scale_mul? b s, a.add?_hasValues b,
    a.sub?_hasValues b, a.mul?_hasValues b, a.mulVec?_hasValues x, hasValues_scale s a,
    a.hasValues_transpose⟩

end Computations

section Ranks

/-- The pivots of a transpose are as many as those of the matrix. -/
theorem rank_transpose_eq (a : Mat Fraction) : a.transpose.rank = a.rank := by
  rw [a.represents_toMatrix.transpose.rank_eq, Matrix.rank_transpose, a.rank_toMatrix]

/-- A product has at most as many pivots as each of its factors. -/
theorem rank_product_le {a b : Mat Fraction} (h : a.ncols = b.nrows) :
    (a.product b).rank ≤ min a.rank b.rank := by
  obtain ⟨A, hA⟩ := exists_represents (a := a) rfl h
  have hB := b.represents_toMatrix
  rw [(hA.product hB).rank_eq, hA.rank_eq, hB.rank_eq]
  exact Matrix.rank_mul_le A b.toMatrix

/-- The rank of a matrix is that of its transpose, and the rank of a product is at most that of
each of its factors. -/
theorem rank_transpose_product (a b : Mat Fraction) :
    a.transpose.rank = a.rank ∧ ∀ p, a.mul? b = .ok p → p.rank ≤ min a.rank b.rank := by
  refine ⟨a.rank_transpose_eq, fun p hp => ?_⟩
  obtain ⟨h, rfl⟩ := mul?_eq_ok_iff.mp hp
  exact rank_product_le h

/-- Rows of consecutive numbers, each of which starts one higher. -/
def indexSums : Mat Fraction :=
  ofFn 5 4 (by decide) (by decide) fun i j => Fraction.ofInt (i + j)

/-- A column that is orthogonal to all arithmetic progressions, and a column of ones. -/
def progressionWeights : Mat Fraction :=
  ofFn 4 2 (by decide) (by decide) fun i j => if j = 0 ∧ (i = 1 ∨ i = 2) then -1 else 1

theorem rank_transpose_product_indexSums :
    indexSums.transpose.rank = indexSums.rank ∧ indexSums.rank = 2 ∧
    progressionWeights.rank = 2 ∧
    ∃ p, indexSums.mul? progressionWeights = .ok p ∧ p.shape = ⟨5, 2⟩ ∧ p.rank = 1 ∧
      p.rank ≤ min indexSums.rank progressionWeights.rank := by
  obtain ⟨htranspose, hproduct⟩ := rank_transpose_product indexSums progressionWeights
  have hp : indexSums.mul? progressionWeights = .ok (indexSums.product progressionWeights) :=
    mul?_of_fits rfl
  exact ⟨htranspose, by decide, by decide, _, hp, rfl, by decide, hproduct _ hp⟩

end Ranks

end Mat

end RowReduction

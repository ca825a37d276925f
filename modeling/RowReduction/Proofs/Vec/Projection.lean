import RowReduction.Proofs.Vec.InnerProduct

/-!
# Projections of vectors of fractions

A vector is projected on a target by the multiple of the target that has the same
dot product with it. What the projection leaves of the vector is orthogonal to
the target, and the projection is not longer than the vector. The factor is a
quotient by the squared norm of the target, which is zero for the zero vector
only.
-/

namespace RowReduction.Vec

variable {v target p : Vec Fraction} {c : Fraction}

/-- Vectors are found to be orthogonal exactly if they have one dimension and the dot product
zero. -/
theorem isOrthogonal?_eq_true_iff :
    v.isOrthogonal? target = .ok true ↔ v.dim = target.dim ∧ v.dot target = 0 := by
  simp only [isOrthogonal?, dot?, map_eq_ok_iff, ifSameDim_eq_ok_iff, beq_iff_eq]
  constructor
  · rintro ⟨_, ⟨hdim, rfl⟩, hzero⟩
    exact ⟨hdim, hzero⟩
  · rintro ⟨hdim, hzero⟩
    exact ⟨_, ⟨hdim, rfl⟩, hzero⟩

theorem normSquared_scale (c : Fraction) (v : Vec Fraction) :
    (v.scale c).normSquared = c * (c * v.normSquared) := by
  simp only [normSquared_eq_dot, scale_dot, dot_scale c (rfl : v.dim = v.dim)]

/-- Vectors of the dimension of the target are projected by their dot product with it. -/
theorem project?_eq (hdim : v.dim = target.dim) :
    v.project? target =
      (Scalar.div? (v.dot target) target.normSquared).map fun factor => scale factor target := by
  simp only [project?, dot?, ifSameDim, if_pos hdim]
  rfl

theorem value_normSquared_ne_zero_iff : v.normSquared.value ≠ 0 ↔ v.isZero = false := by
  rw [← Fraction.isZero_eq_false_iff_value, isZero_normSquared]

/-- The projection is the multiple of the target that has the dot product of the vector with it. -/
theorem project?_eq_ok_iff (hdim : v.dim = target.dim) :
    v.project? target = .ok p ↔ target.isZero = false ∧
      ∃ c : Fraction, c * target.normSquared = v.dot target ∧ p = target.scale c := by
  simp only [project?_eq hdim, map_eq_ok_iff, Fraction.div?_eq_ok_iff,
    value_normSquared_ne_zero_iff, ← Fraction.value_inj, Fraction.value_mul]
  constructor
  · rintro ⟨c, ⟨hzero, hc⟩, rfl⟩
    have hne := value_normSquared_ne_zero_iff.mpr hzero
    exact ⟨hzero, c, (eq_div_iff hne).mp hc, rfl⟩
  · rintro ⟨hzero, c, hc, rfl⟩
    have hne := value_normSquared_ne_zero_iff.mpr hzero
    exact ⟨c, ⟨hzero, (eq_div_iff hne).mpr hc⟩, rfl⟩

/-- What the multiple with the dot product of a vector leaves of it is orthogonal to the target. -/
theorem isOrthogonal?_sub_scale (hdim : v.dim = target.dim)
    (hc : c * target.normSquared = v.dot target) :
    (zipWith (· - ·) v (target.scale c)).isOrthogonal? target = .ok true := by
  have hscale : v.dim = (target.scale c).dim := by rw [dim_scale, hdim]
  refine isOrthogonal?_eq_true_iff.mpr ⟨?_, ?_⟩
  · simp [hdim]
  · apply Fraction.value_injective
    rw [sub_dot hscale, scale_dot, ← normSquared_eq_dot, hc, Fraction.value_sub, sub_self,
      Fraction.value_zero]

/-- The multiple with the dot product of a vector is not longer than the vector. -/
theorem normSquared_scale_le (hdim : v.dim = target.dim) (hzero : target.isZero = false)
    (hc : c * target.normSquared = v.dot target) :
    (target.scale c).normSquared ≤ v.normSquared := by
  have hne := value_normSquared_ne_zero_iff.mpr hzero
  have hnonneg : 0 ≤ target.normSquared.value := by
    simpa only [Fraction.le_iff_value, Fraction.value_zero] using target.normSquared_nonneg
  have hbound := dot_mul_dot_le hdim
  simp only [← hc, Fraction.le_iff_value, Fraction.value_mul] at hbound
  simp only [Fraction.le_iff_value, normSquared_scale, Fraction.value_mul]
  apply le_of_mul_le_mul_right _ (lt_of_le_of_ne hnonneg hne.symm)
  calc
    c.value * (c.value * target.normSquared.value) * target.normSquared.value =
        c.value * target.normSquared.value * (c.value * target.normSquared.value) := by ring
    _ ≤ v.normSquared.value * target.normSquared.value := hbound

/-- A multiple of the target that leaves nothing of the vector along the target, that is projected
to itself, and that is not longer than the vector. -/
structure IsProjection (v target p : Vec Fraction) : Prop where
  eq_scale : ∃ c, p = target.scale c
  orthogonal : ∃ rest, v.sub? p = .ok rest ∧ rest.isOrthogonal? target = .ok true
  project?_self : p.project? target = .ok p
  normSquared_le : p.normSquared ≤ v.normSquared

theorem isProjection_of_project? (hdim : v.dim = target.dim) (h : v.project? target = .ok p) :
    IsProjection v target p := by
  obtain ⟨hzero, c, hc, rfl⟩ := (project?_eq_ok_iff hdim).mp h
  have hscale : v.dim = (target.scale c).dim := by rw [dim_scale, hdim]
  -- The projection has the dot product of the vector with the target, so its factor is the same.
  have hself : c * target.normSquared = (target.scale c).dot target := by
    rw [scale_dot, normSquared_eq_dot]
  exact ⟨⟨c, rfl⟩, ⟨_, if_pos hscale, isOrthogonal?_sub_scale hdim hc⟩,
    (project?_eq_ok_iff (dim_scale c target)).mpr ⟨hzero, c, hself, rfl⟩,
    normSquared_scale_le hdim hzero hc⟩

theorem project?_asksFor (hdim : v.dim = target.dim) :
    AsksFor (target.isZero = false) (IsProjection v target) .divisionByZero
      (v.project? target) := by
  constructor
  · intro hzero
    have hnorm : Scalar.isZero target.normSquared = false := by rw [isZero_normSquared, hzero]
    obtain ⟨c, -, hc⟩ := Fraction.exists_quotient_iff (a := v.dot target).mp hnorm
    have hproject : v.project? target = .ok (target.scale c) :=
      (project?_eq_ok_iff hdim).mpr ⟨hzero, c, eq_of_beq hc, rfl⟩
    exact ⟨_, hproject, isProjection_of_project? hdim hproject⟩
  · intro hzero
    have hnorm : Scalar.isZero target.normSquared = true := by
      simpa [isZero_normSquared] using hzero
    have hdiv := Fraction.div?_eq_error_iff (a := v.dot target).mpr
      ⟨Fraction.isZero_eq_true_iff_value.mp hnorm, rfl⟩
    exact ⟨_, by rw [project?_eq hdim, hdiv, Except.map], rfl⟩

/-- Vectors of one dimension are projected on every target but zero. The projection is a multiple of
the target, what it leaves of the vector is orthogonal to the target, it is its own projection, and
it is not longer than the vector. Vectors of different dimensions are refused. -/
theorem project?_orthogonal (v target : Vec Fraction) :
    (v.dim = target.dim → AsksFor (target.isZero = false) (IsProjection v target) .divisionByZero
      (v.project? target)) ∧
    (v.dim ≠ target.dim → ∃ e, v.project? target = .error e ∧ e.kind = .dimensionMismatch) := by
  refine ⟨project?_asksFor, fun hdim => ?_⟩
  refine ⟨.vectorDimensions .dotProduct v.dim target.dim, ?_, rfl⟩
  simp only [project?, dot?, ifSameDim, if_neg hdim]
  rfl

theorem project?_orthogonal_diagonal :
    let v : Vec Fraction := ⟨[1, 1, 0], List.cons_ne_nil _ _⟩
    let target : Vec Fraction := ⟨[1, .ofInt 2, .ofInt 2], List.cons_ne_nil _ _⟩
    let short : Vec Fraction := ⟨[1, 1], List.cons_ne_nil _ _⟩
    (v.dim = target.dim ∧ target.isZero = false ∧
      ∃ p, v.project? target = .ok p ∧ IsProjection v target p ∧ p.normSquared = 1) ∧
    short.dim ≠ target.dim ∧
      ∃ e, short.project? target = .error e ∧ e.kind = .dimensionMismatch := by
  intro v target short
  have hzero : target.isZero = false := by decide
  have hdim : short.dim ≠ target.dim := by decide
  obtain ⟨p, hp, hlaws⟩ := ((project?_orthogonal v target).1 rfl).succeeds hzero
  obtain ⟨e, he, hkind⟩ := (project?_orthogonal short target).2 hdim
  have hnorm : (v.project? target).map normSquared = .ok 1 := by decide
  rw [hp, Except.map] at hnorm
  exact ⟨⟨rfl, hzero, p, hp, hlaws, Except.ok.inj hnorm⟩, hdim, e, he, hkind⟩

end RowReduction.Vec

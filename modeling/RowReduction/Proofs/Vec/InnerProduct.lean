import RowReduction.Proofs.Failure
import RowReduction.Proofs.Fraction.Comparison
import RowReduction.Proofs.Fraction.FieldLaws
import RowReduction.Proofs.Mat.Entries
import Mathlib.LinearAlgebra.LinearIndependent.Lemmas
import Mathlib.LinearAlgebra.Matrix.DotProduct

/-!
# The inner product of vectors of fractions

The dot product of two vectors of fractions is that of the sequences of their
values, so it is symmetric, linear in both places and positive. What a sequence
has beside its part along another one tells how much the product of their
squared norms exceeds the square of their dot product. Nothing is left exactly
if the two are linearly dependent.
-/

namespace RowReduction

open Matrix

section Sequences

variable {n : ℕ} (f g : Fin n → ℚ)

/-- The square of what a sequence has beside its part along another one, both multiplied by the
square of the other. -/
theorem dotProduct_self_residual :
    ((g ⬝ᵥ g) • f - (f ⬝ᵥ g) • g) ⬝ᵥ ((g ⬝ᵥ g) • f - (f ⬝ᵥ g) • g) =
      (g ⬝ᵥ g) * ((f ⬝ᵥ f) * (g ⬝ᵥ g) - (f ⬝ᵥ g) ^ 2) := by
  simp only [sub_dotProduct, dotProduct_sub, smul_dotProduct, dotProduct_smul, smul_eq_mul,
    dotProduct_comm g f]
  ring

theorem sq_dotProduct_le : (f ⬝ᵥ g) ^ 2 ≤ (f ⬝ᵥ f) * (g ⬝ᵥ g) := by
  simpa only [dotProduct, sq] using Finset.sum_mul_sq_le_sq_mul_sq Finset.univ f g

/-- Equality holds in the Cauchy-Schwarz inequality for linearly dependent sequences only. -/
theorem sq_dotProduct_eq_iff :
    (f ⬝ᵥ g) ^ 2 = (f ⬝ᵥ f) * (g ⬝ᵥ g) ↔ ¬ LinearIndependent ℚ ![f, g] := by
  constructor
  · intro h hind
    have hself := dotProduct_self_residual f g
    rw [h, sub_self, mul_zero, dotProduct_self_eq_zero, sub_eq_add_neg, ← neg_smul] at hself
    have hzero : g ⬝ᵥ g = 0 := (LinearIndependent.pair_iff.mp hind _ _ hself).1
    exact hind.ne_zero 1 (dotProduct_self_eq_zero.mp hzero)
  · intro h
    by_cases hf : f = 0
    · simp [hf]
    · obtain ⟨c, rfl⟩ : ∃ c : ℚ, c • f = g := by
        simpa [LinearIndependent.pair_iff' hf] using h
      simp only [dotProduct_smul, smul_dotProduct, smul_eq_mul]
      ring

end Sequences

namespace Vec

section Fitting

variable {α β γ : Type} {v w : Vec α} {operation : Operation}

theorem ifSameDim_eq_ok_iff {x y : β} :
    ifSameDim operation v w x = .ok y ↔ v.dim = w.dim ∧ x = y := by
  unfold ifSameDim
  split <;> simp [*]

theorem ifSameDim_asksFor {P : β → Prop} {x : β} (h : v.dim = w.dim → P x) :
    AsksFor (v.dim = w.dim) P .dimensionMismatch (ifSameDim operation v w x) :=
  ⟨fun hdim => ⟨x, if_pos hdim, h hdim⟩, fun hdim => ⟨_, if_neg hdim, rfl⟩⟩

theorem ifSameDim_failsOnlyBy (operation : Operation) (v w : Vec α) (x : β) :
    FailsOnlyBy .dimensionMismatch (ifSameDim operation v w x) :=
  (ifSameDim_asksFor (P := fun _ => True) fun _ => trivial).failsOnlyBy

/-- Operands of the same dimensions fail alike, so that a value may be changed after the check. -/
theorem ifSameDim_eq_map {v' w' : Vec α} (hv : v'.dim = v.dim) (hw : w'.dim = w.dim) {x : β}
    {y : γ} {f : β → γ} (h : v.dim = w.dim → y = f x) :
    ifSameDim operation v' w' y = (ifSameDim operation v w x).map f := by
  unfold ifSameDim
  rw [hv, hw]
  by_cases hdim : v.dim = w.dim
  · rw [if_pos hdim, if_pos hdim, h hdim]
    rfl
  · rw [if_neg hdim, if_neg hdim]
    rfl

variable [Scalar α]

@[simp] theorem dim_neg (v : Vec α) : (-v).dim = v.dim :=
  v.dim_map _

@[simp] theorem dim_scale (a : α) (v : Vec α) : (v.scale a).dim = v.dim :=
  v.dim_map _

theorem add?_asksFor (v w : Vec α) :
    AsksFor (v.dim = w.dim) (·.dim = v.dim) .dimensionMismatch (v.add? w) :=
  ifSameDim_asksFor fun h => by simp [h]

theorem sub?_asksFor (v w : Vec α) :
    AsksFor (v.dim = w.dim) (·.dim = v.dim) .dimensionMismatch (v.sub? w) :=
  ifSameDim_asksFor fun h => by simp [h]

end Fitting

variable {n : ℕ} {u v w : Vec Fraction}

section Coordinates

@[simp] theorem coords_scale (c : Fraction) (v : Vec Fraction) :
    (v.scale c).coords n = c.value • v.coords n :=
  funext fun j => congrFun (values_scale c v) j

@[simp] theorem coords_neg (v : Vec Fraction) : (-v).coords n = -v.coords n :=
  funext fun j => congrFun (values_neg v) j

theorem coords_add (h : u.dim = v.dim) :
    (zipWith (· + ·) u v).coords n = u.coords n + v.coords n :=
  funext fun j => congrFun (values_zipWith Fraction.value_add (add_zero 0) h) j

theorem coords_sub (h : u.dim = v.dim) :
    (zipWith (· - ·) u v).coords n = u.coords n - v.coords n :=
  funext fun j => congrFun (values_zipWith Fraction.value_sub (sub_zero 0) h) j

/-- The value of the dot product is the dot product of the values. -/
theorem value_dot_eq_dotProduct (v : Vec Fraction) (hw : w.dim = n) :
    (v.dot w).value = v.coords n ⬝ᵥ w.coords n := by
  subst hw
  exact (v.value_dot w).trans (Fin.sum_univ_eq_sum_range (fun j => v.values j * w.values j) _).symm

theorem value_normSquared (hv : v.dim = n) : v.normSquared.value = v.coords n ⬝ᵥ v.coords n := by
  rw [normSquared_eq_dot, value_dot_eq_dotProduct v hv]

/-- The zero vector is the one whose values are all zero. -/
theorem isZero_eq_true_iff (hv : v.dim = n) : v.isZero = true ↔ v.coords n = 0 := by
  subst hv
  simp only [isZero, List.all_eq_true, Fraction.beq_iff_value, Fraction.value_zero]
  constructor
  · intro h
    ext j
    have hj : (j : ℕ) < v.toList.length := j.isLt
    exact (values_of_lt hj).trans (h _ (List.getElem_mem hj))
  · intro h a ha
    obtain ⟨j, hj, rfl⟩ := List.getElem_of_mem ha
    exact (values_of_lt hj).symm.trans (congrFun h ⟨j, hj⟩)

end Coordinates

section Laws

theorem dot_comm (h : u.dim = v.dim) : u.dot v = v.dot u := by
  apply Fraction.value_injective
  simp only [value_dot_eq_dotProduct u h.symm, value_dot_eq_dotProduct v rfl, dotProduct_comm]

theorem add_dot (h : u.dim = v.dim) : (zipWith (· + ·) u v).dot w = u.dot w + v.dot w := by
  apply Fraction.value_injective
  simp only [Fraction.value_add, value_dot_eq_dotProduct (w := w) _ rfl, coords_add h,
    add_dotProduct]

theorem sub_dot (h : u.dim = v.dim) : (zipWith (· - ·) u v).dot w = u.dot w - v.dot w := by
  apply Fraction.value_injective
  simp only [Fraction.value_sub, value_dot_eq_dotProduct (w := w) _ rfl, coords_sub h,
    sub_dotProduct]

theorem neg_dot (v w : Vec Fraction) : (-v).dot w = -v.dot w := by
  apply Fraction.value_injective
  simp only [Fraction.value_neg, value_dot_eq_dotProduct (w := w) _ rfl, coords_neg,
    neg_dotProduct]

theorem scale_dot (c : Fraction) (v w : Vec Fraction) : (v.scale c).dot w = c * v.dot w := by
  apply Fraction.value_injective
  simp only [Fraction.value_mul, value_dot_eq_dotProduct (w := w) _ rfl, coords_scale,
    smul_dotProduct, smul_eq_mul]

theorem dot_neg (h : u.dim = v.dim) : u.dot (-v) = -u.dot v := by
  rw [dot_comm (h.trans (dim_neg v).symm), neg_dot, dot_comm h]

theorem dot_scale (c : Fraction) (h : u.dim = v.dim) : u.dot (v.scale c) = c * u.dot v := by
  rw [dot_comm (h.trans (dim_scale c v).symm), scale_dot, dot_comm h]

theorem normSquared_nonneg (v : Vec Fraction) : 0 ≤ v.normSquared := by
  simp only [Fraction.le_iff_value, Fraction.value_zero, value_normSquared (v := v) rfl]
  exact Finset.sum_nonneg fun j _ => mul_self_nonneg _

/-- Only the zero vector has the norm zero, because no square makes up for another. -/
theorem normSquared_eq_zero_iff : v.normSquared = 0 ↔ v.isZero = true := by
  rw [← Fraction.value_inj, Fraction.value_zero, value_normSquared rfl, dotProduct_self_eq_zero,
    isZero_eq_true_iff rfl]

/-- The squared norm counts as zero for the zero vector only. -/
theorem isZero_normSquared (v : Vec Fraction) : Scalar.isZero v.normSquared = v.isZero := by
  rw [Bool.eq_iff_iff, Fraction.isZero_eq_true_iff_value, ← normSquared_eq_zero_iff,
    ← Fraction.value_inj, Fraction.value_zero]

theorem dot_mul_dot_le (h : u.dim = v.dim) :
    u.dot v * u.dot v ≤ u.normSquared * v.normSquared := by
  simp only [Fraction.le_iff_value, Fraction.value_mul, ← sq,
    value_dot_eq_dotProduct u h.symm, value_normSquared (v := u) rfl, value_normSquared h.symm]
  exact sq_dotProduct_le _ _

theorem dot_mul_dot_eq_iff (h : u.dim = v.dim) :
    u.dot v * u.dot v = u.normSquared * v.normSquared ↔
      ¬ LinearIndependent ℚ ![u.coords u.dim, v.coords u.dim] := by
  simp only [← Fraction.value_inj, Fraction.value_mul, ← sq,
    value_dot_eq_dotProduct u h.symm, value_normSquared (v := u) rfl, value_normSquared h.symm]
  exact sq_dotProduct_eq_iff _ _

end Laws

section Computations

theorem dot?_comm (v w : Vec Fraction) : byKind (v.dot? w) = byKind (w.dot? v) := by
  apply (ifSameDim_failsOnlyBy _ v w _).byKind_eq (ifSameDim_failsOnlyBy _ w v _)
  intro d
  rw [ifSameDim_eq_ok_iff, ifSameDim_eq_ok_iff, eq_comm (a := v.dim)]
  exact and_congr_right fun h => by rw [dot_comm h]

/-- Joining two vectors component by component before the dot product is joining their dot products,
if it is so without the checks. All failures are mismatches, so it is enough that both sides have
the same values. -/
theorem zipWith_dot? {f : Fraction → Fraction → Fraction} (operation : Operation)
    (hf : ∀ {u v w : Vec Fraction}, u.dim = v.dim → (zipWith f u v).dot w = f (u.dot w) (v.dot w))
    (u v w : Vec Fraction) :
    byKind (do (← ifSameDim operation u v (zipWith f u v)).dot? w) =
      byKind (do return f (← u.dot? w) (← v.dot? w)) := by
  have hleft := (ifSameDim_failsOnlyBy operation u v (zipWith f u v)).bind fun s =>
    ifSameDim_failsOnlyBy .dotProduct s w (s.dot w)
  have hright := (ifSameDim_failsOnlyBy .dotProduct u w (u.dot w)).bind fun a =>
    (ifSameDim_failsOnlyBy .dotProduct v w (v.dot w)).bind fun b => FailsOnlyBy.ok (f a b)
  apply hleft.byKind_eq hright
  intro d
  simp only [bind_eq_ok_iff, ifSameDim_eq_ok_iff]
  constructor
  · rintro ⟨_, ⟨huv, rfl⟩, hw, rfl⟩
    have hvw : v.dim = w.dim := by simpa [huv] using hw
    exact ⟨_, ⟨huv.trans hvw, rfl⟩, _, ⟨hvw, rfl⟩, congrArg Except.ok (hf huv).symm⟩
  · rintro ⟨_, ⟨huw, rfl⟩, _, ⟨hvw, rfl⟩, hd⟩
    have huv : u.dim = v.dim := huw.trans hvw.symm
    exact ⟨_, ⟨huv, rfl⟩, by simpa [huv] using hvw, (hf huv).trans (Except.ok.inj hd)⟩

/-- What holds of vectors that are joined before the dot product holds in both of its places. -/
theorem dot?_zipWith {f : Fraction → Fraction → Fraction} (operation : Operation)
    (hf : ∀ {u v w : Vec Fraction}, u.dim = v.dim → (zipWith f u v).dot w = f (u.dot w) (v.dot w))
    (u v w : Vec Fraction) :
    byKind (do w.dot? (← ifSameDim operation u v (zipWith f u v))) =
      byKind (do return f (← w.dot? u) (← w.dot? v)) := by
  calc
    byKind (do w.dot? (← ifSameDim operation u v (zipWith f u v))) =
        byKind (do (← ifSameDim operation u v (zipWith f u v)).dot? w) := by
      simp only [byKind_bind, w.dot?_comm]
    _ = byKind (do return f (← u.dot? w) (← v.dot? w)) := zipWith_dot? operation hf u v w
    _ = byKind (do return f (← w.dot? u) (← w.dot? v)) := by
      simp only [byKind_bind, w.dot?_comm]

/-- Division of a vector asks for a divisor other than zero, and is scaling by its inverse. -/
theorem divScalar?_asksFor (v : Vec Fraction) (s : Fraction) :
    AsksFor (Scalar.isZero s = false) (fun q => ∃ r, Scalar.inv? s = .ok r ∧ q = v.scale r)
      .divisionByZero (v.divScalar? s) := by
  constructor
  · intro h
    obtain ⟨r, hr, -⟩ := Fraction.exists_inverse_iff.mp h
    exact ⟨v.scale r, divScalar?_eq_scale hr v, r, hr, rfl⟩
  · intro h
    have hzero : s.value = 0 := Fraction.isZero_eq_true_iff_value.mp (by simpa using h)
    obtain ⟨a, as, hlist⟩ := List.exists_cons_of_ne_nil v.ne_nil
    refine ⟨.zeroDivisor (toString a) (toString s), ?_, rfl⟩
    have hdiv : Scalar.div? a s = .error (.zeroDivisor (toString a) (toString s)) :=
      Fraction.div?_eq_error_iff.mpr ⟨hzero, rfl⟩
    simp only [divScalar?, hlist, List.mapM_cons, hdiv]
    rfl

/-- A fraction is the dot product of the values of two vectors. Its square is at most the product of
their squared norms, which it reaches for linearly dependent vectors only. -/
structure IsDotProduct (u v : Vec Fraction) (d : Fraction) : Prop where
  value_eq : d.value = u.coords u.dim ⬝ᵥ v.coords u.dim
  mul_self_le : d * d ≤ u.normSquared * v.normSquared
  mul_self_eq_iff : d * d = u.normSquared * v.normSquared ↔
    ¬ LinearIndependent ℚ ![u.coords u.dim, v.coords u.dim]

theorem dot?_asksFor (u v : Vec Fraction) :
    AsksFor (u.dim = v.dim) (IsDotProduct u v) .dimensionMismatch (u.dot? v) :=
  ifSameDim_asksFor fun h =>
    ⟨value_dot_eq_dotProduct u h.symm, dot_mul_dot_le h, dot_mul_dot_eq_iff h⟩

/-- The dot product of vectors of fractions is an inner product: it is symmetric, linear in both of
its places, and positive for all vectors but zero. Its square is at most the product of the squared
norms, with equality for linearly dependent vectors only. Sums, differences and dot products ask for
equal dimensions and for nothing else, and where dimensions differ both sides of a law fail alike.
Dividing a vector is scaling by the inverse, and fails by zero only. -/
theorem inner_product_laws (u v w : Vec Fraction) (s : Fraction) :
    (AsksFor (u.dim = v.dim) (IsDotProduct u v) .dimensionMismatch (u.dot? v) ∧
      AsksFor (u.dim = v.dim) (·.dim = u.dim) .dimensionMismatch (u.add? v) ∧
      AsksFor (u.dim = v.dim) (·.dim = u.dim) .dimensionMismatch (u.sub? v)) ∧
    byKind (u.dot? v) = byKind (v.dot? u) ∧
    (byKind (do (← u.add? v).dot? w) = byKind (do return (← u.dot? w) + (← v.dot? w)) ∧
      byKind (do w.dot? (← u.add? v)) = byKind (do return (← w.dot? u) + (← w.dot? v))) ∧
    (byKind (do (← u.sub? v).dot? w) = byKind (do return (← u.dot? w) - (← v.dot? w)) ∧
      byKind (do w.dot? (← u.sub? v)) = byKind (do return (← w.dot? u) - (← w.dot? v))) ∧
    ((-u).dot? v = (u.dot? v).map (- ·) ∧ u.dot? (-v) = (u.dot? v).map (- ·)) ∧
    ((u.scale s).dot? v = (u.dot? v).map (s * ·) ∧
      u.dot? (v.scale s) = (u.dot? v).map (s * ·)) ∧
    (0 ≤ v.normSquared ∧ (v.normSquared = 0 ↔ v.isZero = true)) ∧
    AsksFor (Scalar.isZero s = false) (fun q => ∃ r, Scalar.inv? s = .ok r ∧ q = v.scale r)
      .divisionByZero (v.divScalar? s) := by
  refine ⟨⟨u.dot?_asksFor v, u.add?_asksFor v, u.sub?_asksFor v⟩, u.dot?_comm v, ?_, ?_, ?_, ?_,
    ⟨v.normSquared_nonneg, normSquared_eq_zero_iff⟩, v.divScalar?_asksFor s⟩
  · exact ⟨zipWith_dot? .sum add_dot u v w, dot?_zipWith .sum add_dot u v w⟩
  · exact ⟨zipWith_dot? .difference sub_dot u v w, dot?_zipWith .difference sub_dot u v w⟩
  · exact ⟨ifSameDim_eq_map (dim_neg u) rfl fun _ => neg_dot u v,
      ifSameDim_eq_map rfl (dim_neg v) dot_neg⟩
  · exact ⟨ifSameDim_eq_map (dim_scale s u) rfl fun _ => scale_dot s u v,
      ifSameDim_eq_map rfl (dim_scale s v) (dot_scale s)⟩

end Computations

end Vec

end RowReduction

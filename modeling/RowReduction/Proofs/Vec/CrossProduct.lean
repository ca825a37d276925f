import RowReduction.Proofs.Vec.Projection
import Mathlib.LinearAlgebra.CrossProduct

/-!
# The cross product of vectors of fractions

The cross product of two vectors of three fractions is that of their values. So
it is anticommutative, orthogonal to its factors and subject to the Jacobi
identity, and its squared norm is what the square of the dot product leaves of
the product of the squared norms. Outside three dimensions it is refused.
-/

namespace RowReduction.Vec

open Matrix

section Shapes

variable {α : Type} [Scalar α]

/-- The cross product of the first three components of two vectors. -/
def cross (v w : Vec α) : Vec α where
  toList := [v.entry 1 * w.entry 2 - v.entry 2 * w.entry 1,
    v.entry 2 * w.entry 0 - v.entry 0 * w.entry 2, v.entry 0 * w.entry 1 - v.entry 1 * w.entry 0]
  ne_nil := List.cons_ne_nil _ _

@[simp] theorem dim_cross (v w : Vec α) : (v.cross w).dim = 3 :=
  rfl

/-- Vectors of three dimensions have their first three components only, and others are refused. -/
theorem cross?_eq (v w : Vec α) :
    v.cross? w =
      if v.dim = 3 ∧ w.dim = 3 then .ok (v.cross w) else .error .crossDimension := by
  by_cases h : v.dim = 3 ∧ w.dim = 3
  · rw [if_pos h]
    obtain ⟨vs, hvs⟩ := v
    obtain ⟨ws, hws⟩ := w
    obtain ⟨a, b, c, rfl⟩ := List.length_eq_three.mp h.1
    obtain ⟨x, y, z, rfl⟩ := List.length_eq_three.mp h.2
    rfl
  · rw [if_neg h]
    unfold cross?
    split
    next hv hw => exact absurd ⟨congrArg List.length hv, congrArg List.length hw⟩ h
    next => rfl

theorem cross?_of_dim_eq {v w : Vec α} (hv : v.dim = 3) (hw : w.dim = 3) :
    v.cross? w = .ok (v.cross w) :=
  (v.cross?_eq w).trans (if_pos ⟨hv, hw⟩)

theorem cross?_asksFor {P : Vec α → Prop} {v w : Vec α}
    (h : v.dim = 3 → w.dim = 3 → P (v.cross w)) :
    AsksFor (v.dim = 3 ∧ w.dim = 3) P .unsupported (v.cross? w) := by
  rw [cross?_eq]
  exact ⟨fun hdim => ⟨_, if_pos hdim, h hdim.1 hdim.2⟩, fun hdim => ⟨_, if_neg hdim, rfl⟩⟩

end Shapes

section Laws

variable {a b c : Vec Fraction}

/-- The values of the cross product are the cross product of the values. -/
@[simp] theorem coords_cross (a b : Vec Fraction) :
    (a.cross b).coords 3 = a.coords 3 ⨯₃ b.coords 3 := by
  ext i
  fin_cases i <;> simp [cross_apply, coords, values, cross, entry]

theorem neg_cross_swap (a b : Vec Fraction) : -(b.cross a) = a.cross b := by
  apply ext_coords (n := 3) (dim_neg _) rfl
  simp only [coords_neg, coords_cross, cross_anticomm]

theorem cross_dot_left (ha : a.dim = 3) (b : Vec Fraction) : (a.cross b).dot a = 0 := by
  apply Fraction.value_injective
  simp only [value_dot_eq_dotProduct _ ha, coords_cross, dotProduct_comm _ (a.coords 3),
    dot_self_cross, Fraction.value_zero]

theorem cross_dot_right (a : Vec Fraction) (hb : b.dim = 3) : (a.cross b).dot b = 0 := by
  rw [← neg_cross_swap, neg_dot, cross_dot_left hb]
  rfl

/-- The squared norm is what the square of the dot product leaves of the product of the squared
norms. -/
theorem normSquared_cross (ha : a.dim = 3) (hb : b.dim = 3) :
    (a.cross b).normSquared = a.normSquared * b.normSquared - a.dot b * a.dot b := by
  apply Fraction.value_injective
  simp only [Fraction.value_sub, Fraction.value_mul, value_normSquared (n := 3) (dim_cross a b),
    value_normSquared ha, value_normSquared hb, value_dot_eq_dotProduct a hb, coords_cross,
    cross_dot_cross, dotProduct_comm (b.coords 3) (a.coords 3)]

theorem isZero_cross_iff (a b : Vec Fraction) :
    (a.cross b).isZero = true ↔ ¬ LinearIndependent ℚ ![a.coords 3, b.coords 3] := by
  rw [isZero_eq_true_iff (dim_cross a b), coords_cross,
    ← crossProduct_ne_zero_iff_linearIndependent, not_ne_iff]

theorem coords_zeros {n : ℕ} (h : 0 < n) : (ofFn n h fun _ => (0 : Fraction)).coords n = 0 := by
  ext j
  simp [coords, values]

/-- The cross products of each of three vectors with the cross product of the next two, in cyclic
order, sum up to zero. -/
theorem cross_jacobi (a b c : Vec Fraction) :
    zipWith (· + ·) (zipWith (· + ·) (a.cross (b.cross c)) (b.cross (c.cross a)))
      (c.cross (a.cross b)) = ofFn 3 (Nat.succ_pos 2) fun _ => 0 := by
  apply ext_coords (n := 3) (by simp) (dim_ofFn ..)
  rw [coords_add (by simp), coords_add (by simp), coords_zeros]
  simp only [coords_cross, jacobi_cross]

/-- A vector of three dimensions is orthogonal to two others, its squared norm is what the square of
their dot product leaves of the product of their squared norms, and it is zero exactly if they are
linearly dependent. -/
structure IsCrossProduct (a b x : Vec Fraction) : Prop where
  dim_eq : x.dim = 3
  orthogonal_left : x.isOrthogonal? a = .ok true
  orthogonal_right : x.isOrthogonal? b = .ok true
  normSquared_eq : ∃ d, a.dot? b = .ok d ∧ x.normSquared = a.normSquared * b.normSquared - d * d
  isZero_iff : x.isZero = true ↔ ¬ LinearIndependent ℚ ![a.coords 3, b.coords 3]

theorem isCrossProduct_cross (ha : a.dim = 3) (hb : b.dim = 3) :
    IsCrossProduct a b (a.cross b) where
  dim_eq := a.dim_cross b
  orthogonal_left := isOrthogonal?_eq_true_iff.mpr ⟨ha.symm, cross_dot_left ha b⟩
  orthogonal_right := isOrthogonal?_eq_true_iff.mpr ⟨hb.symm, cross_dot_right a hb⟩
  normSquared_eq := ⟨_, if_pos (ha.trans hb.symm), normSquared_cross ha hb⟩
  isZero_iff := isZero_cross_iff a b

theorem neg_cross?_swap (a b : Vec Fraction) : (b.cross? a).map (- ·) = a.cross? b := by
  by_cases h : a.dim = 3 ∧ b.dim = 3
  · rw [cross?_of_dim_eq h.1 h.2, cross?_of_dim_eq h.2 h.1, Except.map, neg_cross_swap]
  · rw [cross?_eq, cross?_eq, if_neg h, if_neg (mt And.symm h), Except.map]

/-- The sum of the cross products of each of three vectors with the cross product of the next two,
in cyclic order. -/
def cyclicSum? (a b c : Vec Fraction) : Except Error (Vec Fraction) := do
  let first ← a.cross? (← b.cross? c)
  let second ← b.cross? (← c.cross? a)
  let third ← c.cross? (← a.cross? b)
  (← first.add? second).add? third

theorem cyclicSum?_eq_zeros? (ha : a.dim = 3) (hb : b.dim = 3) (hc : c.dim = 3) :
    cyclicSum? a b c = zeros? 3 := by
  have hzero : zeros? 3 = .ok (ofFn 3 (Nat.succ_pos 2) fun _ => (0 : Fraction)) := rfl
  rw [hzero, ← cross_jacobi a b c]
  simp only [cyclicSum?, bind_eq_ok_iff]
  exact ⟨_, cross?_of_dim_eq hb hc, _, cross?_of_dim_eq ha rfl, _, cross?_of_dim_eq hc ha,
    _, cross?_of_dim_eq hb rfl, _, cross?_of_dim_eq ha hb, _, cross?_of_dim_eq hc rfl,
    _, ifSameDim_eq_ok_iff.mpr ⟨rfl, rfl⟩, ifSameDim_eq_ok_iff.mpr ⟨rfl, rfl⟩⟩

/-- The cross product asks for three dimensions of both factors, whatever the scalars are. For
fractions it is orthogonal to both factors, has the squared norm that their dot product leaves, and
is zero exactly if they are linearly dependent. It changes its sign with the order of the factors,
and satisfies the Jacobi identity. -/
theorem cross_product_laws (a b c : Vec Fraction) :
    (∀ (α : Type) [Scalar α] (v w : Vec α),
      AsksFor (v.dim = 3 ∧ w.dim = 3) (·.dim = 3) .unsupported (v.cross? w)) ∧
    AsksFor (a.dim = 3 ∧ b.dim = 3) (IsCrossProduct a b) .unsupported (a.cross? b) ∧
    a.cross? b = (b.cross? a).map (- ·) ∧
    (a.dim = 3 → b.dim = 3 → c.dim = 3 → cyclicSum? a b c = zeros? 3) :=
  ⟨fun _ _ v w => cross?_asksFor fun _ _ => v.dim_cross w, cross?_asksFor isCrossProduct_cross,
    (neg_cross?_swap a b).symm, cyclicSum?_eq_zeros?⟩

theorem cross_product_laws_slanted :
    let a : Vec Fraction := ⟨[1, .reduce 1 2 Nat.two_pos, 0], List.cons_ne_nil _ _⟩
    let b : Vec Fraction := ⟨[0, 1, -1], List.cons_ne_nil _ _⟩
    let c : Vec Fraction := ⟨[1, 0, 1], List.cons_ne_nil _ _⟩
    (a.dim = 3 ∧ b.dim = 3 ∧ c.dim = 3) ∧ cyclicSum? a b c = zeros? 3 ∧
      ∃ x, a.cross? b = .ok x ∧ IsCrossProduct a b x ∧
        x.toList = [.reduce (-1) 2 Nat.two_pos, 1, 1] := by
  intro a b c
  obtain ⟨-, hcross, -, hjacobi⟩ := cross_product_laws a b c
  obtain ⟨x, hx, hlaws⟩ := hcross.succeeds ⟨rfl, rfl⟩
  have hlist : (a.cross? b).map toList = .ok [.reduce (-1) 2 Nat.two_pos, 1, 1] := by decide
  rw [hx, Except.map] at hlist
  exact ⟨⟨rfl, rfl, rfl⟩, hjacobi rfl rfl rfl, x, hx, hlaws, Except.ok.inj hlist⟩

end Laws

end RowReduction.Vec

import RowReduction.Proofs.Shape.Access
import RowReduction.Sampling.LinearSystem
import RowReduction.Vec.Text

/-!
# Vectors as stored lists

The operations on vectors as they act on bare lists of components. Most of them
put a list together without a check that it has components, and the basis
vector and the cross product reach for components by their places. On the lists
of vectors they end as the operations on vectors do, and no place is missing.
-/

namespace RowReduction.Components

open Access

variable {α : Type}

theorem length_toList (v : Vec α) : v.toList.length = v.dim :=
  rfl

/-- The components of a new vector, unless there are none. -/
def make? (xs : List α) : Except Error (List α) :=
  if xs.isEmpty then .error .emptyVector else .ok xs

theorem make?_eq (xs : List α) : make? xs = (Vec.ofList? xs).map Vec.toList := by
  cases xs <;> rfl

theorem ofList?_of_ne_nil {xs : List α} (h : xs ≠ []) : Vec.ofList? xs = .ok ⟨xs, h⟩ :=
  Vec.ofList?_toList ⟨xs, h⟩

theorem make?_range (n : Nat) (f : Nat → α) :
    make? ((List.range n).map f) = (Vec.ofFn? n f).map Vec.toList := by
  rw [make?_eq, Vec.ofFn?]
  by_cases h : 0 < n
  · rw [dif_pos h, ofList?_of_ne_nil (by simpa using Nat.ne_of_gt h)]
    rfl
  · rw [dif_neg h, Nat.eq_zero_of_not_pos h]
    rfl

section Operations

variable [Scalar α]

/-- As many zeros as the dimension says. -/
def zeros? (n : Nat) : Except Error (List α) :=
  make? (List.replicate n 0)

theorem zeros?_of_pos {n : Nat} (h : 0 < n) :
    (zeros? n : Except Error (List α)) = .ok (List.replicate n 0) := by
  rw [zeros?, make?, if_neg (by simpa using Nat.ne_of_gt h)]

theorem zeros?_eq (n : Nat) :
    (zeros? n : Except Error (List α)) = (Vec.zeros? n).map Vec.toList := by
  cases n with
  | zero => rfl
  | succ n =>
      rw [zeros?_of_pos n.succ_pos, Vec.zeros?, Vec.ofFn?, dif_pos n.succ_pos]
      simp [Except.map, Vec.ofFn]

/-- Zeros, one of which is replaced by a one. -/
def basis? (n direction : Nat) : Access (List α) :=
  if n ≤ direction then throw (.basisDirection direction n)
  else do
    let v ← checked (zeros? n)
    found (set? v direction 1)

theorem set_replicate_zero (n direction : Nat) :
    (List.replicate n (0 : α)).set direction 1 =
      (List.range n).map fun i => if i = direction then 1 else 0 := by
  apply List.ext_getElem
  · simp
  · intro i _ _
    simp only [List.getElem_set, List.getElem_replicate, List.getElem_map, List.getElem_range,
      eq_comm]

theorem basis?_agrees (n direction : Nat) :
    Agrees Vec.toList (basis? n direction : Access (List α)) (Vec.basis? n direction) := by
  apply Agrees.guard _ Nat.not_lt.symm
  · intro hlt
    have hpos : 0 < n := Nat.zero_lt_of_lt hlt
    rw [zeros?_of_pos hpos, Vec.ofFn?, dif_pos hpos]
    change Agrees _ (found (set? (List.replicate n 0) direction 1)) _
    apply Agrees.found
    rw [set?_of_lt (by simpa using hlt), set_replicate_zero]
    rfl

/-- The components that a text writes. -/
def parse? (s : String) : Except Error (List α) :=
  let text := Text.trim s.toList
  match Vec.between? text with
  | none => .error (.notVector (String.ofList text))
  | some body =>
      if (Text.trim body).isEmpty then .error (.noComponents (String.ofList text))
      else do
        make? (← (body.splitOn ',').zipIdx.mapM fun p => Vec.readComponent? text p.1 p.2)

theorem parse?_eq (s : String) :
    (parse? s : Except Error (List α)) = (Vec.parse? s).map Vec.toList := by
  unfold parse? Vec.parse?
  dsimp only
  cases Vec.between? (Text.trim s.toList) with
  | none => rfl
  | some body =>
      by_cases h : (Text.trim body).isEmpty = true
      · simp only [h, if_true]
        rfl
      · simp only [h]
        generalize (List.mapM _ _ : Except Error (List α)) = components
        cases components with
        | error e => rfl
        | ok xs => exact make?_eq xs

/-- The value of an operation that asks for lists of equal length. -/
def ifSameLength (operation : Operation) (v w : List α) {β : Type} (value : β) : Except Error β :=
  if v.length ≠ w.length then .error (.vectorDimensions operation v.length w.length) else .ok value

omit [Scalar α] in
theorem ifSameLength_eq {β γ : Type} (operation : Operation) (v w : Vec α) (stored : β → γ)
    (value : β) :
    ifSameLength operation v.toList w.toList (stored value) =
      (Vec.ifSameDim operation v w value).map stored := by
  unfold ifSameLength Vec.ifSameDim Vec.dim
  by_cases h : v.toList.length = w.toList.length
  · rw [if_neg (not_not_intro h), if_pos h]
    rfl
  · rw [if_pos h, if_neg h]
    rfl

/-- The function of every two components in the same place of two lists of equal length. -/
def pairwise? (operation : Operation) (f : α → α → α) (v w : List α) : Except Error (List α) :=
  ifSameLength operation v w (List.zipWith f v w)

omit [Scalar α] in
theorem pairwise?_eq (operation : Operation) (f : α → α → α) (v w : Vec α) :
    pairwise? operation f v.toList w.toList =
      (Vec.ifSameDim operation v w (Vec.zipWith f v w)).map Vec.toList :=
  ifSameLength_eq operation v w Vec.toList (Vec.zipWith f v w)

/-- The scalar times every component. -/
def scale (a : α) (v : List α) : List α :=
  v.map (a * ·)

/-- Every component divided by the scalar. -/
def divScalar? (v : List α) (a : α) : Except Error (List α) :=
  v.mapM (Scalar.div? · a)

theorem divScalar?_eq (v : Vec α) (a : α) :
    divScalar? v.toList a = (v.divScalar? a).map Vec.toList := by
  unfold divScalar? Vec.divScalar?
  cases h : v.toList.mapM (Scalar.div? · a) with
  | error e => rfl
  | ok xs =>
      have hne : xs ≠ [] := by
        apply List.length_pos_iff.mp
        rw [length_of_mapM_eq_ok h]
        exact v.dim_pos
      change _ = (Vec.ofList? xs).map Vec.toList
      rw [ofList?_of_ne_nil hne]
      rfl

/-- The sum of the products of components in the same place. -/
def dot? (v w : List α) : Except Error α :=
  ifSameLength .dotProduct v w (Scalar.weightedSum v w)

theorem dot?_eq (v w : Vec α) : dot? v.toList w.toList = v.dot? w := by
  unfold dot? ifSameLength Vec.dot? Vec.ifSameDim Vec.dim
  rw [ite_not]
  rfl

/-- The difference of two products of components, crosswise in two places. -/
def crossTerm? (v w : List α) (i j : Nat) : Option α := do
  return (← v[i]?) * (← w[j]?) - (← v[j]?) * (← w[i]?)

/-- The cross product of two lists of three components. -/
def cross? (v w : List α) : Access (List α) :=
  if v.length ≠ 3 ∨ w.length ≠ 3 then throw .crossDimension
  else found do return [← crossTerm? v w 1 2, ← crossTerm? v w 2 0, ← crossTerm? v w 0 1]

theorem cross?_agrees (v w : Vec α) :
    Agrees Vec.toList (cross? v.toList w.toList) (v.cross? w) := by
  by_cases h : v.toList.length = 3 ∧ w.toList.length = 3
  · obtain ⟨a, b, c, hv⟩ := List.length_eq_three.mp h.1
    obtain ⟨x, y, z, hw⟩ := List.length_eq_three.mp h.2
    rw [Vec.cross?, hv, hw]
    rfl
  · have hcross : v.cross? w = .error .crossDimension := by
      unfold Vec.cross?
      split
      · rename_i hv hw
        exact absurd ⟨by rw [hv]; rfl, by rw [hw]; rfl⟩ h
      · rfl
    rw [hcross, cross?, if_pos (not_and_or.mp h)]
    exact Agrees.throw ..

/-- The length, from the binary64 numbers that stand for the components. -/
def magnitude? (v : List α) : Except Error Binary64 := do
  let xs ← v.mapM fun a =>
    match Scalar.toBinary64? a with
    | some x => .ok x
    | none => .error .magnitudeComponent
  return Binary64.sqrt (xs.foldl (fun s x => s + x * x) 0)

/-- The components scaled by the inverse of the length. -/
def normalize? (v : List α) : Except Error (List α) := do
  let length ← magnitude? v
  if length.isZero then throw .zeroVectorDirection
  match Scalar.ofBinary64? (1 / length) with
  | some factor => return scale factor v
  | none => throw .normalizationFactor

theorem normalize?_eq (v : Vec α) : normalize? v.toList = v.normalize?.map Vec.toList := by
  have hmagnitude : magnitude? v.toList = v.magnitude? := by
    unfold magnitude? Vec.magnitude? Vec.toBinary64?
    generalize (List.mapM _ _ : Except Error (List Binary64)) = components
    cases components <;> rfl
  unfold normalize? Vec.normalize?
  rw [hmagnitude]
  cases v.magnitude? with
  | error e => rfl
  | ok length =>
      by_cases hzero : length.isZero = true
      · simp only [bind, Except.bind, hzero, if_true]
        rfl
      · simp only [bind, Except.bind, hzero]
        cases (Scalar.ofBinary64? (1 / length) : Option α) <;> rfl

/-- The multiple of the target nearest to the components. -/
def project? (v target : List α) : Except Error (List α) := do
  let factor ← Scalar.div? (← dot? v target) (Scalar.sum (target.map fun a => a * a))
  return scale factor target

theorem project?_eq (v target : Vec α) :
    project? v.toList target.toList = (v.project? target).map Vec.toList := by
  unfold project? Vec.project? Vec.normSquared
  rw [dot?_eq]
  cases v.dot? target with
  | error e => rfl
  | ok d =>
      change (Scalar.div? d _ >>= _) = Except.map _ (Scalar.div? d _ >>= _)
      cases Scalar.div? d (Scalar.sum (target.toList.map fun a => a * a)) <;> rfl

end Operations

section Sampling

variable [Sampled α]

theorem liftM_map {β γ : Type} (f : β → γ) (x : Except Error β) :
    (liftM (x.map f) : Sampler γ) = f <$> liftM x := by
  cases x <;> rfl

/-- Components that are samples without a range. -/
def random? (n : Nat) (o : SampleOptions) : Sampler (List α) := do
  let components ← (List.range n).mapM fun _ => (Sampled.unbounded o : StateM Source α)
  make? components

theorem random?_eq (n : Nat) (o : SampleOptions) :
    (random? n o : Sampler (List α)) = Vec.toList <$> Vec.random? n o := by
  unfold random? Vec.random?
  simp only [map_bind, make?_eq, liftM_map]

/-- Components that are samples of a range. -/
def randomInRange? (n : Nat) (lower upper : α) (o : SampleOptions) : Sampler (List α) := do
  let components ← (List.range n).mapM fun _ => Sampled.inRange lower upper o
  make? components

theorem randomInRange?_eq (n : Nat) (lower upper : α) (o : SampleOptions) :
    randomInRange? n lower upper o = Vec.toList <$> Vec.randomInRange? n lower upper o := by
  unfold randomInRange? Vec.randomInRange?
  simp only [map_bind, make?_eq, liftM_map]

end Sampling

end RowReduction.Components

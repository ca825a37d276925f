import RowReduction.Scalar
import RowReduction.Binary64.Root

/-!
# Vectors

A vector is a non-empty list of components. Operations on two vectors ask for
equal dimensions; the ones that cannot fail are defined on all vectors and the
ones that check are built from them.
-/

namespace RowReduction

/-- A list of at least one component. -/
@[ext] structure Vec (α : Type) where
  toList : List α
  ne_nil : toList ≠ []
  deriving DecidableEq

namespace Vec

variable {α β γ : Type}

instance [BEq α] : BEq (Vec α) := ⟨fun v w => v.toList == w.toList⟩

instance [ToString α] : ToString (Vec α) where
  toString v := "(" ++ String.intercalate ", " (v.toList.map toString) ++ ")"

/-- The vector of a list of components, unless there are none. -/
def ofList? : List α → Except Error (Vec α)
  | [] => .error .emptyVector
  | a :: as => .ok ⟨a :: as, List.cons_ne_nil a as⟩

theorem ofList?_toList (v : Vec α) : ofList? v.toList = .ok v := by
  obtain ⟨xs, h⟩ := v
  cases xs with
  | nil => exact absurd rfl h
  | cons a as => rfl

/-- The number of components. -/
def dim (v : Vec α) : Nat :=
  v.toList.length

theorem dim_pos (v : Vec α) : 0 < v.dim :=
  List.length_pos_iff.mpr v.ne_nil

/-- The vector of the values of a function below a positive dimension. -/
def ofFn (n : Nat) (h : 0 < n) (f : Nat → α) : Vec α where
  toList := (List.range n).map f
  ne_nil := by simpa using Nat.ne_of_gt h

@[simp] theorem dim_ofFn (n : Nat) (h : 0 < n) (f : Nat → α) : (ofFn n h f).dim = n := by
  simp [dim, ofFn]

/-- The function applied to every component. -/
def map (f : α → β) (v : Vec α) : Vec β where
  toList := v.toList.map f
  ne_nil := by simpa using v.ne_nil

@[simp] theorem dim_map (f : α → β) (v : Vec α) : (v.map f).dim = v.dim := by
  simp [dim, map]

/-- The function applied to every two components in the same place. -/
def zipWith (f : α → β → γ) (v : Vec α) (w : Vec β) : Vec γ where
  toList := List.zipWith f v.toList w.toList
  ne_nil := by simp [v.ne_nil, w.ne_nil]

@[simp] theorem dim_zipWith (f : α → β → γ) (v : Vec α) (w : Vec β) :
    (zipWith f v w).dim = min v.dim w.dim := by
  simp [dim, zipWith]

/-- The vector with one more component at its end. -/
def push (v : Vec α) (a : α) : Vec α where
  toList := v.toList ++ [a]
  ne_nil := by simp

@[simp] theorem dim_push (v : Vec α) (a : α) : (v.push a).dim = v.dim + 1 := by
  simp [dim, push]

/-- The component in a place, unless the place is beyond the end. -/
def get? (v : Vec α) (i : Nat) : Except Error α :=
  match v.toList[i]? with
  | some a => .ok a
  | none => .error (.vectorIndex i v.dim)

variable [Scalar α]

/-- The component in a place, or zero beyond the end. -/
def entry (v : Vec α) (i : Nat) : α :=
  v.toList.getD i 0

theorem entry_of_lt {v : Vec α} {i : Nat} (h : i < v.toList.length) : v.entry i = v.toList[i] := by
  rw [entry, List.getD_eq_getElem?_getD, List.getElem?_eq_getElem h, Option.getD_some]

theorem entry_of_dim_le {v : Vec α} {i : Nat} (h : v.dim ≤ i) : v.entry i = 0 := by
  rw [entry, List.getD_eq_getElem?_getD, List.getElem?_eq_none h, Option.getD_none]

theorem entry_push_of_lt (v : Vec α) (a : α) {i : Nat} (h : i < v.dim) :
    (v.push a).entry i = v.entry i := by
  unfold entry push
  rw [List.getD_eq_getElem?_getD, List.getElem?_append_left h, List.getD_eq_getElem?_getD]

@[simp] theorem entry_push_dim (v : Vec α) (a : α) : (v.push a).entry v.dim = a := by
  unfold entry push dim
  rw [List.getD_eq_getElem?_getD, List.getElem?_concat_length, Option.getD_some]

/-- The vector of a function on places, unless the dimension is zero. -/
def ofFn? (n : Nat) (f : Nat → α) : Except Error (Vec α) :=
  if h : 0 < n then .ok (ofFn n h f) else .error .emptyVector

/-- The zero vector of a dimension. -/
def zeros? (n : Nat) : Except Error (Vec α) :=
  ofFn? n fun _ => 0

/-- The vector with a one in the given direction and zeros elsewhere. -/
def basis? (n direction : Nat) : Except Error (Vec α) :=
  if direction < n then ofFn? n fun i => if i = direction then 1 else 0
  else .error (.basisDirection direction n)

/-- The value of an operation that asks for equal dimensions. -/
def ifSameDim (operation : Operation) (v w : Vec α) (value : β) : Except Error β :=
  if v.dim = w.dim then .ok value else .error (.vectorDimensions operation v.dim w.dim)

/-- The sum of two vectors of equal dimension. -/
def add? (v w : Vec α) : Except Error (Vec α) :=
  ifSameDim .sum v w (zipWith (· + ·) v w)

/-- The difference of two vectors of equal dimension. -/
def sub? (v w : Vec α) : Except Error (Vec α) :=
  ifSameDim .difference v w (zipWith (· - ·) v w)

/-- The opposite vector. -/
def neg (v : Vec α) : Vec α :=
  v.map (- ·)

instance : Neg (Vec α) := ⟨neg⟩

/-- The scalar times every component. -/
def scale (a : α) (v : Vec α) : Vec α :=
  v.map (a * ·)

/-- Every component divided by the scalar. -/
def divScalar? (v : Vec α) (a : α) : Except Error (Vec α) := do
  ofList? (← v.toList.mapM (Scalar.div? · a))

/-- The sum of the products of components in the same place. -/
def dot (v w : Vec α) : α :=
  Scalar.weightedSum v.toList w.toList

/-- The dot product of two vectors of equal dimension. -/
def dot? (v w : Vec α) : Except Error α :=
  ifSameDim .dotProduct v w (dot v w)

/-- The cross product of two vectors of three dimensions. -/
def cross? (v w : Vec α) : Except Error (Vec α) :=
  match v.toList, w.toList with
  | [a, b, c], [x, y, z] =>
      ofList? [b * z - c * y, c * x - a * z, a * y - b * x]
  | _, _ => .error .crossDimension

/-- The sum of the squares of the components. -/
def normSquared (v : Vec α) : α :=
  Scalar.sum (v.toList.map fun a => a * a)

/-- The binary64 numbers that stand for the components. -/
def toBinary64? (v : Vec α) : Except Error (List Binary64) :=
  v.toList.mapM fun a =>
    match Scalar.toBinary64? a with
    | some x => .ok x
    | none => .error .magnitudeComponent

/-- The length, from the binary64 numbers that stand for the components. -/
def magnitude? (v : Vec α) : Except Error Binary64 :=
  v.toBinary64?.map fun xs => Binary64.sqrt (xs.foldl (fun s x => s + x * x) 0)

/-- The vector scaled by the inverse of its length. -/
def normalize? (v : Vec α) : Except Error (Vec α) := do
  let length ← v.magnitude?
  if length.isZero then throw .zeroVectorDirection
  match Scalar.ofBinary64? (1 / length) with
  | some factor => return scale factor v
  | none => throw .normalizationFactor

/-- Every component equals zero. -/
def isZero (v : Vec α) : Bool :=
  v.toList.all (· == 0)

/-- The multiple of the target nearest to the vector. -/
def project? (v target : Vec α) : Except Error (Vec α) := do
  let factor ← Scalar.div? (← dot? v target) target.normSquared
  return scale factor target

/-- The dot product equals zero. -/
def isOrthogonal? (v w : Vec α) : Except Error Bool :=
  (dot? v w).map (· == 0)

end Vec

end RowReduction

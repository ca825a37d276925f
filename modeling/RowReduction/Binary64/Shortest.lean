import RowReduction.Binary64.Decimal

/-!
# The shortest decimal text

A number is written with the fewest digits that read back to it, on the
coarsest power of ten where such digits exist; of two decimal neighbours that
both read back the nearer one is written, and the upper one when they are
equally near.

## Implementation notes

The search descends from a power of ten above the number. It ends at the power
of ten of which every finite number is a multiple, so that a decimal number
that reads back is always found.
-/

namespace RowReduction.Binary64

-- Powers are those of the core library wherever the module is compiled.
attribute [local instance (high)] instPowNat

open Text (Decimal)

/-- A decimal number rounds to a magnitude of `n` units. -/
def readsBack (n : Nat) (d : Decimal) : Bool :=
  roundQuotient (d.numerator * unitsPerOne) d.denominator == n

/-- The multiple of a power of ten next to a magnitude of `n` units that reads back as it, and
the nearer one if both neighbours do. -/
def neighbour? (n : Nat) (exponent : Int) : Option Decimal :=
  let num := n * 10 ^ (-exponent).toNat
  let den := unitsPerOne * 10 ^ exponent.toNat
  let below : Decimal := ⟨num / den, exponent⟩
  let above : Decimal := ⟨num / den + 1, exponent⟩
  let byDistance := if 2 * (num % den) < den then [below, above] else [above, below]
  byDistance.find? (readsBack n)

/-- The least power of ten of which every finite number is a multiple. -/
def finestExponent : Int := -(unitPlaces : Int)

/-- The decimal number that a magnitude of `n` units is. -/
def exactDecimal (n : Nat) : Decimal :=
  ⟨n * 5 ^ unitPlaces, finestExponent⟩

/-- The powers of ten from the finest one to the first above a magnitude of `n` units. -/
def decimalSteps (n : Nat) : Nat :=
  ((n.log2 + 1 + finestExponent) * 30103 / 100000 + 1 - finestExponent).toNat

/-- The decimal number with the fewest digits that reads back as a magnitude of `n` units. -/
def shortest (n : Nat) : Decimal :=
  let coarser := (List.range (decimalSteps n)).reverse
  (coarser.findSome? fun k => neighbour? n (finestExponent + (k + 1 : Nat))).getD (exactDecimal n)

/-- The decimal text of a number. -/
def text : Binary64 → List Char
  | nan => ['N', 'a', 'N']
  | infinity negative => (if negative then ['-'] else []) ++ ['i', 'n', 'f']
  | finite negative n _ =>
      (if negative then ['-'] else []) ++ if n = 0 then ['0'] else (shortest n).positional

instance : ToString Binary64 := ⟨fun x => String.ofList x.text⟩

theorem readsBack_of_neighbour? {n : Nat} {exponent : Int} {d : Decimal}
    (h : neighbour? n exponent = some d) : readsBack n d = true :=
  List.find?_some h

theorem roundQuotient_tens {n : Nat} (h : Representable n) (k : Nat) :
    roundQuotient (n * 5 ^ k * 2 ^ k) (10 ^ k) = n := by
  rw [Nat.mul_assoc, ← Nat.mul_pow]
  exact roundQuotient_mul h (Nat.pow_pos (by decide))

theorem readsBack_exactDecimal {n : Nat} (h : Representable n) :
    readsBack n (exactDecimal n) = true := by
  have hzero : finestExponent.toNat = 0 := rfl
  have hplaces : (-finestExponent).toNat = unitPlaces := rfl
  rw [readsBack, beq_iff_eq, Decimal.numerator, Decimal.denominator, exactDecimal, hzero, hplaces,
    unitsPerOne, Nat.pow_zero, Nat.mul_one]
  exact roundQuotient_tens h unitPlaces

/-- What is written reads back. -/
theorem readsBack_shortest {n : Nat} (h : Representable n) : readsBack n (shortest n) = true := by
  rw [shortest]
  cases hfound : (List.range (decimalSteps n)).reverse.findSome?
      fun k => neighbour? n (finestExponent + (k + 1 : Nat)) with
  | none => exact readsBack_exactDecimal h
  | some d =>
      obtain ⟨k, _, hk⟩ := List.exists_of_findSome?_eq_some hfound
      exact readsBack_of_neighbour? hk

/-- The shortest decimal number rounds to the number it was found for. -/
theorem ofDecimal_shortest (negative : Bool) {n : Nat} (h : Representable n) :
    ofDecimal negative (shortest n) = finite negative n h := by
  have hback := readsBack_shortest h
  rw [readsBack, beq_iff_eq] at hback
  simp [ofDecimal_eq_ofQuotient, ofQuotient, hback, h.1]

end RowReduction.Binary64

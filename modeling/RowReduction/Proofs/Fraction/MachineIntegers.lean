import RowReduction.IntegerType
import RowReduction.Proofs.Fraction.Order
import Mathlib.Algebra.Group.Nat.Defs

/-!
# Fractions as machine integers

The integer part of a fraction is that of its value, toward zero: the floor of a
value that is not negative, and the ceiling of a negative one. A machine integer
stands for the fraction exactly if it is this integer and both its type and the
64-bit type of the same signedness contain it.
-/

namespace RowReduction

namespace Fraction

/-- A rational number without its fractional part. -/
def integerPart (q : ℚ) : ℤ := if 0 ≤ q then ⌊q⌋ else ⌈q⌉

@[simp] theorem integerPart_intCast (v : ℤ) : integerPart v = v := by
  unfold integerPart
  split
  · exact Int.floor_intCast v
  · exact Int.ceil_intCast v

/-- The negative numbers above minus one have the integer part zero, as the numbers from zero up to
one have. -/
theorem integerPart_eq_zero_iff {q : ℚ} : integerPart q = 0 ↔ -1 < q ∧ q < 1 := by
  unfold integerPart
  split_ifs with h
  · rw [Int.floor_eq_zero_iff, Set.mem_Ico]
    exact ⟨fun hq => ⟨by linarith, hq.2⟩, fun hq => ⟨h, hq.2⟩⟩
  · rw [Int.ceil_eq_zero_iff, Set.mem_Ioc]
    exact ⟨fun hq => ⟨hq.1, by linarith⟩, fun hq => ⟨hq.1, (not_le.mp h).le⟩⟩

/-- The integer part of a fraction is that of its value. -/
theorem truncate_eq_integerPart (a : Fraction) : a.truncate = integerPart a.value := by
  unfold integerPart truncate
  split_ifs with h
  · rw [value, Rat.floor_intCast_div_natCast, Int.tdiv_eq_ediv_of_nonneg (value_nonneg_iff.mp h)]
  · have hnum : 0 ≤ -a.num := by
      have := mt value_nonneg_iff.mpr h
      omega
    calc
      a.num.tdiv a.den = -((-a.num).tdiv a.den) := by rw [Int.neg_tdiv, neg_neg]
      _ = -(-a.num / a.den) := by rw [Int.tdiv_eq_ediv_of_nonneg hnum]
      _ = ⌈a.value⌉ := by rw [value, Rat.ceil_intCast_div_natCast]

end Fraction

namespace IntegerType

open Fraction (integerPart)

variable {t : IntegerType} {a : Fraction} {v : ℤ}

theorem contains_carrier_iff :
    t.carrier.Contains v ↔
      if t.signed then -2 ^ 63 ≤ v ∧ v < 2 ^ 63 else 0 ≤ v ∧ v < 2 ^ 64 := by
  cases h : t.signed <;> simp [Contains, least, limit, carrier, h]

/-- A fraction is converted to the integer part of its value, if the type and its carrier contain
it. -/
theorem ofScalar?_eq_some_iff :
    t.ofScalar? a = some v ↔ v = integerPart a.value ∧ t.Contains v ∧ t.carrier.Contains v := by
  have htruncate : Scalar.truncate? a = some a.truncate := rfl
  rw [ofScalar?, htruncate, Option.filter_eq_some_iff, Option.some.injEq, decide_eq_true_eq,
    a.truncate_eq_integerPart, eq_comm, and_comm (a := t.carrier.Contains v)]

/-- The conversion is that of the carrier, and a check of the range of the type. -/
theorem ofScalar?_eq_filter (t : IntegerType) (a : Fraction) :
    t.ofScalar? a = (t.carrier.ofScalar? a).filter (t.Contains ·) := by
  ext v
  have hcarrier : t.carrier.carrier = t.carrier := rfl
  rw [ofScalar?_eq_some_iff, Option.filter_eq_some_iff, ofScalar?_eq_some_iff, hcarrier,
    decide_eq_true_eq]
  tauto

theorem unsigned_contains_zero (h : t.signed = false) : t.Contains 0 := by
  simp [Contains, least, limit, h]

/-- A fraction between minus one and zero is zero for the types without a sign. -/
theorem unsigned_ofScalar?_eq_zero (h : t.signed = false) (hlower : -1 < a.value)
    (hupper : a.value < 0) : t.ofScalar? a = some 0 := by
  have hpart : integerPart a.value = 0 :=
    Fraction.integerPart_eq_zero_iff.mpr ⟨hlower, hupper.trans one_pos⟩
  exact ofScalar?_eq_some_iff.mpr
    ⟨hpart.symm, unsigned_contains_zero h, unsigned_contains_zero (t := t.carrier) h⟩

theorem toScalar?_eq_some_iff :
    t.toScalar? v = some a ↔ t.carrier.Contains v ∧ a.value = v := by
  have hof : (Scalar.ofInt v : Fraction).value = v := Fraction.value_ofInt v
  by_cases h : t.carrier.Contains v
  · rw [toScalar?, if_pos h, Option.some.injEq, ← Fraction.value_inj, hof, and_iff_right h, eq_comm]
  · simp [toScalar?, h]

theorem isSome_toScalar?_iff :
    (t.toScalar? v : Option Fraction).isSome ↔ t.carrier.Contains v := by
  unfold toScalar?
  split <;> simp [*]

/-- What is converted from an integer of the type is converted back to it. -/
theorem ofScalar?_of_toScalar? (hv : t.Contains v) (h : t.toScalar? v = some a) :
    a.value = v ∧ t.ofScalar? a = some v := by
  obtain ⟨hcarrier, hvalue⟩ := toScalar?_eq_some_iff.mp h
  refine ⟨hvalue, ofScalar?_eq_some_iff.mpr ⟨?_, hv, hcarrier⟩⟩
  rw [hvalue, Fraction.integerPart_intCast]

/-- A fraction is converted to an integer exactly if this is the integer part of its value and lies
in the type and in the 64-bit type of the same signedness, through which every conversion goes. The
fractions between minus one and zero are zero for the types without a sign. An integer of a type is
converted to a fraction exactly if the 64-bit type contains it, keeps its value, and is converted
back to itself. -/
theorem conversion_by_integerPart (t : IntegerType) (a : Fraction) (v : ℤ) :
    (t.ofScalar? a = some v ↔ v = integerPart a.value ∧ t.Contains v ∧ t.carrier.Contains v) ∧
    (t.carrier.Contains v ↔
      if t.signed then -2 ^ 63 ≤ v ∧ v < 2 ^ 63 else 0 ≤ v ∧ v < 2 ^ 64) ∧
    t.ofScalar? a = (t.carrier.ofScalar? a).filter (t.Contains ·) ∧
    (t.signed = false → -1 < a.value → a.value < 0 → t.ofScalar? a = some 0) ∧
    (t.Contains v →
      ((t.toScalar? v : Option Fraction).isSome ↔ t.carrier.Contains v) ∧
      ∀ b : Fraction, t.toScalar? v = some b → b.value = v ∧ t.ofScalar? b = some v) := by
  refine ⟨ofScalar?_eq_some_iff, contains_carrier_iff, ofScalar?_eq_filter t a,
    unsigned_ofScalar?_eq_zero, ?_⟩
  intro hv
  exact ⟨isSome_toScalar?_iff, fun b hb => ofScalar?_of_toScalar? hv hb⟩

/-- Ninety-nine hundredths below zero are zero without a sign, and the greatest integer of 64 bits
without a sign is converted both ways within 128 bits. -/
theorem conversion_by_integerPart_extremes :
    let t : IntegerType := ⟨false, 128⟩
    let a := Fraction.reduce (-99) 100 (Nat.succ_pos 99)
    let greatest := Fraction.ofInt (2 ^ 64 - 1)
    (t.signed = false ∧ -1 < a.value ∧ a.value < 0 ∧ t.ofScalar? a = some 0) ∧
      t.Contains (2 ^ 64 - 1) ∧ t.toScalar? (2 ^ 64 - 1) = some greatest ∧
      greatest.value = ((2 ^ 64 - 1 : ℤ) : ℚ) ∧ t.ofScalar? greatest = some (2 ^ 64 - 1) := by
  intro t a greatest
  have ha : a.value = -99 / 100 := Fraction.value_reduce (-99) 100 _
  have hlower : -1 < a.value := by rw [ha]; norm_num
  have hupper : a.value < 0 := by rw [ha]; norm_num
  have hcontains : t.Contains (2 ^ 64 - 1) := by decide
  have hgreatest : t.toScalar? (2 ^ 64 - 1) = some greatest := by decide
  obtain ⟨-, -, -, hzero, hback⟩ := conversion_by_integerPart t a (2 ^ 64 - 1)
  exact ⟨⟨rfl, hlower, hupper, hzero rfl hlower hupper⟩, hcontains, hgreatest,
    (hback hcontains).2 greatest hgreatest⟩

end IntegerType

end RowReduction

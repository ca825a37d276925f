import RowReduction.Proofs.Fraction.Order
import Mathlib.Data.List.Perm.Basic

/-!
# Comparison and sorting by value

Multiplying across orders the fractions as their values are ordered, and lowest
terms make fractions that compare as equal the same fraction. The laws of the
ordered field of rational numbers are therefore laws of the fractions, and
sorting finds the one ascending arrangement of a list.
-/

namespace RowReduction.Fraction

variable {a b c : Fraction}

theorem le_iff_value : a ≤ b ↔ a.value ≤ b.value :=
  Int.not_lt.symm.trans not_lt_iff_value

theorem compare_eq_lt_iff : compare a b = .lt ↔ a.value < b.value :=
  Int.compare_eq_lt.trans lt_iff_value

theorem compare_eq_gt_iff : compare a b = .gt ↔ b.value < a.value :=
  Int.compare_eq_gt.trans lt_iff_value

theorem compare_eq_eq_iff : compare a b = .eq ↔ a.value = b.value :=
  Int.compare_eq_eq.trans value_eq_value_iff.symm

/-- The order leaves out exactly the pairs that compare as greater. -/
theorem le_iff_compare_ne_gt : a ≤ b ↔ compare a b ≠ .gt := by
  rw [Ne, compare_eq_gt_iff, not_lt, le_iff_value]

/-- Fractions are equal if numerator and denominator are. -/
theorem beq_iff_parts : a == b ↔ a.num = b.num ∧ a.den = b.den := by
  rw [beq_iff_eq]
  constructor
  · rintro rfl
    exact ⟨rfl, rfl⟩
  · rintro ⟨hnum, hden⟩
    cases a
    cases b
    cases hnum
    cases hden
    rfl

/-- Fractions compare as equal only if they are the same. -/
theorem compare_eq_eq_iff_beq : compare a b = .eq ↔ a == b :=
  compare_eq_eq_iff.trans beq_iff_value.symm

section Laws

protected theorem le_total (a b : Fraction) : a ≤ b ∨ b ≤ a := by
  rw [le_iff_value, le_iff_value]
  exact le_total a.value b.value

protected theorem le_trans (hab : a ≤ b) (hbc : b ≤ c) : a ≤ c := by
  rw [le_iff_value] at *
  exact le_trans hab hbc

/-- The order is kept by adding a fraction to both sides. -/
protected theorem add_le_add_right (hab : a ≤ b) (c : Fraction) : a + c ≤ b + c := by
  rw [le_iff_value] at *
  calc
    (a + c).value = a.value + c.value := value_add a c
    _ ≤ b.value + c.value := by gcongr
    _ = (b + c).value := (value_add b c).symm

/-- The order is kept by multiplying both sides by a fraction that is not negative. -/
protected theorem mul_le_mul_of_nonneg_right (hab : a ≤ b) (hc : 0 ≤ c) : a * c ≤ b * c := by
  rw [le_iff_value] at *
  rw [value_zero] at hc
  calc
    (a * c).value = a.value * c.value := value_mul a c
    _ ≤ b.value * c.value := by gcongr
    _ = (b * c).value := (value_mul b c).symm

end Laws

section Sorting

variable {xs ys : List Fraction}

theorem sort_perm (xs : List Fraction) : (sort xs).Perm xs :=
  List.mergeSort_perm xs _

/-- The values of a sorted list ascend. -/
theorem ascending_sort (xs : List Fraction) : ((sort xs).map value).Pairwise (· ≤ ·) := by
  have hsorted : (sort xs).Pairwise fun a b => decide (a ≤ b) = true := by
    apply List.pairwise_mergeSort
    · intro a b c hab hbc
      exact decide_eq_true (Fraction.le_trans (of_decide_eq_true hab) (of_decide_eq_true hbc))
    · intro a b
      simpa using Fraction.le_total a b
  apply List.pairwise_map.mpr
  apply hsorted.imp
  intro a b hab
  exact le_iff_value.mp (of_decide_eq_true hab)

/-- A rearrangement of a list is the sorted list exactly if its values ascend. -/
theorem sort_eq_iff : sort xs = ys ↔ ys.Perm xs ∧ (ys.map value).Pairwise (· ≤ ·) := by
  constructor
  · rintro rfl
    exact ⟨sort_perm xs, ascending_sort xs⟩
  · rintro ⟨hperm, hascending⟩
    have hantisymm : ∀ a b : Fraction, a ∈ sort xs → b ∈ ys → a.value ≤ b.value →
        b.value ≤ a.value → a = b := by
      intro a b _ _ hab hba
      exact value_injective (le_antisymm hab hba)
    apply List.Perm.eq_of_pairwise hantisymm
    · exact List.pairwise_map.mp (ascending_sort xs)
    · exact List.pairwise_map.mp hascending
    · exact (sort_perm xs).trans hperm.symm

end Sorting

/-- Fractions of any size are compared as their values are, and compare as equal only if they
have one numerator and one denominator. The order is total, transitive and compatible with sums
and with products by what is not negative, and sorting a list gives the one arrangement of it in
which the values ascend. -/
theorem order_of_values (a b c : Fraction) (xs ys : List Fraction) :
    ((compare a b = .lt ↔ a.value < b.value) ∧ (compare a b = .eq ↔ a.value = b.value) ∧
      (compare a b = .gt ↔ a.value > b.value)) ∧
    ((compare a b = .eq ↔ a == b) ∧ (a == b ↔ a.num = b.num ∧ a.den = b.den)) ∧
    ((a ≤ b ↔ compare a b ≠ .gt) ∧ (a ≤ b ∨ b ≤ a) ∧ (a ≤ b → b ≤ c → a ≤ c)) ∧
    ((a ≤ b → a + c ≤ b + c) ∧ (a ≤ b → 0 ≤ c → a * c ≤ b * c)) ∧
    (sort xs = ys ↔ ys.Perm xs ∧ (ys.map value).Pairwise (· ≤ ·)) := by
  refine ⟨⟨compare_eq_lt_iff, compare_eq_eq_iff, compare_eq_gt_iff⟩,
    ⟨compare_eq_eq_iff_beq, beq_iff_parts⟩,
    ⟨le_iff_compare_ne_gt, Fraction.le_total a b, Fraction.le_trans⟩, ?_, sort_eq_iff⟩
  constructor
  · intro hab
    exact Fraction.add_le_add_right hab c
  · exact Fraction.mul_le_mul_of_nonneg_right

theorem order_of_values_negative :
    (.reduce (-1) 2 Nat.two_pos : Fraction) ≤ .ofInt 0 ∧
      (.reduce (-1) 2 Nat.two_pos : Fraction) + .ofInt (-3) ≤ .ofInt 0 + .ofInt (-3) ∧
      (.reduce (-1) 2 Nat.two_pos : Fraction) * .ofInt 3 ≤ .ofInt 0 * .ofInt 3 := by
  have hle : (.reduce (-1) 2 Nat.two_pos : Fraction) ≤ .ofInt 0 := by decide
  obtain ⟨-, -, -, ⟨hsum, -⟩, -⟩ :=
    order_of_values (.reduce (-1) 2 Nat.two_pos) (.ofInt 0) (.ofInt (-3)) [] []
  obtain ⟨-, -, -, ⟨-, hproduct⟩, -⟩ :=
    order_of_values (.reduce (-1) 2 Nat.two_pos) (.ofInt 0) (.ofInt 3) [] []
  exact ⟨hle, hsum hle, hproduct hle (by decide)⟩

end RowReduction.Fraction

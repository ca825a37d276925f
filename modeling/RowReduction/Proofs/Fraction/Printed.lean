import RowReduction.Proofs.Fraction.Written

/-!
# Printed fractions

The text of a fraction is one of the texts that reading accepts: a numeral with
a minus sign if the fraction is negative, a slash and a numeral, without blanks.
The two numerals write numerator and denominator, so that the text reads back
as the fraction.
-/

namespace RowReduction

open Text

namespace Text

/-- An integer is printed as the numeral of its magnitude behind the sign of a negative one. -/
theorem toList_toString_int (n : Int) :
    (toString n).toList = minusText (decide (n < 0)) ++ numeral n.natAbs := by
  change n.repr.toList = _
  rw [Int.repr_eq_if]
  split
  · rename_i h
    have habs : n.toNat = n.natAbs := by omega
    rw [Nat.toList_repr, habs, decide_eq_false (Int.not_lt.mpr h)]
    rfl
  · rename_i h
    have habs : (-n).toNat = n.natAbs := by omega
    rw [String.toList_append, Nat.toList_repr, habs, decide_eq_true (Int.not_le.mp h)]
    rfl

end Text

namespace Fraction

/-- The pieces of the text of a fraction. -/
def printed (a : Fraction) : FractionText where
  before := []
  negative := decide (a.num < 0)
  top := numeral a.num.natAbs
  separator := '/'
  bottom := numeral a.den
  after := []

theorem text_printed (a : Fraction) : a.printed.text = (toString a).toList := by
  change _ = (toString a.num ++ "/" ++ toString a.den).toList
  rw [String.toList_append, String.toList_append, toList_toString_int]
  change _ = _ ++ ['/'] ++ a.den.repr.toList
  rw [Nat.toList_repr]
  simp [FractionText.text, FractionText.inner, printed, numeral]

theorem printed_wellFormed (a : Fraction) : a.printed.WellFormed where
  before := by simp [printed]
  top_ne_nil := numeral_ne_nil _
  top _ := isDigit_of_mem_numeral
  separator := Or.inl rfl
  bottom_ne_nil := numeral_ne_nil _
  bottom _ := isDigit_of_mem_numeral
  bottom_ne_zero := by
    rw [printed, positionalValue_numeral]
    exact Nat.ne_of_gt a.den_pos
  after := by simp [printed]

/-- The two numerals write the value. -/
theorem value_printed (a : Fraction) : a.printed.value = a.value := by
  have hnum : (if decide (a.num < 0) then -(a.num.natAbs : ℚ) else a.num.natAbs) = a.num := by
    simp only [decide_eq_true_eq]
    split
    · rename_i hneg
      rw [← Int.cast_natCast, Int.ofNat_natAbs_of_nonpos hneg.le, Int.cast_neg, neg_neg]
    · rename_i hneg
      rw [← Int.cast_natCast, Int.natAbs_of_nonneg (not_lt.mp hneg)]
  rw [FractionText.value, printed, positionalValue_numeral, positionalValue_numeral, hnum, value]

/-- A fraction reads back from its text. -/
theorem parse?_toString (a : Fraction) : Scalar.parse? (toString a) = .ok a :=
  FractionText.parse?_eq_ok_iff.mpr
    ⟨a.printed, a.printed_wellFormed, a.text_printed, a.value_printed.symm⟩

/-- The text of a fraction has no comma. -/
theorem comma_notMem_toString (a : Fraction) : ',' ∉ (toString a).toList := by
  have hdigits : ∀ n, ',' ∉ numeral n := notMem_numeral rfl
  rw [← text_printed]
  by_cases hneg : a.num < 0 <;>
    simp [FractionText.text, FractionText.inner, printed, minusText, hneg, hdigits]

end Fraction

end RowReduction

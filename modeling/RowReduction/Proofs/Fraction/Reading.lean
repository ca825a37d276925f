import RowReduction.Proofs.Fraction.Value

/-!
# The number that a text writes

A text that is read as a fraction is a quotient of two numerals, and the
fraction has the value of that quotient.
-/

namespace RowReduction.Fraction

open Text

/-- The rational number that a text writes as a quotient of two numerals, of which the second is
not zero and the first may have a minus sign. -/
def writtenQuotient? (s : String) : Option ℚ :=
  let text := trim s.toList
  let top := splitMinus (text.takeWhile (!isSeparator ·))
  let bottom := (text.dropWhile (!isSeparator ·)).tail
  if isNumeral top.2 ∧ isNumeral bottom ∧ numeralValue bottom ≠ 0 then
    some (withSign top.1 (numeralValue top.2) / numeralValue bottom)
  else none

/-- Two numerals write the fraction of their quotient. -/
theorem ofNumerals?_eq_ok_iff {top bottom : List Char} {a : Fraction} :
    ofNumerals? top bottom = .ok a ↔
      (isNumeral (splitMinus top).2 ∧ isNumeral bottom ∧ numeralValue bottom ≠ 0) ∧
        a.value = withSign (splitMinus top).1 (numeralValue (splitMinus top).2) /
          numeralValue bottom := by
  unfold ofNumerals?
  split_ifs with htop hbottom hzero
  · simp_all
  · simp_all
  · simp_all
  · rw [Except.ok.injEq, ← value_inj, value_reduce, eq_comm, and_iff_right]
    simp_all

/-- A text is read as the fraction of the quotient that it writes. -/
theorem map_value_parse? (s : String) :
    (Scalar.parse? s : Except Error Fraction).toOption.map value = writtenQuotient? s := by
  refine map_value_toOption fun a => ?_
  have hparse : Scalar.parse? s = .ok a ↔ ofTrimmed? (trim s.toList) = .ok a := by
    change (ofTrimmed? (trim s.toList)).mapError _ = .ok a ↔ _
    cases ofTrimmed? (trim s.toList) <;> simp [Except.mapError]
  rw [hparse, ← ofNumerals?_eq_ok_iff, ofTrimmed?]
  cases hsplit : (trim s.toList).dropWhile (!isSeparator ·) with
  | nil => simp [ofNumerals?_eq_ok_iff, isNumeral]
  | cons c bottom => rfl

end RowReduction.Fraction

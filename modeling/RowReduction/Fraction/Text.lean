import RowReduction.Fraction.Basic
import RowReduction.Text.Blank
import RowReduction.Text.Numeral

/-!
# Reading fractions

A fraction is written as an optional minus sign, a numeral, a slash or a colon,
and a numeral other than zero, with blank characters around it.
-/

namespace RowReduction.Fraction

open Text

/-- The characters that may stand between numerator and denominator. -/
def isSeparator (c : Char) : Bool :=
  c == '/' || c == ':'

/-- The fraction that two numerals write, the first with an optional minus sign. -/
def ofNumerals? (top bottom : List Char) : Except FractionFault Fraction :=
  if !isNumeral (splitMinus top).2 then .error .badNumerator
  else if !isNumeral bottom then .error .badDenominator
  else if h : numeralValue bottom = 0 then .error .zeroDenominator
  else .ok (reduce (withSign (splitMinus top).1 (numeralValue (splitMinus top).2))
    (numeralValue bottom) (Nat.pos_of_ne_zero h))

/-- The fraction that a text without blank ends writes. -/
def ofTrimmed? (text : List Char) : Except FractionFault Fraction :=
  match text.dropWhile (!isSeparator ·) with
  | [] => .error .noSeparator
  | _ :: bottom => ofNumerals? (text.takeWhile (!isSeparator ·)) bottom

/-- The fraction that a text writes. -/
def parse? (s : String) : Except Error Fraction :=
  let text := trim s.toList
  (ofTrimmed? text).mapError (.notFraction (String.ofList text))

end RowReduction.Fraction

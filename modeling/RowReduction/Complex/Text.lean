import RowReduction.Complex.Basic
import RowReduction.Text.Blank

/-!
# Reading complex numbers

Blank characters do not matter, and the imaginary unit is `i` or `j`. A text
that ends in the unit has an imaginary part, and the last sign that is neither
the first character nor part of an exponent divides it from the real part.
-/

namespace RowReduction.Complex

open Text

/-- The text without blank characters and with one letter for the imaginary unit. -/
def normalize (cs : List Char) : List Char :=
  (removeBlanks cs).map fun c => if c == 'j' then 'i' else c

/-- A sign of either kind. -/
def isSign (c : Char) : Bool :=
  c == '+' || c == '-'

/-- The letter of an exponent in either case. -/
def isExponentMark (c : Char) : Bool :=
  c == 'e' || c == 'E'

/-- The text cut before its last sign that does not follow the mark of an exponent; `previous`
is the character before the text. -/
def cutAfter? (previous : Char) : List Char → Option (List Char × List Char)
  | [] => none
  | c :: cs =>
      match cutAfter? c cs with
      | some (before, after) => some (c :: before, after)
      | none => if isSign c && !isExponentMark previous then some ([], c :: cs) else none

/-- The real and the imaginary part of a text without its unit, if it has both. -/
def cut? : List Char → Option (List Char × List Char)
  | [] => none
  | c :: cs => (cutAfter? c cs).map fun p => (c :: p.1, p.2)

/-- A part of a complex number: a decimal number that does not round to an infinity. -/
def readPart? (whole : String) (part : List Char) : Except Error Binary64 :=
  match Binary64.ofText? part with
  | some x => if x.isFinite then .ok x else .error (.notFinite (String.ofList part) whole)
  | none => .error (.notFinite (String.ofList part) whole)

/-- The coefficient of the imaginary unit, where a sign alone or nothing stands for one. -/
def readCoefficient? (whole : String) : List Char → Except Error Binary64
  | [] | ['+'] => .ok 1
  | ['-'] => .ok (-1)
  | part => readPart? whole part

/-- The number that a text ending in the imaginary unit writes before it. -/
def readImaginary? (whole : String) (body : List Char) : Except Error Complex :=
  match cut? body with
  | some (re, im) => do return ⟨← readPart? whole re, ← readCoefficient? whole im⟩
  | none => do return ⟨0, ← readCoefficient? whole body⟩

/-- The number that a text writes. -/
def parse? (s : String) : Except Error Complex :=
  let text := normalize s.toList
  if text.isEmpty then .error .blankComplex
  else if text.getLast? = some 'i' then readImaginary? s text.dropLast
  else (readPart? s text).map ofReal

end RowReduction.Complex

import RowReduction.Vec.Basic
import RowReduction.Text.Blank

/-!
# Reading vectors

A vector is written as the texts of its components with commas between them
and parentheses around them. Blank characters around the whole and around each
component do not matter.
-/

namespace RowReduction.Vec

open Text

/-- The text between an opening and a closing parenthesis. -/
def between? : List Char → Option (List Char)
  | '(' :: cs => if cs.getLast? = some ')' then some cs.dropLast else none
  | _ => none

variable {α : Type} [Scalar α]

/-- The component that a part of a text writes. -/
def readComponent? (text : List Char) (part : List Char) (index : Nat) : Except Error α :=
  let part := String.ofList (trim part)
  (Scalar.parse? part).mapError (.badComponent index part (String.ofList text))

/-- The vector that a text writes. -/
def parse? (s : String) : Except Error (Vec α) :=
  let text := trim s.toList
  match between? text with
  | none => .error (.notVector (String.ofList text))
  | some body =>
      if (trim body).isEmpty then .error (.noComponents (String.ofList text))
      else do
        ofList? (← (body.splitOn ',').zipIdx.mapM fun p => readComponent? text p.1 p.2)

end RowReduction.Vec

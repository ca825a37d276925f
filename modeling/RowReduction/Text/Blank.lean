/-!
# Blank characters

The characters of the Unicode property `White_Space`, and the two ways of
dropping them from a text: at both ends, and everywhere.
-/

namespace RowReduction.Text

/-- The twenty-five characters with the Unicode property `White_Space`. -/
def isBlank (c : Char) : Bool :=
  let n := c.toNat
  (0x09 ≤ n && n ≤ 0x0D) || n == 0x20 || n == 0x85 || n == 0xA0 || n == 0x1680 ||
    (0x2000 ≤ n && n ≤ 0x200A) || n == 0x2028 || n == 0x2029 || n == 0x202F ||
    n == 0x205F || n == 0x3000

/-- The text without the blank characters at its two ends. -/
def trim (cs : List Char) : List Char :=
  ((cs.dropWhile isBlank).reverse.dropWhile isBlank).reverse

/-- The text without any of its blank characters. -/
def removeBlanks (cs : List Char) : List Char :=
  cs.filter (!isBlank ·)

end RowReduction.Text

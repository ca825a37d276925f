import RowReduction.Text.Blank
import RowReduction.Text.Numeral
import Mathlib.Data.List.Basic
import Mathlib.Data.List.DropRight
import Mathlib.Data.List.Induction
import Mathlib.Data.List.TakeWhile
import Mathlib.Data.Nat.Digits.Defs

/-!
# Written numerals, signs and blanks

What the readers of texts take apart is put together here: digits with the
number they stand for, a sign in each of its spellings, and blanks around a
text. For each piece there is one lemma that a text falls into such pieces and
one that the reader finds the pieces again.
-/

namespace RowReduction.Text

section Runs

variable {p : Char → Bool} {run rest : List Char}

/-- A run of characters ends where the first other character follows. -/
theorem takeWhile_run (hrun : ∀ c ∈ run, p c = true) (hrest : ∀ c ∈ rest.head?, p c = false) :
    (run ++ rest).takeWhile p = run := by
  rw [List.takeWhile_append_of_pos hrun]
  cases rest with
  | nil => simp
  | cons c cs => rw [List.takeWhile_cons_of_neg (by simp [hrest c rfl]), List.append_nil]

theorem dropWhile_run (hrun : ∀ c ∈ run, p c = true) (hrest : ∀ c ∈ rest.head?, p c = false) :
    (run ++ rest).dropWhile p = rest := by
  rw [List.dropWhile_append_of_pos hrun]
  cases rest with
  | nil => rfl
  | cons c cs => rw [List.dropWhile_cons_of_neg (by simp [hrest c rfl])]

end Runs

section Digits

/-- The number that decimal digits stand for, the most significant digit first. -/
def positionalValue (cs : List Char) : Nat :=
  Nat.ofDigits 10 (cs.reverse.map fun c => c.toNat - '0'.toNat)

/-- The value of a run of digits, read from left to right, is the sum of the digits times the
powers of ten. -/
theorem numeralValue_eq_positionalValue (cs : List Char) :
    numeralValue cs = positionalValue cs := by
  induction cs using List.reverseRecOn with
  | nil => rfl
  | append_singleton cs c ih =>
      rw [numeralValue, Nat.ofDigitChars_append, ← numeralValue, ih, positionalValue,
        positionalValue, List.reverse_concat, List.map_cons, Nat.ofDigits_cons, Nat.add_comm]
      rfl

theorem numeral_ne_nil (n : Nat) : numeral n ≠ [] :=
  Nat.toDigits_ne_nil

@[simp] theorem positionalValue_numeral (n : Nat) : positionalValue (numeral n) = n := by
  rw [← numeralValue_eq_positionalValue, numeralValue_numeral]

theorem isNumeral_iff {cs : List Char} :
    isNumeral cs = true ↔ cs ≠ [] ∧ ∀ c ∈ cs, c.isDigit = true := by
  simp [isNumeral]

theorem ne_of_isDigit {c d : Char} (hc : c.isDigit = true) (hd : d.isDigit = false) : c ≠ d := by
  rintro rfl
  rw [hc] at hd
  cases hd

theorem notMem_numeral {c : Char} (h : c.isDigit = false) (n : Nat) : c ∉ numeral n :=
  fun hmem => ne_of_isDigit (isDigit_of_mem_numeral hmem) h rfl

theorem toNat_of_isDigit {c : Char} (h : c.isDigit = true) : 48 ≤ c.toNat ∧ c.toNat ≤ 57 := by
  simpa [Char.isDigit, UInt32.le_iff_toNat_le] using h

/-- No digit is blank. -/
theorem isBlank_of_isDigit {c : Char} (h : c.isDigit = true) : isBlank c = false := by
  have hc := toNat_of_isDigit h
  simp [isBlank]
  omega

end Digits

section Signs

/-- The minus sign that a negative number is written with. -/
def minusText (negative : Bool) : List Char :=
  if negative then ['-'] else []

theorem minusText_append_splitMinus (cs : List Char) :
    minusText (splitMinus cs).1 ++ (splitMinus cs).2 = cs := by
  unfold splitMinus
  split <;> rfl

/-- A minus sign is taken off a text that goes on with another character. -/
theorem splitMinus_minusText_append (negative : Bool) {cs : List Char}
    (h : ∀ c ∈ cs.head?, c ≠ '-') : splitMinus (minusText negative ++ cs) = (negative, cs) := by
  cases negative with
  | true => rfl
  | false =>
      cases cs with
      | nil => rfl
      | cons c cs =>
          have hc : c ≠ '-' := h c rfl
          simp [minusText, splitMinus, hc]

/-- The spellings of a sign. -/
inductive Sign where
  | implied
  | plus
  | minus
  deriving DecidableEq

namespace Sign

/-- The characters of a sign. -/
def text : Sign → List Char
  | implied => []
  | plus => ['+']
  | minus => ['-']

/-- Only the minus sign makes a number negative. -/
def negative : Sign → Bool
  | minus => true
  | _ => false

end Sign

theorem exists_sign (cs : List Char) :
    ∃ σ : Sign, σ.text ++ (splitSign cs).2 = cs ∧ σ.negative = (splitSign cs).1 := by
  unfold splitSign
  split
  · exact ⟨.minus, rfl, rfl⟩
  · exact ⟨.plus, rfl, rfl⟩
  · exact ⟨.implied, rfl, rfl⟩

/-- A sign is taken off a text that goes on with a character other than a sign. -/
theorem splitSign_text_append (σ : Sign) {cs : List Char}
    (h : ∀ c ∈ cs.head?, c ≠ '+' ∧ c ≠ '-') : splitSign (σ.text ++ cs) = (σ.negative, cs) := by
  cases σ with
  | plus => rfl
  | minus => rfl
  | implied =>
      cases cs with
      | nil => rfl
      | cons c cs =>
          have hc := h c rfl
          simp [Sign.text, Sign.negative, splitSign, hc]

end Signs

section Blanks

/-- Only blanks are dropped at the ends of a text. -/
theorem exists_blanks_append_trim (cs : List Char) :
    ∃ before after, before ++ trim cs ++ after = cs ∧ (∀ c ∈ before, isBlank c = true) ∧
      ∀ c ∈ after, isBlank c = true := by
  refine ⟨cs.takeWhile isBlank, ((cs.dropWhile isBlank).reverse.takeWhile isBlank).reverse,
    ?_, fun c hc => List.mem_takeWhile_imp hc, fun c hc => ?_⟩
  · rw [trim, List.append_assoc, ← List.reverse_append, List.takeWhile_append_dropWhile,
      List.reverse_reverse, List.takeWhile_append_dropWhile]
  · exact List.mem_takeWhile_imp (List.mem_reverse.mp hc)

/-- All blanks around a text without blank ends are dropped. -/
theorem trim_append {before text after : List Char} (hbefore : ∀ c ∈ before, isBlank c = true)
    (hafter : ∀ c ∈ after, isBlank c = true) (hne : text ≠ [])
    (hfirst : ∀ c ∈ text.head?, isBlank c = false)
    (hlast : ∀ c ∈ text.getLast?, isBlank c = false) :
    trim (before ++ text ++ after) = text := by
  have hstart : ∀ c ∈ (text ++ after).head?, isBlank c = false := by
    rwa [List.head?_append_of_ne_nil text hne]
  have hend : ∀ c ∈ text.reverse.head?, isBlank c = false := by
    rwa [List.head?_reverse]
  rw [trim, List.append_assoc, dropWhile_run hbefore hstart, List.reverse_append,
    dropWhile_run (by simpa using hafter) hend, List.reverse_reverse]

/-- A text without blank ends is left as it is. -/
theorem trim_eq_self {text : List Char} (hfirst : ∀ c ∈ text.head?, isBlank c = false)
    (hlast : ∀ c ∈ text.getLast?, isBlank c = false) : trim text = text := by
  have hnone : ∀ c ∈ ([] : List Char), isBlank c = true := by simp
  cases text with
  | nil => rfl
  | cons c cs => simpa using trim_append hnone hnone (List.cons_ne_nil c cs) hfirst hlast

theorem isBlank_of_head?_trim {cs : List Char} {c : Char} (h : c ∈ (trim cs).head?) :
    isBlank c = false := by
  obtain ⟨rest, hrest⟩ : trim cs <+: cs.dropWhile isBlank := List.rdropWhile_prefix isBlank _
  have hfirst : (cs.dropWhile isBlank).head? = some c := by
    rw [← hrest, List.head?_append, h, Option.some_or]
  have hnot := List.head?_dropWhile_not isBlank cs
  rwa [hfirst] at hnot

theorem isBlank_of_getLast?_trim {cs : List Char} {c : Char} (h : c ∈ (trim cs).getLast?) :
    isBlank c = false := by
  have hfirst : ((cs.dropWhile isBlank).reverse.dropWhile isBlank).head? = some c := by
    rwa [trim, List.getLast?_reverse] at h
  have hnot := List.head?_dropWhile_not isBlank (cs.dropWhile isBlank).reverse
  rwa [hfirst] at hnot

/-- What is trimmed has no blanks at its ends. -/
@[simp] theorem trim_trim (cs : List Char) : trim (trim cs) = trim cs :=
  trim_eq_self (fun _ => isBlank_of_head?_trim) (fun _ => isBlank_of_getLast?_trim)

theorem trim_cons_of_isBlank {c : Char} (h : isBlank c = true) (cs : List Char) :
    trim (c :: cs) = trim cs := by
  rw [trim, List.dropWhile_cons_of_pos h, trim]

/-- Nothing is left exactly of the blank texts. -/
theorem trim_eq_nil_iff {cs : List Char} : trim cs = [] ↔ ∀ c ∈ cs, isBlank c = true := by
  constructor
  · intro h c hc
    obtain ⟨before, after, hcs, hbefore, hafter⟩ := exists_blanks_append_trim cs
    rw [← hcs, h, List.append_nil] at hc
    rcases List.mem_append.mp hc with hc | hc
    · exact hbefore c hc
    · exact hafter c hc
  · intro h
    rw [trim, List.dropWhile_eq_nil_iff.mpr h]
    rfl

/-- Removing all blanks removes those at the ends. -/
theorem removeBlanks_trim (cs : List Char) : removeBlanks (trim cs) = removeBlanks cs := by
  have hblanks : ∀ {run : List Char}, (∀ c ∈ run, isBlank c = true) → removeBlanks run = [] := by
    intro run hrun
    apply List.filter_eq_nil_iff.mpr
    intro c hc
    simp [hrun c hc]
  obtain ⟨before, after, hcs, hbefore, hafter⟩ := exists_blanks_append_trim cs
  calc
    removeBlanks (trim cs) =
        removeBlanks before ++ removeBlanks (trim cs) ++ removeBlanks after := by
      rw [hblanks hbefore, hblanks hafter, List.nil_append, List.append_nil]
    _ = removeBlanks (before ++ trim cs ++ after) := by simp [removeBlanks]
    _ = removeBlanks cs := by rw [hcs]

end Blanks

end RowReduction.Text

import RowReduction.Text.Decimal
import RowReduction.Proofs.Text.Written

/-!
# Decimal literals

A decimal literal is a sign, digits of which some may follow a point, and an
exponent. The pieces put together are the text, and reading accepts exactly
these texts: it finds the sign, the digits and the power of ten of the pieces.
-/

namespace RowReduction.Text

/-- The exponent of a literal: its mark, a sign and digits. -/
structure Exponent where
  mark : Char
  sign : Sign
  digits : List Char

namespace Exponent

/-- The pieces of an exponent one after another. -/
def text (x : Exponent) : List Char :=
  x.mark :: (x.sign.text ++ x.digits)

/-- The power of ten. -/
def value (x : Exponent) : Int :=
  withSign x.sign.negative (positionalValue x.digits)

/-- The letter `e` in either case and at least one digit. -/
structure WellFormed (x : Exponent) : Prop where
  mark : x.mark = 'e' ∨ x.mark = 'E'
  ne_nil : x.digits ≠ []
  digits : ∀ c ∈ x.digits, c.isDigit = true

end Exponent

/-- The pieces of a decimal number. Without a point there is no fraction. -/
structure Literal where
  sign : Sign
  whole : List Char
  fraction : Option (List Char)
  exponent : Option Exponent

namespace Literal

/-- The digits after the point. -/
def places (l : Literal) : List Char :=
  l.fraction.getD []

/-- The point and the digits after it. -/
def fractionText (l : Literal) : List Char :=
  (l.fraction.map ('.' :: ·)).getD []

/-- The exponent, if there is one. -/
def exponentText (l : Literal) : List Char :=
  (l.exponent.map Exponent.text).getD []

/-- The pieces after the sign. -/
def unsignedText (l : Literal) : List Char :=
  l.whole ++ (l.fractionText ++ l.exponentText)

/-- The pieces one after another. -/
def text (l : Literal) : List Char :=
  l.sign.text ++ l.unsignedText

/-- The magnitude: all digits without the point, times the power of ten of the exponent less the
number of digits after the point. -/
def magnitude (l : Literal) : Decimal :=
  ⟨positionalValue (l.whole ++ l.places),
    (l.exponent.map Exponent.value).getD 0 - l.places.length⟩

/-- At least one digit before or after the point. -/
structure WellFormed (l : Literal) : Prop where
  ne_nil : l.whole ++ l.places ≠ []
  whole_digits : ∀ c ∈ l.whole, c.isDigit = true
  places_digits : ∀ c ∈ l.places, c.isDigit = true
  exponent_form : ∀ x ∈ l.exponent, x.WellFormed

theorem not_sign_of_isDigit {c : Char} (h : c.isDigit = true) : c ≠ '+' ∧ c ≠ '-' :=
  ⟨ne_of_isDigit h rfl, ne_of_isDigit h rfl⟩

section Exponent

/-- Reading takes an exponent apart into its pieces. -/
theorem readExponent?_eq_some_iff {cs : List Char} {e : Int} :
    Decimal.readExponent? cs = some e ↔
      ∃ x : Option Exponent, (∀ y ∈ x, y.WellFormed) ∧ (x.map Exponent.text).getD [] = cs ∧
        (x.map Exponent.value).getD 0 = e := by
  constructor
  · intro h
    cases cs with
    | nil =>
        obtain rfl : 0 = e := Option.some.inj h
        exact ⟨none, by simp, rfl, rfl⟩
    | cons c cs =>
        simp only [Decimal.readExponent?, Option.ite_none_right_eq_some, Option.some.injEq,
          Bool.and_eq_true, Bool.or_eq_true, beq_iff_eq, isNumeral_iff] at h
        obtain ⟨⟨hmark, hne, hdigits⟩, rfl⟩ := h
        obtain ⟨σ, htext, hnegative⟩ := exists_sign cs
        refine ⟨some ⟨c, σ, (splitSign cs).2⟩, ?_, ?_, ?_⟩
        · rintro y ⟨⟩
          exact ⟨hmark, hne, hdigits⟩
        · simp [Exponent.text, htext]
        · simp [Exponent.value, hnegative, numeralValue_eq_positionalValue]
  · rintro ⟨x, hx, rfl, rfl⟩
    cases x with
    | none => rfl
    | some x =>
        have hform := hx x rfl
        have hsplit : splitSign (x.sign.text ++ x.digits) = (x.sign.negative, x.digits) :=
          splitSign_text_append _ fun c hc =>
            not_sign_of_isDigit (hform.digits c (List.mem_of_mem_head? hc))
        have hmark : (x.mark == 'e' || x.mark == 'E') = true := by simpa using hform.mark
        have hnumeral : isNumeral x.digits = true :=
          isNumeral_iff.mpr ⟨hform.ne_nil, hform.digits⟩
        simp [Exponent.text, Exponent.value, Decimal.readExponent?, hsplit, hmark, hnumeral,
          numeralValue_eq_positionalValue]

end Exponent

section Unsigned

variable {l : Literal}

/-- What follows the digits after the point is neither a digit nor a point. -/
theorem WellFormed.head_exponentText (h : l.WellFormed) :
    ∀ c ∈ l.exponentText.head?, c.isDigit = false ∧ c ≠ '.' := by
  intro c hc
  unfold exponentText at hc
  cases hx : l.exponent with
  | none => simp [hx] at hc
  | some x =>
      obtain rfl : x.mark = c := by simpa [hx, Exponent.text] using hc
      rcases (h.exponent_form x hx).mark with hmark | hmark <;> rw [hmark] <;> decide

/-- What follows the digits before the point is no digit. -/
theorem WellFormed.head_after_whole (h : l.WellFormed) :
    ∀ c ∈ (l.fractionText ++ l.exponentText).head?, c.isDigit = false := by
  intro c hc
  unfold fractionText at hc
  cases hf : l.fraction with
  | some ds =>
      obtain rfl : '.' = c := by simpa [hf] using hc
      rfl
  | none => exact (h.head_exponentText c (by simpa [hf] using hc)).1

/-- The digits after the point end where the exponent starts. -/
theorem WellFormed.splitFraction (h : l.WellFormed) :
    Decimal.splitFraction (l.fractionText ++ l.exponentText) = (l.places, l.exponentText) := by
  have hplaces := h.places_digits
  have hrest : ∀ c ∈ l.exponentText.head?, c.isDigit = false :=
    fun c hc => (h.head_exponentText c hc).1
  unfold fractionText places at *
  cases hf : l.fraction with
  | some ds =>
      rw [hf] at hplaces
      have htake := takeWhile_run hplaces hrest
      have hdrop := dropWhile_run hplaces hrest
      exact Prod.ext htake hdrop
  | none =>
      cases hx : l.exponentText with
      | nil => rfl
      | cons c cs =>
          have hc : c ≠ '.' := (h.head_exponentText c (by rw [hx]; rfl)).2
          simp [Decimal.splitFraction, hc]

/-- The pieces after the sign are read as the digits and the power of ten. -/
theorem WellFormed.readUnsigned? (h : l.WellFormed) :
    Decimal.readUnsigned? l.unsignedText = some l.magnitude := by
  have hexponent : Decimal.readExponent? l.exponentText =
      some ((l.exponent.map Exponent.value).getD 0) :=
    readExponent?_eq_some_iff.mpr ⟨l.exponent, h.exponent_form, rfl, rfl⟩
  have hnumeral : isNumeral (l.whole ++ l.places) = true := by
    refine isNumeral_iff.mpr ⟨h.ne_nil, fun c hc => ?_⟩
    rcases List.mem_append.mp hc with hc | hc
    · exact h.whole_digits c hc
    · exact h.places_digits c hc
  simp [Decimal.readUnsigned?, unsignedText, takeWhile_run h.whole_digits h.head_after_whole,
    dropWhile_run h.whole_digits h.head_after_whole, h.splitFraction, hnumeral, hexponent,
    magnitude, numeralValue_eq_positionalValue]

theorem exists_fraction (cs : List Char) :
    ∃ f : Option (List Char), (f.map ('.' :: ·)).getD [] ++ (Decimal.splitFraction cs).2 = cs ∧
      f.getD [] = (Decimal.splitFraction cs).1 := by
  unfold Decimal.splitFraction
  split
  · exact ⟨some _, by simp, rfl⟩
  · exact ⟨none, rfl, rfl⟩

/-- Whatever is read without a sign falls into the pieces of a decimal number. -/
theorem exists_of_readUnsigned? {cs : List Char} {d : Decimal} (σ : Sign)
    (h : Decimal.readUnsigned? cs = some d) :
    ∃ l : Literal, l.WellFormed ∧ l.sign = σ ∧ l.unsignedText = cs ∧ l.magnitude = d := by
  obtain ⟨f, hf, hplaces⟩ := exists_fraction (cs.dropWhile Char.isDigit)
  simp only [Decimal.readUnsigned?, Option.ite_none_right_eq_some, Option.map_eq_some_iff,
    readExponent?_eq_some_iff, isNumeral_iff, ← hplaces] at h
  obtain ⟨⟨hne, hdigits⟩, e, ⟨x, hx, hrest, rfl⟩, rfl⟩ := h
  refine ⟨⟨σ, cs.takeWhile Char.isDigit, f, x⟩, ⟨hne, ?_, ?_, hx⟩, rfl, ?_, ?_⟩
  · exact fun c hc => hdigits c (List.mem_append_left _ hc)
  · exact fun c hc => hdigits c (List.mem_append_right _ hc)
  · simp only [unsignedText, fractionText, exponentText]
    rw [hrest, hf, List.takeWhile_append_dropWhile]
  · simp [magnitude, places, numeralValue_eq_positionalValue]

end Unsigned

/-- The text after the sign starts with a digit or a point. -/
theorem WellFormed.head_unsignedText {l : Literal} (h : l.WellFormed) :
    ∀ c ∈ l.unsignedText.head?, c.isDigit = true ∨ c = '.' := by
  intro c hc
  unfold unsignedText fractionText at hc
  cases hw : l.whole with
  | cons d ds =>
      obtain rfl : d = c := by simpa [hw] using hc
      exact Or.inl (h.whole_digits d (by simp [hw]))
  | nil =>
      cases hf : l.fraction with
      | none => exact absurd (by simp [hw, places, hf]) h.ne_nil
      | some ds =>
          obtain rfl : '.' = c := by simpa [hw, hf] using hc
          exact Or.inr rfl

/-- Reading accepts the texts of literals, and finds their sign and their magnitude. -/
theorem read?_eq_some_iff {cs : List Char} {negative : Bool} {d : Decimal} :
    Decimal.read? cs = some (negative, d) ↔
      ∃ l : Literal, l.WellFormed ∧ l.text = cs ∧ l.sign.negative = negative ∧ l.magnitude = d := by
  constructor
  · intro h
    obtain ⟨σ, htext, hnegative⟩ := exists_sign cs
    obtain ⟨d', hread, hpair⟩ := Option.map_eq_some_iff.mp h
    obtain ⟨rfl, rfl⟩ := Prod.mk.inj hpair
    obtain ⟨l, hform, hsign, hunsigned, hmagnitude⟩ := exists_of_readUnsigned? σ hread
    refine ⟨l, hform, ?_, ?_, hmagnitude⟩
    · rw [text, hsign, hunsigned, htext]
    · rw [hsign, hnegative]
  · rintro ⟨l, hform, rfl, rfl, rfl⟩
    have hsplit : splitSign l.text = (l.sign.negative, l.unsignedText) := by
      refine splitSign_text_append _ fun c hc => ?_
      rcases hform.head_unsignedText c hc with hdigit | rfl
      · exact not_sign_of_isDigit hdigit
      · decide
    rw [Decimal.read?, hsplit, hform.readUnsigned?]
    rfl

end Literal

end RowReduction.Text

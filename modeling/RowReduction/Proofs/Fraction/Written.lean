import RowReduction.Proofs.Fraction.Reading
import RowReduction.Proofs.Text.Written

/-!
# Texts of fractions

A fraction is written as digits, of which the first may follow a minus sign, a
slash or a colon, and digits that do not stand for zero, with blanks around the
whole. Reading accepts exactly these texts and gives the quotient of the two
numbers. Every other text is refused as a text of the wrong format.
-/

namespace RowReduction

open Text Fraction

/-- The pieces of a text in the form of a fraction. -/
structure FractionText where
  before : List Char
  negative : Bool
  top : List Char
  separator : Char
  bottom : List Char
  after : List Char

namespace FractionText

/-- The text between the blanks at its ends. -/
def inner (t : FractionText) : List Char :=
  minusText t.negative ++ t.top ++ t.separator :: t.bottom

/-- The pieces one after another. -/
def text (t : FractionText) : List Char :=
  t.before ++ t.inner ++ t.after

/-- The number above over the number below. -/
def value (t : FractionText) : ℚ :=
  (if t.negative then -(positionalValue t.top : ℚ) else positionalValue t.top) /
    positionalValue t.bottom

/-- The pieces of a fraction: blanks, at least one digit above and below, no zero below. -/
structure WellFormed (t : FractionText) : Prop where
  before : ∀ c ∈ t.before, isBlank c = true
  top_ne_nil : t.top ≠ []
  top : ∀ c ∈ t.top, c.isDigit = true
  separator : t.separator = '/' ∨ t.separator = ':'
  bottom_ne_nil : t.bottom ≠ []
  bottom : ∀ c ∈ t.bottom, c.isDigit = true
  bottom_ne_zero : positionalValue t.bottom ≠ 0
  after : ∀ c ∈ t.after, isBlank c = true

theorem isSeparator_iff {c : Char} : isSeparator c = true ↔ c = '/' ∨ c = ':' := by
  simp [isSeparator]

theorem isSeparator_of_isDigit {c : Char} (h : c.isDigit = true) : isSeparator c = false := by
  rw [← Bool.not_eq_true, isSeparator_iff]
  rintro (rfl | rfl) <;> cases h

section Reading

variable {t : FractionText}

theorem WellFormed.head_top (h : t.WellFormed) : ∀ c ∈ t.top.head?, c.isDigit = true :=
  fun c hc => h.top c (List.mem_of_mem_head? hc)

/-- Reading drops exactly the blanks. -/
theorem WellFormed.trim_text (h : t.WellFormed) : trim t.text = t.inner := by
  refine trim_append h.before h.after (by simp [inner]) ?_ ?_
  · intro c hc
    cases hneg : t.negative with
    | true =>
        obtain rfl : '-' = c := by simpa [inner, minusText, hneg] using hc
        rfl
    | false =>
        refine isBlank_of_isDigit (h.head_top c ?_)
        rwa [inner, hneg, List.append_assoc, minusText, if_neg Bool.false_ne_true,
          List.nil_append, List.head?_append_of_ne_nil _ h.top_ne_nil] at hc
  · intro c hc
    refine isBlank_of_isDigit (h.bottom c (List.mem_of_mem_getLast? ?_))
    rwa [inner, List.getLast?_append_of_ne_nil _ (List.cons_ne_nil _ _),
      List.getLast?_cons_of_ne_nil h.bottom_ne_nil] at hc

/-- The separator is the first one of the text. -/
theorem WellFormed.before_separator (h : t.WellFormed) :
    ∀ c ∈ minusText t.negative ++ t.top, (!isSeparator c) = true := by
  intro c hc
  rw [Bool.not_eq_true']
  rcases List.mem_append.mp hc with hc | hc
  · unfold minusText at hc
    split at hc
    · obtain rfl := List.mem_singleton.mp hc
      rfl
    · cases hc
  · exact isSeparator_of_isDigit (h.top c hc)

theorem WellFormed.takeWhile_inner (h : t.WellFormed) :
    t.inner.takeWhile (!isSeparator ·) = minusText t.negative ++ t.top :=
  takeWhile_run h.before_separator (by simp [isSeparator_iff, h.separator])

theorem WellFormed.dropWhile_inner (h : t.WellFormed) :
    t.inner.dropWhile (!isSeparator ·) = t.separator :: t.bottom :=
  dropWhile_run h.before_separator (by simp [isSeparator_iff, h.separator])

/-- A text in the form of a fraction writes the quotient of its numbers. -/
theorem WellFormed.writtenQuotient? (h : t.WellFormed) {s : String} (hs : t.text = s.toList) :
    writtenQuotient? s = some t.value := by
  have htop : splitMinus (minusText t.negative ++ t.top) = (t.negative, t.top) :=
    splitMinus_minusText_append _ fun c hc => ne_of_isDigit (h.head_top c hc) rfl
  have hnumerals : isNumeral t.top = true ∧ isNumeral t.bottom = true ∧
      positionalValue t.bottom ≠ 0 :=
    ⟨isNumeral_iff.mpr ⟨h.top_ne_nil, h.top⟩, isNumeral_iff.mpr ⟨h.bottom_ne_nil, h.bottom⟩,
      h.bottom_ne_zero⟩
  simp only [Fraction.writtenQuotient?, ← hs, h.trim_text, h.takeWhile_inner, h.dropWhile_inner,
    htop, List.tail_cons, numeralValue_eq_positionalValue, if_pos hnumerals, value, withSign]
  split <;> simp

/-- Whatever writes a quotient is a text in the form of a fraction. -/
theorem exists_of_writtenQuotient? {s : String} {q : ℚ} (h : Fraction.writtenQuotient? s = some q) :
    ∃ t : FractionText, t.WellFormed ∧ t.text = s.toList ∧ t.value = q := by
  obtain ⟨before, after, hs, hbefore, hafter⟩ := exists_blanks_append_trim s.toList
  simp only [Fraction.writtenQuotient?, Option.ite_none_right_eq_some, Option.some.injEq,
    numeralValue_eq_positionalValue] at h
  generalize htext : trim s.toList = text at h hs
  obtain ⟨⟨htop, hbottom, hzero⟩, rfl⟩ := h
  generalize hdigits : splitMinus (text.takeWhile (!isSeparator ·)) = digits at htop ⊢
  have hinner : minusText digits.1 ++ digits.2 = text.takeWhile (!isSeparator ·) := by
    rw [← hdigits, minusText_append_splitMinus]
  cases hrest : text.dropWhile (!isSeparator ·) with
  | nil => simp [hrest, isNumeral] at hbottom
  | cons c bottom =>
      rw [hrest, List.tail_cons] at hbottom hzero
      have hsep : isSeparator c = true := by
        simpa [hrest] using List.head_dropWhile_not (!isSeparator ·) (l := text) (by simp [hrest])
      refine ⟨⟨before, digits.1, digits.2, c, bottom, after⟩,
        ⟨hbefore, (isNumeral_iff.mp htop).1, (isNumeral_iff.mp htop).2, isSeparator_iff.mp hsep,
          (isNumeral_iff.mp hbottom).1, (isNumeral_iff.mp hbottom).2, hzero, hafter⟩, ?_, ?_⟩
      · rw [FractionText.text, inner, hinner, ← hrest, List.takeWhile_append_dropWhile, hs]
      · simp only [value, withSign, List.tail_cons]
        split <;> simp

end Reading

/-- A text is read as a fraction exactly if it has the form of one, and then as the fraction of
the quotient that it writes. -/
theorem parse?_eq_ok_iff {s : String} {a : Fraction} :
    Scalar.parse? s = .ok a ↔
      ∃ t : FractionText, t.WellFormed ∧ t.text = s.toList ∧ a.value = t.value := by
  have hread : Scalar.parse? s = .ok a ↔ Fraction.writtenQuotient? s = some a.value := by
    rw [← map_value_parse?]
    cases (Scalar.parse? s : Except Error Fraction) <;> simp [Except.toOption]
  rw [hread]
  constructor
  · intro h
    obtain ⟨t, hform, htext, hvalue⟩ := exists_of_writtenQuotient? h
    exact ⟨t, hform, htext, hvalue.symm⟩
  · rintro ⟨t, hform, htext, hvalue⟩
    rw [hform.writtenQuotient? htext, hvalue]

/-- What is no fraction is refused with the text and with what is wrong with it. -/
theorem eq_notFraction_of_parse? {s : String} {e : Error}
    (h : (Scalar.parse? s : Except Error Fraction) = .error e) :
    ∃ fault, e = .notFraction (String.ofList (trim s.toList)) fault := by
  change (ofTrimmed? (trim s.toList)).mapError _ = .error e at h
  cases hread : ofTrimmed? (trim s.toList) with
  | ok a => rw [hread] at h; cases h
  | error fault => rw [hread] at h; cases h; exact ⟨fault, rfl⟩

/-- The places before and after a separator lie between characters also when a text is counted in
bytes, because a separator takes one byte. -/
theorem isValid_cuts {top bottom : List Char} {c : Char} (hc : isSeparator c = true) :
    (String.ofList top).rawEndPos.IsValid (String.ofList (top ++ c :: bottom)) ∧
      String.Pos.Raw.IsValid (String.ofList (top ++ c :: bottom))
        ⟨(String.ofList top).utf8ByteSize + 1⟩ := by
  have hsize : c.utf8Size = 1 := by
    rcases isSeparator_iff.mp hc with rfl | rfl <;> rfl
  have hend : (String.ofList (top ++ [c])).utf8ByteSize =
      (String.ofList top).utf8ByteSize + 1 := by
    rw [String.ofList_append, ← String.singleton_eq_ofList, String.utf8ByteSize_append,
      String.utf8ByteSize_singleton, hsize]
  constructor
  · exact String.Pos.Raw.isValid_iff_exists_append.mpr
      ⟨String.ofList top, String.ofList (c :: bottom), String.ofList_append, rfl⟩
  · refine String.Pos.Raw.isValid_iff_exists_append.mpr
      ⟨String.ofList (top ++ [c]), String.ofList bottom, ?_, ?_⟩
    · rw [← String.ofList_append, List.append_assoc]
      rfl
    · rw [← hend]
      rfl

/-- Every text is read or refused by its form alone: the fraction that is read has the value of
the quotient of the digits, a refusal is one of the format, and the cuts on either side of a
separator lie between characters. -/
theorem parse?_accepts_exactly (s : String) :
    (∀ a : Fraction, Scalar.parse? s = .ok a ↔
      ∃ t : FractionText, t.WellFormed ∧ t.text = s.toList ∧ a.value = t.value) ∧
    ((∃ e, (Scalar.parse? s : Except Error Fraction) = .error e ∧ e.kind = .invalidFormat) ↔
      ¬ ∃ t : FractionText, t.WellFormed ∧ t.text = s.toList) ∧
    (∀ top c bottom, trim s.toList = top ++ c :: bottom → isSeparator c = true →
      (String.ofList top).rawEndPos.IsValid (String.ofList (trim s.toList)) ∧
        String.Pos.Raw.IsValid (String.ofList (trim s.toList))
          ⟨(String.ofList top).utf8ByteSize + 1⟩) := by
  refine ⟨fun a => parse?_eq_ok_iff, ?_, ?_⟩
  · constructor
    · rintro ⟨e, he, -⟩ ⟨t, hform, htext⟩
      have hok : Scalar.parse? s = .ok (ofRat t.value) :=
        parse?_eq_ok_iff.mpr ⟨t, hform, htext, value_ofRat _⟩
      rw [hok] at he
      cases he
    · intro hnone
      cases hread : (Scalar.parse? s : Except Error Fraction) with
      | ok a =>
          obtain ⟨t, hform, htext, -⟩ := parse?_eq_ok_iff.mp hread
          exact absurd ⟨t, hform, htext⟩ hnone
      | error e =>
          obtain ⟨fault, rfl⟩ := eq_notFraction_of_parse? hread
          exact ⟨_, rfl, rfl⟩
  · intro top c bottom hsplit hc
    rw [hsplit]
    exact isValid_cuts hc

-- A second sign, a second separator, a missing numeral and a denominator of zero are refused.
example : ["--1/2", "1/-2", "1/2/3", "-/3", "1/0", "/"].all fun s =>
    !(Scalar.parse? s : Except Error Fraction).isOk := by
  decide

end FractionText

end RowReduction

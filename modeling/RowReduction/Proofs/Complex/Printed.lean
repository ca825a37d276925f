import RowReduction.Proofs.Complex.Written
import RowReduction.Proofs.Text.Positional

/-!
# Printed complex numbers

A finite number is printed with all its digits behind the sign of a negative
one, and the text is a literal that rounds back to the number. A complex number
is printed in one of the forms of complex numbers, without the part that is
negligible. The text is read as the number with zero in place of that part,
which is equal to the number and has the same text.
-/

namespace RowReduction

open Text

namespace Binary64

open RowReduction.Complex (WritesPart isSign)

theorem exists_finite {x : Binary64} (hx : x.isFinite = true) :
    ∃ (negative : Bool) (n : Nat) (h : Representable n), x = finite negative n h := by
  cases x with
  | nan => cases hx
  | infinity negative => cases hx
  | finite negative n h => exact ⟨negative, n, h, rfl⟩

section Literals

/-- The decimal number that a magnitude is printed as. -/
def printedDecimal (n : Nat) : Decimal :=
  if n = 0 then ⟨0, 0⟩ else shortest n

/-- The pieces of a printed magnitude behind a sign. -/
def printed (σ : Sign) (n : Nat) : Literal :=
  (printedDecimal n).literal σ

/-- A printed magnitude rounds to the magnitude, with the sign it stands behind. -/
theorem rounded_printed (σ : Sign) {n : Nat} (h : Representable n) :
    (printed σ n).rounded = finite σ.negative n h := by
  obtain ⟨hnumerator, hdenominator⟩ := Decimal.quotient_literal σ (printedDecimal n)
  have hsign : (printed σ n).sign = σ := Decimal.sign_literal σ _
  rw [Literal.rounded, hsign, printed, hnumerator, hdenominator, ← ofDecimal_eq_ofQuotient,
    printedDecimal]
  split
  · rename_i hzero
    subst hzero
    rfl
  · exact ofDecimal_shortest σ.negative h

/-- The characters of printed numbers. -/
def IsPlain (c : Char) : Prop :=
  isSign c = true ∨ c.isDigit = true ∨ c = '.'

/-- Plain characters are no blanks and no commas, and none is the letter `j`. -/
theorem IsPlain.separate {c : Char} (h : IsPlain c) : isBlank c = false ∧ c ≠ 'j' ∧ c ≠ ',' := by
  rcases h with hsign | hdigit | rfl
  · have hcases : c = '+' ∨ c = '-' := by simpa [isSign] using hsign
    rcases hcases with rfl | rfl <;> decide
  · exact ⟨isBlank_of_isDigit hdigit, ne_of_isDigit hdigit rfl, ne_of_isDigit hdigit rfl⟩
  · decide

theorem isPlain_of_mem_printed {σ : Sign} {n : Nat} {c : Char} (hc : c ∈ (printed σ n).text) :
    IsPlain c := by
  have hexponent : (printed σ n).exponentText = [] := by
    rw [Literal.exponentText, printed, Decimal.exponent_literal]
    rfl
  rw [Literal.text, Literal.unsignedText, hexponent, List.append_nil] at hc
  rcases List.mem_append.mp hc with hsign | hmantissa
  · left
    cases hσ : (printed σ n).sign <;> simp_all [Sign.text, isSign]
  · exact Or.inr ((Decimal.literal_wellFormed σ _).mem_mantissa c hmantissa)

/-- The digits of a printed magnitude follow the sign. -/
theorem text_printed (σ : Sign) {n : Nat} (h : Representable n) :
    (printed σ n).text = σ.text ++ (finite false n h).text := by
  rw [printed, Decimal.text_literal, printedDecimal, text]
  split <;> rfl

end Literals

section Prints

/-- The text is that of the magnitude of the number, behind one of the spellings of its sign. -/
inductive Prints : List Char → Binary64 → Prop
  | mk (σ : Sign) {n : Nat} (h : Representable n) :
      Prints (σ.text ++ (finite false n h).text) (finite σ.negative n h)

/-- The text of a number with its sign also if it is not negative. -/
def signedText (x : Binary64) : List Char :=
  if x.isNegative then '-' :: (-x).text else '+' :: x.text

variable {x : Binary64}

theorem prints_text (hx : x.isFinite = true) : Prints x.text x := by
  obtain ⟨negative, n, h, rfl⟩ := exists_finite hx
  cases negative with
  | false => exact .mk .implied h
  | true => exact .mk .minus h

theorem prints_signedText (hx : x.isFinite = true) : Prints x.signedText x := by
  obtain ⟨negative, n, h, rfl⟩ := exists_finite hx
  cases negative with
  | false => exact .mk .plus h
  | true => exact .mk .minus h

/-- A printed number is read as the number. -/
theorem Prints.writesPart {cs : List Char} (h : Prints cs x) : WritesPart cs x := by
  cases h with
  | mk σ h =>
      exact ⟨_, Decimal.literal_wellFormed σ _, text_printed σ h, rounded_printed σ h, rfl⟩

theorem Prints.isPlain {cs : List Char} (h : Prints cs x) : ∀ c ∈ cs, IsPlain c := by
  cases h with
  | mk σ h =>
      rw [← text_printed σ h]
      exact fun c => isPlain_of_mem_printed

end Prints

section Differences

theorem finite_sub_finite {s t : Bool} {m n : Nat} (hm : Representable m) (hn : Representable n) :
    finite s m hm - finite t n hn = ofSum (s && !t) (withSign s m + withSign (!t) n) := by
  change sub (finite s m hm) (finite t n hn) = _
  rw [sub, neg, add]

theorem zero_eq_finite : (0 : Binary64) = finite false 0 representable_zero :=
  rfl

theorem abs_ofSum (negativeZero : Bool) {k : Int} {n : Nat} (h : Representable n)
    (hk : k.natAbs = n) : (ofSum negativeZero k).abs = finite false n h := by
  subst hk
  have hround : roundQuotient k.natAbs 1 = k.natAbs := by
    simpa using roundQuotient_mul h Nat.one_pos
  simp [ofSum, ofQuotient, hround, h.1, abs]

/-- A finite number differs by nothing from itself. -/
theorem abs_sub_self {x : Binary64} (hx : x.isFinite = true) : (x - x).abs = 0 := by
  obtain ⟨negative, n, h, rfl⟩ := exists_finite hx
  rw [finite_sub_finite, zero_eq_finite]
  apply abs_ofSum
  cases negative <;> simp [withSign]

/-- A finite number differs by its magnitude from zero. -/
theorem abs_zero_sub {x : Binary64} (hx : x.isFinite = true) : (0 - x).abs = x.abs := by
  obtain ⟨negative, n, h, rfl⟩ := exists_finite hx
  rw [zero_eq_finite, finite_sub_finite, abs]
  apply abs_ofSum
  cases negative <;> simp [withSign]

end Differences

end Binary64

namespace Complex

open Binary64 (IsPlain prints_text prints_signedText)

/-- Both parts are finite. -/
structure HasFiniteParts (z : Complex) : Prop where
  re : z.re.isFinite = true
  im : z.im.isFinite = true

/-- The form that a complex number is printed in. -/
def printed (z : Complex) : ComplexText :=
  if z.isReal then .real z.re.text
  else if isNegligible z.re then .imaginary z.im.text
  else .sum z.re.text z.im.signedText

/-- What the text of a complex number stands for: a part that is left out is zero. -/
def shown (z : Complex) : Complex :=
  if z.isReal then ofReal z.re else if isNegligible z.re then ⟨0, z.im⟩ else z

theorem isNegligible_zero : isNegligible 0 = true := by
  decide +kernel

section Text

theorem text_printed (z : Complex) : z.printed.text = (toString z).toList := by
  -- The sign of the imaginary part matters only where both parts are printed.
  by_cases hreal : z.isReal <;> by_cases hre : isNegligible z.re <;>
    by_cases him : z.im.isNegative <;>
    simp [printed, ComplexText.text, Binary64.signedText, toString, hreal, hre, him]

/-- Neither the letter `j` nor a blank is there to be replaced or removed. -/
theorem normalize_eq_self {cs : List Char} (h : ∀ c ∈ cs, isBlank c = false ∧ c ≠ 'j') :
    normalize cs = cs := by
  have hfilter : removeBlanks cs = cs := by
    apply List.filter_eq_self.mpr
    intro c hc
    simp [(h c hc).1]
  calc
    normalize cs = cs.map fun c => if c == 'j' then 'i' else c := by rw [normalize, hfilter]
    _ = cs.map id := List.map_congr_left fun c hc => by simp [(h c hc).2]
    _ = cs := List.map_id cs

end Text

variable {z : Complex}

/-- The form denotes what is shown. -/
theorem denotes_printed (h : z.HasFiniteParts) : z.printed.Denotes z.shown := by
  have hre := (prints_text h.re).writesPart
  unfold printed shown
  split
  · exact ⟨hre, rfl⟩
  · split
    · exact ⟨rfl, .part (prints_text h.im).writesPart⟩
    · -- The coefficient keeps a sign in front even if it is positive.
      refine ⟨hre, .part (prints_signedText h.im).writesPart, ?_⟩
      unfold Binary64.signedText
      split
      · exact ⟨'-', rfl, rfl⟩
      · exact ⟨'+', rfl, rfl⟩

theorem mem_printed (h : z.HasFiniteParts) : ∀ c ∈ z.printed.text, IsPlain c ∨ c = 'i' := by
  have hre := (prints_text h.re).isPlain
  have him := (prints_text h.im).isPlain
  have hsigned := (prints_signedText h.im).isPlain
  intro c hc
  unfold printed at hc
  split at hc
  · exact Or.inl (hre c hc)
  · split at hc
    · rcases List.mem_append.mp hc with hc | hc
      · exact Or.inl (him c hc)
      · exact Or.inr (List.mem_singleton.mp hc)
    · rcases List.mem_append.mp hc with hc | hc
      · rcases List.mem_append.mp hc with hc | hc
        · exact Or.inl (hre c hc)
        · exact Or.inl (hsigned c hc)
      · exact Or.inr (List.mem_singleton.mp hc)

/-- The characters of the text are no blanks, no commas and not the letter `j`. -/
theorem separate_of_mem_toString (h : z.HasFiniteParts) :
    ∀ c ∈ (toString z).toList, isBlank c = false ∧ c ≠ 'j' ∧ c ≠ ',' := by
  intro c hc
  rw [← text_printed] at hc
  rcases mem_printed h c hc with hplain | rfl
  · exact hplain.separate
  · decide

/-- The text of a number with finite parts is read as what is shown of the number. -/
theorem parse?_toString (h : z.HasFiniteParts) : Scalar.parse? (toString z) = .ok z.shown := by
  have hnormal : normalize (toString z).toList = (toString z).toList := by
    apply normalize_eq_self
    intro c hc
    obtain ⟨hblank, hletter, -⟩ := separate_of_mem_toString h c hc
    exact ⟨hblank, hletter⟩
  apply ComplexText.parse?_eq_ok_iff.mpr
  exact ⟨z.printed, by rw [hnormal, text_printed], denotes_printed h⟩

theorem comma_notMem_toString (h : z.HasFiniteParts) : ',' ∉ (toString z).toList :=
  fun hcomma => (separate_of_mem_toString h ',' hcomma).2.2 rfl

section Shown

/-- The parts that are shown differ by less than the tolerance from those of the number. -/
theorem shown_beq (h : z.HasFiniteParts) : (z.shown == z) = true := by
  have hself {x : Binary64} (hx : x.isFinite = true) : isNegligible (x - x) = true := by
    rw [isNegligible, Binary64.abs_sub_self hx]
    exact isNegligible_zero
  have hzero {x : Binary64} (hx : x.isFinite = true) (hx' : isNegligible x = true) :
      isNegligible (0 - x) = true := by
    rwa [isNegligible, Binary64.abs_zero_sub hx]
  change (isNegligible (z.shown.re - z.re) && isNegligible (z.shown.im - z.im)) = true
  rw [Bool.and_eq_true, shown]
  split
  · rename_i hreal
    exact ⟨hself h.re, hzero h.im hreal⟩
  · split
    · rename_i hre
      exact ⟨hzero h.re hre, hself h.im⟩
    · exact ⟨hself h.re, hself h.im⟩

/-- What is shown is printed in the same form. -/
theorem printed_shown (z : Complex) : z.shown.printed = z.printed := by
  have hzero := isNegligible_zero
  by_cases hreal : isNegligible z.im <;> by_cases hre : isNegligible z.re <;>
    simp [printed, shown, isReal, ofReal, hreal, hre, hzero]

theorem toString_shown (z : Complex) : toString z.shown = toString z := by
  rw [← String.toList_inj, ← text_printed, ← text_printed, printed_shown]

end Shown

end Complex

end RowReduction

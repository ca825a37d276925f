import RowReduction.Proofs.Text.Literal

/-!
# Positional texts of decimal numbers

All digits of a decimal number, with zeros after them or a point among them,
are a literal without an exponent. It stands for the same quotient as the
number: zeros at the end move a power of ten into the digits, and zeros at the
start do not count.
-/

namespace RowReduction.Text

section Zeros

theorem positionalValue_append (xs ys : List Char) :
    positionalValue (xs ++ ys) = positionalValue xs * 10 ^ ys.length + positionalValue ys := by
  rw [positionalValue, List.reverse_append, List.map_append, Nat.ofDigits_append, List.length_map,
    List.length_reverse, Nat.add_comm, Nat.mul_comm]
  rfl

theorem positionalValue_zeros (k : Nat) : positionalValue (List.replicate k '0') = 0 := by
  rw [positionalValue, List.reverse_replicate, List.map_replicate]
  exact Nat.ofDigits_replicate_zero

end Zeros

namespace Decimal

/-- The number of digits after the point. -/
def decimalPlaces (d : Decimal) : Nat :=
  (-d.exponent).toNat

/-- The digits with zeros before them, so that there is one before the point. -/
def padded (d : Decimal) : List Char :=
  List.replicate (d.decimalPlaces + 1 - (numeral d.digits).length) '0' ++ numeral d.digits

/-- The pieces of the positional text behind a sign. -/
def literal (σ : Sign) (d : Decimal) : Literal :=
  if 0 ≤ d.exponent then
    ⟨σ, numeral d.digits ++ List.replicate d.exponent.toNat '0', none, none⟩
  else
    ⟨σ, d.padded.take (d.padded.length - d.decimalPlaces),
      some (d.padded.drop (d.padded.length - d.decimalPlaces)), none⟩

variable (σ : Sign) (d : Decimal)

theorem text_literal : (d.literal σ).text = σ.text ++ d.positional := by
  by_cases h : 0 ≤ d.exponent
  · simp [literal, positional, Literal.text, Literal.unsignedText, Literal.fractionText,
      Literal.exponentText, h]
  · simp [literal, positional, Literal.text, Literal.unsignedText, Literal.fractionText,
      Literal.exponentText, h, padded, decimalPlaces]

theorem sign_literal : (d.literal σ).sign = σ := by
  by_cases h : 0 ≤ d.exponent <;> simp [literal, h]

theorem exponent_literal : (d.literal σ).exponent = none := by
  by_cases h : 0 ≤ d.exponent <;> simp [literal, h]

theorem isDigit_of_mem_padded {c : Char} (h : c ∈ d.padded) : c.isDigit = true := by
  rcases List.mem_append.mp h with hzero | hdigit
  · obtain rfl := List.eq_of_mem_replicate hzero
    rfl
  · exact isDigit_of_mem_numeral hdigit

theorem decimalPlaces_lt_length_padded : d.decimalPlaces < d.padded.length := by
  rw [padded, List.length_append, List.length_replicate]
  omega

theorem positionalValue_padded : positionalValue d.padded = d.digits := by
  simp [padded, positionalValue_append, positionalValue_zeros]

section Coarse

variable {d} (h : 0 ≤ d.exponent)
include h

theorem digits_literal_of_nonneg :
    (d.literal σ).whole ++ (d.literal σ).places =
      numeral d.digits ++ List.replicate d.exponent.toNat '0' := by
  simp [literal, Literal.places, h]

theorem magnitude_literal_of_nonneg : (d.literal σ).magnitude = ⟨d.numerator, 0⟩ := by
  rw [Literal.magnitude, digits_literal_of_nonneg σ h, positionalValue_append,
    positionalValue_zeros, positionalValue_numeral]
  simp [literal, Literal.places, numerator, h]

end Coarse

section Fine

variable {d} (h : d.exponent < 0)
include h

theorem digits_literal_of_neg : (d.literal σ).whole ++ (d.literal σ).places = d.padded := by
  simp [literal, Literal.places, Int.not_le.mpr h]

theorem length_places_literal : (d.literal σ).places.length = d.decimalPlaces := by
  have hplaces := Nat.sub_sub_self d.decimalPlaces_lt_length_padded.le
  simp [literal, Literal.places, Int.not_le.mpr h, hplaces]

theorem magnitude_literal_of_neg : (d.literal σ).magnitude = d := by
  have hexponent : (0 : Int) - d.decimalPlaces = d.exponent := by
    rw [decimalPlaces]
    omega
  rw [Literal.magnitude, digits_literal_of_neg σ h, positionalValue_padded,
    length_places_literal σ h, exponent_literal]
  exact congrArg (Decimal.mk d.digits) hexponent

end Fine

theorem isDigit_of_mem_literal {c : Char}
    (hc : c ∈ (d.literal σ).whole ++ (d.literal σ).places) : c.isDigit = true := by
  rcases Int.lt_or_le d.exponent 0 with h | h
  · rw [digits_literal_of_neg σ h] at hc
    exact d.isDigit_of_mem_padded hc
  · rw [digits_literal_of_nonneg σ h] at hc
    rcases List.mem_append.mp hc with hdigit | hzero
    · exact isDigit_of_mem_numeral hdigit
    · obtain rfl := List.eq_of_mem_replicate hzero
      rfl

theorem literal_wellFormed : (d.literal σ).WellFormed where
  ne_nil := by
    rcases Int.lt_or_le d.exponent 0 with h | h
    · rw [digits_literal_of_neg σ h]
      exact List.ne_nil_of_length_pos (Nat.zero_lt_of_lt d.decimalPlaces_lt_length_padded)
    · rw [digits_literal_of_nonneg σ h]
      exact List.append_ne_nil_of_left_ne_nil (numeral_ne_nil _) _
  whole_digits _ hc := d.isDigit_of_mem_literal σ (List.mem_append_left _ hc)
  places_digits _ hc := d.isDigit_of_mem_literal σ (List.mem_append_right _ hc)
  exponent_form := by simp [exponent_literal]

/-- Zeros at the end of the digits stand for a power of ten. -/
theorem quotient_literal :
    (d.literal σ).magnitude.numerator = d.numerator ∧
      (d.literal σ).magnitude.denominator = d.denominator := by
  rcases Int.lt_or_le d.exponent 0 with h | h
  · rw [magnitude_literal_of_neg σ h]
    exact ⟨rfl, rfl⟩
  · have hdenominator : (-d.exponent).toNat = 0 := by omega
    rw [magnitude_literal_of_nonneg σ h]
    simp [numerator, denominator, hdenominator]

end Decimal

end RowReduction.Text

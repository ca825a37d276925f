import RowReduction.Proofs.Failure
import RowReduction.Proofs.Fraction.FieldLaws

/-!
# Powers of fractions

A power with a negative exponent is a power of the inverse, so it asks for a
base other than zero. Every other power is the power of the value, and zero to
the zeroth power is one. The laws of exponents are therefore those of the
rational numbers, for exponents of any size and of either sign.
-/

namespace RowReduction.Fraction

variable {a : Fraction} {n : ℤ}

/-- A power of a fraction fails only for a negative exponent of zero, where the inverse fails. -/
theorem power?_eq_error_iff {e : Error} :
    Scalar.power? a n = .error e ↔ (n < 0 ∧ a.value = 0) ∧ e = .zeroFractionInverse := by
  by_cases hn : n < 0
  · rw [Scalar.power?, if_pos hn, and_iff_right hn, ← inv?_eq_error_iff]
    cases Scalar.inv? a <;> simp [Except.map]
  · simp [Scalar.power?, hn]

/-- A power asks for an exponent or a base that allows it, and has the power of the value. -/
theorem power?_asksFor (a : Fraction) (n : ℤ) :
    AsksFor (0 ≤ n ∨ a.value ≠ 0) (·.value = a.value ^ n) .divisionByZero (Scalar.power? a n) := by
  constructor
  · intro h
    have hbase : n < 0 → a.value ≠ 0 := fun hn => h.resolve_left (not_le.mpr hn)
    exact ⟨ofRat (a.value ^ n), power?_eq_ok_iff.mpr ⟨hbase, value_ofRat _⟩, value_ofRat _⟩
  · intro h
    obtain ⟨hn, hzero⟩ := not_or.mp h
    exact ⟨_, power?_eq_error_iff.mpr ⟨⟨not_le.mp hn, not_not.mp hzero⟩, rfl⟩, rfl⟩

/-- A base other than zero has every power. -/
theorem power?_of_value_ne_zero (h : a.value ≠ 0) (n : ℤ) :
    Scalar.power? a n = .ok (ofRat (a.value ^ n)) :=
  power?_eq_ok_iff.mpr ⟨fun _ => h, value_ofRat _⟩

@[simp] theorem power?_zero (a : Fraction) : Scalar.power? a 0 = .ok 1 :=
  rfl

/-- The power to a sum of exponents is the product of the powers. -/
theorem power?_add (h : a.value ≠ 0) (m n : ℤ) :
    Scalar.power? a (m + n) =
      (do return (← Scalar.power? a m) * (← Scalar.power? a n)) := by
  simp only [power?_of_value_ne_zero h]
  apply congrArg Except.ok
  apply value_injective
  rw [value_mul, value_ofRat, value_ofRat, value_ofRat, zpow_add₀ h]

/-- The power to the opposite exponent is the inverse of the power. -/
theorem power?_neg (h : a.value ≠ 0) (n : ℤ) :
    Scalar.power? a (-n) = Scalar.power? a n >>= Scalar.inv? := by
  have hinverse : Scalar.inv? (ofRat (a.value ^ n)) = .ok (ofRat (a.value ^ (-n))) := by
    rw [inv?_eq_ok_iff, value_ofRat, value_ofRat, zpow_neg]
    exact ⟨zpow_ne_zero n h, rfl⟩
  rw [power?_of_value_ne_zero h, power?_of_value_ne_zero h]
  exact hinverse.symm

/-- The power of a product is the product of the powers. If one of the factors is zero, a negative
exponent fails on both sides for the same reason. -/
theorem power?_mul (a b : Fraction) (n : ℤ) :
    Scalar.power? (a * b) n =
      (do return (← Scalar.power? a n) * (← Scalar.power? b n)) := by
  by_cases hzero : n < 0 ∧ (a.value = 0 ∨ b.value = 0)
  · obtain ⟨hn, hfactor⟩ := hzero
    have hproduct : Scalar.power? (a * b) n = .error .zeroFractionInverse :=
      power?_eq_error_iff.mpr ⟨⟨hn, by rw [value_mul, mul_eq_zero]; exact hfactor⟩, rfl⟩
    rw [hproduct]
    by_cases ha : a.value = 0
    · rw [power?_eq_error_iff.mpr ⟨⟨hn, ha⟩, rfl⟩]
      rfl
    · rw [power?_of_value_ne_zero ha,
        power?_eq_error_iff.mpr ⟨⟨hn, hfactor.resolve_left ha⟩, rfl⟩]
      rfl
  · have hbases : n < 0 → a.value ≠ 0 ∧ b.value ≠ 0 := fun hn =>
      not_or.mp fun hfactor => hzero ⟨hn, hfactor⟩
    have ha : Scalar.power? a n = .ok (ofRat (a.value ^ n)) :=
      power?_eq_ok_iff.mpr ⟨fun hn => (hbases hn).1, value_ofRat _⟩
    have hb : Scalar.power? b n = .ok (ofRat (b.value ^ n)) :=
      power?_eq_ok_iff.mpr ⟨fun hn => (hbases hn).2, value_ofRat _⟩
    rw [ha, hb]
    apply power?_eq_ok_iff.mpr
    rw [value_mul, value_mul, value_ofRat, value_ofRat, mul_zpow]
    exact ⟨fun hn => mul_ne_zero (hbases hn).1 (hbases hn).2, rfl⟩

/-- A power fails, as a division by zero, exactly for a negative exponent of zero, and otherwise has
the power of the value, with one for the zeroth power of every fraction. The power of a product is
the product of the powers, failures included. For a base other than zero, the power to a sum of
exponents is the product of the powers, and the power to the opposite exponent is the inverse. -/
theorem power?_exponent_laws (a b : Fraction) (m n : ℤ) :
    AsksFor (0 ≤ n ∨ a.value ≠ 0) (·.value = a.value ^ n) .divisionByZero (Scalar.power? a n) ∧
    Scalar.power? a 0 = .ok 1 ∧
    Scalar.power? (a * b) n =
      (do return (← Scalar.power? a n) * (← Scalar.power? b n)) ∧
    (a.value ≠ 0 →
      Scalar.power? a (m + n) =
        (do return (← Scalar.power? a m) * (← Scalar.power? a n)) ∧
      Scalar.power? a (-n) = Scalar.power? a n >>= Scalar.inv?) := by
  refine ⟨power?_asksFor a n, power?_zero a, power?_mul a b n, ?_⟩
  intro h
  exact ⟨power?_add h m n, power?_neg h n⟩

/-- The exponents of 32 bits are among them: the least one has no opposite in its type, and with the
greatest one it adds up to minus one. -/
theorem power?_exponent_laws_extremes :
    let a := reduce (-2) 3 (Nat.succ_pos 2)
    a.value ≠ 0 ∧
      (∃ p, Scalar.power? a (-2147483648) = .ok p ∧ p.value = a.value ^ (-2147483648 : ℤ)) ∧
      Scalar.power? a (-2147483648 + 2147483647) =
        (do return (← Scalar.power? a (-2147483648)) * (← Scalar.power? a 2147483647)) ∧
      Scalar.power? a (-2147483647) = Scalar.power? a 2147483647 >>= Scalar.inv? := by
  intro a
  have hne : a.value ≠ 0 := by
    rw [Ne, value_eq_zero_iff]
    decide
  obtain ⟨hasks, -⟩ := power?_exponent_laws a a 0 (-2147483648)
  obtain ⟨-, -, -, hlaws⟩ := power?_exponent_laws a a (-2147483648) 2147483647
  exact ⟨hne, hasks.succeeds (.inr hne), hlaws hne⟩

end RowReduction.Fraction

import RowReduction.Proofs.Fraction.Value

/-!
# The field of fractions

The operations of the fractions are those of the rational numbers on their
values, and two fractions are equal exactly if their values are. Every law of
the rational numbers that is an equation between values is therefore a law of
the fractions, under the equality that scalars are compared with.
-/

namespace RowReduction

/-- The laws of a field under the equality of scalars. The partial operations are part of the
laws: a scalar that does not count as zero has an inverse and divides every scalar. -/
structure Scalar.FieldLaws (α : Type) [Scalar α] : Prop where
  beq_iff_eq (a b : α) : a == b ↔ a = b
  add_assoc (a b c : α) : a + b + c == a + (b + c)
  add_comm (a b : α) : a + b == b + a
  add_zero (a : α) : a + 0 == a
  add_neg (a : α) : a + -a == 0
  sub_eq_add_neg (a b : α) : a - b == a + -b
  mul_assoc (a b c : α) : a * b * c == a * (b * c)
  mul_comm (a b : α) : a * b == b * a
  mul_one (a : α) : a * 1 == a
  mul_add (a b c : α) : a * (b + c) == a * b + a * c
  one_ne_zero : ((1 : α) == 0) = false
  isZero_eq (a : α) : isZero a = (a == 0)
  mul_inverse (a : α) : isZero a = false ↔ ∃ b, inv? a = .ok b ∧ a * b == 1
  quotient_mul (a b : α) : isZero b = false ↔ ∃ q, div? a b = .ok q ∧ q * b == a

namespace Fraction

theorem isZero_eq_false_iff_value {a : Fraction} : Scalar.isZero a = false ↔ a.value ≠ 0 := by
  rw [← Bool.not_eq_true, isZero_eq_true_iff_value]

/-- An inversion fails only at zero, and reports it as a division by zero. -/
theorem inv?_eq_error_iff {a : Fraction} {e : Error} :
    Scalar.inv? a = .error e ↔ a.value = 0 ∧ e = .zeroFractionInverse := by
  by_cases hzero : a.value = 0
  · have herror : Scalar.inv? a = .error .zeroFractionInverse :=
      dif_pos (value_eq_zero_iff.mp hzero)
    rw [herror, Except.error.injEq, and_iff_right hzero, eq_comm]
  · obtain ⟨b, hb, -⟩ := inv?_of_value_ne_zero hzero
    simp [hb, hzero]

/-- A division fails only by zero, and names both operands. -/
theorem div?_eq_error_iff {a b : Fraction} {e : Error} :
    Scalar.div? a b = .error e ↔
      b.value = 0 ∧ e = .zeroDivisor (toString a) (toString b) := by
  by_cases hzero : b.value = 0
  · have herror : Scalar.div? a b = .error (.zeroDivisor (toString a) (toString b)) :=
      dif_pos (value_eq_zero_iff.mp hzero)
    rw [herror, Except.error.injEq, and_iff_right hzero, eq_comm]
  · obtain ⟨c, hc, -⟩ := div?_of_value_ne_zero a hzero
    simp [hc, hzero]

/-- The inverse of a fraction is the one that gives one as product. -/
theorem exists_inverse_iff {a : Fraction} :
    Scalar.isZero a = false ↔ ∃ b, Scalar.inv? a = .ok b ∧ a * b == 1 := by
  rw [isZero_eq_false_iff_value]
  constructor
  · intro h
    obtain ⟨b, hb, hvalue⟩ := inv?_of_value_ne_zero h
    refine ⟨b, hb, beq_iff_value.mpr ?_⟩
    rw [value_mul, hvalue, mul_inv_cancel₀ h, value_one]
  · rintro ⟨b, hb, -⟩
    exact (inv?_eq_ok_iff.mp hb).1

/-- The quotient of two fractions is the one that gives the dividend back. -/
theorem exists_quotient_iff {a b : Fraction} :
    Scalar.isZero b = false ↔ ∃ q, Scalar.div? a b = .ok q ∧ q * b == a := by
  rw [isZero_eq_false_iff_value]
  constructor
  · intro h
    obtain ⟨q, hq, hvalue⟩ := div?_of_value_ne_zero a h
    refine ⟨q, hq, beq_iff_value.mpr ?_⟩
    rw [value_mul, hvalue, div_mul_cancel₀ _ h]
  · rintro ⟨q, hq, -⟩
    exact (div?_eq_ok_iff.mp hq).1

/-- The fractions are a field under the equality of scalars. -/
theorem fieldLaws : Scalar.FieldLaws Fraction where
  beq_iff_eq a b := beq_iff_eq
  add_assoc a b c := beq_iff_value.mpr (by simp only [value_add, add_assoc])
  add_comm a b := beq_iff_value.mpr (by simp only [value_add, add_comm])
  add_zero a := beq_iff_value.mpr (by simp only [value_add, value_zero, add_zero])
  add_neg a := beq_iff_value.mpr (by simp only [value_add, value_neg, add_neg_cancel, value_zero])
  sub_eq_add_neg a b :=
    beq_iff_value.mpr (by simp only [value_sub, value_add, value_neg, sub_eq_add_neg])
  mul_assoc a b c := beq_iff_value.mpr (by simp only [value_mul, mul_assoc])
  mul_comm a b := beq_iff_value.mpr (by simp only [value_mul, mul_comm])
  mul_one a := beq_iff_value.mpr (by simp only [value_mul, value_one, mul_one])
  mul_add a b c := beq_iff_value.mpr (by simp only [value_mul, value_add, mul_add])
  one_ne_zero := by
    rw [← Bool.not_eq_true, beq_iff_value, value_one, value_zero]
    exact one_ne_zero
  isZero_eq a := by
    rw [Bool.eq_iff_iff, isZero_eq_true_iff_value, beq_iff_value, value_zero]
  mul_inverse a := exists_inverse_iff
  quotient_mul a b := exists_quotient_iff

/-- An operation that gives the fraction of a rational number under a condition has a result with
that number as its value exactly under the condition. -/
theorem exists_ok_iff {result : Except Error Fraction} {p : Prop} {q : ℚ}
    (h : ∀ a, result = .ok a ↔ p ∧ a.value = q) :
    (∃ a, result = .ok a ∧ a.value = q) ↔ p := by
  constructor
  · rintro ⟨a, ha, -⟩
    exact ((h a).mp ha).1
  · intro hp
    exact ⟨ofRat q, (h _).mpr ⟨hp, value_ofRat q⟩, value_ofRat q⟩

/-- An operation that fails with one cause under a condition fails with the kind of that cause
exactly under the condition. -/
theorem exists_error_iff {result : Except Error Fraction} {p : Prop} {cause : Error}
    (h : ∀ e, result = .error e ↔ p ∧ e = cause) :
    (∃ e, result = .error e ∧ e.kind = cause.kind) ↔ p := by
  constructor
  · rintro ⟨e, he, -⟩
    exact ((h e).mp he).1
  · intro hp
    exact ⟨cause, (h cause).mpr ⟨hp, rfl⟩, rfl⟩

/-- The operations of two fractions, of any size, are those of the rational numbers that are
their values. Division and inversion fail exactly at zero, and then as a division by zero. Under
their own equality the fractions are a field. -/
theorem operations_exact (a b : Fraction) :
    ((a + b).value = a.value + b.value ∧ (a - b).value = a.value - b.value ∧
      (a * b).value = a.value * b.value ∧ (-a).value = -a.value) ∧
    ((∃ e, Scalar.div? a b = .error e ∧ e.kind = .divisionByZero) ↔ Scalar.isZero b = true) ∧
    ((∃ q, Scalar.div? a b = .ok q ∧ q.value = a.value / b.value) ↔ Scalar.isZero b = false) ∧
    ((∃ e, Scalar.inv? a = .error e ∧ e.kind = .divisionByZero) ↔ Scalar.isZero a = true) ∧
    ((∃ q, Scalar.inv? a = .ok q ∧ q.value = 1 / a.value) ↔ Scalar.isZero a = false) ∧
    Scalar.FieldLaws Fraction := by
  rw [one_div]
  simp only [isZero_eq_true_iff_value, isZero_eq_false_iff_value]
  refine ⟨⟨value_add a b, value_sub a b, value_mul a b, value_neg a⟩, ?_, ?_, ?_, ?_, fieldLaws⟩
  · exact exists_error_iff fun e => div?_eq_error_iff
  · exact exists_ok_iff fun q => div?_eq_ok_iff
  · exact exists_error_iff fun e => inv?_eq_error_iff
  · exact exists_ok_iff fun q => inv?_eq_ok_iff

end Fraction

end RowReduction

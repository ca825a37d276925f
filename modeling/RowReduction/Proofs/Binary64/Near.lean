import RowReduction.Proofs.Binary64.Values

/-!
# Small numbers near a value

A finite number is near a rational number up to an error. A sum, a difference or
a product whose exact result is at most two adds `2 ^ -51` to the error of that
result. In a product with a quotient the error of the quotient is multiplied. Below
the normal numbers that error is not relative, but a factor is below `2 ^ 1024`,
which leaves `2 ^ -51` of it.
-/

namespace RowReduction.Binary64

variable {x y z : Binary64} {a b d q r e f : ℚ}

/-- The number is finite, and its value differs from the rational number by at most the error. -/
def Near (x : Binary64) (q e : ℚ) : Prop :=
  ∃ v, x.value? = some v ∧ |v - q| ≤ e

theorem Near.weaken (h : Near x q e) (hle : e + |q - r| ≤ f) : Near x r f := by
  obtain ⟨v, hv, herror⟩ := h
  exact ⟨v, hv, (abs_sub_le v q r).trans (by linarith)⟩

/-- Half a unit is far below the errors. -/
theorem half_unit_le : (1 : ℚ) / 2 ^ 1075 ≤ 1 / 2 ^ 100 :=
  one_div_le_one_div_of_le (by positivity) (pow_le_pow_right₀ one_le_two (by decide))

/-- Half a unit is below the errors also with the greatest numbers as factors. -/
theorem abs_mul_half_unit_le (h : |a| < overflow) : |a| * (1 / 2 ^ 1075) ≤ 1 / 2 ^ 51 := by
  have hsplit : (2 : ℚ) ^ 1075 = 2 ^ 1024 * 2 ^ 51 := by rw [← pow_add]
  have hlimit : |a| ≤ 2 ^ 1024 := h.le.trans (sub_le_self _ (by positivity))
  rw [mul_one_div, hsplit, ← div_div]
  exact div_le_div_of_nonneg_right ((div_le_one (by positivity)).mpr hlimit) (by positivity)

theorem abs_lt_overflow_of_le_two (h : |q| ≤ 2) : |q| < overflow :=
  lt_overflow_of_le (h.trans_eq (pow_one 2).symm) (by decide)

theorem abs_nearest_sub_le_of_le_two (h : |q| ≤ 2) : |nearest q - q| ≤ 1 / 2 ^ 51 := by
  have herror := abs_nearest_sub_le q
  have hunit := half_unit_le
  generalize (1 : ℚ) / 2 ^ 1075 = unit at herror hunit
  norm_num at hunit ⊢
  linarith

/-- One operation on numbers up to two. -/
theorem near_of_roundedValue? (h : x.value? = roundedValue? r) (hr : |r| ≤ 2)
    (herror : |r - q| ≤ e) : Near x q (e + 1 / 2 ^ 51) := by
  rw [roundedValue?_of_lt (abs_lt_overflow_of_le_two hr)] at h
  refine ⟨_, h, (abs_sub_le _ r q).trans ?_⟩
  linarith [abs_nearest_sub_le_of_le_two hr]

theorem Near.neg (h : Near x q e) : Near (-x) (-q) e := by
  obtain ⟨v, hv, herror⟩ := h
  refine ⟨-v, value?_neg hv, ?_⟩
  rwa [neg_sub_neg, abs_sub_comm]

theorem Near.add (hx : Near x q e) (hy : Near y r f) (h : |q + r| + (e + f) ≤ 2) :
    Near (x + y) (q + r) (e + f + 1 / 2 ^ 51) := by
  obtain ⟨v, hv, hve⟩ := hx
  obtain ⟨w, hw, hwe⟩ := hy
  have herror : |v + w - (q + r)| ≤ e + f := by
    rw [add_sub_add_comm]
    exact (abs_add_le _ _).trans (add_le_add hve hwe)
  have hsum : |v + w| ≤ 2 := by
    have htriangle := abs_sub_abs_le_abs_sub (v + w) (q + r)
    linarith
  exact near_of_roundedValue? (value?_add hv hw) hsum herror

theorem Near.sub (hx : Near x q e) (hy : Near y r f) (h : |q - r| + (e + f) ≤ 2) :
    Near (x - y) (q - r) (e + f + 1 / 2 ^ 51) := by
  rw [sub_eq_add_neg] at h
  rw [sub_eq_add_neg (q : ℚ)]
  exact hx.add hy.neg h

/-- The error of a rounded factor, in a product of at most three halves. -/
theorem abs_mul_nearest_sub_le (ha : |a| < overflow) (h : |a * q| ≤ 3 / 2) :
    |a * nearest q - a * q| ≤ 3 / 2 ^ 52 := by
  have hunit := abs_mul_half_unit_le ha
  have hrounding := mul_le_mul_of_nonneg_left (abs_nearest_sub_le q) (abs_nonneg a)
  rw [← abs_mul, mul_sub, mul_add, ← mul_div_assoc, ← abs_mul] at hrounding
  generalize |a| * (1 / 2 ^ 1075) = unit at hunit hrounding
  norm_num at hunit ⊢
  linarith

/-- A number times a quotient, when the exact result is at most three halves. -/
theorem near_mul_div (hx : x.value? = some a) (hy : y.value? = some b) (hz : z.value? = some d)
    (hd : d ≠ 0) (hbd : |b / d| < overflow) (h : |a * (b / d)| ≤ 3 / 2) :
    Near (x * (y / z)) (a * (b / d)) (1 / 2 ^ 49) := by
  have hquotient := value?_div hy hz hd
  rw [roundedValue?_of_lt hbd] at hquotient
  have herror := abs_mul_nearest_sub_le (abs_value?_lt hx) h
  have hproduct : |a * nearest (b / d)| ≤ 2 := by
    have htriangle := abs_sub_abs_le_abs_sub (a * nearest (b / d)) (a * (b / d))
    norm_num at herror
    linarith
  refine (near_of_roundedValue? (value?_mul hx hquotient) hproduct herror).weaken ?_
  rw [sub_self, abs_zero]
  norm_num

end RowReduction.Binary64

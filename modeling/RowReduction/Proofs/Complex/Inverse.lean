import RowReduction.Complex.Scalar
import RowReduction.Proofs.Binary64.Integers
import RowReduction.Proofs.Binary64.Near
import RowReduction.Proofs.Failure

/-!
# The inverse of a complex number

The inverse divides the conjugate by the squared modulus, which is rounded three
times. A number that does not count as zero has a squared modulus far above the
end of the normal numbers, so the product of the number and its inverse is one up
to `2 ^ -45`, which is within the tolerance. This holds up to the overflow of the
squared modulus. Beyond it both parts of the inverse are zero, and so are those
of the product.
-/

namespace RowReduction.Complex

open Binary64 (nearest overflow Near)

variable {z w : Complex} {x : Binary64} {a b d v : ℚ}

section Tolerance

theorem tolerance_eq : tolerance = .scaled false 7737125245533627 86 := by
  decide +kernel

theorem exists_value?_tolerance :
    ∃ t, tolerance.value? = some t ∧ 1 / 2 ^ 34 < t ∧ t < 1 / 2 := by
  refine ⟨_, tolerance_eq ▸ Binary64.value?_scaled _ (by decide) (by decide), ?_⟩
  norm_num

theorem isNegligible_iff {t : ℚ} (hx : x.value? = some v) (ht : tolerance.value? = some t) :
    isNegligible x = true ↔ |v| < t :=
  Binary64.lt_iff_value (Binary64.value?_abs hx) ht

theorem isNegligible_of_near {e : ℚ} (h : Near x 0 e) (he : e ≤ 1 / 2 ^ 34) :
    isNegligible x = true := by
  obtain ⟨v, hv, herror⟩ := h
  obtain ⟨t, ht, hlower, -⟩ := exists_value?_tolerance
  rw [sub_zero] at herror
  exact (isNegligible_iff hv ht).mpr (herror.trans_lt (he.trans_lt hlower))

theorem not_isNegligible_of_near {q e : ℚ} (h : Near x q e) (he : 1 / 2 + e ≤ |q|) :
    ¬ isNegligible x = true := by
  obtain ⟨v, hv, herror⟩ := h
  obtain ⟨t, ht, -, hupper⟩ := exists_value?_tolerance
  rw [isNegligible_iff hv ht]
  have htriangle := abs_sub_abs_le_abs_sub q v
  rw [abs_sub_comm q] at htriangle
  linarith

end Tolerance

section Modulus

theorem nearest_squares_nonneg (a b : ℚ) : 0 ≤ nearest (a * a) + nearest (b * b) :=
  add_nonneg (Binary64.nearest_nonneg (mul_self_nonneg a))
    (Binary64.nearest_nonneg (mul_self_nonneg b))

/-- The squares and their sum are rounded, unless one of them overflows. -/
theorem modulusSquared_cases (ha : z.re.value? = some a) (hb : z.im.value? = some b) :
    z.modulusSquared.value? = some (nearest (nearest (a * a) + nearest (b * b))) ∨
      z.modulusSquared = .infinity false := by
  rw [modulusSquared]
  rcases Binary64.mul_self_cases ha with hre | hre
  · rcases Binary64.mul_self_cases hb with him | him
    · exact Binary64.add_cases hre him (nearest_squares_nonneg a b)
    · right
      rw [him]
      exact Binary64.add_infinity (.inl hre)
  · right
    rw [hre]
    exact Binary64.infinity_add (Binary64.mul_self_cases hb)

theorem overflow_le_mul_self (h : 2 ^ 512 ≤ |v|) : overflow ≤ v * v := by
  calc
    overflow ≤ 2 ^ 1024 := sub_le_self _ (by positivity)
    _ = 2 ^ 512 * 2 ^ 512 := by rw [← pow_add]
    _ ≤ |v| * |v| := mul_le_mul h h (by positivity) (abs_nonneg v)
    _ = v * v := abs_mul_abs_self v

/-- The squared modulus of a number with a large part overflows. -/
theorem modulusSquared_of_large (ha : z.re.value? = some a) (hb : z.im.value? = some b)
    (h : 2 ^ 512 ≤ |a| ∨ 2 ^ 512 ≤ |b|) : z.modulusSquared = .infinity false := by
  rw [modulusSquared]
  rcases h with h | h
  · rw [Binary64.mul_self_eq_infinity ha (overflow_le_mul_self h)]
    exact Binary64.infinity_add (Binary64.mul_self_cases hb)
  · rw [Binary64.mul_self_eq_infinity hb (overflow_le_mul_self h)]
    exact Binary64.add_infinity (Binary64.mul_self_cases ha)

theorem mul_self_le_of_small (h : |v| ≤ 2 ^ 511) : v * v ≤ 2 ^ 1022 := by
  calc
    v * v = |v| * |v| := (abs_mul_abs_self v).symm
    _ ≤ 2 ^ 511 * 2 ^ 511 := mul_le_mul h h (abs_nonneg v) (by positivity)
    _ = 2 ^ 1022 := by rw [← pow_add]

theorem value?_mul_self_of_small (hx : x.value? = some v) (h : |v| ≤ 2 ^ 511) :
    (x * x).value? = some (nearest (v * v)) := by
  have hlt := Binary64.lt_overflow_of_le (mul_self_le_of_small h) (by decide)
  rw [Binary64.value?_mul hx hx, Binary64.roundedValue?_of_nonneg (mul_self_nonneg v) hlt]

/-- The squared modulus of a number with small parts is finite. -/
theorem isFinite_modulusSquared_of_small (ha : z.re.value? = some a) (hb : z.im.value? = some b)
    (ha' : |a| ≤ 2 ^ 511) (hb' : |b| ≤ 2 ^ 511) : z.modulusSquared.isFinite = true := by
  have hdouble : (2 : ℚ) ^ 1023 = 2 ^ 1022 + 2 ^ 1022 := by rw [← two_mul, ← pow_succ']
  have hre := Binary64.nearest_mono (mul_self_le_of_small ha')
  have him := Binary64.nearest_mono (mul_self_le_of_small hb')
  rw [Binary64.nearest_two_pow (by decide)] at hre him
  have hlt := Binary64.lt_overflow_of_le ((add_le_add hre him).trans_eq hdouble.symm) (by decide)
  have hvalue := Binary64.value?_add (value?_mul_self_of_small ha ha')
    (value?_mul_self_of_small hb hb')
  rw [Binary64.roundedValue?_of_nonneg (nearest_squares_nonneg a b) hlt] at hvalue
  exact Binary64.isFinite_of_value? hvalue

/-- The error of a rounded sum of rounded numbers that are not negative, far from the subnormal
numbers. -/
theorem abs_nearest_add_sub_le {p q : ℚ} (hp : 0 ≤ p) (hq : 0 ≤ q)
    (hd : d = nearest (nearest p + nearest q)) (h : 1 / 2 ^ 34 ≤ d) :
    |d - (p + q)| ≤ d / 2 ^ 49 := by
  have herrorp := Binary64.abs_nearest_sub_le p
  have herrorq := Binary64.abs_nearest_sub_le q
  have herror := Binary64.abs_nearest_sub_le (nearest p + nearest q)
  have hsum := add_nonneg (Binary64.nearest_nonneg hp) (Binary64.nearest_nonneg hq)
  have hunit := Binary64.half_unit_le
  rw [abs_of_nonneg hp] at herrorp
  rw [abs_of_nonneg hq] at herrorq
  rw [abs_of_nonneg hsum, ← hd] at herror
  generalize (1 : ℚ) / 2 ^ 1075 = unit at hunit herror herrorp herrorq
  rw [abs_le] at herror herrorp herrorq ⊢
  norm_num at *
  constructor <;> linarith

end Modulus

section Product

/-- A finite number with a finite squared modulus that is far from the subnormal numbers, so that
its error is relative. -/
structure Moderate (z : Complex) (a b d : ℚ) : Prop where
  re : z.re.value? = some a
  im : z.im.value? = some b
  modulusSquared : z.modulusSquared.value? = some d
  le : 1 / 2 ^ 34 ≤ d
  error : |d - (a * a + b * b)| ≤ d / 2 ^ 49

theorem moderate_of_isZero_eq_false (ha : z.re.value? = some a) (hb : z.im.value? = some b)
    (hd : z.modulusSquared.value? = some (nearest (nearest (a * a) + nearest (b * b))))
    (h : z.isZero = false) : Moderate z a b (nearest (nearest (a * a) + nearest (b * b))) := by
  obtain ⟨t, ht, hlower, -⟩ := exists_value?_tolerance
  rw [isZero, ← Bool.not_eq_true, Binary64.lt_iff_value hd ht, not_lt] at h
  have hle := hlower.le.trans h
  exact ⟨ha, hb, hd, hle, abs_nearest_add_sub_le (mul_self_nonneg a) (mul_self_nonneg b) rfl hle⟩

theorem Moderate.pos (h : Moderate z a b d) : 0 < d :=
  (by positivity : (0 : ℚ) < 1 / 2 ^ 34).trans_le h.le

theorem Moderate.squares_le (h : Moderate z a b d) : a * a + b * b ≤ 3 / 2 * d := by
  have hlower := (abs_le.mp h.error).1
  have hpos := h.pos
  norm_num at hlower
  linarith

theorem Moderate.share (h : Moderate z a b d) : |a * a / d + b * b / d - 1| ≤ 1 / 2 ^ 49 := by
  have hpos := h.pos
  rw [← add_div, div_sub_one hpos.ne', abs_div, abs_of_pos hpos, div_le_iff₀ hpos, abs_sub_comm,
    one_div_mul_eq_div]
  exact h.error

/-- A part times a part over the squared modulus. -/
theorem Moderate.near_mul_div {y : Binary64} {p q : ℚ} (h : Moderate z a b d)
    (hx : x.value? = some p) (hy : y.value? = some q) (hp : p * p ≤ 3 / 2 * d)
    (hq : q * q ≤ 3 / 2 * d) : Near (x * (y / z.modulusSquared)) (p * q / d) (1 / 2 ^ 49) := by
  have hpos := h.pos
  have hquotient : |q / d| ≤ 2 ^ 36 := by
    have hle := h.le
    have hsquare : |q| ≤ 1 + q * q := by
      rw [← abs_mul_abs_self]
      nlinarith [sq_nonneg (|q| - 1)]
    rw [abs_div, abs_of_pos hpos, div_le_iff₀ hpos]
    norm_num at hle ⊢
    linarith
  have hproduct : |p * q| ≤ 3 / 2 * d := by
    have hmean := two_mul_le_add_sq |p| |q|
    rw [sq_abs, sq_abs, mul_assoc, ← abs_mul] at hmean
    linarith
  rw [mul_div_assoc]
  apply Binary64.near_mul_div hx hy h.modulusSquared hpos.ne'
  · exact Binary64.lt_overflow_of_le hquotient (by decide)
  · rwa [← mul_div_assoc, abs_div, abs_of_pos hpos, div_le_iff₀ hpos]

theorem Moderate.re_mul_self_le (h : Moderate z a b d) : a * a ≤ 3 / 2 * d := by
  linarith [h.squares_le, mul_self_nonneg b]

theorem Moderate.im_mul_self_le (h : Moderate z a b d) : b * b ≤ 3 / 2 * d := by
  linarith [h.squares_le, mul_self_nonneg a]

/-- The real part of the product with the conjugate over the squared modulus. -/
theorem Moderate.near_re (h : Moderate z a b d) :
    Near (z.re * (z.re / z.modulusSquared) - z.im * (-z.im / z.modulusSquared)) 1
      (1 / 2 ^ 46) := by
  have hb := h.im_mul_self_le
  have hre := h.near_mul_div h.re h.re h.re_mul_self_le h.re_mul_self_le
  have him := h.near_mul_div h.im (Binary64.value?_neg h.im) hb (by rwa [neg_mul_neg])
  rw [mul_neg, neg_div] at him
  have hshare := h.share
  have hle : |a * a / d - -(b * b / d)| + (1 / 2 ^ 49 + 1 / 2 ^ 49) ≤ 2 := by
    have htriangle := abs_sub_abs_le_abs_sub (a * a / d + b * b / d) 1
    rw [abs_one] at htriangle
    rw [sub_neg_eq_add]
    norm_num at hshare ⊢
    linarith
  apply (hre.sub him hle).weaken
  rw [sub_neg_eq_add]
  norm_num at hshare ⊢
  linarith

/-- The imaginary part of the product with the conjugate over the squared modulus. -/
theorem Moderate.near_im (h : Moderate z a b d) :
    Near (z.re * (-z.im / z.modulusSquared) + z.im * (z.re / z.modulusSquared)) 0
      (1 / 2 ^ 46) := by
  have ha := h.re_mul_self_le
  have hb := h.im_mul_self_le
  have hre := h.near_mul_div h.re (Binary64.value?_neg h.im) ha (by rwa [neg_mul_neg])
  have him := h.near_mul_div h.im h.re hb ha
  rw [mul_neg, neg_div] at hre
  rw [mul_comm b] at him
  exact (hre.add him (by norm_num)).weaken (by norm_num)

/-- The conjugate, divided by the squared modulus. -/
def quotientOfConj (z : Complex) : Complex :=
  ⟨z.re / z.modulusSquared, -z.im / z.modulusSquared⟩

theorem isOne_mul_iff (z w : Complex) :
    Scalar.isOne (z * w) = true ↔
      isNegligible (z.re * w.re - z.im * w.im - 1) = true ∧
        isNegligible (z.re * w.im + z.im * w.re - 0) = true :=
  Bool.and_eq_true_iff

theorem near_zero : Near 0 0 0 :=
  ⟨0, by decide +kernel, by rw [sub_zero, abs_zero]⟩

theorem near_one : Near 1 1 0 := by
  refine ⟨1, ?_, by rw [sub_self, abs_zero]⟩
  have hone := Binary64.value?_ofNat (by decide : 1 < 2 ^ (Binary64.fractionBits + 1))
  rwa [Nat.cast_one] at hone

theorem Moderate.isOne_mul (h : Moderate z a b d) :
    Scalar.isOne (z * z.quotientOfConj) = true := by
  have hre := (h.near_re.sub near_one (by norm_num)).weaken (r := 0) (f := 1 / 2 ^ 34)
  have him := (h.near_im.sub near_zero (by norm_num)).weaken (r := 0) (f := 1 / 2 ^ 34)
  rw [isOne_mul_iff]
  constructor
  · exact isNegligible_of_near (hre (by norm_num)) le_rfl
  · exact isNegligible_of_near (him (by norm_num)) le_rfl

end Product

section Overflow

/-- The inverse is zero if the squared modulus overflows. -/
theorem value?_quotientOfConj_of_infinity {s : Bool} (ha : z.re.value? = some a)
    (hb : z.im.value? = some b) (h : z.modulusSquared = .infinity s) :
    z.quotientOfConj.re.value? = some 0 ∧ z.quotientOfConj.im.value? = some 0 := by
  rw [quotientOfConj, h]
  exact ⟨Binary64.value?_div_infinity ha s, Binary64.value?_div_infinity (Binary64.value?_neg hb) s⟩

theorem near_mul_zero {y : Binary64} (hx : x.value? = some v) (hy : y.value? = some 0) :
    Near (x * y) 0 (1 / 2 ^ 51) := by
  have hzero : |v * 0| = 0 := by rw [mul_zero, abs_zero]
  have hnear := Binary64.near_of_roundedValue? (Binary64.value?_mul hx hy)
    (hzero.trans_le zero_le_two) (sub_zero (v * 0) ▸ hzero.le)
  rwa [zero_add] at hnear

/-- Multiplied by a number whose parts are zero, no number gives one. -/
theorem not_isOne_mul_of_zero (ha : z.re.value? = some a) (hb : z.im.value? = some b)
    (hre : w.re.value? = some 0) (him : w.im.value? = some 0) :
    ¬ Scalar.isOne (z * w) = true := by
  rw [isOne_mul_iff]
  rintro ⟨hone, -⟩
  have hdifference := (near_mul_zero ha hre).sub (near_mul_zero hb him) (by norm_num)
  exact not_isNegligible_of_near (hdifference.sub near_one (by norm_num)) (by norm_num) hone

end Overflow

section Inverse

theorem inv?_of_isZero_eq_false (h : z.isZero = false) : z.inv? = .ok z.quotientOfConj := by
  rw [inv?, h, if_neg Bool.false_ne_true, quotientOfConj]

/-- A number that does not count as zero has an inverse and can be a divisor, and otherwise both
fail as a division by zero. With the inverse the number gives one exactly if its squared modulus is
finite, and if it is not, both parts of the inverse are zero. Parts up to `2 ^ 511` have a finite
squared modulus, and with a part from `2 ^ 512` on it overflows. -/
theorem isOne_mul_inv_iff (ha : z.re.value? = some a) (hb : z.im.value? = some b) :
    AsksFor (z.isZero = false)
      (fun w => (Scalar.isOne (z * w) = true ↔ z.modulusSquared.isFinite = true) ∧
        (z.modulusSquared.isFinite = false → w.re.value? = some 0 ∧ w.im.value? = some 0))
      .divisionByZero z.inv? ∧
    (∀ w : Complex, AsksFor (z.isZero = false) (fun _ => True) .divisionByZero (w.div? z)) ∧
    (|a| ≤ 2 ^ 511 → |b| ≤ 2 ^ 511 → z.modulusSquared.isFinite = true) ∧
    (2 ^ 512 ≤ |a| ∨ 2 ^ 512 ≤ |b| → z.modulusSquared = .infinity false) := by
  refine ⟨⟨?_, ?_⟩, fun w => ⟨?_, ?_⟩, isFinite_modulusSquared_of_small ha hb,
    modulusSquared_of_large ha hb⟩
  · intro h
    refine ⟨_, inv?_of_isZero_eq_false h, ?_⟩
    rcases modulusSquared_cases ha hb with hd | hinfinity
    · have hmoderate := moderate_of_isZero_eq_false ha hb hd h
      have hfinite := Binary64.isFinite_of_value? hd
      refine ⟨iff_of_true hmoderate.isOne_mul hfinite, fun hinfinite => ?_⟩
      rw [hfinite] at hinfinite
      cases hinfinite
    · obtain ⟨hre, him⟩ := value?_quotientOfConj_of_infinity ha hb hinfinity
      refine ⟨iff_of_false (not_isOne_mul_of_zero ha hb hre him) ?_, fun _ => ⟨hre, him⟩⟩
      rw [hinfinity]
      exact Bool.false_ne_true
  · intro h
    rw [inv?, if_pos (Bool.of_not_eq_false h)]
    exact ⟨_, rfl, rfl⟩
  · intro h
    rw [div?, h, if_neg Bool.false_ne_true]
    exact ⟨_, rfl, trivial⟩
  · intro h
    rw [div?, if_pos (Bool.of_not_eq_false h)]
    exact ⟨_, rfl, rfl⟩

section Numbers

-- Powers are those of the core library wherever the module is compiled.
attribute [local instance (high)] instPowNat

/-- The number `3 * 2 ^ 500 - 2 ^ 511 i`. -/
def farFromOne : Complex :=
  ⟨.scaledUp false 3 500, .scaledUp true 1 511⟩

theorem isOne_mul_inv_iff_farFromOne :
    farFromOne.re.value? = some (3 * 2 ^ 500) ∧ farFromOne.im.value? = some (-2 ^ 511) ∧
      ∃ w, farFromOne.inv? = .ok w ∧ Scalar.isOne (farFromOne * w) = true := by
  have hre : farFromOne.re.value? = some (3 * 2 ^ 500) := by
    have hvalue := Binary64.value?_scaledUp false
      (by decide : 3 < 2 ^ (Binary64.fractionBits + 1)) (by decide : 500 < 972)
    rwa [Binary64.signFactor_false, one_mul, Nat.cast_ofNat] at hvalue
  have him : farFromOne.im.value? = some (-2 ^ 511) := by
    have hvalue := Binary64.value?_scaledUp true
      (by decide : 1 < 2 ^ (Binary64.fractionBits + 1)) (by decide : 511 < 972)
    rwa [Binary64.signFactor_true, Nat.cast_one, one_mul, neg_one_mul] at hvalue
  obtain ⟨hinverse, -, hfinite, -⟩ := isOne_mul_inv_iff hre him
  obtain ⟨w, hw, hone, -⟩ := hinverse.succeeds (by decide +kernel)
  refine ⟨hre, him, w, hw, hone.mpr (hfinite ?_ ?_)⟩
  · have hle : (3 : ℚ) * 2 ^ 500 ≤ 2 ^ 11 * 2 ^ 500 :=
      mul_le_mul_of_nonneg_right (by norm_num) (by positivity)
    rw [← pow_add] at hle
    rwa [abs_of_pos (by positivity)]
  · rw [abs_neg, abs_of_pos (by positivity)]

/-- A number that does not count as zero has an inverse, and with it the number gives one. -/
def InvertsToOne (z : Complex) : Prop :=
  z.isZero = false → ∃ w, z.inv? = .ok w ∧ Scalar.isOne (z * w) = true

/-- The number `2 ^ 600`, whose square is beyond the format. -/
def beyondRoot : Complex :=
  ofReal (.scaledUp false 1 600)

/-- The inverse of `2 ^ 600` is zero. -/
theorem not_invertsToOne :
    (beyondRoot.re.value? = some (2 ^ 600) ∧ beyondRoot.im.value? = some 0) ∧
      ¬ InvertsToOne beyondRoot := by
  have hre : beyondRoot.re.value? = some (2 ^ 600) := by
    have hvalue := Binary64.value?_scaledUp false
      (by decide : 1 < 2 ^ (Binary64.fractionBits + 1)) (by decide : 600 < 972)
    rwa [Binary64.signFactor_false, Nat.cast_one, one_mul, one_mul] at hvalue
  have him : beyondRoot.im.value? = some 0 := by decide +kernel
  refine ⟨⟨hre, him⟩, ?_⟩
  intro h
  obtain ⟨w, hw, hone⟩ := h (by decide +kernel)
  rw [inv?_of_isZero_eq_false (by decide +kernel), Except.ok.injEq] at hw
  have hlarge : (2 : ℚ) ^ 512 ≤ |2 ^ 600| :=
    (pow_le_pow_right₀ one_le_two (by decide)).trans (le_abs_self _)
  have hinfinity := modulusSquared_of_large hre him (.inl hlarge)
  obtain ⟨hzero, hzero'⟩ := value?_quotientOfConj_of_infinity hre him hinfinity
  exact not_isOne_mul_of_zero hre him hzero hzero' (hw ▸ hone)

end Numbers

end Inverse

end RowReduction.Complex

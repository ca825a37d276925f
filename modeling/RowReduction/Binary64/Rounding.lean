import RowReduction.Binary64.Basic

/-!
# Rounding to the nearest number of the format

A quotient of natural numbers, in units, is rounded to the nearest multiple of
the spacing at its magnitude; of two equally near multiples the even one is
taken. Rounding up to the next power of two needs no case of its own, because a
power of two is a multiple of the spacing on either side of it.
-/

namespace RowReduction.Binary64

-- Powers are those of the core library wherever the module is compiled.
attribute [local instance (high)] instPowNat

/-- The integer nearest to a quotient, the even one of two equally near. -/
def nearestEven (num den : Nat) : Nat :=
  let q := num / den
  let r := num % den
  if 2 * r < den then q else if den < 2 * r then q + 1 else q + q % 2

/-- The magnitude of the format nearest to a quotient of units, were the format unbounded
above. -/
def roundQuotient (num den : Nat) : Nat :=
  let s := spacing (num / den)
  s * nearestEven num (den * s)

theorem le_nearestEven (num den : Nat) : num / den ≤ nearestEven num den := by
  simp only [nearestEven]
  split
  · exact Nat.le_refl _
  · split <;> omega

theorem nearestEven_le (num den : Nat) : nearestEven num den ≤ num / den + 1 := by
  simp only [nearestEven]
  split
  · omega
  · split <;> omega

theorem nearestEven_mul (n : Nat) {den : Nat} (h : 0 < den) :
    nearestEven (n * den) den = n := by
  simp [nearestEven, Nat.mul_div_cancel n h, h]

/-- Rounding never passes the next power of two. -/
theorem roundQuotient_le (num den : Nat) :
    roundQuotient num den ≤ 2 ^ ((num / den).log2 + 1) ∨ roundQuotient num den ≤ 1 := by
  by_cases hq : num / den = 0
  · right
    have h := nearestEven_le num den
    simpa [roundQuotient, spacing, hq] using h
  · left
    have hlt : num / den < 2 ^ ((num / den).log2 + 1) := Nat.lt_log2_self
    have hs : spacing (num / den) ∣ 2 ^ ((num / den).log2 + 1) :=
      Nat.pow_dvd_pow 2 (by omega)
    obtain ⟨k, hk⟩ := hs
    have hle := nearestEven_le num (den * spacing (num / den))
    rw [← Nat.div_div_eq_div_mul] at hle
    have hdiv : num / den / spacing (num / den) < k :=
      (Nat.div_lt_iff_lt_mul (spacing_pos _)).mpr (by rw [Nat.mul_comm, ← hk]; exact hlt)
    rw [hk]
    exact Nat.mul_le_mul_left _ (by omega)

/-- A rounded magnitude within the bounds of the format is a magnitude of the format. -/
theorem representable_roundQuotient {num den : Nat} (h : roundQuotient num den < unitsLimit) :
    Representable (roundQuotient num den) := by
  refine ⟨h, ?_⟩
  rcases roundQuotient_le num den with hle | hle
  · rcases Nat.lt_or_eq_of_le hle with hlt | heq
    · by_cases hz : roundQuotient num den = 0
      · simp [hz]
      · have hlog : (roundQuotient num den).log2 < (num / den).log2 + 1 :=
          (Nat.log2_lt hz).mpr hlt
        exact Nat.dvd_trans (spacing_dvd_spacing (by omega)) (Nat.dvd_mul_right _ _)
    · rw [heq, spacing, Nat.log2_two_pow]
      exact Nat.pow_dvd_pow 2 (by omega)
  · have hlog : (roundQuotient num den).log2 = 0 := by
      rcases Nat.le_one_iff_eq_zero_or_eq_one.mp hle with h0 | h1
      · simp [h0]
      · rw [h1]
        decide
    simp [spacing, hlog]

/-- A magnitude of the format rounds to itself. -/
theorem roundQuotient_mul {n den : Nat} (hn : Representable n) (hd : 0 < den) :
    roundQuotient (n * den) den = n := by
  obtain ⟨k, hk⟩ := hn.2
  have hs := spacing_pos n
  have hmul : n * den = k * (den * spacing n) := by
    calc
      n * den = spacing n * k * den := by rw [← hk]
      _ = k * (den * spacing n) := by
        rw [Nat.mul_comm (spacing n) k, Nat.mul_assoc, Nat.mul_comm (spacing n) den]
  simp only [roundQuotient, Nat.mul_div_cancel n hd]
  rw [hmul, nearestEven_mul k (Nat.mul_pos hd hs), ← hk]

/-- A quotient below one half rounds to zero. -/
theorem roundQuotient_eq_zero {num den : Nat} (h : 2 * num < den) : roundQuotient num den = 0 := by
  have hq : num / den = 0 := Nat.div_eq_of_lt (by omega)
  have hr : num % den = num := Nat.mod_eq_of_lt (by omega)
  have hs : spacing 0 = 1 := rfl
  simp [roundQuotient, nearestEven, hq, hr, hs, h]

/-- Rounding does not fall below a power of two that the quotient reaches. -/
theorem two_pow_le_roundQuotient {num den k : Nat} (h : 2 ^ k ≤ num / den) :
    2 ^ k ≤ roundQuotient num den := by
  have hq : num / den ≠ 0 := Nat.ne_of_gt (Nat.lt_of_lt_of_le (Nat.two_pow_pos k) h)
  have hk : k ≤ (num / den).log2 := (Nat.le_log2 hq).mpr h
  obtain ⟨c, hc⟩ : spacing (num / den) ∣ 2 ^ (num / den).log2 :=
    Nat.pow_dvd_pow 2 (by omega)
  have hle : c ≤ num / den / spacing (num / den) := by
    refine (Nat.le_div_iff_mul_le (spacing_pos _)).mpr ?_
    rw [Nat.mul_comm, ← hc]
    exact Nat.log2_self_le hq
  calc
    2 ^ k ≤ 2 ^ (num / den).log2 := Nat.pow_le_pow_right (by decide) hk
    _ = spacing (num / den) * c := hc
    _ ≤ roundQuotient num den := by
      refine Nat.mul_le_mul_left _ (Nat.le_trans hle ?_)
      rw [Nat.div_div_eq_div_mul]
      exact le_nearestEven _ _

/-- The number of a sign nearest to a quotient of units; beyond the format, an infinity. -/
def ofQuotient (negative : Bool) (num den : Nat) : Binary64 :=
  let n := roundQuotient num den
  if h : n < unitsLimit then finite negative n (representable_roundQuotient h)
  else infinity negative

/-- A finite number is nearest to its own magnitude. -/
theorem ofQuotient_mul (negative : Bool) {n den : Nat} (hn : Representable n) (hd : 0 < den) :
    ofQuotient negative (n * den) den = finite negative n hn := by
  simp [ofQuotient, roundQuotient_mul hn hd, hn.1]

end RowReduction.Binary64

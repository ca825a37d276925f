import RowReduction.Binary64.Basic

/-!
# The 64-bit encoding

The sign bit comes first, then the exponent field, then the fraction. A
magnitude of `n` units whose spacing is `2 ^ k` is written as
`k * 2 ^ 52 + n / 2 ^ k` in the lower 63 bits, since the leading bit of a
normal number is carried into the exponent field.
-/

namespace RowReduction.Binary64

-- Powers are those of the core library wherever the module is compiled.
attribute [local instance (high)] instPowNat

/-- The lower 63 bits of a magnitude of `n` units. -/
def magnitudeBits (n : Nat) : Nat :=
  (n.log2 - fractionBits) * 2 ^ fractionBits + n / spacing n

/-- The word that encodes a number. -/
def toBits : Binary64 → UInt64
  | nan => 0x7FF8000000000000
  | infinity negative => if negative then 0xFFF0000000000000 else 0x7FF0000000000000
  | finite negative n _ =>
      (if negative then 0x8000000000000000 else 0) + UInt64.ofNat (magnitudeBits n)

/-- A significand of one bit more than a fraction, shifted by less than the greatest shift, is
a magnitude of the format. -/
theorem representable_shift {m k : Nat} (hm : m < 2 ^ (fractionBits + 1)) (hk : k < 2046) :
    Representable (m * 2 ^ k) := by
  have hlt : m * 2 ^ k < 2 ^ (fractionBits + 1 + k) := by
    rw [Nat.pow_add 2 (fractionBits + 1) k]
    exact Nat.mul_lt_mul_of_pos_right hm (Nat.two_pow_pos k)
  refine ⟨?_, ?_⟩
  · refine Nat.lt_of_lt_of_le hlt (Nat.pow_le_pow_right (by decide) ?_)
    simp only [fractionBits, unitPlaces]
    omega
  · by_cases hz : m * 2 ^ k = 0
    · simp [hz]
    · have hlog := (Nat.log2_lt hz).mpr hlt
      exact Nat.dvd_trans (Nat.pow_dvd_pow 2 (by omega)) (Nat.dvd_mul_left _ _)

/-- The number of a sign, an exponent field and a fraction. -/
def ofFields (negative : Bool) (exponent fraction : Nat) : Binary64 :=
  if h : exponent < 2047 ∧ fraction < 2 ^ fractionBits then
    if exponent = 0 then
      finite negative (fraction * 2 ^ 0) (representable_shift (by omega) (by omega))
    else
      finite negative ((2 ^ fractionBits + fraction) * 2 ^ (exponent - 1))
        (representable_shift (by omega) (by omega))
  else if fraction = 0 then infinity negative else nan

/-- The number that a word encodes. -/
def ofBits (w : UInt64) : Binary64 :=
  let lower := w.toNat % 2 ^ (fractionBits + 11)
  ofFields (lower != w.toNat) (lower / 2 ^ fractionBits) (lower % 2 ^ fractionBits)

end RowReduction.Binary64

import RowReduction.Binary64.Arithmetic

/-!
# Square roots

The integer square root is read off from the square root of a quarter of the
number, one bit at a time. A root that is no whole number of half units is
replaced by the middle of the half unit it lies in, which rounds the same way.
-/

namespace RowReduction.Binary64

-- Powers are those of the core library wherever the module is compiled.
attribute [local instance (high)] instPowNat

/-- The integer square root of a number below `4 ^ bits`. -/
def rootBits : Nat → Nat → Nat
  | 0, _ => 0
  | bits + 1, n =>
      let r := 2 * rootBits bits (n / 4)
      if (r + 1) * (r + 1) ≤ n then r + 1 else r

/-- The greatest number whose square is at most `n`. -/
def root (n : Nat) : Nat :=
  rootBits (n.log2 / 2 + 1) n

theorem rootBits_sq_le (bits n : Nat) : rootBits bits n * rootBits bits n ≤ n := by
  induction bits generalizing n with
  | zero => simp [rootBits]
  | succ bits ih =>
      simp only [rootBits]
      split
      · assumption
      · have h := ih (n / 4)
        calc
          2 * rootBits bits (n / 4) * (2 * rootBits bits (n / 4)) =
              4 * (rootBits bits (n / 4) * rootBits bits (n / 4)) := by
            rw [Nat.mul_mul_mul_comm]
          _ ≤ n := by omega

theorem lt_rootBits_sq (bits n : Nat) (h : n < 4 ^ bits) :
    n < (rootBits bits n + 1) * (rootBits bits n + 1) := by
  induction bits generalizing n with
  | zero => simp_all [rootBits]
  | succ bits ih =>
      have hq := ih (n / 4) (by rw [Nat.pow_succ] at h; omega)
      simp only [rootBits]
      split
      · calc
          n < 4 * ((rootBits bits (n / 4) + 1) * (rootBits bits (n / 4) + 1)) := by omega
          _ = (2 * rootBits bits (n / 4) + 1 + 1) * (2 * rootBits bits (n / 4) + 1 + 1) := by
            rw [show 2 * rootBits bits (n / 4) + 1 + 1 = 2 * (rootBits bits (n / 4) + 1) by omega,
              Nat.mul_mul_mul_comm]
      · omega

theorem root_sq_le (n : Nat) : root n * root n ≤ n :=
  rootBits_sq_le _ _

theorem lt_root_sq (n : Nat) : n < (root n + 1) * (root n + 1) := by
  refine lt_rootBits_sq _ _ (Nat.lt_of_lt_of_le Nat.lt_log2_self ?_)
  rw [show 4 = 2 ^ 2 by rfl, ← Nat.pow_mul]
  exact Nat.pow_le_pow_right (by decide) (by omega)

/-- The nonnegative number nearest to the square root of `n`, in units. -/
def ofRoot (n : Nat) : Binary64 :=
  let half := root (4 * n)
  ofQuotient false (2 * half + if half * half = 4 * n then 0 else 1) 4

/-- The nearest number to the square root. The root of a zero is that zero. -/
def sqrt : Binary64 → Binary64
  | nan => nan
  | infinity negative => if negative then nan else infinity false
  | finite negative n h =>
      if n = 0 then finite negative n h
      else if negative then nan
      else ofRoot (n * unitsPerOne)

/-- The nearest number to the length of the hypotenuse; it is infinite whenever a leg is. -/
def hypot : Binary64 → Binary64 → Binary64
  | infinity _, _ | _, infinity _ => infinity false
  | nan, _ | _, nan => nan
  | finite _ m _, finite _ n _ => ofRoot (m * m + n * n)

end RowReduction.Binary64

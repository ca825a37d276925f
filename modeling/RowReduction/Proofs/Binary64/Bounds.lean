import RowReduction.Binary64.Root
import RowReduction.Proofs.Binary64.Rounding
import Mathlib.Algebra.Order.BigOperators.Group.List
import Mathlib.Algebra.BigOperators.Group.List.Basic
import Mathlib.Tactic.Positivity

/-!
# Bounds through rounded operations

Numbers that are not negative are followed through quotients, sums and roots by
what they are at least and at most, in units. An infinity is at least
everything, so that lower bounds need no care for overflow. Rounding keeps a
bound that is a magnitude of the format. A sum of squares is at most doubled by
all its roundings together, however many terms it has, because a rounded sum is
no further from the exact one than the sum without its last term.
-/

namespace RowReduction.Binary64

variable {x y : Binary64} {p q : ℚ} {num den k : ℕ}

/-- The number is not negative, and at least so many units; an infinity is at least everything. -/
inductive AtLeast (q : ℚ) : Binary64 → Prop
  | infinity : AtLeast q (.infinity false)
  | finite {n : ℕ} (h : Representable n) (hq : q ≤ n) : AtLeast q (.finite false n h)

/-- The number is finite, not negative, and at most so many units. -/
inductive AtMost (q : ℚ) : Binary64 → Prop
  | finite {n : ℕ} (h : Representable n) (hq : n ≤ q) : AtMost q (.finite false n h)

theorem AtLeast.mono (hx : AtLeast q x) (h : p ≤ q) : AtLeast p x := by
  cases hx with
  | infinity => exact .infinity
  | finite hn hq => exact .finite hn (h.trans hq)

theorem AtMost.mono (hx : AtMost p x) (h : p ≤ q) : AtMost q x := by
  cases hx with
  | finite hn hp => exact .finite hn (hp.trans h)

theorem AtLeast.le_of_atMost (hx : AtLeast p x) (hx' : AtMost q x) : p ≤ q := by
  cases hx' with
  | finite _ hq =>
      cases hx with
      | finite _ hp => exact hp.trans hq

theorem AtMost.nonneg (hx : AtMost q x) : AtLeast 0 x := by
  cases hx with
  | finite hn _ => exact .finite hn (Nat.cast_nonneg _)

theorem atMost_zero : AtMost 0 0 :=
  .finite representable_zero Nat.cast_zero.le

theorem AtMost.eq_zero (hx : AtMost 0 x) : x = 0 := by
  cases hx with
  | @finite n hn hq =>
      obtain rfl : n = 0 := Nat.le_zero.mp (mod_cast hq)
      rfl

/-- The least magnitude above zero is one unit. -/
theorem AtLeast.eq_zero_or_one (hx : AtLeast 0 x) : x = 0 ∨ AtLeast 1 x := by
  cases hx with
  | infinity => exact .inr .infinity
  | @finite n hn _ =>
      rcases Nat.eq_zero_or_pos n with rfl | hpos
      · exact .inl rfl
      · exact .inr (.finite hn (Nat.one_le_cast.mpr hpos))

section Quotients

theorem representable_rounded (h : rounded q < unitsLimit) : Representable (rounded q) :=
  representable_roundQuotient h

theorem ofQuotient_eq_finite (negative : Bool) (num : ℕ) (hd : 0 < den)
    (h : rounded (num / den) < unitsLimit) :
    ofQuotient negative num den =
      finite negative (rounded (num / den)) (representable_rounded h) := by
  have hround := roundQuotient_eq_rounded num hd
  simp only [ofQuotient, hround, dif_pos h]

theorem ofQuotient_eq_infinity (negative : Bool) (num : ℕ) (hd : 0 < den)
    (h : unitsLimit ≤ rounded (num / den)) : ofQuotient negative num den = infinity negative := by
  have hround := roundQuotient_eq_rounded num hd
  simp only [ofQuotient, hround, dif_neg (Nat.not_lt.mpr h)]

theorem atLeast_ofQuotient_rounded (num : ℕ) (hd : 0 < den) :
    AtLeast (rounded (num / den)) (ofQuotient false num den) := by
  rcases Nat.lt_or_ge (rounded (num / den)) unitsLimit with h | h
  · rw [ofQuotient_eq_finite false num hd h]
    exact .finite _ le_rfl
  · rw [ofQuotient_eq_infinity false num hd h]
    exact .infinity

theorem atMost_ofQuotient_rounded (hd : 0 < den) (h : rounded (num / den) < unitsLimit) :
    AtMost (rounded (num / den)) (ofQuotient false num den) := by
  rw [ofQuotient_eq_finite false num hd h]
  exact .finite _ le_rfl

/-- Rounding keeps the magnitudes of the format below a quotient. -/
theorem atLeast_ofQuotient (hk : Representable k) (hd : 0 < den) (h : (k : ℚ) ≤ num / den) :
    AtLeast k (ofQuotient false num den) := by
  have hmono := rounded_mono h
  rw [rounded_natCast hk] at hmono
  exact (atLeast_ofQuotient_rounded num hd).mono (Nat.cast_le.mpr hmono)

/-- Rounding keeps the magnitudes of the format above a quotient. -/
theorem atMost_ofQuotient (hk : Representable k) (hd : 0 < den) (h : (num : ℚ) / den ≤ k) :
    AtMost k (ofQuotient false num den) := by
  have hmono := rounded_mono h
  rw [rounded_natCast hk] at hmono
  exact (atMost_ofQuotient_rounded hd (hmono.trans_lt hk.1)).mono (Nat.cast_le.mpr hmono)

/-- A bound of the rounded quotient within the format is a bound of the number. -/
theorem atMost_ofQuotient_of_le (hd : 0 < den) (h : (rounded (num / den) : ℚ) ≤ q)
    (hq : q < unitsLimit) : AtMost q (ofQuotient false num den) :=
  (atMost_ofQuotient_rounded hd (Nat.cast_lt.mp (h.trans_lt hq))).mono h

end Quotients

section Sums

theorem finite_add_finite {m n : ℕ} (hm : Representable m) (hn : Representable n) :
    finite false m hm + finite false n hn = ofQuotient false (m + n) 1 := by
  change add (finite false m hm) (finite false n hn) = _
  have hpos : ¬ (m : ℤ) + n < 0 := by omega
  have habs : ((m : ℤ) + n).natAbs = m + n := by omega
  simp [add, ofSum, Text.withSign, hpos, habs]

/-- A sum is at least its first term. -/
theorem AtLeast.add_left (hx : AtLeast q x) (hy : AtLeast 0 y) : AtLeast q (x + y) := by
  cases hx with
  | infinity => cases hy <;> exact .infinity
  | @finite m hm hq =>
      cases hy with
      | infinity => exact .infinity
      | @finite n hn _ =>
          rw [finite_add_finite]
          apply (atLeast_ofQuotient hm Nat.one_pos _).mono hq
          rw [Nat.cast_one, div_one]
          exact Nat.cast_le.mpr (Nat.le_add_right m n)

/-- A sum is at least its second term. -/
theorem AtLeast.add_right (hx : AtLeast 0 x) (hy : AtLeast q y) : AtLeast q (x + y) := by
  cases hy with
  | infinity => cases hx <;> exact .infinity
  | @finite n hn hq =>
      cases hx with
      | infinity => exact .infinity
      | @finite m hm _ =>
          rw [finite_add_finite]
          apply (atLeast_ofQuotient hn Nat.one_pos _).mono hq
          rw [Nat.cast_one, div_one]
          exact Nat.cast_le.mpr (Nat.le_add_left n m)

/-- A rounded sum exceeds the exact one by at most its second term, because the first term is a
number of the format. -/
theorem AtMost.add (hx : AtMost p x) (hy : AtMost q y) (h : p + 2 * q < unitsLimit) :
    AtMost (p + 2 * q) (x + y) := by
  cases hx with
  | @finite m hm hp =>
      cases hy with
      | @finite n hn hq =>
          rw [finite_add_finite]
          apply atMost_ofQuotient_of_le Nat.one_pos _ h
          have hround := rounded_le_of_representable (x := ((m + n : ℕ) : ℚ) / (1 : ℕ)) hm (by simp)
          apply hround.trans
          push_cast
          linarith

/-- The sum from left to right of the squares of numbers. -/
def squareSum (start : Binary64) (xs : List Binary64) : Binary64 :=
  xs.foldl (fun s x => s + x * x) start

variable {start : Binary64} {xs : List Binary64}

theorem AtLeast.squareSum (hs : AtLeast q start) (h : ∀ x ∈ xs, AtLeast 0 (x * x)) :
    AtLeast q (squareSum start xs) := by
  induction xs generalizing start with
  | nil => exact hs
  | cons x xs ih =>
      apply ih (hs.add_left (h x List.mem_cons_self))
      intro y hy
      exact h y (List.mem_cons_of_mem x hy)

/-- A sum of squares is at least each of them. -/
theorem atLeast_squareSum_of_mem (hs : AtLeast 0 start) (h : ∀ x ∈ xs, AtLeast 0 (x * x))
    (hx : x ∈ xs) (hq : AtLeast q (x * x)) : AtLeast q (squareSum start xs) := by
  induction xs generalizing start with
  | nil => cases hx
  | cons y xs ih =>
      have htail : ∀ z ∈ xs, AtLeast 0 (z * z) := fun z hz => h z (List.mem_cons_of_mem y hz)
      rcases List.mem_cons.mp hx with rfl | hmem
      · exact (hs.add_right hq).squareSum htail
      · exact ih (hs.add_left (h y List.mem_cons_self)) htail hmem

/-- All roundings of a sum of squares together at most double it. -/
theorem AtMost.squareSum {α : Type} {f : α → Binary64} {bound : α → ℚ} {as : List α}
    (hs : AtMost p start) (h : ∀ a ∈ as, AtMost (bound a) (f a * f a))
    (hnonneg : ∀ a ∈ as, 0 ≤ bound a) (hlimit : p + 2 * (as.map bound).sum < unitsLimit) :
    AtMost (p + 2 * (as.map bound).sum) (squareSum start (as.map f)) := by
  induction as generalizing p start with
  | nil => exact hs.mono (by simp)
  | cons a as ih =>
      have hrest : 0 ≤ (as.map bound).sum := by
        apply List.sum_nonneg
        intro b hb
        obtain ⟨c, hc, rfl⟩ := List.mem_map.mp hb
        exact hnonneg c (List.mem_cons_of_mem a hc)
      rw [List.map_cons, List.sum_cons] at hlimit ⊢
      have hstep := hs.add (h a List.mem_cons_self) (by linarith)
      have htotal : p + 2 * (bound a + (as.map bound).sum) =
          p + 2 * bound a + 2 * (as.map bound).sum := by ring
      rw [htotal] at hlimit ⊢
      exact ih hstep (fun b hb => h b (List.mem_cons_of_mem a hb))
        (fun b hb => hnonneg b (List.mem_cons_of_mem a hb)) hlimit

end Sums

section Roots

theorem sqrt_finite {n : ℕ} (h : Representable n) (hn : n ≠ 0) :
    sqrt (finite false n h) = ofRoot (n * unitsPerOne) := by
  simp [sqrt, hn]

theorem le_root_iff {j n : ℕ} : j ≤ root n ↔ j * j ≤ n := by
  constructor
  · intro h
    exact (Nat.mul_le_mul h h).trans (root_sq_le n)
  · intro h
    by_contra hlt
    have hsq : (root n + 1) * (root n + 1) ≤ j * j := Nat.mul_le_mul (by omega) (by omega)
    have := lt_root_sq n
    omega

/-- In quarters of a unit, the root that is rounded is not below an integer whose square is not
above the number. -/
theorem mul_four_le_of_sq_le {n : ℕ} (h : k * k ≤ n) (rest : ℕ) :
    k * 4 ≤ 2 * root (4 * n) + rest := by
  have hroot : 2 * k ≤ root (4 * n) := by
    rw [le_root_iff]
    calc
      2 * k * (2 * k) = 4 * (k * k) := by ring
      _ ≤ 4 * n := Nat.mul_le_mul_left 4 h
  omega

/-- In quarters of a unit, the root that is rounded is not above an integer whose square is not
below the number: an inexact root is short of the integer by half a unit. -/
theorem le_mul_four_of_le_sq {n : ℕ} (h : n ≤ k * k) :
    2 * root (4 * n) + (if root (4 * n) * root (4 * n) = 4 * n then 0 else 1) ≤ k * 4 := by
  have hsquare : 4 * n ≤ 2 * k * (2 * k) := by
    calc
      4 * n ≤ 4 * (k * k) := Nat.mul_le_mul_left 4 h
      _ = 2 * k * (2 * k) := by ring
  have hle : root (4 * n) ≤ 2 * k :=
    Nat.mul_self_le_mul_self_iff.mp ((root_sq_le _).trans hsquare)
  split_ifs with hexact
  · omega
  · have hne : root (4 * n) ≠ 2 * k := by
      intro heq
      apply hexact
      apply le_antisymm (root_sq_le _)
      rwa [heq]
    omega

/-- A root is at least every magnitude of the format whose square is not above the number. -/
theorem AtLeast.sqrt (hk : Representable k) (hx : AtLeast q x)
    (h : (k : ℚ) * k ≤ q * unitsPerOne) : AtLeast k x.sqrt := by
  cases hx with
  | infinity => exact .infinity
  | @finite n hn hq =>
      have hsq : k * k ≤ n * unitsPerOne := by
        have hcast : (k : ℚ) * k ≤ n * unitsPerOne :=
          h.trans (mul_le_mul_of_nonneg_right hq (Nat.cast_nonneg _))
        exact_mod_cast hcast
      by_cases hzero : n = 0
      · have hk0 : k = 0 := by
          rw [hzero, Nat.zero_mul] at hsq
          simpa using hsq
        subst hzero hk0
        exact .finite hn le_rfl
      · rw [sqrt_finite hn hzero, ofRoot]
        apply atLeast_ofQuotient hk (by decide)
        rw [le_div_iff₀ (by norm_num)]
        exact_mod_cast mul_four_le_of_sq_le hsq _

/-- A root is at most every magnitude of the format whose square is not below the number. -/
theorem AtMost.sqrt (hk : Representable k) (hx : AtMost q x)
    (h : q * unitsPerOne ≤ (k : ℚ) * k) : AtMost k x.sqrt := by
  cases hx with
  | @finite n hn hq =>
      have hsq : n * unitsPerOne ≤ k * k := by
        have hcast : (n : ℚ) * unitsPerOne ≤ k * k :=
          (mul_le_mul_of_nonneg_right hq (Nat.cast_nonneg _)).trans h
        exact_mod_cast hcast
      by_cases hzero : n = 0
      · subst hzero
        exact .finite hn (by simp)
      · rw [sqrt_finite hn hzero, ofRoot]
        apply atMost_ofQuotient hk (by decide)
        rw [div_le_iff₀ (by norm_num)]
        exact_mod_cast le_mul_four_of_le_sq hsq

end Roots

end RowReduction.Binary64

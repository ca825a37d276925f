import RowReduction.Sampling.Source
import Mathlib.Algebra.Group.Nat.Defs
import Mathlib.Data.List.Induction

/-!
# The integers that a source can draw

An integer of a range is drawn as a number below the size of the range, which is
assembled from digits of 32 bits, two of them in a word. Each number below a
bound has such digits and a tape that holds them, so that the first draw from
this tape counts. No integer of a range is therefore out of reach.
-/

namespace RowReduction.Source

section Words

/-- The words that hold the digits, two in each word and the lower half first. -/
def wordsOf : List Nat → List UInt64
  | [] => []
  | [d] => [.ofNat d]
  | d :: e :: ds => .ofNat (d + 2 ^ 32 * e) :: wordsOf ds

theorem toNat_word {n : Nat} (h : n < 2 ^ 64) : (UInt64.ofNat n).toNat = n :=
  UInt64.toNat_ofNat_of_lt' h

/-- The digits that words hold are read back from them. -/
theorem digits_wordsOf {ds : List Nat} (hds : ∀ d ∈ ds, d < 2 ^ 32) (state : UInt64)
    (drawn : Nat) : (digits ds.length ⟨wordsOf ds, state, drawn⟩).1 = ds := by
  induction ds using List.twoStepInduction generalizing drawn with
  | nil => rfl
  | singleton d =>
      have hd : d < 2 ^ 32 := hds d (by simp)
      have hword : (UInt64.ofNat d).toNat = d := toNat_word (by omega)
      show [(UInt64.ofNat d).toNat % 2 ^ 32] = [d]
      rw [hword, Nat.mod_eq_of_lt hd]
  | cons_cons d e ds ih _ =>
      have hd : d < 2 ^ 32 := hds d (by simp)
      have he : e < 2 ^ 32 := hds e (by simp)
      have hword : (UInt64.ofNat (d + 2 ^ 32 * e)).toNat = d + 2 ^ 32 * e := toNat_word (by omega)
      have hrest := ih (fun t ht => hds t (by simp [ht])) (drawn + 1)
      show (UInt64.ofNat (d + 2 ^ 32 * e)).toNat % 2 ^ 32 ::
        (UInt64.ofNat (d + 2 ^ 32 * e)).toNat / 2 ^ 32 ::
          (digits ds.length ⟨wordsOf ds, state, drawn + 1⟩).1 = d :: e :: ds
      rw [hword, hrest, Nat.add_mul_mod_self_left, Nat.mod_eq_of_lt hd,
        Nat.add_mul_div_left _ _ (Nat.two_pow_pos 32), Nat.div_eq_of_lt hd, Nat.zero_add]

end Words

section Digits

/-- As many digits as asked for, from which the number is assembled: the last one is shifted by the
bits that are cut off. -/
def digitsOf (cut : Nat) : Nat → Nat → List Nat
  | 0, _ => []
  | 1, n => [n * 2 ^ cut]
  | length + 2, n => n % 2 ^ 32 :: digitsOf cut (length + 1) (n / 2 ^ 32)

theorem length_digitsOf (cut length n : Nat) : (digitsOf cut length n).length = length := by
  fun_induction digitsOf with
  | case1 => rfl
  | case2 => rfl
  | case3 _ _ ih => rw [List.length_cons, ih]

/-- What is left of a number without its lowest digit fits into one digit less. -/
theorem div_mul_lt {cut length n : Nat} (h : n * 2 ^ cut < 2 ^ (32 * (length + 1))) :
    n / 2 ^ 32 * 2 ^ cut < 2 ^ (32 * length) := by
  apply Nat.lt_of_mul_lt_mul_left (a := 2 ^ 32)
  calc
    2 ^ 32 * (n / 2 ^ 32 * 2 ^ cut) = 2 ^ 32 * (n / 2 ^ 32) * 2 ^ cut := (Nat.mul_assoc ..).symm
    _ ≤ n * 2 ^ cut := Nat.mul_le_mul_right _ (Nat.mul_div_le n _)
    _ < 2 ^ (32 * (length + 1)) := h
    _ = 2 ^ 32 * 2 ^ (32 * length) := by rw [Nat.mul_succ, Nat.pow_add, Nat.mul_comm]

theorem lt_of_mem_digitsOf {cut length n : Nat} (h : n * 2 ^ cut < 2 ^ (32 * length)) :
    ∀ d ∈ digitsOf cut length n, d < 2 ^ 32 := by
  fun_induction digitsOf with
  | case1 => simp
  | case2 n => simpa using h
  | case3 length n ih =>
      intro d hd
      rcases List.mem_cons.mp hd with rfl | hd
      · exact Nat.mod_lt _ (Nat.two_pow_pos 32)
      · exact ih (div_mul_lt h) d hd

/-- The digits of a number assemble to it if they have room for the bits that are cut off. -/
theorem assemble_digitsOf {cut length n : Nat} (h : n * 2 ^ cut < 2 ^ (32 * length)) :
    assemble cut (digitsOf cut length n) = n := by
  fun_induction digitsOf with
  | case1 n =>
      have hn : n * 2 ^ cut = 0 := Nat.lt_one_iff.mp h
      exact ((Nat.mul_eq_zero.mp hn).resolve_right (Nat.ne_of_gt (Nat.two_pow_pos cut))).symm
  | case2 n =>
      exact (Nat.shiftRight_eq_div_pow ..).trans (Nat.mul_div_cancel n (Nat.two_pow_pos cut))
  | case3 length n ih =>
      have hrest := ih (div_mul_lt h)
      -- The digits behind the first one are never none, so the first is not shifted.
      cases hdigits : digitsOf cut (length + 1) (n / 2 ^ 32) with
      | nil =>
          have hlength := length_digitsOf cut (length + 1) (n / 2 ^ 32)
          rw [hdigits] at hlength
          cases hlength
      | cons d ds =>
          rw [hdigits] at hrest
          show n % 2 ^ 32 + 2 ^ 32 * assemble cut (d :: ds) = n
          rw [hrest, Nat.mod_add_div]

end Digits

section Ranges

/-- The digits that a draw of a number of bits takes, and the bits of the last one it cuts off. -/
theorem bits_add_cut (bits : Nat) : bits + (32 - bits % 32) % 32 = 32 * ((bits + 31) / 32) := by
  omega

/-- A tape from which a number of the given number of bits is drawn. -/
def tapeOfBits (bits n : Nat) : List UInt64 :=
  wordsOf (digitsOf ((32 - bits % 32) % 32) ((bits + 31) / 32) n)

theorem draw_tapeOfBits {bits n : Nat} (h : n < 2 ^ bits) (state : UInt64) (drawn : Nat) :
    (draw bits ⟨tapeOfBits bits n, state, drawn⟩).1 = n := by
  have hroom : n * 2 ^ ((32 - bits % 32) % 32) < 2 ^ (32 * ((bits + 31) / 32)) := by
    rw [← bits_add_cut, Nat.pow_add]
    exact Nat.mul_lt_mul_of_pos_right h (Nat.two_pow_pos _)
  have hdigits := digits_wordsOf (lt_of_mem_digitsOf hroom) state drawn
  rw [length_digitsOf] at hdigits
  show assemble _ (digits _ ⟨wordsOf _, state, drawn⟩).1 = n
  rw [hdigits, assemble_digitsOf hroom]

/-- A first draw below the bound counts, so that no other one is made. -/
theorem drawBelow_of_lt {bound attempts : Nat} {s : Source}
    (h : (draw (bound.log2 + 1) s).1 < bound) :
    drawBelow bound (attempts + 1) s = draw (bound.log2 + 1) s := by
  show (if (draw (bound.log2 + 1) s).1 < bound then pure (draw (bound.log2 + 1) s).1
    else drawBelow bound attempts : StateM Source Nat) (draw (bound.log2 + 1) s).2 = _
  rw [if_pos h]
  rfl

/-- A tape from which a number below a bound is drawn. -/
def tapeOf (bound n : Nat) : List UInt64 :=
  tapeOfBits (bound.log2 + 1) n

/-- The first draw from the tape of a number is the number, which is below the bound. -/
theorem below_tapeOf {bound n : Nat} (h : n < bound) (state : UInt64) (drawn : Nat) :
    (below bound ⟨tapeOf bound n, state, drawn⟩).1 = n := by
  have hbits : n < 2 ^ (bound.log2 + 1) := Nat.lt_trans h Nat.lt_log2_self
  have hdraw := draw_tapeOfBits hbits state drawn
  obtain ⟨attempts, hattempts⟩ : ∃ attempts, (tapeOf bound n).length + period = attempts + 1 :=
    Nat.exists_eq_succ_of_ne_zero (Nat.ne_of_gt (Nat.add_pos_right _ (by decide)))
  show (drawBelow bound ((tapeOf bound n).length + period) _).1 = n
  rw [hattempts, drawBelow_of_lt]
  · exact hdraw
  · exact hdraw.symm ▸ h

/-- Every integer of a range is drawn from some source. -/
theorem exists_between_eq {lo hi k : Int} (hlo : lo ≤ k) (hhi : k ≤ hi) :
    ∃ source, (between lo hi source).1 = k := by
  have hbound : (k - lo).toNat < (hi - lo + 1).toNat := by omega
  refine ⟨⟨tapeOf (hi - lo + 1).toNat (k - lo).toNat, 0, 0⟩, ?_⟩
  have hbelow := below_tapeOf hbound 0 0
  simp only [between, hbelow]
  omega

end Ranges

end RowReduction.Source

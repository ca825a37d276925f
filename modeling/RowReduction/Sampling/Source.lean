/-!
# Sources of random words

A source hands out the 64-bit words of a tape and then those of a generator
whose state moves by a constant. Uniform numbers below a bound are drawn with as
many bits as the bound has, again and again until one lies below it.

## Implementation notes

The generator returns to its first state after `2 ^ 64` words, so that a bound
that no draw has met by then is never met. This bounds the number of draws.
-/

namespace RowReduction

-- Powers are those of the core library wherever the module is compiled.
attribute [local instance (high)] instPowNat

/-- The words that are left on the tape, the state of the generator, and the number of words
handed out. -/
structure Source where
  tape : List UInt64
  state : UInt64
  drawn : Nat
  deriving DecidableEq, Repr

namespace Source

/-- The word of a state of the generator. -/
def mix (state : UInt64) : UInt64 :=
  let z := (state ^^^ (state >>> 30)) * 0xBF58476D1CE4E5B9
  let z := (z ^^^ (z >>> 27)) * 0x94D049BB133111EB
  z ^^^ (z >>> 31)

/-- The constant by which the state of the generator moves. -/
def increment : UInt64 := 0x9E3779B97F4A7C15

/-- The next word, from the tape while it lasts. -/
def word : StateM Source UInt64 := fun s =>
  match s.tape with
  | w :: ws => (w, { s with tape := ws, drawn := s.drawn + 1 })
  | [] =>
      let state := s.state + increment
      (mix state, { s with state := state, drawn := s.drawn + 1 })

/-- A number of digits of 32 bits, the least significant first. A word gives two digits, and
its lower half the last one of an odd number. -/
def digits : Nat → StateM Source (List Nat)
  | 0 => return []
  | 1 => return [(← word).toNat % 2 ^ 32]
  | n + 2 => do
      let w ← word
      let ds ← digits n
      return w.toNat % 2 ^ 32 :: w.toNat / 2 ^ 32 :: ds

/-- The number of digits of 32 bits, without the lowest bits of the last one. -/
def assemble (cut : Nat) : List Nat → Nat
  | [] => 0
  | [d] => d >>> cut
  | d :: ds => d + 2 ^ 32 * assemble cut ds

/-- A number of the given number of bits. -/
def draw (bits : Nat) : StateM Source Nat := do
  let ds ← digits ((bits + 31) / 32)
  return assemble ((32 - bits % 32) % 32) ds

/-- The first of a number of draws that lies below a bound, and zero if none does. -/
def drawBelow (bound : Nat) : Nat → StateM Source Nat
  | 0 => return 0
  | attempts + 1 => do
      let n ← draw (bound.log2 + 1)
      if n < bound then return n else drawBelow bound attempts

/-- The number of words after which the generator returns to its first state. -/
def period : Nat := UInt64.size

/-- A number below a positive bound. -/
def below (bound : Nat) : StateM Source Nat := fun s =>
  drawBelow bound (s.tape.length + period) s

/-- An integer from the first to the second bound, both included. -/
def between (lo hi : Int) : StateM Source Int := fun s =>
  let r := below (hi - lo + 1).toNat s
  (lo + r.1, r.2)

theorem drawBelow_lt {bound : Nat} (h : 0 < bound) (attempts : Nat) (s : Source) :
    (drawBelow bound attempts s).1 < bound := by
  induction attempts generalizing s with
  | zero => exact h
  | succ attempts ih =>
      simp only [drawBelow, bind, StateT.bind]
      generalize draw (bound.log2 + 1) s = r
      obtain ⟨n, t⟩ := r
      show ((if n < bound then pure n else drawBelow bound attempts) t).1 < bound
      split
      · assumption
      · exact ih t

theorem below_lt {bound : Nat} (h : 0 < bound) (s : Source) : (below bound s).1 < bound := by
  unfold below
  exact drawBelow_lt h _ s

theorem le_between {lo hi : Int} (s : Source) : lo ≤ (between lo hi s).1 := by
  simp only [between]
  omega

theorem between_le {lo hi : Int} (h : lo ≤ hi) (s : Source) : (between lo hi s).1 ≤ hi := by
  have hlt := below_lt (show 0 < (hi - lo + 1).toNat by omega) s
  simp only [between]
  omega

end Source

end RowReduction

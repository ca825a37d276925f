import RowReduction.Error
import Mathlib.Data.List.Basic

/-!
# Reading places of lists

Entries of a stored list are read and written by their places. A computation
that does so has a third way to end, next to a value and a cause of failure: it
asks for a place that the list does not have. It agrees with an operation that
knows no places if it never ends in this way, fails from the same cause, and
its value is the stored form of the operation's.
-/

namespace RowReduction

/-- Computations on stored lists. They give nothing once they ask for a place outside a list. -/
abbrev Access (β : Type) := ExceptT Error Option β

namespace Access

variable {β γ δ ε : Type}

/-- What was found in the places of a list, if they exist. -/
def found (x : Option β) : Access β :=
  ExceptT.lift x

/-- The outcome of an operation that asks for no places. -/
def checked (x : Except Error β) : Access β :=
  ExceptT.mk (some x)

/-- The computation asks for no place outside a list, and ends as the operation does. -/
def Agrees (stored : β → γ) (x : Access γ) (y : Except Error β) : Prop :=
  x.run = some (y.map stored)

theorem Agrees.throw (stored : β → γ) (e : Error) :
    Agrees stored (MonadExcept.throw e : Access γ) (.error e) :=
  rfl

theorem Agrees.checked {stored : β → γ} {x : Except Error γ} {y : Except Error β}
    (h : x = y.map stored) : Agrees stored (checked x) y := by
  rw [h]
  rfl

theorem Agrees.found {stored : β → γ} {x : Option γ} {b : β} (h : x = some (stored b)) :
    Agrees stored (found x) (.ok b) := by
  rw [h]
  rfl

/-- The same change of the value on both sides keeps the agreement. -/
theorem Agrees.map {stored : β → γ} {stored' : δ → ε} {x : Access γ} {y : Except Error β}
    {f : γ → ε} {g : β → δ} (hx : Agrees stored x y) (hg : ∀ b, f (stored b) = stored' (g b)) :
    Agrees stored' (f <$> x) (y.map g) := by
  unfold Agrees
  rw [ExceptT.run_map, show x.run = some (y.map stored) from hx]
  cases y with
  | error e => rfl
  | ok b => exact congrArg (fun c => some (Except.ok c)) (hg b)

/-- Failing from the same cause in the same cases keeps the agreement. -/
theorem Agrees.guard {stored : β → γ} {x : Access γ} {y : Except Error β} {p q : Prop}
    [Decidable p] [Decidable q] (e : Error) (hpq : p ↔ ¬q) (hx : q → Agrees stored x y) :
    Agrees stored (if p then MonadExcept.throw e else x) (if q then y else .error e) := by
  by_cases hq : q
  · rw [if_neg (fun hp => hpq.mp hp hq), if_pos hq]
    exact hx hq
  · rw [if_pos (hpq.mpr hq), if_neg hq]
    exact Agrees.throw ..

end Access

section Places

variable {β γ δ : Type}

/-- The list with another entry in a place that it has. -/
def set? (xs : List β) (i : Nat) (b : β) : Option (List β) :=
  if i < xs.length then some (xs.set i b) else none

theorem set?_of_lt {xs : List β} {i : Nat} (h : i < xs.length) (b : β) :
    set? xs i b = some (xs.set i b) :=
  if_pos h

section Monadic

variable {m : Type → Type} [Monad m] [LawfulMonad m]

theorem mapM_eq_pure {f : β → m γ} {g : β → γ} {xs : List β} (h : ∀ x ∈ xs, f x = pure (g x)) :
    xs.mapM f = pure (xs.map g) := by
  induction xs with
  | nil => rfl
  | cons x xs ih =>
      rw [List.mapM_cons, h x (by simp), ih fun y hy => h y (by simp [hy])]
      simp

theorem mapM_map_result (g : γ → δ) (f : β → m γ) (xs : List β) :
    xs.mapM (fun x => g <$> f x) = List.map g <$> xs.mapM f := by
  induction xs with
  | nil => simp
  | cons x xs ih => simp [List.mapM_cons, ih]

end Monadic

theorem length_of_mapM_eq_ok {f : β → Except Error γ} {xs : List β} {ys : List γ}
    (h : xs.mapM f = .ok ys) : ys.length = xs.length := by
  induction xs generalizing ys with
  | nil =>
      rw [← Except.ok.inj h]
      rfl
  | cons x xs ih =>
      rw [List.mapM_cons] at h
      cases hx : f x with
      | error e => rw [hx] at h; cases h
      | ok y =>
          cases hxs : xs.mapM f with
          | error e => rw [hx, hxs] at h; cases h
          | ok zs =>
              rw [hx, hxs] at h
              rw [← Except.ok.inj h, List.length_cons, ih hxs, List.length_cons]

/-- Reading a list from consecutive places. -/
theorem mapM_range'_eq_some {f : Nat → Option γ} {ys : List γ} {start : Nat}
    (h : ∀ k (hk : k < ys.length), f (start + k) = some ys[k]) :
    (List.range' start ys.length).mapM f = some ys := by
  induction ys generalizing start with
  | nil => rfl
  | cons y ys ih =>
      have hhead : f start = some y := h 0 (by simp)
      have htail : (List.range' (start + 1) ys.length).mapM f = some ys := by
        apply ih
        intro k hk
        rw [Nat.add_assoc, Nat.add_comm 1 k]
        exact h (k + 1) (by simpa using hk)
      rw [List.length_cons, List.range'_succ, List.mapM_cons, hhead, htail]
      rfl

/-- Reading a list of known length from its first place on. -/
theorem mapM_range_eq_some {f : Nat → Option γ} {ys : List γ} {n : Nat} (hlen : ys.length = n)
    (h : ∀ k (hk : k < ys.length), f k = some ys[k]) : (List.range n).mapM f = some ys := by
  subst hlen
  rw [List.range_eq_range']
  apply mapM_range'_eq_some
  intro k hk
  rw [Nat.zero_add]
  exact h k hk

/-- Looking for the first entry that passes a test from a place on. -/
theorem findM?_range' {p : Nat → Option Bool} {test : β → Bool} {xs : List β}
    {start : Nat} (h : ∀ k (hk : k < xs.length), p (start + k) = some (test xs[k])) :
    (List.range' start xs.length).findM? p = some ((xs.findIdx? test).map (start + ·)) := by
  induction xs generalizing start with
  | nil => rfl
  | cons x xs ih =>
      have hhead : p start = some (test x) := h 0 (by simp)
      have htail : (List.range' (start + 1) xs.length).findM? p =
          some ((xs.findIdx? test).map (start + 1 + ·)) := by
        apply ih
        intro k hk
        rw [Nat.add_assoc, Nat.add_comm 1 k]
        exact h (k + 1) (by simpa using hk)
      rw [List.length_cons, List.range'_succ, List.findM?, hhead, List.findIdx?_cons]
      cases htest : test x with
      | true => rfl
      | false =>
          change (List.range' (start + 1) xs.length).findM? p = _
          rw [htail]
          simp [Function.comp_def, Nat.add_assoc, Nat.add_comm 1]

/-- What every step of a fold keeps holds at its end. -/
theorem foldlM_invariant {P : γ → Prop} {f : γ → β → Option γ} {xs : List β} {c d : γ}
    (hstep : ∀ c x d, P c → f c x = some d → P d) (hc : P c) (h : xs.foldlM f c = some d) :
    P d := by
  induction xs generalizing c with
  | nil => exact Option.some.inj h ▸ hc
  | cons x xs ih =>
      rw [List.foldlM_cons] at h
      obtain ⟨e, he, hrest⟩ := Option.bind_eq_some_iff.mp h
      exact ih (hstep c x e hc he) hrest

end Places

end RowReduction

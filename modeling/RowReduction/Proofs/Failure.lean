import RowReduction.Error

/-!
# Operations that may fail

An operation that checks its operands fails with a cause of one kind. Two
computations built from such operations are compared by their results: they
agree if they have the same values and all failures are of the same kind.
-/

namespace RowReduction

variable {β γ : Type}

/-- A result, with the kind of a failure in the place of its cause. -/
def byKind (x : Except Error β) : Except ErrorKind β :=
  x.mapError Error.kind

@[simp] theorem byKind_error (e : Error) : byKind (.error e : Except Error β) = .error e.kind :=
  rfl

/-- The kind of a failure does not depend on the causes within the steps. -/
theorem byKind_bind (x : Except Error β) (f : β → Except Error γ) :
    byKind (x >>= f) = byKind x >>= fun v => byKind (f v) := by
  cases x <;> rfl

theorem bind_eq_ok_iff {x : Except Error β} {f : β → Except Error γ} {w : γ} :
    x >>= f = .ok w ↔ ∃ v, x = .ok v ∧ f v = .ok w := by
  cases x <;> simp [bind, Except.bind]

theorem map_eq_ok_iff {x : Except Error β} {f : β → γ} {w : γ} :
    x.map f = .ok w ↔ ∃ v, x = .ok v ∧ f v = w := by
  cases x <;> simp [Except.map]

/-- All failures are of one kind. -/
def FailsOnlyBy (kind : ErrorKind) (x : Except Error β) : Prop :=
  ∀ e, x = .error e → e.kind = kind

namespace FailsOnlyBy

variable {kind : ErrorKind}

theorem ok (v : β) : FailsOnlyBy kind (.ok v) := by
  intro e h
  cases h

theorem bind {x : Except Error β} {f : β → Except Error γ} (hx : FailsOnlyBy kind x)
    (hf : ∀ v, FailsOnlyBy kind (f v)) : FailsOnlyBy kind (x >>= f) := by
  cases x with
  | error e =>
      intro e' h
      exact hx e' (congrArg Except.error (Except.error.inj h))
  | ok v => exact hf v

theorem map {x : Except Error β} (hx : FailsOnlyBy kind x) (f : β → γ) :
    FailsOnlyBy kind (x.map f) := by
  cases x with
  | error e =>
      intro e' h
      exact hx e' (congrArg Except.error (Except.error.inj h))
  | ok v => exact ok (f v)

/-- Computations with the same values and failures of one kind have the same results by kind. -/
theorem byKind_eq {x y : Except Error β} (hx : FailsOnlyBy kind x) (hy : FailsOnlyBy kind y)
    (h : ∀ v, x = .ok v ↔ y = .ok v) : byKind x = byKind y := by
  cases x with
  | ok v => rw [(h v).mp rfl]
  | error e =>
      cases y with
      | ok v => rw [← (h v).mpr rfl]
      | error e' => rw [byKind_error, byKind_error, hx e rfl, hy e' rfl]

end FailsOnlyBy

/-- The operation gives a value with a property under a condition, and otherwise fails by the
kind. -/
structure AsksFor (p : Prop) (P : β → Prop) (kind : ErrorKind) (x : Except Error β) : Prop where
  succeeds : p → ∃ v, x = .ok v ∧ P v
  fails : ¬p → ∃ e, x = .error e ∧ e.kind = kind

/-- The condition and the failures stay what they are when more is shown of the values. -/
theorem AsksFor.strengthen {p : Prop} {P Q : β → Prop} {kind : ErrorKind} {x : Except Error β}
    (h : AsksFor p P kind x) (hQ : p → ∃ v, x = .ok v ∧ Q v) : AsksFor p Q kind x :=
  ⟨hQ, h.fails⟩

theorem AsksFor.failsOnlyBy {p : Prop} {P : β → Prop} {kind : ErrorKind} {x : Except Error β}
    (h : AsksFor p P kind x) : FailsOnlyBy kind x := by
  intro e he
  by_cases hp : p
  · obtain ⟨v, hv, -⟩ := h.succeeds hp
    rw [hv] at he
    cases he
  · obtain ⟨e', he', hkind⟩ := h.fails hp
    rwa [Except.error.inj (he.symm.trans he')]

end RowReduction

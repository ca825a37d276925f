import RowReduction.Mat.Elimination
import Mathlib.Data.List.Forall2

/-!
# The choice of a pivot

The choice finds a row exactly if some row satisfies the test. It is the first
such row, and with the others it is a rearrangement of all rows. Lists that are
related row by row, by a relation that the tests respect, give related choices.
-/

namespace RowReduction.PivotChoice

variable {β γ : Type}

theorem exchange?_eq_none_iff {test : β → Bool} {first : β} {rows : List β} :
    exchange? test first rows = none ↔ ∀ r ∈ rows, test r = false := by
  induction rows with
  | nil => simp [exchange?]
  | cons r rs ih =>
      rw [exchange?]
      cases h : test r with
      | true => simp [h]
      | false => simp [h, ih]

/-- There is no choice exactly if no row satisfies the test. -/
theorem first?_eq_none_iff {test : β → Bool} {rows : List β} :
    first? test rows = none ↔ ∀ r ∈ rows, test r = false := by
  cases rows with
  | nil => simp [first?]
  | cons r rs =>
      rw [first?]
      cases h : test r with
      | true => simp [h]
      | false => simp [h, exchange?_eq_none_iff]

theorem test_of_exchange? {test : β → Bool} {first : β} {rows : List β} {c : PivotChoice β}
    (h : exchange? test first rows = some c) : test c.pivot = true := by
  induction rows generalizing c with
  | nil => simp [exchange?] at h
  | cons r rs ih =>
      rw [exchange?] at h
      split at h
      · obtain rfl := Option.some.inj h
        assumption
      · obtain ⟨d, hd, rfl⟩ := Option.map_eq_some_iff.mp h
        have hpivot := ih hd
        exact hpivot

/-- The chosen row satisfies the test. -/
theorem test_of_first? {test : β → Bool} {rows : List β} {c : PivotChoice β}
    (h : first? test rows = some c) : test c.pivot = true := by
  cases rows with
  | nil => simp [first?] at h
  | cons r rs =>
      rw [first?] at h
      split at h
      · obtain rfl := Option.some.inj h
        assumption
      · exact test_of_exchange? h

theorem perm_of_exchange? {test : β → Bool} {first : β} {rows : List β} {c : PivotChoice β}
    (h : exchange? test first rows = some c) : (c.pivot :: c.others).Perm (first :: rows) := by
  induction rows generalizing c with
  | nil => simp [exchange?] at h
  | cons r rs ih =>
      rw [exchange?] at h
      split at h
      · obtain rfl := Option.some.inj h
        exact List.Perm.swap first r rs
      · obtain ⟨d, hd, rfl⟩ := Option.map_eq_some_iff.mp h
        have hrest : (d.pivot :: d.others).Perm (first :: rs) := ih hd
        exact (List.Perm.swap r d.pivot d.others).trans
          ((hrest.cons r).trans (List.Perm.swap first r rs))

/-- The chosen row and the others are all rows in some order. -/
theorem perm_of_first? {test : β → Bool} {rows : List β} {c : PivotChoice β}
    (h : first? test rows = some c) : (c.pivot :: c.others).Perm rows := by
  cases rows with
  | nil => simp [first?] at h
  | cons r rs =>
      rw [first?] at h
      split at h
      · obtain rfl := Option.some.inj h
        exact List.Perm.refl _
      · exact perm_of_exchange? h

/-- A choice after a first row that cannot be chosen: the row in a place, in which the first row
stands then. -/
theorem exists_place_of_exchange? {test : β → Bool} {first : β} {rows : List β}
    {c : PivotChoice β} (h : exchange? test first rows = some c) :
    ∃ k, c.offset = k + 1 ∧ rows.findIdx? test = some k ∧ rows[k]? = some c.pivot ∧
      c.others = rows.set k first := by
  induction rows generalizing c with
  | nil => simp [exchange?] at h
  | cons r rs ih =>
      rw [exchange?] at h
      split at h
      · rename_i htest
        obtain rfl := Option.some.inj h
        exact ⟨0, rfl, by simp [List.findIdx?_cons, htest], rfl, rfl⟩
      · rename_i htest
        obtain ⟨d, hd, rfl⟩ := Option.map_eq_some_iff.mp h
        obtain ⟨k, hoffset, hfind, hpivot, hothers⟩ := ih hd
        refine ⟨k + 1, by rw [hoffset], ?_, hpivot, ?_⟩
        · simp [List.findIdx?_cons, htest, hfind]
        · rw [hothers]
          rfl

theorem ne_nil_of_first? {test : β → Bool} {rows : List β} {c : PivotChoice β}
    (h : first? test rows = some c) : rows ≠ [] := by
  rintro rfl
  cases h

theorem findIdx?_of_first? {test : β → Bool} {rows : List β} {c : PivotChoice β}
    (h : first? test rows = some c) : rows.findIdx? test = some c.offset := by
  cases rows with
  | nil => simp [first?] at h
  | cons r rs =>
      rw [first?] at h
      split at h
      · rename_i htest
        obtain rfl := Option.some.inj h
        simp [List.findIdx?_cons, htest]
      · rename_i htest
        obtain ⟨k, hoffset, hfind, -, -⟩ := exists_place_of_exchange? h
        simp [List.findIdx?_cons, htest, hfind, hoffset]

/-- Two choices at the same offset whose rows are related. -/
structure Related (R : β → γ → Prop) (c : PivotChoice β) (d : PivotChoice γ) : Prop where
  offset : c.offset = d.offset
  pivot : R c.pivot d.pivot
  others : List.Forall₂ R c.others d.others

section Related

variable {R : β → γ → Prop} {test : β → Bool} {test' : γ → Bool}
  (htest : ∀ x y, R x y → test x = test' y)

include htest

theorem exchange?_related {first : β} {first' : γ} {rows : List β} {rows' : List γ}
    (hfirst : R first first') (hrows : List.Forall₂ R rows rows') :
    Option.Rel (Related R) (exchange? test first rows) (exchange? test' first' rows') := by
  induction hrows with
  | nil => exact Option.Rel.none
  | @cons r r' rs rs' hr hrs ih =>
      rw [exchange?, exchange?, htest r r' hr]
      split
      · exact Option.Rel.some ⟨rfl, hr, List.Forall₂.cons hfirst hrs⟩
      · generalize exchange? test first rs = c at ih
        generalize exchange? test' first' rs' = d at ih
        cases ih with
        | none => exact Option.Rel.none
        | some h =>
            exact Option.Rel.some
              ⟨congrArg (· + 1) h.offset, h.pivot, List.Forall₂.cons hr h.others⟩

/-- Related lists of rows give related choices. -/
theorem first?_related {rows : List β} {rows' : List γ} (hrows : List.Forall₂ R rows rows') :
    Option.Rel (Related R) (first? test rows) (first? test' rows') := by
  cases hrows with
  | nil => exact Option.Rel.none
  | @cons r r' rs rs' hr hrs =>
      rw [first?, first?, htest r r' hr]
      split
      · exact Option.Rel.some ⟨rfl, hr, hrs⟩
      · exact exchange?_related htest hr hrs

theorem first?_eq_none_of_related {rows : List β} {rows' : List γ}
    (hrows : List.Forall₂ R rows rows') (h : first? test rows = none) :
    first? test' rows' = none := by
  have hrel := first?_related htest hrows
  rw [h] at hrel
  cases hd : first? test' rows' with
  | none => rfl
  | some d => rw [hd] at hrel; cases hrel

theorem exists_first?_of_related {rows : List β} {rows' : List γ} {c : PivotChoice β}
    (hrows : List.Forall₂ R rows rows') (h : first? test rows = some c) :
    ∃ d, first? test' rows' = some d ∧ Related R c d := by
  have hrel := first?_related htest hrows
  rw [h] at hrel
  cases hd : first? test' rows' with
  | none => rw [hd] at hrel; cases hrel
  | some d =>
      rw [hd] at hrel
      cases hrel with
      | some hcd => exact ⟨d, rfl, hcd⟩

end Related

end RowReduction.PivotChoice

import RowReduction.Proofs.Reduction.Run

/-!
# Reductions of wider rows

Rows with one more entry at the end are reduced in the old columns exactly as
without it. No law of the scalars is used: the tests read the old entries only,
and the new entry of a row never reaches an old one.
-/

namespace RowReduction

open Reduction (pivotRow clear Run)

variable {α : Type} [Scalar α]

namespace Vec

/-- The second vector is the first with one more component at its end. -/
def Widens (v w : Vec α) : Prop :=
  ∃ a, w = v.push a

theorem Widens.entry_eq {v w : Vec α} (h : Widens v w) {j : Nat} (hj : j < v.dim) :
    w.entry j = v.entry j := by
  obtain ⟨a, rfl⟩ := h
  exact entry_push_of_lt v a hj

theorem Widens.pivotRow {v w : Vec α} (h : Widens v w) (normalize : Bool) (inverse : α) :
    Widens (pivotRow normalize inverse v) (pivotRow normalize inverse w) := by
  obtain ⟨a, rfl⟩ := h
  cases normalize with
  | false => exact ⟨a, rfl⟩
  | true =>
      refine ⟨inverse * a, ?_⟩
      ext1
      simp [Reduction.pivotRow, scale, map, push]

theorem Widens.clear {p q v w : Vec α} (hpivot : Widens p q) (hrow : Widens v w)
    (hdim : v.dim = p.dim) {column : Nat} (hcolumn : column < v.dim) (normalize : Bool)
    (inverse : α) :
    Widens (clear normalize column inverse p v) (clear normalize column inverse q w) := by
  have hentry : w.entry column = v.entry column := hrow.entry_eq hcolumn
  unfold Reduction.clear
  rw [hentry]
  by_cases hzero : Scalar.isZero (v.entry column) = true
  · simpa only [if_pos hzero] using hrow
  · simp only [if_neg hzero]
    obtain ⟨a, rfl⟩ := hpivot
    obtain ⟨b, rfl⟩ := hrow
    refine ⟨b + -(if normalize = true then v.entry column
      else v.entry column * inverse) * a, ?_⟩
    ext1
    exact List.zipWith_append hdim

/-- The second vector widens the first, which has the dimension. -/
def WidensFrom (n : Nat) (v w : Vec α) : Prop :=
  v.dim = n ∧ Widens v w

end Vec

namespace Reduction

open Vec

variable {normalize : Bool}

theorem isPivot_widen {n column : Nat} (hcolumn : column < n) (v w : Vec α)
    (h : WidensFrom n v w) : isPivot column v = isPivot column w := by
  rw [isPivot, isPivot, h.2.entry_eq (h.1 ▸ hcolumn)]

theorem cleared_widen {n column : Nat} {choice choice' : PivotChoice (Vec α)} (inverse : α)
    (hcolumn : column < n)
    (h : PivotChoice.Related (WidensFrom n) choice choice') :
    List.Forall₂ (WidensFrom n) (cleared normalize column inverse choice)
      (cleared normalize column inverse choice') := by
  refine List.forall₂_map_left_iff.mpr (List.forall₂_map_right_iff.mpr (h.others.imp ?_))
  rintro v w ⟨hv, hw⟩
  have hdim : v.dim = (pivotRow normalize inverse choice.pivot).dim := by
    rw [dim_pivotRow, h.pivot.1, hv]
  refine ⟨(dim_clear hdim).trans hv, ?_⟩
  exact (h.pivot.2.pivotRow normalize inverse).clear hw hdim (hv ▸ hcolumn) normalize inverse

/-- A run on rows is matched, in the same columns, by a run on the wider rows. -/
theorem Run.widen {n columns rank} {rows wide : List (Vec α)} {r : Reduction α}
    (run : Run normalize columns rank rows r) (hcolumns : ∀ c ∈ columns, c < n)
    (hwide : List.Forall₂ (WidensFrom n) rows wide) :
    ∃ s, Run normalize columns rank wide s ∧ s.events = r.events ∧ s.rank = r.rank := by
  induction run generalizing wide with
  | finished => exact ⟨_, Run.finished, rfl, rfl⟩
  | exhausted =>
      cases hwide
      exact ⟨_, Run.exhausted, rfl, rfl⟩
  | @skipped column columns rank rows tail hne hnone run ih =>
      obtain ⟨hcolumn, hcolumns⟩ := List.forall_mem_cons.mp hcolumns
      have hnone' := PivotChoice.first?_eq_none_of_related (isPivot_widen hcolumn) hwide hnone
      have hne' : wide ≠ [] := fun h => hne (List.forall₂_nil_right_iff.mp (h ▸ hwide))
      obtain ⟨s, hs, hevents, hrank⟩ := ih hcolumns hwide
      exact ⟨_, Run.skipped hne' hnone' hs, congrArg (List.cons _) hevents, hrank⟩
  | @failed column columns rank rows choice e tail hchoice hinv run ih =>
      obtain ⟨hcolumn, hcolumns⟩ := List.forall_mem_cons.mp hcolumns
      obtain ⟨choice', hchoice', hrel⟩ :=
        PivotChoice.exists_first?_of_related (isPivot_widen hcolumn) hwide hchoice
      have hentry := hrel.pivot.2.entry_eq (hrel.pivot.1 ▸ hcolumn)
      obtain ⟨s, hs, hevents, hrank⟩ := ih hcolumns (List.Forall₂.cons hrel.pivot hrel.others)
      exact ⟨s, Run.failed hchoice' (by rw [hentry, hinv]) hs, hevents, hrank⟩
  | @eliminated column columns rank rows choice inverse tail hchoice hinv run ih =>
      obtain ⟨hcolumn, hcolumns⟩ := List.forall_mem_cons.mp hcolumns
      obtain ⟨choice', hchoice', hrel⟩ :=
        PivotChoice.exists_first?_of_related (isPivot_widen hcolumn) hwide hchoice
      have hentry := hrel.pivot.2.entry_eq (hrel.pivot.1 ▸ hcolumn)
      obtain ⟨s, hs, hevents, hrank⟩ := ih hcolumns (cleared_widen inverse hcolumn hrel)
      refine ⟨_, Run.eliminated hchoice' (by rw [hentry, hinv]) hs, ?_, ?_⟩
      · rw [hevents, hrel.offset]
      · exact congrArg (· + 1) hrank

end Reduction

namespace Mat

open Vec

omit [Scalar α] in
theorem forall₂_widensFrom_augment (a : Mat α) (b : Vec α) (h : b.dim = a.nrows) :
    List.Forall₂ (WidensFrom a.ncols) a.rows (a.augment b).rows := by
  refine List.forall₂_of_length_eq_of_get ?_ ?_
  · simp only [augment, List.length_zipWith]
    exact (Nat.min_eq_left (Nat.le_of_eq h.symm)).symm
  · intro i hi hi'
    refine ⟨a.dim_row _ (List.get_mem _ _), b.toList.get ⟨i, Nat.lt_of_lt_of_eq hi h.symm⟩, ?_⟩
    simp [augment]

/-- The joined matrix is reduced in the columns of the matrix as the matrix itself is. -/
theorem exists_run_augment (a : Mat α) (b : Vec α) (h : b.dim = a.nrows) (normalize : Bool) :
    ∃ s, Run normalize (List.range a.ncols) 0 (a.augment b).rows s ∧
      s.events = (a.reduce a.ncols normalize).events ∧
      s.rank = (a.reduce a.ncols normalize).rank := by
  have run := a.run_reduce a.ncols normalize
  rw [Nat.min_self] at run
  exact run.widen (fun c hc => List.mem_range.mp hc) (a.forall₂_widensFrom_augment b h)

end Mat

end RowReduction

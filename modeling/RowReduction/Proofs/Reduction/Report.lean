import RowReduction.Complex.Scalar
import RowReduction.Proofs.Reduction.RowSpace
import RowReduction.Proofs.Reduction.Visits
import RowReduction.Proofs.Shape.Elimination
import Mathlib.Order.Bounds.Basic

/-!
# The report of a reduction

A reduction of fractions or of complex numbers reports each column that it
visits, one after the other, until no column or no row is left. The event of a
column tells which row was the first that could be its pivot, or that there was
none, and the pivots are numbered from zero on.
-/

namespace RowReduction

namespace ReductionEvent

/-- The column that an event is about. -/
def column : ReductionEvent → ℕ
  | skipped column => column
  | eliminated column _ _ => column

/-- The number of pivots set aside before the one that an event reports, if it reports one. -/
def rank? : ReductionEvent → Option ℕ
  | skipped _ => none
  | eliminated _ _ rank => some rank

end ReductionEvent

namespace Reduction

/-- The zero test and the inverse of complex numbers look at the same squared modulus, so they agree
on infinite parts and on parts that are no numbers, too. -/
theorem invertsNonzero_complex : InvertsNonzero Complex := by
  intro z h
  have hok : z.inv?.isOk = true := by
    rw [Complex.isOk_inv?, Bool.not_eq_true']
    exact h
  change ∃ w, z.inv? = .ok w
  cases hw : z.inv? with
  | error e => rw [hw] at hok; cases hok
  | ok w => exact ⟨w, rfl⟩

variable {α : Type} [Scalar α]

section Places

variable {r : Reduction α} {column : ℕ}

/-- The places, among all rows, of the rows without a pivot whose entry in a column does not count
as zero. -/
def pivotPlaces (r : Reduction α) (column : ℕ) : Set ℕ :=
  {i | r.rank ≤ i ∧ ∃ row, r.rows[i]? = some row ∧ Scalar.isZero (row.entry column) = false}

theorem rank_add_mem_pivotPlaces_iff {k : ℕ} :
    r.rank + k ∈ r.pivotPlaces column ↔
      ∃ row, r.rest[k]? = some row ∧ isPivot column row = true := by
  have hrow : r.rows[r.rank + k]? = r.rest[k]? := by
    rw [rows, rank, List.getElem?_append_right (Nat.le_add_right ..), Nat.add_sub_cancel_left]
  simp only [pivotPlaces, Set.mem_ofPred_eq, hrow, isPivot, Bool.not_eq_true', Nat.le_add_right,
    true_and]

/-- No row without a pivot can be the pivot of a column exactly if none is chosen. -/
theorem pivotPlaces_eq_empty_iff :
    r.pivotPlaces column = ∅ ↔ PivotChoice.first? (isPivot column) r.rest = none := by
  rw [Set.eq_empty_iff_forall_notMem, PivotChoice.first?_eq_none_iff]
  constructor
  · intro h row hrow
    obtain ⟨k, hk⟩ := List.mem_iff_getElem?.mp hrow
    exact Bool.of_not_eq_true fun htest =>
      h (r.rank + k) (rank_add_mem_pivotPlaces_iff.mpr ⟨row, hk, htest⟩)
  · intro h i hi
    obtain ⟨k, rfl⟩ := Nat.exists_eq_add_of_le hi.1
    obtain ⟨row, hk, htest⟩ := rank_add_mem_pivotPlaces_iff.mp hi
    exact Bool.false_ne_true ((h row (List.mem_of_getElem? hk)).symm.trans htest)

/-- The chosen row is the first one that can be the pivot. -/
theorem isLeast_pivotPlaces {choice : PivotChoice (Vec α)}
    (h : PivotChoice.first? (isPivot column) r.rest = some choice) :
    IsLeast (r.pivotPlaces column) (r.rank + choice.offset) := by
  obtain ⟨hlt, htest, hbefore⟩ :=
    List.findIdx?_eq_some_iff_getElem.mp (PivotChoice.findIdx?_of_first? h)
  constructor
  · exact rank_add_mem_pivotPlaces_iff.mpr ⟨_, List.getElem?_eq_getElem hlt, htest⟩
  · intro i hi
    obtain ⟨k, rfl⟩ := Nat.exists_eq_add_of_le hi.1
    obtain ⟨row, hk, hrow⟩ := rank_add_mem_pivotPlaces_iff.mp hi
    obtain ⟨hk, rfl⟩ := List.getElem?_eq_some_iff.mp hk
    exact Nat.add_le_add_left (Nat.le_of_not_lt fun hlt => hbefore k hlt hrow) _

end Places

/-- An event tells what the rows show when its column is visited. -/
structure Describes (r : Reduction α) (column : ℕ) (e : ReductionEvent) : Prop where
  eliminated_iff (pivotRow rank : ℕ) : e = .eliminated column pivotRow rank ↔
    rank = r.rank ∧ IsLeast (r.pivotPlaces column) pivotRow
  skipped_iff : e = .skipped column ↔ r.pivotPlaces column = ∅

/-- A visit reports one event. -/
theorem Visit.exists_event {normalize : Bool} {column : ℕ} {r s : Reduction α}
    (h : Visit normalize column r s) :
    ∃ e, s.events = r.events ++ [e] ∧ Describes r column e := by
  cases h with
  | skipped hnone =>
      have hempty : r.pivotPlaces column = ∅ := pivotPlaces_eq_empty_iff.mpr hnone
      refine ⟨_, rfl, fun pivotRow rank => ?_, iff_of_true rfl hempty⟩
      simp [hempty, IsLeast]
  | eliminated hchoice hinv =>
      have hleast := isLeast_pivotPlaces hchoice
      refine ⟨_, rfl, fun pivotRow rank => ?_, ?_⟩
      · rw [ReductionEvent.eliminated.injEq, hleast.isLeast_iff_eq]
        simp only [true_and, and_comm, eq_comm]
      · simp [hleast.nonempty.ne_empty]

/-- The report when the first columns have had their turns. The columns stand in their order, those
in whose turn no row was left are missing, and the pivots are numbered from zero on. -/
structure Records (r : Reduction α) (visited : ℕ) : Prop where
  columns_eq : r.events.map ReductionEvent.column = List.range r.events.length
  ranks_eq : r.events.filterMap ReductionEvent.rank? = List.range r.rank
  length_le : r.events.length ≤ visited
  rest_eq_nil : r.events.length < visited → r.rest = []

omit [Scalar α] in
theorem Records.length_eq {r : Reduction α} {visited : ℕ} (h : r.Records visited)
    (hrest : r.rest ≠ []) : r.events.length = visited :=
  Nat.le_antisymm h.length_le (Nat.le_of_not_lt fun hlt => hrest (h.rest_eq_nil hlt))

/-- A visit continues the report. -/
theorem Visit.records {normalize : Bool} {column : ℕ} {r s : Reduction α}
    (h : Visit normalize column r s) (hr : r.Records column) (hrest : r.rest ≠ []) :
    s.Records (column + 1) := by
  have hlength := hr.length_eq hrest
  cases h with
  | skipped hnone =>
      constructor
      · simp [hr.columns_eq, hlength, List.range_succ, ReductionEvent.column]
      · rw [List.filterMap_append, hr.ranks_eq]
        exact List.append_nil _
      · simp [hlength]
      · simp [hlength]
  | eliminated hchoice hinv =>
      constructor
      · simp [hr.columns_eq, hlength, List.range_succ, ReductionEvent.column]
      · simp [hr.ranks_eq, List.range_succ, ReductionEvent.rank?, rank]
      · simp [hlength]
      · simp [hlength]

end Reduction

namespace Mat

open Reduction

variable {α : Type} [Scalar α]

/-- The report of a reduction is faithful. -/
structure FaithfulReport (a : Mat α) (columns : ℕ) (normalize : Bool) : Prop where
  /-- As long as there are fewer pivots than rows, every column is visited, and a pivot chosen there
  has an inverse. -/
  visit (j : ℕ) (hcolumn : j < min columns a.ncols)
    (hleft : (a.reduce j normalize).rank < a.nrows) :
    Visit normalize j (a.reduce j normalize) (a.reduce (j + 1) normalize)
  /-- When there are as many, the reduction is over. -/
  stop (j : ℕ) (hcolumn : j < min columns a.ncols)
    (hfull : (a.reduce j normalize).rank = a.nrows) :
    a.reduce (j + 1) normalize = a.reduce j normalize
  /-- The columns that are visited are those that are reported. -/
  reported_iff (j : ℕ) : j < (a.reduce columns normalize).events.length ↔
    j < min columns a.ncols ∧ (a.reduce j normalize).rank < a.nrows
  /-- They are reported once each and in their order. -/
  columns_eq : (a.reduce columns normalize).events.map ReductionEvent.column =
    List.range (a.reduce columns normalize).events.length
  /-- A pivot is reported with the number of pivots before it and with the first row that can be the
  pivot, of those from this number on. -/
  eliminated_iff (j pivotRow rank : ℕ) :
    (a.reduce columns normalize).events[j]? = some (.eliminated j pivotRow rank) ↔
      j < (a.reduce columns normalize).events.length ∧ rank = (a.reduce j normalize).rank ∧
        IsLeast ((a.reduce j normalize).pivotPlaces j) pivotRow
  /-- No pivot is reported exactly if there is no such row. -/
  skipped_iff (j : ℕ) :
    (a.reduce columns normalize).events[j]? = some (.skipped j) ↔
      j < (a.reduce columns normalize).events.length ∧ (a.reduce j normalize).pivotPlaces j = ∅
  /-- The reported pivots are numbered up to the rank. -/
  ranks_eq : (a.reduce columns normalize).events.filterMap ReductionEvent.rank? =
    List.range (a.reduce columns normalize).rank
  /-- The rows from which the pivot of a column is chosen are, in their places, those that the
  reduction in place has when it comes to the column. -/
  inPlace (j : ℕ) : ∃ w, a.stored.reduce? j normalize = some w ∧
    w.rank = (a.reduce j normalize).rank ∧
    w.rows = (a.reduce j normalize).rows.map Vec.toList

section Visits

variable {a : Mat α} {normalize : Bool} {j columns : ℕ} (hinverts : InvertsNonzero α)

include hinverts

/-- The reports of the first columns. -/
theorem records_reduce (hj : j ≤ a.ncols) : (a.reduce j normalize).Records j := by
  induction j with
  | zero =>
      rw [reduce_zero]
      exact ⟨rfl, rfl, Nat.le_refl 0, fun h => absurd h (Nat.lt_irrefl 0)⟩
  | succ j ih =>
      have hrecords := ih (Nat.le_of_succ_le hj)
      by_cases hrest : (a.reduce j normalize).rest = []
      · rw [reduce_of_rest_eq_nil hrest (Nat.le_succ j) hj]
        exact ⟨hrecords.columns_eq, hrecords.ranks_eq, Nat.le_succ_of_le hrecords.length_le,
          fun _ => hrest⟩
      · exact (visit_reduce hinverts hj hrest).records hrecords hrest

/-- The event of a column in whose turn some row is left. -/
theorem exists_event_of_rest_ne_nil (hj : j < columns) (hcolumns : columns ≤ a.ncols)
    (hrest : (a.reduce j normalize).rest ≠ []) :
    ∃ e, (a.reduce columns normalize).events[j]? = some e ∧
      Describes (a.reduce j normalize) j e := by
  have hj' : j < a.ncols := hj.trans_le hcolumns
  have hlength : (a.reduce j normalize).events.length = j :=
    (records_reduce hinverts hj'.le).length_eq hrest
  obtain ⟨e, hevents, hdescribes⟩ := (visit_reduce hinverts hj' hrest).exists_event
  -- the event comes last in the report of the columns up to `j`, which begins the whole report
  obtain ⟨later, hlater⟩ := a.events_reduce_prefix normalize hj hcolumns
  refine ⟨e, ?_, hdescribes⟩
  rw [← hlater, hevents, List.append_assoc, List.getElem?_append_right hlength.le, hlength,
    Nat.sub_self]
  rfl

/-- A column is reported exactly if it is one of the columns of the reduction and some row is left
in its turn. -/
theorem lt_length_events_iff (hcolumns : columns ≤ a.ncols) :
    j < (a.reduce columns normalize).events.length ↔
      j < columns ∧ (a.reduce j normalize).rest ≠ [] := by
  constructor
  · intro hj
    have hlt : j < columns := hj.trans_le (records_reduce hinverts hcolumns).length_le
    refine ⟨hlt, fun hrest => ?_⟩
    -- the report would be that of the columns before `j`, which has no event for `j`
    rw [reduce_of_rest_eq_nil hrest hlt.le hcolumns] at hj
    exact absurd hj (Nat.not_lt_of_le (records_reduce hinverts (hlt.le.trans hcolumns)).length_le)
  · rintro ⟨hlt, hrest⟩
    obtain ⟨e, he, -⟩ := exists_event_of_rest_ne_nil hinverts hlt hcolumns hrest
    exact (List.getElem?_eq_some_iff.mp he).1

/-- A report has an event in a place exactly if the column is reported and the rows show what the
event says. -/
theorem events_getElem?_eq_some_iff (hcolumns : columns ≤ a.ncols) {event : ReductionEvent}
    {shown : Prop} (h : ∀ e, Describes (a.reduce j normalize) j e → (e = event ↔ shown)) :
    (a.reduce columns normalize).events[j]? = some event ↔
      j < (a.reduce columns normalize).events.length ∧ shown := by
  by_cases hj : j < (a.reduce columns normalize).events.length
  · obtain ⟨hlt, hrest⟩ := (lt_length_events_iff hinverts hcolumns).mp hj
    obtain ⟨e, he, hdescribes⟩ := exists_event_of_rest_ne_nil hinverts hlt hcolumns hrest
    rw [he, Option.some_inj, h e hdescribes, and_iff_right hj]
  · rw [List.getElem?_eq_none (Nat.le_of_not_lt hj)]
    simp [hj]

/-- The report is faithful for all scalars whose zero test finds every value without an inverse. -/
theorem faithfulReport_of_invertsNonzero (a : Mat α) (columns : ℕ) (normalize : Bool) :
    a.FaithfulReport columns normalize := by
  have hcolumns : min columns a.ncols ≤ a.ncols := Nat.min_le_right ..
  have hrecords : (a.reduce (min columns a.ncols) normalize).Records (min columns a.ncols) :=
    records_reduce hinverts hcolumns
  rw [reduce_min] at hrecords
  constructor
  case visit =>
    intro j hcolumn hleft
    exact visit_reduce hinverts (hcolumn.trans_le hcolumns)
      ((a.rank_reduce_lt_nrows_iff normalize j).mp hleft)
  case stop =>
    intro j hcolumn hfull
    have hrest : (a.reduce j normalize).rest = [] := by
      by_contra hne
      exact absurd hfull (Nat.ne_of_lt ((a.rank_reduce_lt_nrows_iff normalize j).mpr hne))
    exact reduce_of_rest_eq_nil hrest (Nat.le_succ j) (hcolumn.trans_le hcolumns)
  case reported_iff =>
    intro j
    rw [a.rank_reduce_lt_nrows_iff normalize j, ← lt_length_events_iff hinverts hcolumns,
      reduce_min]
  case columns_eq => exact hrecords.columns_eq
  case ranks_eq => exact hrecords.ranks_eq
  case eliminated_iff =>
    intro j pivotRow rank
    rw [← a.reduce_min normalize columns]
    exact events_getElem?_eq_some_iff hinverts hcolumns fun e h => h.eliminated_iff pivotRow rank
  case skipped_iff =>
    intro j
    rw [← a.reduce_min normalize columns]
    exact events_getElem?_eq_some_iff hinverts hcolumns fun e h => h.skipped_iff
  case inPlace => exact fun j => a.exists_reduce?_stored j normalize

end Visits

/-- The report of every reduction of fractions, and of complex numbers with any parts, is faithful:
no pivot is without an inverse, the columns are reported without a gap until they or the rows are
used up, each with the first row that can be its pivot or with none, and the pivots are numbered up
to the rank. -/
theorem faithful_report :
    (∀ (a : Mat Fraction) (columns : ℕ) (normalize : Bool), a.FaithfulReport columns normalize) ∧
    ∀ (a : Mat Complex) (columns : ℕ) (normalize : Bool), a.FaithfulReport columns normalize :=
  ⟨faithfulReport_of_invertsNonzero invertsNonzero_fraction,
    faithfulReport_of_invertsNonzero invertsNonzero_complex⟩

end Mat

end RowReduction

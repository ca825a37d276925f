import RowReduction.Vec.Text
import RowReduction.Proofs.Complex.Written
import RowReduction.Proofs.Fraction.Written
import Mathlib.Data.List.Forall2

/-!
# Texts of vectors

A vector is written as a body in parentheses, with blanks around the whole, and
the commas of the body divide it into the texts of the components. Reading
accepts a text exactly if it has this form and the scalars' reader accepts all
parts. What it refuses in parentheses it refuses because of the first part that
is no scalar.
-/

namespace RowReduction

open Text

/-- Blanks around a text do not decide whether and as what it is read, and there has to be
something else. -/
structure Scalar.IgnoresBlanks (α : Type) [Scalar α] : Prop where
  trim_iff (cs : List Char) (a : α) :
    parse? (String.ofList (trim cs)) = .ok a ↔ parse? (String.ofList cs) = .ok a
  ne_empty (a : α) : parse? (String.ofList []) ≠ .ok a

theorem Scalar.IgnoresBlanks.forall₂_iff {α : Type} [Scalar α] (hα : IgnoresBlanks α)
    {parts : List (List Char)} {as : List α} :
    List.Forall₂ (fun part a => parse? (String.ofList (trim part)) = .ok a) parts as ↔
      List.Forall₂ (fun part a => parse? (String.ofList part) = .ok a) parts as := by
  simp only [hα.trim_iff]

theorem Fraction.ignoresBlanks : Scalar.IgnoresBlanks Fraction where
  trim_iff cs a := by
    have hread : ∀ text : String, Scalar.parse? text = .ok a ↔
        ofTrimmed? (trim text.toList) = .ok a := by
      intro text
      change (ofTrimmed? (trim text.toList)).mapError _ = .ok a ↔ _
      cases ofTrimmed? (trim text.toList) <;> simp [Except.mapError]
    rw [hread, hread, String.toList_ofList, String.toList_ofList, trim_trim]
  ne_empty a h := by cases h

theorem Complex.ignoresBlanks : Scalar.IgnoresBlanks Complex where
  trim_iff cs z := by
    rw [ComplexText.parse?_eq_ok_iff, ComplexText.parse?_eq_ok_iff, String.toList_ofList,
      String.toList_ofList, normalize, normalize, removeBlanks_trim]
  ne_empty z h := by cases h

namespace Vec

section Parentheses

/-- The text without its blank ends is the body in parentheses. -/
def Encloses (s : String) (body : List Char) : Prop :=
  trim s.toList = '(' :: (body ++ [')'])

/-- Taking off the parentheses undoes putting them on. -/
theorem between?_eq_some_iff {cs body : List Char} :
    between? cs = some body ↔ cs = '(' :: (body ++ [')']) := by
  constructor
  · intro h
    unfold between? at h
    split at h
    · rw [Option.ite_none_right_eq_some, Option.some.injEq] at h
      obtain ⟨hlast, rfl⟩ := h
      rw [List.dropLast_append_getLast? _ hlast]
    · cases h
  · rintro rfl
    simp [between?]

theorem Encloses.unique {s : String} {body body' : List Char} (h : Encloses s body)
    (h' : Encloses s body') : body = body' :=
  List.append_cancel_right (List.cons.inj (h.symm.trans h')).2

/-- Commas are one less than the parts that they divide a body into. -/
theorem length_splitOn (body : List Char) : (body.splitOn ',').length = body.count ',' + 1 := by
  induction body with
  | nil => rfl
  | cons c body ih =>
      rw [List.splitOn_cons_eq_if_modifyHead, List.count_cons]
      split
      · rw [List.length_cons, ih]
      · rw [List.length_modifyHead, ih, Nat.add_zero]

/-- A blank body is a single part. -/
theorem splitOn_of_blank {body : List Char} (h : ∀ c ∈ body, isBlank c = true) :
    body.splitOn ',' = [body] := by
  apply List.splitOn_eq_singleton
  intro hcomma
  cases h ',' hcomma

end Parentheses

section Items

variable {β γ : Type} {f : β → Except Error γ} {xs : List β}

theorem forall_exists_of_forall₂ {R : β → γ → Prop} {ys : List γ} (h : List.Forall₂ R xs ys) :
    ∀ x ∈ xs, ∃ y, R x y := by
  have hboth : List.Forall₂ (fun x y => (∃ y, R x y) ∧ R x y) xs ys :=
    h.imp fun x y hxy => ⟨⟨y, hxy⟩, hxy⟩
  exact ((List.forall₂_and_left _ _).mp hboth).1

/-- The results are all there exactly if each item has its result. -/
theorem mapM_eq_ok_iff {ys : List γ} :
    xs.mapM f = .ok ys ↔ List.Forall₂ (fun x y => f x = .ok y) xs ys := by
  induction xs generalizing ys with
  | nil => simp [pure, Except.pure, eq_comm]
  | cons x xs ih =>
      rw [List.mapM_cons, List.forall₂_cons_left_iff]
      simp only [← ih]
      cases f x with
      | error e => simp [bind, Except.bind]
      | ok y =>
          cases xs.mapM f with
          | error e => simp [bind, Except.bind]
          | ok zs => simp [bind, Except.bind, pure, Except.pure, eq_comm]

/-- The cause of a failure is that of the first item without a result. -/
theorem exists_of_mapM_eq_error {e : Error} (h : xs.mapM f = .error e) :
    ∃ earlier x later, xs = earlier ++ x :: later ∧ (∀ y ∈ earlier, ∃ z, f y = .ok z) ∧
      f x = .error e := by
  induction xs with
  | nil => cases h
  | cons x xs ih =>
      rw [List.mapM_cons] at h
      cases hx : f x with
      | error e' =>
          rw [hx] at h
          obtain rfl := Except.error.inj h
          exact ⟨[], x, xs, rfl, by simp, hx⟩
      | ok z =>
          have hxs : xs.mapM f = .error e := by
            cases hmap : xs.mapM f with
            | error e' => rw [hx, hmap] at h; exact congrArg Except.error (Except.error.inj h)
            | ok zs => rw [hx, hmap] at h; cases h
          obtain ⟨earlier, y, later, rfl, hearlier, hy⟩ := ih hxs
          refine ⟨x :: earlier, y, later, rfl, ?_, hy⟩
          rintro w hw
          rcases List.mem_cons.mp hw with rfl | hw
          · exact ⟨z, hx⟩
          · exact hearlier w hw

end Items

variable {α : Type} [Scalar α]

section Parts

variable {text part : List Char} {parts : List (List Char)} {i : Nat}

theorem readComponent?_eq_ok_iff {a : α} :
    readComponent? text part i = .ok a ↔ Scalar.parse? (String.ofList (trim part)) = .ok a := by
  rw [readComponent?]
  cases (Scalar.parse? (String.ofList (trim part)) : Except Error α) <;> simp [Except.mapError]

theorem readComponent?_eq_error_iff {e : Error} :
    (readComponent? text part i : Except Error α) = .error e ↔
      ∃ cause, (Scalar.parse? (String.ofList (trim part)) : Except Error α) = .error cause ∧
        e = .badComponent i (String.ofList (trim part)) (String.ofList text) cause := by
  rw [readComponent?]
  cases (Scalar.parse? (String.ofList (trim part)) : Except Error α) <;>
    simp [Except.mapError, eq_comm]

/-- The components are read if each part is read, trimmed, as the component in its place. -/
theorem mapM_readComponent?_eq_ok_iff (text : List Char) {as : List α} :
    (parts.zipIdx.mapM fun p => readComponent? text p.1 p.2) = .ok as ↔
      List.Forall₂ (fun part a => Scalar.parse? (String.ofList (trim part)) = .ok a) parts as := by
  simp only [mapM_eq_ok_iff, readComponent?_eq_ok_iff]
  nth_rewrite 2 [← List.zipIdx_map_fst 0 parts]
  rw [List.forall₂_map_left_iff]

/-- Reading the components stops at the first part that is refused, and names it. -/
theorem exists_of_mapM_readComponent? {e : Error}
    (h : (parts.zipIdx.mapM fun p => readComponent? (α := α) text p.1 p.2) = .error e) :
    ∃ i part cause, parts[i]? = some part ∧
      (∀ k < i, ∀ p, parts[k]? = some p →
        ∃ a : α, Scalar.parse? (String.ofList (trim p)) = .ok a) ∧
      (Scalar.parse? (String.ofList (trim part)) : Except Error α) = .error cause ∧
      e = .badComponent i (String.ofList (trim part)) (String.ofList text) cause := by
  obtain ⟨earlier, ⟨part, i⟩, later, hsplit, hearlier, hrefused⟩ := exists_of_mapM_eq_error h
  obtain ⟨cause, hcause, rfl⟩ := readComponent?_eq_error_iff.mp hrefused
  have hplace : parts.zipIdx[earlier.length]? = some (part, i) := by
    rw [hsplit, List.getElem?_append_right (Nat.le_refl _), Nat.sub_self]
    rfl
  rw [List.getElem?_zipIdx, Option.map_eq_some_iff] at hplace
  obtain ⟨part', hpart, hpair⟩ := hplace
  obtain ⟨rfl, rfl⟩ := Prod.mk.inj hpair
  rw [Nat.zero_add] at *
  refine ⟨earlier.length, part', cause, hpart, ?_, hcause, rfl⟩
  intro k hk p hp
  have hearlierPlace : earlier[k]? = some (p, k) :=
    calc
      earlier[k]? = parts.zipIdx[k]? := by rw [hsplit, List.getElem?_append_left hk]
      _ = some (p, k) := by rw [List.getElem?_zipIdx, hp, Option.map_some, Nat.zero_add]
  obtain ⟨a, ha⟩ := hearlier (p, k) (List.mem_of_getElem? hearlierPlace)
  exact ⟨a, readComponent?_eq_ok_iff.mp ha⟩

end Parts

section Reading

variable {s : String} {body : List Char}

/-- A text that is not in parentheses is refused. -/
theorem parse?_of_not_encloses (h : ¬ ∃ body, Encloses s body) :
    (parse? s : Except Error (Vec α)) = .error (.notVector (String.ofList (trim s.toList))) := by
  have hnone : between? (trim s.toList) = none := by
    rw [Option.eq_none_iff_forall_not_mem]
    intro body hbody
    exact h ⟨body, between?_eq_some_iff.mp hbody⟩
  simp [parse?, hnone]

/-- Parentheses around blanks are refused. -/
theorem parse?_of_blank (hs : Encloses s body) (h : ∀ c ∈ body, isBlank c = true) :
    (parse? s : Except Error (Vec α)) = .error (.noComponents (String.ofList (trim s.toList))) := by
  simp [parse?, between?_eq_some_iff.mpr hs, trim_eq_nil_iff.mpr h]

/-- Of any other body the parts are read. -/
theorem parse?_of_body (hs : Encloses s body) (h : ∃ c ∈ body, isBlank c = false) :
    (parse? s : Except Error (Vec α)) =
      ((body.splitOn ',').zipIdx.mapM fun p => readComponent? (trim s.toList) p.1 p.2) >>=
        ofList? := by
  have hne : trim body ≠ [] := by
    rw [Ne, trim_eq_nil_iff]
    obtain ⟨c, hc, hblank⟩ := h
    intro hall
    rw [hall c hc] at hblank
    cases hblank
  simp [parse?, between?_eq_some_iff.mpr hs, hne]

omit [Scalar α] in
theorem ofList?_eq_ok_iff {as : List α} {v : Vec α} : ofList? as = .ok v ↔ as = v.toList := by
  constructor
  · intro h
    cases as with
    | nil => cases h
    | cons a as =>
        obtain rfl := Except.ok.inj h
        rfl
  · rintro rfl
    exact ofList?_toList v

/-- The parts of a body that is not blank are read, trimmed, as the components. -/
theorem parse?_of_body_eq_ok_iff {v : Vec α} (hs : Encloses s body)
    (h : ∃ c ∈ body, isBlank c = false) :
    parse? s = .ok v ↔ List.Forall₂
      (fun part a => Scalar.parse? (String.ofList (trim part)) = .ok a)
      (body.splitOn ',') v.toList := by
  rw [parse?_of_body hs h, ← mapM_readComponent?_eq_ok_iff (trim s.toList)]
  cases (body.splitOn ',').zipIdx.mapM fun p => readComponent? (α := α) (trim s.toList) p.1 p.2 with
  | error e => simp [bind, Except.bind]
  | ok as =>
      rw [Except.ok.injEq]
      exact ofList?_eq_ok_iff

/-- A body is not blank if its parts are read. -/
theorem exists_of_parts (hα : Scalar.IgnoresBlanks α)
    (h : ∀ part ∈ body.splitOn ',', ∃ a : α, Scalar.parse? (String.ofList part) = .ok a) :
    ∃ c ∈ body, isBlank c = false := by
  by_contra hnone
  have hblank : ∀ c ∈ body, isBlank c = true := by simpa using hnone
  rw [splitOn_of_blank hblank] at h
  obtain ⟨a, ha⟩ := h body List.mem_cons_self
  rw [← hα.trim_iff, trim_eq_nil_iff.mpr hblank] at ha
  exact hα.ne_empty a ha

/-- A text is read as a vector exactly if it is a body in parentheses whose parts are read as the
components. -/
theorem parse?_eq_ok_iff (hα : Scalar.IgnoresBlanks α) {v : Vec α} :
    parse? s = .ok v ↔ ∃ body, Encloses s body ∧
      List.Forall₂ (fun part a => Scalar.parse? (String.ofList part) = .ok a)
        (body.splitOn ',') v.toList := by
  constructor
  · intro h
    by_cases hs : ∃ body, Encloses s body
    · obtain ⟨body, hs⟩ := hs
      by_cases hbody : ∃ c ∈ body, isBlank c = false
      · exact ⟨body, hs, hα.forall₂_iff.mp ((parse?_of_body_eq_ok_iff hs hbody).mp h)⟩
      · rw [parse?_of_blank hs (by simpa using hbody)] at h
        cases h
    · rw [parse?_of_not_encloses hs] at h
      cases h
  · rintro ⟨body, hs, hparts⟩
    apply (parse?_of_body_eq_ok_iff hs ?_).mpr (hα.forall₂_iff.mpr hparts)
    exact exists_of_parts hα (forall_exists_of_forall₂ hparts)

/-- What is refused of a body that is not blank is its first part that is refused. -/
theorem badComponent_of_parse? {e : Error} (hs : Encloses s body)
    (hbody : ∃ c ∈ body, isBlank c = false) (h : (parse? s : Except Error (Vec α)) = .error e) :
    ∃ i part cause, (body.splitOn ',')[i]? = some part ∧
      (∀ k < i, ∀ p, (body.splitOn ',')[k]? = some p →
        ∃ a : α, Scalar.parse? (String.ofList (trim p)) = .ok a) ∧
      (Scalar.parse? (String.ofList (trim part)) : Except Error α) = .error cause ∧
      e = .badComponent i (String.ofList (trim part)) (String.ofList (trim s.toList)) cause := by
  rw [parse?_of_body hs hbody] at h
  cases hread : (body.splitOn ',').zipIdx.mapM
      fun p => readComponent? (α := α) (trim s.toList) p.1 p.2 with
  | error e' =>
      rw [hread] at h
      obtain rfl := Except.error.inj h
      exact exists_of_mapM_readComponent? hread
  | ok as =>
      have hlength := ((mapM_readComponent?_eq_ok_iff _).mp hread).length_eq
      cases as with
      | nil => exact absurd (List.length_eq_zero_iff.mp hlength) (List.splitOn_ne_nil _ _)
      | cons a as => rw [hread] at h; cases h

/-- A text that is no vector is refused as one of the wrong format. -/
theorem kind_of_parse? {e : Error} (h : (parse? s : Except Error (Vec α)) = .error e) :
    e.kind = .invalidFormat := by
  by_cases hs : ∃ body, Encloses s body
  · obtain ⟨body, hs⟩ := hs
    by_cases hbody : ∃ c ∈ body, isBlank c = false
    · obtain ⟨i, part, cause, -, -, -, rfl⟩ := badComponent_of_parse? hs hbody h
      rfl
    · rw [parse?_of_blank hs (by simpa using hbody)] at h
      obtain rfl := Except.error.inj h
      rfl
  · rw [parse?_of_not_encloses hs] at h
    obtain rfl := Except.error.inj h
    rfl

end Reading

section Parts

/-- The text is a body in parentheses, and each part between the commas of the body is read. -/
def Readable (α : Type) [Scalar α] (s : String) : Prop :=
  ∃ body, Encloses s body ∧
    ∀ part ∈ body.splitOn ',', ∃ a : α, Scalar.parse? (String.ofList part) = .ok a

/-- What reading a text comes to, part by part. -/
structure ReadsByParts (α : Type) [Scalar α] (s : String) : Prop where
  /-- The readable texts are read. -/
  ok_iff : (∃ v : Vec α, parse? s = .ok v) ↔ Readable α s
  /-- All other texts are refused as texts of the wrong format. -/
  error_iff : (∃ e, (parse? s : Except Error (Vec α)) = .error e ∧ e.kind = .invalidFormat) ↔
    ¬ Readable α s
  /-- There is one component more than commas, and each one is read from the part in its place. -/
  components (body : List Char) (v : Vec α) : Encloses s body → parse? s = .ok v →
    v.dim = body.count ',' + 1 ∧ ∀ i part, (body.splitOn ',')[i]? = some part →
      v.get? i = Scalar.parse? (String.ofList (trim part))
  /-- The message about a body names the first part that is refused, with the scalars' message. -/
  message (body : List Char) (e : Error) : Encloses s body → (∃ c ∈ body, isBlank c = false) →
    (parse? s : Except Error (Vec α)) = .error e →
      ∃ (i : Nat) (part : List Char) (cause : Error), (body.splitOn ',')[i]? = some part ∧
        (∀ k < i, ∀ p, (body.splitOn ',')[k]? = some p →
          ∃ a : α, Scalar.parse? (String.ofList (trim p)) = .ok a) ∧
        (Scalar.parse? (String.ofList (trim part)) : Except Error α) = .error cause ∧
        e.message = "invalid format: " ++ ("component " ++ toString i ++ " ('" ++
          String.ofList (trim part) ++ "') in '" ++ String.ofList (trim s.toList) ++ "': " ++
          cause.message)

variable {s : String} {body : List Char}

theorem exists_parse?_iff (hα : Scalar.IgnoresBlanks α) :
    (∃ v : Vec α, parse? s = .ok v) ↔ Readable α s := by
  constructor
  · rintro ⟨v, h⟩
    obtain ⟨body, hs, hparts⟩ := (parse?_eq_ok_iff hα).mp h
    exact ⟨body, hs, forall_exists_of_forall₂ hparts⟩
  · rintro ⟨body, hs, hparts⟩
    cases hread : (parse? s : Except Error (Vec α)) with
    | ok v => exact ⟨v, rfl⟩
    | error e =>
        obtain ⟨i, part, cause, hpart, -, hcause, -⟩ :=
          badComponent_of_parse? hs (exists_of_parts hα hparts) hread
        obtain ⟨a, ha⟩ := hparts part (List.mem_of_getElem? hpart)
        rw [(hα.trim_iff part a).mpr ha] at hcause
        cases hcause

/-- Each component is read from the part in its place. -/
theorem components_of_parse? (hα : Scalar.IgnoresBlanks α) {v : Vec α} (hs : Encloses s body)
    (h : parse? s = .ok v) :
    v.dim = body.count ',' + 1 ∧ ∀ i part, (body.splitOn ',')[i]? = some part →
      v.get? i = Scalar.parse? (String.ofList (trim part)) := by
  obtain ⟨body', hs', hparts⟩ := (parse?_eq_ok_iff hα).mp h
  obtain rfl := hs.unique hs'
  constructor
  · rw [dim, ← hparts.length_eq, length_splitOn]
  · intro i part hpart
    obtain ⟨hi, rfl⟩ := List.getElem?_eq_some_iff.mp hpart
    have hcomponent : i < v.toList.length := hparts.length_eq ▸ hi
    have hread : Scalar.parse? (String.ofList (body.splitOn ',')[i]) = .ok v.toList[i] :=
      hparts.get hi hcomponent
    rw [(hα.trim_iff _ _).mpr hread, get?, List.getElem?_eq_getElem hcomponent]

theorem readsByParts (hα : Scalar.IgnoresBlanks α) (s : String) : ReadsByParts α s where
  ok_iff := exists_parse?_iff hα
  error_iff := by
    rw [← exists_parse?_iff hα]
    constructor
    · rintro ⟨e, he, -⟩ ⟨v, hv⟩
      rw [he] at hv
      cases hv
    · intro hnone
      cases hread : (parse? s : Except Error (Vec α)) with
      | ok v => exact absurd ⟨v, hread⟩ hnone
      | error e => exact ⟨e, rfl, kind_of_parse? hread⟩
  components body v := components_of_parse? hα
  message body e hs hbody h := by
    obtain ⟨i, part, cause, hpart, hearlier, hcause, rfl⟩ := badComponent_of_parse? hs hbody h
    refine ⟨i, part, cause, hpart, hearlier, hcause, ?_⟩
    have hlabel : ErrorKind.label .invalidFormat ++ ": " = "invalid format: " := by decide
    rw [← hlabel]
    rfl

/-- Every text is read or refused by its parts, both as a vector of fractions and as one of
complex numbers. -/
theorem parse?_by_parts (s : String) : ReadsByParts Fraction s ∧ ReadsByParts Complex s :=
  ⟨readsByParts Fraction.ignoresBlanks s, readsByParts Complex.ignoresBlanks s⟩

-- Two parts are refused here, and the first one is named.
example : (parse? " (1/2, x,y)" : Except Error (Vec Fraction)) =
    .error (.badComponent 1 "x" "(1/2, x,y)" (.notFraction "x" .noSeparator)) :=
  rfl

end Parts

end Vec

end RowReduction

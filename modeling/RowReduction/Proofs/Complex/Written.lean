import RowReduction.Complex.Scalar
import RowReduction.Proofs.Text.Literal
import Mathlib.Data.List.Chain
import Mathlib.Data.Set.Subsingleton

/-!
# Texts of complex numbers

Without blanks, a complex number is written as a real part, as a coefficient of
the imaginary unit, or as a real part and a coefficient that starts with a sign.
Parts are decimal literals that do not round to an infinity. Inside a literal a
sign stands only at the start or after the mark of an exponent, so the last
other sign of a text divides it in the only way there is. Reading accepts
exactly these texts, and refuses every other one as a text of the wrong format.
-/

namespace RowReduction

open Text

namespace Complex

section Cuts

/-- The second of two neighbouring characters is no sign, or follows the mark of an exponent. -/
def SignAfterMark (c d : Char) : Prop :=
  isSign d = true → isExponentMark c = true

/-- A text is not cut if each of its signs follows the mark of an exponent. -/
theorem cutAfter?_eq_none_iff {previous : Char} {cs : List Char} :
    cutAfter? previous cs = none ↔ (previous :: cs).IsChain SignAfterMark := by
  induction cs generalizing previous with
  | nil => simp [cutAfter?]
  | cons c cs ih =>
      rw [List.isChain_cons_cons, ← ih, cutAfter?]
      cases hcut : cutAfter? c cs with
      | some p => simp
      | none => simp [SignAfterMark]

/-- A text is not cut if each of its signs is the first character or follows the mark of an
exponent. -/
theorem cut?_eq_none_iff {cs : List Char} : cut? cs = none ↔ cs.IsChain SignAfterMark := by
  cases cs with
  | nil => simp [cut?]
  | cons c cs => rw [cut?, Option.map_eq_none_iff, cutAfter?_eq_none_iff]

theorem cutAfter?_append {c : Char} {rest : List Char} (hc : isSign c = true)
    (hrest : (c :: rest).IsChain SignAfterMark) (part : List Char) {previous : Char}
    (hlast : ∀ d ∈ (previous :: part).getLast?, isExponentMark d = false) :
    cutAfter? previous (part ++ c :: rest) = some (part, c :: rest) := by
  induction part generalizing previous with
  | nil =>
      have hprevious : isExponentMark previous = false := hlast previous rfl
      simp [cutAfter?, cutAfter?_eq_none_iff.mpr hrest, hc, hprevious]
  | cons d part ih =>
      rw [List.cons_append, cutAfter?, ih (by simpa using hlast)]

/-- A text is cut before a sign that does not follow a mark, if the signs after it all do. -/
theorem cut?_append {part rest : List Char} {c : Char} (hne : part ≠ [])
    (hlast : ∀ d ∈ part.getLast?, isExponentMark d = false) (hc : isSign c = true)
    (hrest : (c :: rest).IsChain SignAfterMark) :
    cut? (part ++ c :: rest) = some (part, c :: rest) := by
  cases part with
  | nil => exact absurd rfl hne
  | cons d part => rw [List.cons_append, cut?, cutAfter?_append hc hrest part hlast]; rfl

theorem append_of_cutAfter? {previous : Char} {cs part rest : List Char}
    (h : cutAfter? previous cs = some (part, rest)) :
    part ++ rest = cs ∧ ∃ c ∈ rest.head?, isSign c = true := by
  induction cs generalizing previous part with
  | nil => cases h
  | cons c cs ih =>
      rw [cutAfter?] at h
      cases hcut : cutAfter? c cs with
      | some p =>
          simp only [hcut, Option.some.injEq, Prod.mk.injEq] at h
          obtain ⟨rfl, rfl⟩ := h
          obtain ⟨hcs, hsign⟩ := ih hcut
          exact ⟨congrArg (c :: ·) hcs, hsign⟩
      | none =>
          simp only [hcut, Option.ite_none_right_eq_some, Option.some.injEq, Prod.mk.injEq,
            Bool.and_eq_true] at h
          obtain ⟨⟨hsign, -⟩, rfl, rfl⟩ := h
          exact ⟨rfl, c, rfl, hsign⟩

/-- The parts of a text that is cut make up the text, and the second one starts with a sign. -/
theorem append_of_cut? {cs part rest : List Char} (h : cut? cs = some (part, rest)) :
    part ++ rest = cs ∧ ∃ c ∈ rest.head?, isSign c = true := by
  cases cs with
  | nil => cases h
  | cons c cs =>
      obtain ⟨p, hcut, hp⟩ := Option.map_eq_some_iff.mp h
      obtain ⟨rfl, rfl⟩ := Prod.mk.inj hp
      obtain ⟨hcs, hsign⟩ := append_of_cutAfter? hcut
      exact ⟨congrArg (c :: ·) hcs, hsign⟩

end Cuts

end Complex

namespace Text.Literal

open RowReduction.Complex

variable {l : Literal}

theorem isSign_of_isDigit {c : Char} (h : c.isDigit = true) : isSign c = false := by
  simp [isSign, not_sign_of_isDigit h]

/-- Characters that are no signs may stand before a text in any number. -/
theorem isChain_run_append {run rest : List Char} (hrun : ∀ c ∈ run, isSign c = false)
    (hrest : rest.IsChain SignAfterMark) (hhead : ∀ c ∈ rest.head?, isSign c = false) :
    (run ++ rest).IsChain SignAfterMark := by
  induction run with
  | nil => exact hrest
  | cons c run ih =>
      rw [List.cons_append, List.isChain_cons]
      refine ⟨fun d hd hsign => ?_, ih fun d hd => hrun d (List.mem_cons_of_mem c hd)⟩
      have hnone : isSign d = false := by
        cases run with
        | nil => exact hhead d hd
        | cons e run =>
            obtain rfl : e = d := by simpa using hd
            exact hrun e (by simp)
      rw [hnone] at hsign
      cases hsign

/-- A sign may stand before a text that does not start with a sign. -/
theorem isChain_sign_append (σ : Sign) {rest : List Char} (hrest : rest.IsChain SignAfterMark)
    (hhead : ∀ c ∈ rest.head?, isSign c = false) : (σ.text ++ rest).IsChain SignAfterMark := by
  have hstep : ∀ s, ∀ c ∈ rest.head?, SignAfterMark s c := by
    intro s c hc hsign
    rw [hhead c hc] at hsign
    cases hsign
  cases σ with
  | implied => exact hrest
  | plus => exact List.isChain_cons.mpr ⟨hstep '+', hrest⟩
  | minus => exact List.isChain_cons.mpr ⟨hstep '-', hrest⟩

theorem WellFormed.isChain_exponentText (h : l.WellFormed) :
    l.exponentText.IsChain SignAfterMark := by
  unfold exponentText
  cases hx : l.exponent with
  | none => exact List.isChain_nil
  | some x =>
      have hform := h.exponent_form x hx
      have hdigits : ∀ c ∈ x.digits, isSign c = false :=
        fun c hc => isSign_of_isDigit (hform.digits c hc)
      have hchain : x.digits.IsChain SignAfterMark := by
        simpa using isChain_run_append hdigits List.isChain_nil (by simp)
      refine List.isChain_cons.mpr ⟨fun c _ _ => ?_, isChain_sign_append x.sign hchain
        fun c hc => hdigits c (List.mem_of_mem_head? hc)⟩
      simpa [isExponentMark] using hform.mark

/-- The characters before the exponent are digits and points. -/
theorem WellFormed.mem_mantissa (h : l.WellFormed) :
    ∀ c ∈ l.whole ++ l.fractionText, c.isDigit = true ∨ c = '.' := by
  intro c hc
  have hplaces := h.places_digits
  unfold fractionText places at *
  rcases List.mem_append.mp hc with hc | hc
  · exact Or.inl (h.whole_digits c hc)
  · cases hf : l.fraction with
    | none => simp [hf] at hc
    | some ds =>
        rcases List.mem_cons.mp (by simpa [hf] using hc) with rfl | hc
        · exact Or.inr rfl
        · exact Or.inl (hplaces c (by simpa [hf] using hc))

theorem WellFormed.mantissa_ne_nil (h : l.WellFormed) : l.whole ++ l.fractionText ≠ [] := by
  intro hnil
  obtain ⟨hwhole, hfraction⟩ := List.append_eq_nil_iff.mp hnil
  refine h.ne_nil ?_
  unfold fractionText at hfraction
  cases hf : l.fraction with
  | none => rw [hwhole, Literal.places, hf]; rfl
  | some ds => simp [hf] at hfraction

theorem WellFormed.unsignedText_ne_nil (h : l.WellFormed) : l.unsignedText ≠ [] := by
  rw [unsignedText, ← List.append_assoc]
  exact List.append_ne_nil_of_left_ne_nil h.mantissa_ne_nil _

theorem WellFormed.text_ne_nil (h : l.WellFormed) : l.text ≠ [] :=
  List.append_ne_nil_of_right_ne_nil _ h.unsignedText_ne_nil

/-- In a literal each sign is the first character or follows the mark of an exponent. -/
theorem WellFormed.isChain_text (h : l.WellFormed) : l.text.IsChain SignAfterMark := by
  have hpoint : isSign '.' = false := rfl
  refine isChain_sign_append l.sign ?_ fun c hc => ?_
  · rw [unsignedText, ← List.append_assoc]
    refine isChain_run_append (fun c hc => ?_) h.isChain_exponentText fun c hc => ?_
    · rcases h.mem_mantissa c hc with hdigit | rfl
      · exact isSign_of_isDigit hdigit
      · exact hpoint
    · unfold exponentText at hc
      cases hx : l.exponent with
      | none => simp [hx] at hc
      | some x =>
          obtain rfl : x.mark = c := by simpa [hx, Exponent.text] using hc
          rcases (h.exponent_form x hx).mark with hmark | hmark <;> rw [hmark] <;> rfl
  · rcases h.head_unsignedText c hc with hdigit | rfl
    · exact isSign_of_isDigit hdigit
    · exact hpoint

/-- A literal ends in a digit or a point. -/
theorem WellFormed.last_text (h : l.WellFormed) :
    ∀ c ∈ l.text.getLast?, c.isDigit = true ∨ c = '.' := by
  intro c hc
  rw [text, List.getLast?_append_of_ne_nil _ h.unsignedText_ne_nil, unsignedText,
    ← List.append_assoc] at hc
  cases hx : l.exponent with
  | none =>
      refine h.mem_mantissa c (List.mem_of_mem_getLast? ?_)
      simpa [exponentText, hx] using hc
  | some x =>
      have hform := h.exponent_form x hx
      refine Or.inl (hform.digits c (List.mem_of_mem_getLast? ?_))
      have htext : l.exponentText = (x.mark :: x.sign.text) ++ x.digits := by
        simp [exponentText, hx, Exponent.text]
      rwa [htext, ← List.append_assoc, List.getLast?_append_of_ne_nil _ hform.ne_nil] at hc

/-- The number of the format nearest to a literal, or an infinity if it is too large. -/
def rounded (l : Literal) : Binary64 :=
  .ofQuotient l.sign.negative (l.magnitude.numerator * Binary64.unitsPerOne)
    l.magnitude.denominator

end Text.Literal

namespace Complex

/-- The text is a decimal literal that rounds to a finite number. -/
def WritesPart (cs : List Char) (x : Binary64) : Prop :=
  ∃ l : Literal, l.WellFormed ∧ l.text = cs ∧ l.rounded = x ∧ x.isFinite = true

/-- What a coefficient of the imaginary unit stands for: without digits, one with its sign. -/
inductive WritesCoefficient : List Char → Binary64 → Prop
  | implied : WritesCoefficient [] 1
  | plus : WritesCoefficient ['+'] 1
  | minus : WritesCoefficient ['-'] (-1)
  | part {cs x} (h : WritesPart cs x) : WritesCoefficient cs x

/-- A text is read as a number of the format if it is a literal, and then rounded once. -/
theorem ofText?_eq_some_iff {cs : List Char} {x : Binary64} :
    Binary64.ofText? cs = some x ↔ ∃ l : Literal, l.WellFormed ∧ l.text = cs ∧ l.rounded = x := by
  rw [Binary64.ofText?, Option.map_eq_some_iff]
  constructor
  · rintro ⟨⟨negative, d⟩, hread, rfl⟩
    obtain ⟨l, hform, htext, rfl, rfl⟩ := Literal.read?_eq_some_iff.mp hread
    exact ⟨l, hform, htext, (Binary64.ofDecimal_eq_ofQuotient _ _).symm⟩
  · rintro ⟨l, hform, htext, rfl⟩
    exact ⟨(l.sign.negative, l.magnitude),
      Literal.read?_eq_some_iff.mpr ⟨l, hform, htext, rfl, rfl⟩,
      Binary64.ofDecimal_eq_ofQuotient _ _⟩

theorem writesPart_iff {cs : List Char} {x : Binary64} :
    WritesPart cs x ↔ Binary64.ofText? cs = some x ∧ x.isFinite = true := by
  rw [ofText?_eq_some_iff]
  constructor
  · rintro ⟨l, hform, htext, hvalue, hfinite⟩
    exact ⟨⟨l, hform, htext, hvalue⟩, hfinite⟩
  · rintro ⟨⟨l, hform, htext, hvalue⟩, hfinite⟩
    exact ⟨l, hform, htext, hvalue, hfinite⟩

/-- A part is read exactly if it is a literal of a finite number. -/
theorem readPart?_eq_ok_iff (whole : String) {cs : List Char} {x : Binary64} :
    readPart? whole cs = .ok x ↔ WritesPart cs x := by
  rw [writesPart_iff]
  constructor
  · intro h
    rw [readPart?] at h
    split at h
    · rename_i y hread
      split at h
      · rename_i hfinite
        obtain rfl := Except.ok.inj h
        exact ⟨hread, hfinite⟩
      · cases h
    · cases h
  · rintro ⟨hread, hfinite⟩
    simp only [readPart?, hread, if_pos hfinite]

theorem kind_of_readPart? {whole : String} {cs : List Char} {e : Error}
    (h : readPart? whole cs = .error e) : e.kind = .invalidFormat := by
  rw [readPart?] at h
  split at h
  · split at h
    · cases h
    · cases h
      rfl
  · cases h
    rfl

theorem WritesPart.ne_nil {cs : List Char} {x : Binary64} (h : WritesPart cs x) : cs ≠ [] := by
  obtain ⟨l, hform, rfl, -⟩ := h
  exact hform.text_ne_nil

theorem WritesPart.last {cs : List Char} {x : Binary64} (h : WritesPart cs x) :
    ∀ c ∈ cs.getLast?, c.isDigit = true ∨ c = '.' := by
  obtain ⟨l, hform, rfl, -⟩ := h
  exact hform.last_text

theorem WritesPart.isChain {cs : List Char} {x : Binary64} (h : WritesPart cs x) :
    cs.IsChain SignAfterMark := by
  obtain ⟨l, hform, rfl, -⟩ := h
  exact hform.isChain_text

/-- A coefficient is read exactly if it is empty, a sign, or a literal of a finite number. -/
theorem readCoefficient?_eq_ok_iff (whole : String) {cs : List Char} {y : Binary64} :
    readCoefficient? whole cs = .ok y ↔ WritesCoefficient cs y := by
  constructor
  · intro h
    unfold readCoefficient? at h
    split at h
    · obtain rfl := Except.ok.inj h
      exact .implied
    · obtain rfl := Except.ok.inj h
      exact .plus
    · obtain rfl := Except.ok.inj h
      exact .minus
    · exact .part ((readPart?_eq_ok_iff whole).mp h)
  · intro h
    cases h with
    | implied => rfl
    | plus => rfl
    | minus => rfl
    | part h =>
        unfold readCoefficient?
        split
        · exact absurd rfl h.ne_nil
        · rcases h.last '+' rfl with h | h <;> cases h
        · rcases h.last '-' rfl with h | h <;> cases h
        · exact (readPart?_eq_ok_iff whole).mpr h

theorem kind_of_readCoefficient? {whole : String} {cs : List Char} {e : Error}
    (h : readCoefficient? whole cs = .error e) : e.kind = .invalidFormat := by
  unfold readCoefficient? at h
  split at h
  · cases h
  · cases h
  · cases h
  · exact kind_of_readPart? h

/-- No coefficient is cut. -/
theorem WritesCoefficient.isChain {cs : List Char} {y : Binary64} (h : WritesCoefficient cs y) :
    cs.IsChain SignAfterMark := by
  cases h with
  | implied => exact List.isChain_nil
  | plus => exact List.isChain_singleton _
  | minus => exact List.isChain_singleton _
  | part h => exact h.isChain

section Imaginary

variable {whole : String} {body part coefficient : List Char} {z : Complex}

/-- A text that is cut is read as its two parts. -/
theorem readImaginary?_of_cut (hcut : cut? body = some (part, coefficient)) :
    readImaginary? whole body = .ok z ↔
      WritesPart part z.re ∧ WritesCoefficient coefficient z.im := by
  obtain ⟨re, im⟩ := z
  simp only [← readPart?_eq_ok_iff whole, ← readCoefficient?_eq_ok_iff whole, readImaginary?, hcut]
  cases readPart? whole part with
  | error e => simp [bind, Except.bind]
  | ok x =>
      cases readCoefficient? whole coefficient with
      | error e => simp [bind, Except.bind]
      | ok y => simp [bind, Except.bind, pure, Except.pure]

/-- A text that is not cut is read as a coefficient. -/
theorem readImaginary?_of_not_cut (hcut : cut? body = none) :
    readImaginary? whole body = .ok z ↔ z.re = 0 ∧ WritesCoefficient body z.im := by
  obtain ⟨re, im⟩ := z
  simp only [← readCoefficient?_eq_ok_iff whole, readImaginary?, hcut]
  cases readCoefficient? whole body with
  | error e => simp [bind, Except.bind]
  | ok y => simp [bind, Except.bind, pure, Except.pure, eq_comm]

theorem kind_of_readImaginary? {e : Error} (h : readImaginary? whole body = .error e) :
    e.kind = .invalidFormat := by
  unfold readImaginary? at h
  split at h
  · rename_i part coefficient hcut
    cases hpart : readPart? whole part with
    | error e' =>
        rw [hpart] at h
        obtain rfl := Except.error.inj h
        exact kind_of_readPart? hpart
    | ok x =>
        cases hcoefficient : readCoefficient? whole coefficient with
        | error e' =>
            rw [hpart, hcoefficient] at h
            obtain rfl := Except.error.inj h
            exact kind_of_readCoefficient? hcoefficient
        | ok y =>
            rw [hpart, hcoefficient] at h
            cases h
  · cases hcoefficient : readCoefficient? whole body with
    | error e' =>
        rw [hcoefficient] at h
        obtain rfl := Except.error.inj h
        exact kind_of_readCoefficient? hcoefficient
    | ok y =>
        rw [hcoefficient] at h
        cases h

end Imaginary

/-- What is no complex number is refused as a text of the wrong format. -/
theorem kind_of_parse? {s : String} {e : Error} (h : parse? s = .error e) :
    e.kind = .invalidFormat := by
  dsimp only [parse?] at h
  split at h
  · obtain rfl := Except.error.inj h
    rfl
  · split at h
    · exact kind_of_readImaginary? h
    · cases hpart : readPart? s (normalize s.toList) with
      | error e' =>
          rw [hpart] at h
          obtain rfl := Except.error.inj h
          exact kind_of_readPart? hpart
      | ok x =>
          rw [hpart] at h
          cases h

end Complex

/-- The forms of the text of a complex number: a real part, a coefficient of the imaginary unit,
or both. -/
inductive ComplexText where
  | real (part : List Char)
  | imaginary (coefficient : List Char)
  | sum (part coefficient : List Char)

namespace ComplexText

open RowReduction.Complex

/-- The parts one after another, and the imaginary unit after its coefficient. -/
def text : ComplexText → List Char
  | real part => part
  | imaginary coefficient => coefficient ++ ['i']
  | sum part coefficient => part ++ coefficient ++ ['i']

/-- The parts stand for the parts of the complex number, and a part that is not written is zero.
A coefficient after a real part starts with a sign. -/
def Denotes : ComplexText → Complex → Prop
  | real part, z => WritesPart part z.re ∧ z.im = 0
  | imaginary coefficient, z => z.re = 0 ∧ WritesCoefficient coefficient z.im
  | sum part coefficient, z => WritesPart part z.re ∧ WritesCoefficient coefficient z.im ∧
      ∃ c ∈ coefficient.head?, isSign c = true

section Forms

variable {part coefficient : List Char} {z : Complex}

/-- A real part does not end in the imaginary unit. -/
theorem getLast?_ne_of_real (h : (real part).Denotes z) : part.getLast? ≠ some 'i' := by
  intro hlast
  rcases h.1.last 'i' hlast with hdigit | hpoint
  · cases hdigit
  · cases hpoint

/-- A coefficient alone is not cut. -/
theorem cut?_of_imaginary (h : (imaginary coefficient).Denotes z) : cut? coefficient = none :=
  cut?_eq_none_iff.mpr h.2.isChain

/-- A real part and a coefficient are cut between them. -/
theorem cut?_of_sum (h : (sum part coefficient).Denotes z) :
    cut? (part ++ coefficient) = some (part, coefficient) := by
  obtain ⟨hpart, hcoefficient, c, hhead, hsign⟩ := h
  obtain ⟨rest, rfl⟩ := List.head?_eq_some_iff.mp hhead
  refine cut?_append hpart.ne_nil (fun d hd => ?_) hsign hcoefficient.isChain
  rcases hpart.last d hd with hdigit | rfl
  · have hlower : d ≠ 'e' := ne_of_isDigit hdigit rfl
    have hupper : d ≠ 'E' := ne_of_isDigit hdigit rfl
    simp [isExponentMark, hlower, hupper]
  · rfl

end Forms

/-- A text in one of the forms is read as the number that the form denotes. -/
theorem parse?_of_denotes {s : String} {f : ComplexText} {z : Complex}
    (htext : f.text = normalize s.toList) (h : f.Denotes z) : Complex.parse? s = .ok z := by
  have hunit : ∀ body, body ++ ['i'] = normalize s.toList →
      Complex.parse? s = readImaginary? s body := by
    intro body hbody
    simp [Complex.parse?, ← hbody]
  cases f with
  | real part =>
      have hpart : readPart? s (normalize s.toList) = .ok z.re := by
        rw [← htext]
        exact (readPart?_eq_ok_iff s).mpr h.1
      have hlast : (normalize s.toList).getLast? ≠ some 'i' := by
        rw [← htext]
        exact getLast?_ne_of_real h
      have hne : (normalize s.toList).isEmpty = false := by
        rw [← htext, List.isEmpty_eq_false_iff]
        exact h.1.ne_nil
      obtain ⟨re, im⟩ := z
      obtain rfl : im = 0 := h.2
      simp [Complex.parse?, hne, hlast, hpart, Except.map, ofReal]
  | imaginary coefficient =>
      rw [hunit coefficient htext]
      exact (readImaginary?_of_not_cut (cut?_of_imaginary h)).mpr h
  | sum part coefficient =>
      rw [hunit (part ++ coefficient) htext]
      exact (readImaginary?_of_cut (cut?_of_sum h)).mpr ⟨h.1, h.2.1⟩

/-- Whatever is read is in one of the forms, and the form denotes it. -/
theorem exists_of_parse? {s : String} {z : Complex} (h : Complex.parse? s = .ok z) :
    ∃ f : ComplexText, f.text = normalize s.toList ∧ f.Denotes z := by
  dsimp only [Complex.parse?] at h
  split at h
  · cases h
  · split at h
    · rename_i hlast
      generalize hbody : (normalize s.toList).dropLast = body at h
      have htext : body ++ ['i'] = normalize s.toList := by
        rw [← hbody]
        exact List.dropLast_append_getLast? 'i' hlast
      cases hcut : cut? body with
      | none => exact ⟨imaginary body, htext, (readImaginary?_of_not_cut hcut).mp h⟩
      | some p =>
          obtain ⟨hpart, hcoefficient⟩ := (readImaginary?_of_cut hcut).mp h
          obtain ⟨happend, hsign⟩ := append_of_cut? hcut
          exact ⟨sum p.1 p.2, by rw [text, happend, htext], hpart, hcoefficient, hsign⟩
    · cases hpart : readPart? s (normalize s.toList) with
      | error e => rw [hpart] at h; cases h
      | ok x =>
          rw [hpart] at h
          obtain rfl := Except.ok.inj h
          exact ⟨real (normalize s.toList), rfl, (readPart?_eq_ok_iff s).mp hpart, rfl⟩

/-- A text is read as a complex number exactly if it is in one of the forms, and then as the
number that the form denotes. -/
theorem parse?_eq_ok_iff {s : String} {z : Complex} :
    Scalar.parse? s = .ok z ↔ ∃ f : ComplexText, f.text = normalize s.toList ∧ f.Denotes z := by
  constructor
  · exact exists_of_parse?
  · rintro ⟨f, htext, h⟩
    exact parse?_of_denotes htext h

end ComplexText

end RowReduction

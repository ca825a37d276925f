import RowReduction.Proofs.Complex.Printed
import RowReduction.Proofs.Fraction.Printed
import RowReduction.Proofs.Vec.Written

/-!
# Printed vectors

The text of a vector has a comma and a space between the texts of the
components. Reading cuts it at the commas, so that all parts but the first keep
their space, which the scalars' reader does not mind. The vector reads back as
far as its components do: a vector of fractions as itself, and a vector of
complex numbers with finite parts as an equal one with the same text.
-/

namespace RowReduction

open Text

/-- A blank before a text does not matter. -/
theorem Scalar.IgnoresBlanks.parse?_cons {α : Type} [Scalar α] (hα : IgnoresBlanks α) {c : Char}
    (hc : isBlank c = true) {cs : List Char} {a : α} (h : parse? (String.ofList cs) = .ok a) :
    parse? (String.ofList (c :: cs)) = .ok a := by
  rw [← hα.trim_iff, trim_cons_of_isBlank hc, hα.trim_iff]
  exact h

namespace Vec

section Separators

/-- The texts with a space before each one but the first. -/
def spaced : List (List Char) → List (List Char)
  | [] => []
  | text :: texts => text :: texts.map (' ' :: ·)

theorem intercalate_cons_head (c : Char) (text : List Char) (texts : List (List Char)) :
    [','].intercalate ((c :: text) :: texts) = c :: [','].intercalate (text :: texts) := by
  cases texts <;> simp [List.intercalate]

/-- The spaces belong to the texts between the commas. -/
theorem intercalate_eq_spaced (texts : List (List Char)) :
    [',', ' '].intercalate texts = [','].intercalate (spaced texts) := by
  cases texts with
  | nil => rfl
  | cons text texts =>
      induction texts generalizing text with
      | nil => rfl
      | cons next texts ih =>
          -- The space of the first separator becomes the head of the next text.
          calc
            [',', ' '].intercalate (text :: next :: texts) =
                text ++ ',' :: ' ' :: [',', ' '].intercalate (next :: texts) := by
              simp [List.intercalate]
            _ = text ++ ',' :: ' ' :: [','].intercalate (spaced (next :: texts)) := by rw [ih]
            _ = text ++ ',' :: [','].intercalate ((' ' :: next) :: texts.map (' ' :: ·)) := by
              rw [intercalate_cons_head, spaced]
            _ = [','].intercalate (spaced (text :: next :: texts)) := by
              simp [List.intercalate, spaced]

theorem comma_notMem_spaced {texts : List (List Char)} (h : ∀ text ∈ texts, ',' ∉ text) :
    ∀ text ∈ spaced texts, ',' ∉ text := by
  cases texts with
  | nil => exact h
  | cons first texts =>
      rw [List.forall_mem_cons] at h
      simpa [spaced] using h

theorem spaced_ne_nil {texts : List (List Char)} (h : texts ≠ []) : spaced texts ≠ [] := by
  cases texts with
  | nil => exact absurd rfl h
  | cons text texts => exact List.cons_ne_nil _ _

theorem forall₂_spaced {β : Type} {R : List Char → β → Prop} {texts : List (List Char)}
    {bs : List β} (h : List.Forall₂ R texts bs) (hR : ∀ text b, R text b → R (' ' :: text) b) :
    List.Forall₂ R (spaced texts) bs := by
  cases h with
  | nil => exact .nil
  | cons hfirst hrest => exact .cons hfirst (List.forall₂_map_left_iff.mpr (hrest.imp hR))

end Separators

variable {α : Type} [Scalar α]

section Printing

/-- The texts of the components. -/
def printedParts (v : Vec α) : List (List Char) :=
  v.toList.map fun a => (toString a).toList

/-- The text between the parentheses. -/
def printedBody (v : Vec α) : List Char :=
  [',', ' '].intercalate v.printedParts

theorem toList_toString (v : Vec α) : (toString v).toList = '(' :: (v.printedBody ++ [')']) := by
  change ("(" ++ String.intercalate ", " (v.toList.map toString) ++ ")").toList = _
  simp [printedBody, printedParts, Function.comp_def]

/-- The parentheses are the ends of the text. -/
theorem encloses_toString (v : Vec α) : Encloses (toString v) v.printedBody := by
  rw [Encloses, toList_toString]
  apply trim_eq_self
  · rintro c ⟨⟩
    rfl
  · rw [← List.cons_append, List.getLast?_concat]
    rintro c ⟨⟩
    rfl

theorem splitOn_printedBody {v : Vec α} (h : ∀ text ∈ v.printedParts, ',' ∉ text) :
    v.printedBody.splitOn ',' = spaced v.printedParts := by
  have hne : v.printedParts ≠ [] := by simpa [printedParts] using v.ne_nil
  rw [printedBody, intercalate_eq_spaced]
  exact List.splitOn_intercalate ',' (comma_notMem_spaced h) (spaced_ne_nil hne)

/-- If the texts of the components have no commas and are read as values of a function, then the
text of the vector is read as the vector of these values. -/
theorem parse?_toString (hα : Scalar.IgnoresBlanks α) {v : Vec α} {f : α → α}
    (hcomma : ∀ a ∈ v.toList, ',' ∉ (toString a).toList)
    (hread : ∀ a ∈ v.toList, Scalar.parse? (toString a) = .ok (f a)) :
    parse? (toString v) = .ok (v.map f) := by
  have hparts : List.Forall₂ (fun part b => Scalar.parse? (String.ofList part) = .ok b)
      v.printedParts (v.map f).toList := by
    rw [printedParts, map, List.forall₂_map_left_iff, List.forall₂_map_right_iff,
      List.forall₂_same]
    simpa using hread
  apply (parse?_eq_ok_iff hα).mpr
  refine ⟨v.printedBody, v.encloses_toString, ?_⟩
  rw [splitOn_printedBody (by simpa [printedParts] using hcomma)]
  exact forall₂_spaced hparts fun part b => hα.parse?_cons rfl

end Printing

section Fractions

/-- The text of a vector of fractions reads back as the vector. -/
theorem parse?_toString_fractions (v : Vec Fraction) : parse? (toString v) = .ok v :=
  calc
    parse? (toString v) = .ok (v.map id) :=
      parse?_toString Fraction.ignoresBlanks (fun a _ => a.comma_notMem_toString)
        (fun a _ => a.parse?_toString)
    _ = .ok v := congrArg Except.ok (Vec.ext (List.map_id v.toList))

/-- A text that reads back determines what it was printed from. -/
theorem injective_of_reads_back {β : Type} {print : β → String} {read : String → Except Error β}
    (h : ∀ b, read (print b) = .ok b) : Function.Injective print := by
  intro b c hprint
  apply Except.ok.inj
  calc
    Except.ok b = read (print b) := (h b).symm
    _ = read (print c) := congrArg read hprint
    _ = Except.ok c := h c

/-- A vector of fractions is printed and read back as itself, whether it was made or read from a
text of any spelling. So the text determines the vector, and in a vector of one component the
text in the parentheses determines the fraction. -/
theorem printed_fractions_read_back :
    (∀ v : Vec Fraction, parse? (toString v) = .ok v) ∧
    (∀ (s : String) (v : Vec Fraction), parse? s = .ok v → parse? (toString v) = .ok v) ∧
    Function.Injective (toString : Vec Fraction → String) ∧
    (∀ (v : Vec Fraction) (a : Fraction), v.toList = [a] →
      toString v = "(" ++ toString a ++ ")") ∧
    Function.Injective (toString : Fraction → String) := by
  refine ⟨parse?_toString_fractions, fun _ v _ => parse?_toString_fractions v,
    injective_of_reads_back parse?_toString_fractions, ?_,
    injective_of_reads_back Fraction.parse?_toString⟩
  intro v a h
  change "(" ++ String.intercalate ", " (v.toList.map toString) ++ ")" = _
  rw [h, List.map_singleton, String.intercalate_singleton]

/-- The fractions minus one half and three. -/
def halfAndThree : Vec Fraction where
  toList := [.reduce (-1) 2 Nat.two_pos, .ofInt 3]
  ne_nil := List.cons_ne_nil _ _

theorem printed_fractions_read_back_halfAndThree :
    parse? "( -2/4,3/1)" = .ok halfAndThree ∧ toString halfAndThree = "(-1/2, 3/1)" ∧
      parse? (toString halfAndThree) = .ok halfAndThree := by
  have hread : parse? "( -2/4,3/1)" = .ok halfAndThree := rfl
  obtain ⟨-, hagain, -⟩ := printed_fractions_read_back
  exact ⟨hread, rfl, hagain "( -2/4,3/1)" halfAndThree hread⟩

end Fractions

section ComplexNumbers

/-- The components are shown one by one. -/
theorem map_shown_beq {zs : List Complex} (h : ∀ z ∈ zs, z.HasFiniteParts) :
    (zs.map Complex.shown == zs) = true := by
  induction zs with
  | nil => rfl
  | cons z zs ih =>
      rw [List.forall_mem_cons] at h
      rw [List.map_cons, List.cons_beq_cons, Complex.shown_beq h.1, ih h.2]
      rfl

theorem toString_map_shown (v : Vec Complex) : toString (v.map Complex.shown) = toString v := by
  have hparts : (v.map Complex.shown).printedParts = v.printedParts := by
    simp [printedParts, map, Complex.toString_shown]
  rw [← String.toList_inj, toList_toString, toList_toString, printedBody, hparts]
  rfl

/-- A complex number with finite parts is printed and read back as an equal one with the same
text, and so is a vector of such numbers. -/
theorem printed_complex_reads_back :
    (∀ z : Complex, z.HasFiniteParts → ∃ w : Complex, Scalar.parse? (toString z) = .ok w ∧
      (w == z) = true ∧ toString w = toString z) ∧
    (∀ v : Vec Complex, (∀ z ∈ v.toList, z.HasFiniteParts) → ∃ w : Vec Complex,
      parse? (toString v) = .ok w ∧ (w == v) = true ∧ toString w = toString v) := by
  constructor
  · intro z h
    exact ⟨z.shown, Complex.parse?_toString h, Complex.shown_beq h, z.toString_shown⟩
  · intro v h
    refine ⟨v.map Complex.shown, ?_, map_shown_beq h, toString_map_shown v⟩
    exact parse?_toString Complex.ignoresBlanks
      (fun z hz => Complex.comma_notMem_toString (h z hz))
      (fun z hz => Complex.parse?_toString (h z hz))

/-- A number with an imaginary part that is not printed, and the imaginary unit. -/
def nearThreeAndUnit : Vec Complex where
  toList := [⟨.ofNat 3, .ofDecimal true ⟨1, -11⟩⟩, Complex.I]
  ne_nil := List.cons_ne_nil _ _

theorem printed_complex_reads_back_nearThreeAndUnit :
    (∀ z ∈ nearThreeAndUnit.toList, z.HasFiniteParts ∧ ∃ w : Complex,
      Scalar.parse? (toString z) = .ok w ∧ (w == z) = true ∧ toString w = toString z) ∧
    toString nearThreeAndUnit = "(3, 1i)" ∧
    ∃ w : Vec Complex, parse? (toString nearThreeAndUnit) = .ok w ∧
      (w == nearThreeAndUnit) = true ∧ toString w = toString nearThreeAndUnit := by
  have hfinite : ∀ z ∈ nearThreeAndUnit.toList, z.HasFiniteParts := by
    rw [nearThreeAndUnit, List.forall_mem_cons, List.forall_mem_singleton]
    exact ⟨⟨by decide +kernel, by decide +kernel⟩, ⟨by decide +kernel, by decide +kernel⟩⟩
  obtain ⟨hnumbers, hvectors⟩ := printed_complex_reads_back
  refine ⟨fun z hz => ⟨hfinite z hz, hnumbers z (hfinite z hz)⟩, by decide +kernel, ?_⟩
  exact hvectors nearThreeAndUnit hfinite

end ComplexNumbers

end Vec

end RowReduction

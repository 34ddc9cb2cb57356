import SelectorAlgebra.Proofs.Selector.Erasure
import SelectorAlgebra.Proofs.Selector.Sameness
import SelectorAlgebra.Proofs.Selector.Text
import SelectorAlgebra.Proofs.Specificity.Sum

/-!
# Composition of complex selectors

A complex selector is as good as its word. Main statement: selectors are the same if their words
are, every way to put something behind a selector appends to its word, and what makes a selector
bogus is seen from its word.
-/

namespace SelectorAlgebra

/-- Whether two parts are one combinator, or compound selectors that are the same. -/
def Part.same : Part → Part → Bool
  | .combinator j, .combinator k => j == k
  | .compound c, .compound d => Compound.same c d
  | _, _ => false

theorem Part.same_iff (x y : Part) : x.same y = true ↔ x.eraseBreaks = y.eraseBreaks := by
  cases x <;> cases y <;> simp [same, eraseBreaks, Compound.same_iff]

/-- Whether two combinators stand next to each other in a word. -/
def Part.HasAdjacentCombinators (w : List Part) : Prop :=
  ∃ j k, [Part.combinator j, .combinator k] <:+: w

namespace Complex

/-! ### Sameness -/

theorem eraseBreaks_eq_iff_word {c d : Complex} :
    c.eraseBreaks = d.eraseBreaks ↔ c.word.map Part.eraseBreaks = d.word.map Part.eraseBreaks := by
  rw [← word_eraseBreaks, ← word_eraseBreaks]
  constructor
  · exact congrArg word
  · intro h
    exact ext_word h ((lineBreak_eraseBreaks c).trans (lineBreak_eraseBreaks d).symm)

/-- Complex selectors are the same if their words are, part by part. -/
theorem same_iff_word {c d : Complex} :
    c.same d = true ↔ List.Forall₂ (fun x y : Part ↦ x.same y = true) c.word d.word := by
  rw [same_iff, eraseBreaks_eq_iff_word, ← List.forall₂_eq_eq_eq, List.forall₂_map_left_iff,
    List.forall₂_map_right_iff]
  simp only [Part.same_iff]

/-! ### What is put behind a selector -/

/-- Of three selectors after one another, it does not matter which two are put together first. -/
theorem concatenate_assoc (a b c : Complex) (f g : Bool) :
    (a.concatenate b f).concatenate c g = a.concatenate (b.concatenate c g) f := by
  apply ext_word
  · simp only [word_concatenate, List.append_assoc]
  · simp only [lineBreak_concatenate]
    ac_rfl

/-! ### Combinators in a row -/

theorem hasAdjacentCombinators_nil : ¬ Part.HasAdjacentCombinators [] := by
  simp [Part.HasAdjacentCombinators]

theorem hasAdjacentCombinators_compound_cons {c : Compound} {w : List Part} :
    Part.HasAdjacentCombinators (.compound c :: w) ↔ Part.HasAdjacentCombinators w := by
  simp [Part.HasAdjacentCombinators, List.infix_cons_iff]

theorem hasAdjacentCombinators_combinator_cons {k : Combinator} {w : List Part} :
    Part.HasAdjacentCombinators (.combinator k :: w) ↔
      (∃ j, w.head? = some (.combinator j)) ∨ Part.HasAdjacentCombinators w := by
  rcases w with _ | ⟨_ | _, w⟩ <;>
    simp [Part.HasAdjacentCombinators, List.infix_cons_iff, exists_or]

/-- In front of a word that does not start with a combinator, combinators are adjacent exactly if
there is more than one of them. -/
theorem hasAdjacentCombinators_append {ks : List Combinator} {w : List Part}
    (hw : ∀ k, w.head? ≠ some (.combinator k)) :
    Part.HasAdjacentCombinators (ks.map .combinator ++ w) ↔
      1 < ks.length ∨ Part.HasAdjacentCombinators w := by
  induction ks with
  | nil => simp
  | cons k ks ih =>
    rw [List.map_cons, List.cons_append, hasAdjacentCombinators_combinator_cons, ih]
    cases ks <;> simp [hw]

theorem hasAdjacentCombinators_path {p : Path} : Part.HasAdjacentCombinators (p.flatMap fun d ↦
    .compound d.compound :: d.combinators.map .combinator) ↔
      Path.hasMultipleCombinators p = true := by
  induction p with
  | nil => simp [hasAdjacentCombinators_nil, Path.hasMultipleCombinators]
  | cons d p ih =>
    rw [List.flatMap_cons, List.cons_append, hasAdjacentCombinators_compound_cons,
      hasAdjacentCombinators_append (by cases p <;> simp), ih]
    simp [Path.hasMultipleCombinators]

/-- Some place of a selector holds more than one combinator exactly if two are adjacent in its
word. -/
theorem hasMultipleCombinators_iff_word {c : Complex} :
    c.hasMultipleCombinators = true ↔ Part.HasAdjacentCombinators c.word := by
  rw [word, hasAdjacentCombinators_append (by cases c.components <;> simp),
    hasAdjacentCombinators_path]
  simp [hasMultipleCombinators]

theorem head_word_iff {c : Complex} :
    (∃ k, c.word.head? = some (.combinator k)) ↔ c.leading ≠ [] := by
  obtain ⟨_ | ⟨k, ks⟩, _ | ⟨d, p⟩, lineBreak⟩ := c <;> simp [word]

/-- The word of a selector that has components ends with a combinator if the last component has
combinators. -/
theorem getLast_word_iff {leading : List Combinator} {p : Path} {d : Component}
    {lineBreak : Bool} :
    (∃ k, (word ⟨leading, p ++ [d], lineBreak⟩).getLast? = some (.combinator k)) ↔
      d.combinators ≠ [] := by
  obtain ⟨c, ks⟩ := d
  rcases List.eq_nil_or_concat ks with rfl | ⟨js, k, rfl⟩
  · simp [word]
  · simp [word, List.getLast?_cons]

/-- A selector in which there is anything is bogus if its word starts or ends with a combinator or
has two in a row. -/
theorem isBogus_iff_word {c : Complex} (h : c.leading ≠ [] ∨ c.components ≠ []) :
    c.isBogus = true ↔ (∃ k, c.word.head? = some (.combinator k)) ∨
      (∃ k, c.word.getLast? = some (.combinator k)) ∨ Part.HasAdjacentCombinators c.word := by
  rw [head_word_iff, ← hasMultipleCombinators_iff_word]
  obtain ⟨leading, components, lineBreak⟩ := c
  rcases List.eq_nil_or_concat components with rfl | ⟨p, d, rfl⟩
  · have hleading : leading ≠ [] := by simpa using h
    simp [isBogus, hleading]
  · rw [List.concat_eq_append, getLast_word_iff]
    simp [isBogus, or_assoc]

/-- Complex selectors are their words, up to line breaks, and to put something behind one is to
append to its word. -/
theorem word_composition (a b c : Complex) (ks : List Combinator) (d : Component) (f g : Bool) :
    (a.same b = true ↔ List.Forall₂ (fun x y : Part ↦ x.same y = true) a.word b.word) ∧
    ((a.concatenate b f).word = a.word ++ b.word ∧
      (a.concatenate b f).lineBreak = (a.lineBreak || b.lineBreak || f)) ∧
    ((a.withCombinators ks f).word = a.word ++ ks.map .combinator ∧
      (a.withCombinators ks f).lineBreak = (a.lineBreak || (f && !ks.isEmpty))) ∧
    ((a.withComponent d f).word =
        a.word ++ [.compound d.compound] ++ d.combinators.map .combinator ∧
      (a.withComponent d f).lineBreak = (a.lineBreak || f)) ∧
    (a.hasMultipleCombinators = true ↔ Part.HasAdjacentCombinators a.word) ∧
    (a.leading ≠ [] ∨ a.components ≠ [] →
      (a.isBogus = true ↔ (∃ k, a.word.head? = some (.combinator k)) ∨
        (∃ k, a.word.getLast? = some (.combinator k)) ∨ Part.HasAdjacentCombinators a.word)) ∧
    (a.concatenate b f).concatenate c g = a.concatenate (b.concatenate c g) f ∧
    (a.concatenate b f).specificity = a.specificity + b.specificity := by
  refine ⟨same_iff_word, ⟨word_concatenate a b f, lineBreak_concatenate a b f⟩,
    ⟨word_withCombinators a ks f, lineBreak_withCombinators a ks f⟩, ⟨?_, rfl⟩,
    hasMultipleCombinators_iff_word, isBogus_iff_word, concatenate_assoc a b c f g,
    specificity_concatenate a b f⟩
  simp

/-- In the word of `.a > + .b` two combinators are adjacent. -/
theorem word_composition_adjacent :
    isBogus ⟨[], [⟨[.className "a"], [.child, .nextSibling]⟩, ⟨[.className "b"], []⟩], false⟩ =
      true := by
  let a : Complex :=
    ⟨[], [⟨[.className "a"], [.child, .nextSibling]⟩, ⟨[.className "b"], []⟩], false⟩
  have h := (word_composition a a a [] ⟨[], []⟩ false false).2.2.2.2.2.1 (.inr (by simp [a]))
  refine h.2 (.inr (.inr ⟨.child, .nextSibling, ?_⟩))
  exact ⟨[.compound [.className "a"]], [.compound [.className "b"]], rfl⟩

end Complex

end SelectorAlgebra

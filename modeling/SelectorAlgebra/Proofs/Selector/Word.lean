import SelectorAlgebra.Selector.Equality
import SelectorAlgebra.Selector.Parent
import SelectorAlgebra.Selector.Word

/-!
# Words of composed selectors

Whatever is put behind a complex selector is put behind its word. The word tells all about a
selector but its line break, so selectors with one word are the same, and a parent selector occurs
in a selector exactly if it occurs in its word.
-/

namespace SelectorAlgebra

namespace Complex

theorem mem_word_iff {c : Complex} {d : Compound} :
    Part.compound d ∈ c.word ↔ ∃ e ∈ c.components, e.compound = d := by
  simp [word, eq_comm]

theorem word_append (k : List Combinator) (p q : Path) (b : Bool) :
    word ⟨k, p ++ q, b⟩ = word ⟨k, p, b⟩ ++ word ⟨[], q, b⟩ := by
  simp [word]

/-- Combinators put at the end stand at the end of the word. -/
@[simp] theorem word_trail (c : Complex) (ks : List Combinator) :
    (c.trail ks).word = c.word ++ ks.map .combinator := by
  unfold trail
  split
  · next h =>
    have hnil := List.getLast?_eq_none_iff.1 h
    simp [word, hnil]
  · next last h =>
    obtain ⟨init, hinit⟩ := List.getLast?_eq_some_iff.1 h
    simp [word, hinit]

@[simp] theorem word_withCombinators (c : Complex) (ks : List Combinator) (force : Bool) :
    (c.withCombinators ks force).word = c.word ++ ks.map .combinator :=
  word_trail c ks

@[simp] theorem lineBreak_withCombinators (c : Complex) (ks : List Combinator) (force : Bool) :
    (c.withCombinators ks force).lineBreak = (c.lineBreak || force && !ks.isEmpty) := rfl

/-- The word of one selector after another is one word after the other. -/
@[simp] theorem word_concatenate (c d : Complex) (force : Bool) :
    (c.concatenate d force).word = c.word ++ d.word := by
  change word ⟨(c.trail d.leading).leading, (c.trail d.leading).components ++ d.components, _⟩ = _
  rw [word_append]
  change (c.trail d.leading).word ++ _ = _
  rw [word_trail, List.append_assoc]
  rfl

theorem trail_concat (k : List Combinator) (p : Path) (c : Compound) (ks js : List Combinator)
    (b : Bool) : trail ⟨k, p ++ [⟨c, ks⟩], b⟩ js = ⟨k, p ++ [⟨c, ks ++ js⟩], b⟩ := by
  simp [trail]

/-- The leading combinators of the second selector attach to the last component of the first. -/
theorem concatenate_concat (k : List Combinator) (p : Path) (d : Compound)
    (ks : List Combinator) (lineBreak : Bool) (c : Complex) (force : Bool) :
    concatenate ⟨k, p ++ [⟨d, ks⟩], lineBreak⟩ c force =
      ⟨k, (p ++ [⟨d, ks ++ c.leading⟩]) ++ c.components, lineBreak || c.lineBreak || force⟩ := by
  simp only [concatenate, trail_concat]

@[simp] theorem lineBreak_concatenate (c d : Complex) (force : Bool) :
    (c.concatenate d force).lineBreak = (c.lineBreak || d.lineBreak || force) := rfl

@[simp] theorem word_withComponent (c : Complex) (d : Component) (force : Bool) :
    (c.withComponent d force).word =
      c.word ++ .compound d.compound :: d.combinators.map .combinator := by
  simp [word, withComponent]

/-- The word and the line break determine a complex selector. -/
theorem ext_word {c d : Complex} (hword : c.word = d.word) (hbreak : c.lineBreak = d.lineBreak) :
    c = d := by
  rw [← ofWord_word c, ← ofWord_word d, hword, hbreak]

/-- A component is put at the end like a selector of that component alone. -/
theorem withComponent_eq (c : Complex) (d : Component) (force : Bool) :
    c.withComponent d force = c.concatenate ⟨[], [d], false⟩ force := by
  apply ext_word
  · rw [word_withComponent, word_concatenate]
    simp [word]
  · simp [withComponent]

/-- Selectors with one word differ in their line breaks only. -/
theorem eraseBreaks_eq_of_word {c d : Complex} (h : c.word = d.word) :
    c.eraseBreaks = d.eraseBreaks := by
  rw [← ofWord_word c, ← ofWord_word d, h]
  rfl

end Complex

/-- Lists whose members have the same words are the same. -/
theorem SelectorList.same_of_words {k l : SelectorList}
    (h : k.map Complex.word = l.map Complex.word) : SelectorList.same k l = true := by
  induction k generalizing l with
  | nil =>
    obtain rfl := List.map_eq_nil_iff.1 h.symm
    simp [SelectorList.same]
  | cons c k ih =>
    obtain ⟨d, m, rfl, hd, hm⟩ := List.map_eq_cons_iff.1 h.symm
    rw [SelectorList.same, Bool.and_eq_true, Complex.same_iff]
    exact ⟨Complex.eraseBreaks_eq_of_word hd.symm, ih hm.symm⟩

/-! ### Parent selectors -/

theorem SelectorList.hasParent_iff {l : SelectorList} :
    SelectorList.hasParent l = true ↔ ∃ c ∈ l, c.hasParent = true := by
  induction l with
  | nil => simp [SelectorList.hasParent]
  | cons c l ih => simp [SelectorList.hasParent, ih]

theorem SelectorList.hasParent_eq_false_iff {l : SelectorList} :
    SelectorList.hasParent l = false ↔ ∀ c ∈ l, c.hasParent = false := by
  rw [← Bool.not_eq_true, SelectorList.hasParent_iff]
  simp

theorem Path.hasParent_iff {p : Path} :
    Path.hasParent p = true ↔ ∃ d ∈ p, Compound.hasParent d.compound = true := by
  induction p with
  | nil => simp [Path.hasParent]
  | cons d p ih =>
    cases d
    simp [Path.hasParent, ih]

theorem Compound.hasParent_iff {c : Compound} :
    Compound.hasParent c = true ↔ ∃ s ∈ c, s.hasParent = true := by
  induction c with
  | nil => simp [Compound.hasParent]
  | cons s c ih => simp [Compound.hasParent, ih]

theorem Complex.hasParent_eq (c : Complex) : c.hasParent = Path.hasParent c.components := by
  cases c
  rfl

/-- A parent selector occurs in one of the compound selectors of the word. -/
theorem Complex.hasParent_iff {c : Complex} :
    c.hasParent = true ↔ ∃ d, Part.compound d ∈ c.word ∧ Compound.hasParent d = true := by
  simp only [Complex.hasParent_eq, Path.hasParent_iff, Complex.mem_word_iff]
  constructor
  · rintro ⟨d, hd, h⟩
    exact ⟨d.compound, ⟨d, hd, rfl⟩, h⟩
  · rintro ⟨_, ⟨d, hd, rfl⟩, h⟩
    exact ⟨d, hd, h⟩

theorem Complex.hasParent_eq_false_iff {c : Complex} :
    c.hasParent = false ↔ ∀ d, Part.compound d ∈ c.word → Compound.hasParent d = false := by
  rw [← Bool.not_eq_true, Complex.hasParent_iff]
  simp

theorem Complex.hasParent_concatenate (c d : Complex) (force : Bool) :
    (c.concatenate d force).hasParent = (c.hasParent || d.hasParent) := by
  rw [Bool.eq_iff_iff, Bool.or_eq_true]
  simp only [Complex.hasParent_iff, word_concatenate, List.mem_append, or_and_right, exists_or]

end SelectorAlgebra

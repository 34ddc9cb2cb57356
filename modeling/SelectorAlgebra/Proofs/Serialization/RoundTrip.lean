import Mathlib
import SelectorAlgebra.Proofs.Nesting.Written
import SelectorAlgebra.Proofs.Parser.Written
import SelectorAlgebra.Proofs.Serialization.Recovery

/-!
# Round trips

Main statements: what a text without backslashes and comments is read as comes back from its
canonical text exactly if no indices end with the word `of`; and what nesting gives comes back from
its canonical text exactly if it is legible.
-/

namespace SelectorAlgebra

/-! ### Texts without backslashes and comments -/

/-- Whether a text has neither a backslash nor the start of a comment. -/
def IsPlainText (s : List Char) : Prop := '\\' ∉ s ∧ Text.IsCommentFree s

theorem IsPlainText.allParts {s : List Char} (h : IsPlainText s) :
    Parser.AllParts IsPlainText s :=
  fun _ hu ↦ ⟨fun hb ↦ h.1 (hu.subset hb), h.2.part hu⟩

/-- Whether the indices of a simple selector do not end with the word `of`. -/
def Simple.EndsWithoutOf : Simple → Prop
  | .pseudo p => p.Counts → ∀ a ∈ p.argument, ¬ Text.EndsWithOf a.toList
  | _ => True

/-- The shape of selectors in which no indices end with the word `of`. -/
def Shape.endsWithoutOf : Shape where
  simple := Simple.EndsWithoutOf

/-- The argument of a pseudo selector is indices exactly if it counts. -/
theorem Pseudo.HasWrittenArgument.argument {K : List Char → Prop} {p : Pseudo} {a : String}
    (h : p.HasWrittenArgument K) (ha : p.argument = some a) :
    (p.Counts ∧ WrittenIndices K a.toList) ∨ (¬ p.Counts ∧ WrittenArgument K a.toList) := by
  obtain ⟨n, element, argument, l⟩ := p
  cases ha
  cases l with
  | none =>
    rcases h with ⟨htakes, hkind, ha⟩ | ⟨htakes, ha⟩
    · exact .inl ⟨(Parser.counts_iff hkind).2 htakes, ha⟩
    · exact .inr ⟨Parser.not_counts htakes, ha⟩
  | some l =>
    obtain ⟨htakes, hkind, ha⟩ := h
    exact .inl ⟨(Parser.counts_iff hkind).2 htakes, ha⟩

theorem Simple.legible_iff {x : Simple} (hx : x.Written IsPlainText) :
    x.Legible ↔ x.EndsWithoutOf := by
  match x with
  | .universal _ | .type _ | .className _ | .id _ | .placeholder _ | .parent _ => exact Iff.rfl
  | .attribute a =>
    refine iff_of_true (fun v hv ↦ ?_) trivial
    obtain ⟨name, operator, value, modifier⟩ := a
    cases hv
    cases operator with
    | none => cases hx.2
    | some o =>
      obtain ⟨⟨w, hw, hv⟩, -⟩ := hx.2
      exact hv hw.1
  | .pseudo p =>
    constructor
    · intro h hcounts a ha hof
      have hlegible := h a ha
      rw [if_pos hcounts] at hlegible
      rcases hx.2.argument ha with ⟨-, hindices⟩ | ⟨hnot, -⟩
      · rw [Text.not_isIndices_of_endsWithOf hindices.kept.2 hof] at hlegible
        cases hlegible.2
      · exact hnot hcounts
    · intro h a ha
      rcases hx.2.argument ha with ⟨hcounts, hindices⟩ | ⟨hnot, hargument⟩
      · rw [if_pos hcounts]
        refine ⟨hindices.kept.2.startsComment, ?_⟩
        exact (hindices.ends hindices.kept.2).resolve_right (h hcounts a ha)
      · rw [if_neg hnot]
        exact hargument.closes hargument.kept.1

/-- No name without a backslash takes the space behind it. -/
theorem Simple.not_takesBlank {x : Simple} (hx : x.Written IsPlainText) : ¬ x.TakesBlank := by
  rintro ⟨n, hn, htakes⟩
  have hplain : IsPlainText n.toList := by
    match x with
    | .type m =>
      cases hn
      exact hx.2
    | .className m | .id m | .placeholder m =>
      cases hn
      exact hx.2
    | .parent suffix => exact (hx n hn).2.2
    | .pseudo ⟨m, element, none, none⟩ =>
      cases hn
      exact hx.1.2
  exact Text.not_takesBlank_of_not_mem hplain.1 htakes

theorem Shape.entail_legible :
    Shape.Entail (.written IsPlainText) .endsWithoutOf .legible where
  simple _ hx hof := (Simple.legible_iff hx).2 hof
  complex c hc _ := by
    rintro d hd ⟨x, hx, htakes⟩
    obtain ⟨e, he, rfl⟩ := Complex.mem_word_iff.1 (List.dropLast_subset _ hd)
    exact Simple.not_takesBlank (hc.condition he (List.mem_of_getLast? hx)).simple htakes

theorem Shape.entail_endsWithoutOf :
    Shape.Entail (.written IsPlainText) .legible .endsWithoutOf where
  simple _ hx hlegible := (Simple.legible_iff hx).1 hlegible

/-- A selector list that was read from a text without backslashes and comments is read from its
canonical text exactly if no indices in it end with the word `of`. -/
theorem SelectorList.parse_text_of_parse_iff {text : String} {l : SelectorList}
    (hbackslash : '\\' ∉ text.toList) (hcomment : ¬ ['/', '*'] <:+: text.toList)
    (h : (SelectorList.parse text).result = .ok l) :
    (SelectorList.parse l.text).result = .ok l ↔ SelectorList.Everywhere .endsWithoutOf l := by
  have hplain : IsPlainText text.toList := ⟨hbackslash, hcomment⟩
  have hwritten := SelectorList.written_of_parse hplain.allParts h
  rw [SelectorList.parse_text_iff hwritten ((SelectorList.same_iff l l).2 rfl), and_iff_right rfl]
  constructor
  · exact fun hlegible ↦ ⟨trivial, hwritten.2.entail Shape.entail_endsWithoutOf hlegible.2⟩
  · exact fun hof ↦ ⟨trivial, hwritten.2.entail Shape.entail_legible hof.2⟩

/-- The indices `2n` and the list `.a` come back from `:nth-child(2n of .a)`. -/
theorem SelectorList.parse_text_of_parse_nthChild :
    (SelectorList.parse (SelectorList.text [.ofCompound [.pseudo
      ⟨"nth-child", false, some "2n", some [.ofCompound [.className "a"]]⟩]])).result =
        .ok [.ofCompound [.pseudo
          ⟨"nth-child", false, some "2n", some [.ofCompound [.className "a"]]⟩]] := by
  have h : (SelectorList.parse ":nth-child( 2n OF .a )").result = .ok [.ofCompound [.pseudo
      ⟨"nth-child", false, some "2n", some [.ofCompound [.className "a"]]⟩]] := by cbv
  apply (SelectorList.parse_text_of_parse_iff (by decide) (by decide) h).2
  have hof : ¬ Text.EndsWithOf ['2', 'n'] := by
    rintro ⟨u, b, x, y, h, -⟩
    simpa using congrArg List.length h
  simp [SelectorList.Everywhere, SelectorList.Each, Complex.ofCompound, Complex.Everywhere,
    Path.Each, Compound.Each, Simple.Everywhere, Pseudo.Everywhere, Shape.endsWithoutOf,
    Simple.EndsWithoutOf]
  exact fun _ ↦ hof

/-- White space other than blanks hides the word `of` from the reader, and is cut off. -/
theorem SelectorList.not_parse_text_of_parse :
    ¬ ∀ (text : String) (l : SelectorList), '\\' ∉ text.toList → ¬ ['/', '*'] <:+: text.toList →
      (SelectorList.parse text).result = .ok l → (SelectorList.parse l.text).result = .ok l := by
  intro h
  have hread : (SelectorList.parse ":nth-child(2n of\u00a0)").result =
      .ok [.ofCompound [.pseudo ⟨"nth-child", false, some "2n of", none⟩]] := by cbv
  have hok := h _ _ (by decide) (by decide) hread
  have herror : (SelectorList.parse (SelectorList.text [.ofCompound [.pseudo
      ⟨"nth-child", false, some "2n of", none⟩]])).result.toOption.isSome = false := by cbv
  rw [hok] at herror
  cases herror

/-! ### Nesting -/

/-- What nesting one list that was read from a text in another gives is read from its canonical text
as a list that is the same exactly if it is legible, and then as the list itself. -/
theorem SelectorList.parse_text_nestWithin_iff {child parent : String} {c p r : SelectorList}
    (hc : (SelectorList.parse child).result = .ok c)
    (hp : (SelectorList.parse parent).result = .ok p)
    (hr : c.nestWithin p true false = .ok r) :
    ((∃ l, (SelectorList.parse r.text).result = .ok l ∧ SelectorList.same l r = true) ↔
      SelectorList.Everywhere .legible r) ∧
    (SelectorList.Everywhere .legible r → (SelectorList.parse r.text).result = .ok r) := by
  have hwritten : SelectorList.Everywhere .writable r :=
    SelectorList.everywhere_nestWithin (SelectorList.written_of_parse (fun _ _ ↦ trivial) hc)
      (SelectorList.written_of_parse (fun _ _ ↦ trivial) hp) hr
  have hself : SelectorList.same r r = true := (SelectorList.same_iff r r).2 rfl
  have hread : SelectorList.Everywhere .legible r → (SelectorList.parse r.text).result = .ok r :=
    fun h ↦ (SelectorList.parse_text_iff hwritten hself).2 ⟨rfl, h⟩
  refine ⟨⟨?_, fun h ↦ ⟨r, hread h, hself⟩⟩, hread⟩
  rintro ⟨l, hl, hsame⟩
  exact ((SelectorList.parse_text_iff hwritten hsame).1 hl).2

/-- What nesting `b` in `.\31 ` gives comes back from its text, where the first of two spaces ends
the escape and the second one the compound selector. -/
theorem SelectorList.parse_text_nestWithin_classes :
    (SelectorList.parse (SelectorList.text [⟨[], [⟨[.className "\\31 "], []⟩,
      ⟨[.type ⟨none, "b"⟩], []⟩], false⟩])).result =
        .ok [⟨[], [⟨[.className "\\31 "], []⟩, ⟨[.type ⟨none, "b"⟩], []⟩], false⟩] := by
  have hchild : (SelectorList.parse "b").result = .ok [.ofCompound [.type ⟨none, "b"⟩]] := by cbv
  have hparent : (SelectorList.parse ".\\31 ").result =
      .ok [.ofCompound [.className "\\31 "]] := by cbv
  have hnested : SelectorList.nestWithin [.ofCompound [.type ⟨none, "b"⟩]]
      [.ofCompound [.className "\\31 "]] true false =
        .ok [⟨[], [⟨[.className "\\31 "], []⟩, ⟨[.type ⟨none, "b"⟩], []⟩], false⟩] := by cbv
  apply (SelectorList.parse_text_nestWithin_iff hchild hparent hnested).2
  have hblank : ¬ Text.TakesBlank ['\\', '3', '1', ' '] := by
    have hdrop : Text.dropName ['\\', '3', '1', ' ', ' '] = some [' '] := by cbv
    simp [Text.TakesBlank, Text.IsNameText, hdrop]
  simp [SelectorList.Everywhere, SelectorList.Each, Complex.Everywhere, Path.Each, Compound.Each,
    Simple.Everywhere, Shape.legible, Simple.Legible, Complex.Legible, Complex.word,
    Compound.TakesBlank, Simple.TakesBlank, Simple.lastName, hblank]

/-- A hexadecimal escape that is not finished takes the space in front of the nested selector. -/
theorem SelectorList.not_parse_text_nestWithin :
    ¬ ∀ (child parent : String) (c p r : SelectorList), (SelectorList.parse child).result = .ok c →
      (SelectorList.parse parent).result = .ok p → c.nestWithin p true false = .ok r →
        ∃ l, (SelectorList.parse r.text).result = .ok l ∧ SelectorList.same l r = true := by
  intro h
  have hchild : (SelectorList.parse "b").result = .ok [.ofCompound [.type ⟨none, "b"⟩]] := by cbv
  have hparent : (SelectorList.parse ".\\31").result =
      .ok [.ofCompound [.className "\\31"]] := by cbv
  obtain ⟨l, hl, hsame⟩ := h _ _ _ _ [⟨[], [⟨[.className "\\31"], []⟩,
    ⟨[.type ⟨none, "b"⟩], []⟩], false⟩] hchild hparent (by cbv)
  have hread : (SelectorList.parse (SelectorList.text [⟨[], [⟨[.className "\\31"], []⟩,
      ⟨[.type ⟨none, "b"⟩], []⟩], false⟩])).result =
        .ok [.ofCompound [.className "\\31 b"]] := by cbv
  rw [hread] at hl
  cases hl
  have hshort := congrArg (List.map (fun c ↦ c.components.length))
    ((SelectorList.same_iff _ _).1 hsame)
  cases hshort

end SelectorAlgebra

import Mathlib
import SelectorAlgebra.Proofs.Parser.Bounds
import SelectorAlgebra.Proofs.Parser.Notices

/-!
# Warnings about selectors

Main statement: the warnings about a text that is read as a selector list are, one for one and in
post-order, about the complex selectors in the list that hold several combinators in one place, and
each such selector is read from the text of the span that its warning names.
-/

namespace SelectorAlgebra

/-- The complex selectors in a selector list that hold several combinators in one place, at any
depth and in post-order. -/
def SelectorList.offenders (l : SelectorList) : List Complex :=
  (SelectorList.complexes l).filter Complex.hasMultipleCombinators

/-- Whether a warning says of a part of a text that several combinators stand in one place, and a
complex selector is read from that part. -/
structure Warning.IsAbout (text : String) (options : ParseOptions) (w : Warning) (c : Complex) :
    Prop where
  deprecation : w.deprecation = true
  span : ∃ span, w = .multipleCombinators span ∧ span.url = options.url ∧ span.IsCut text ∧
    ∃ d, (Complex.parse span.text options).result = .ok d ∧ d.same c = true

namespace Parser

variable {α : Type}

theorem exists_reads_of_run {p : Parser α} {text : String} {url : Option String} {a : α}
    (h : (run p text url).result = .ok a) : ∃ r, Reads (whole p) text.toList a r := by
  obtain ⟨r, hr, hend⟩ := run_eq_ok_iff.1 h
  exact ⟨[], reads_whole_iff.2 ⟨⟨r, hr, hend⟩, rfl⟩⟩

/-- The line break of a complex selector is not read with it. -/
theorem Reads.withLineBreak {allow : Allowance} {nested : Parser SelectorList} {s t : List Char}
    {c : Complex} {lineBreak : Bool} (h : Reads (complex allow nested lineBreak) s c t)
    (b : Bool) : Reads (complex allow nested b) s { c with lineBreak := b } t :=
  reads_complex_word_iff.2 ⟨(reads_complex_word_iff.1 h).1, rfl⟩

/-- What was read from the range of a text is read from the text of its span. -/
theorem Reported.isAbout {text : String} {options : ParseOptions} {n : Stretch} {c : Complex}
    (h : Reported options.toAllowance n c) (hstop : n.stop <:+ n.start)
    (hstart : n.start <:+ text.toList) :
    (Warning.multipleCombinators (n.span text.toList options.url)).IsAbout text options c := by
  obtain ⟨start, stop⟩ := n
  obtain ⟨htight, ⟨depth, lineBreak, hread⟩, hends⟩ := h
  dsimp only at htight hread hends hstop hstart
  obtain ⟨x, rfl⟩ := hstop
  obtain ⟨u, hu⟩ := hstart
  have hcut : Stretch.Within ⟨x ++ stop, stop⟩ text.toList := by
    refine ⟨⟨u, hu⟩, List.suffix_append x stop, fun _ heq ↦ ?_⟩
    have hlt := length_lt_of_reads_complex (fun _ _ ↦ stays_list depth) hread
    dsimp only at heq
    rw [← heq] at hlt
    exact absurd hlt (Nat.lt_irrefl _)
  refine ⟨rfl, _, rfl, rfl, EntryPoint.isCut_span hcut options.url, ?_⟩
  refine ⟨{ c with lineBreak := false }, ?_, ?_⟩
  · rw [← hu, Stretch.span_append, Complex.parse_eq, run_eq_ok_iff, String.toList_ofList,
      Text.dropBlanks_of_startsTight htight.of_append]
    exact ⟨[], (reads_complex_excerpt hends hread).withLineBreak false, rfl⟩
  · exact (Complex.same_iff _ _).2 (Complex.eraseBreaks_eq_of_word rfl)

end Parser

/-- The warnings about a text that is read as a selector list are, in this order, about the complex
selectors in the list that hold several combinators in one place, and each such selector is read
from the part of the text that its warning is about. -/
theorem SelectorList.warnings_parse {text : String} {options : ParseOptions} {l : SelectorList}
    (h : (SelectorList.parse text options).result = .ok l) :
    List.Forall₂ (Warning.IsAbout text options) (SelectorList.parse text options).warnings
      (SelectorList.offenders l) := by
  rw [SelectorList.parse_eq] at h ⊢
  obtain ⟨r, hr⟩ := Parser.exists_reads_of_run h
  have hreport := Parser.gives_whole_nestedList l r hr
  have hstays : Parser.StaysAt text.toList (Parser.nestedList options.toAllowance).whole
      text.toList := Parser.stays_whole (fun _ ↦ Parser.stays_nestedList) (List.suffix_refl _)
  change List.Forall₂ _ (List.map _ _) _
  rw [List.forall₂_map_left_iff]
  refine ((List.forall₂_and_left _ _).2 ⟨hstays.notices, hreport⟩).imp ?_
  rintro n c ⟨⟨hstop, hstart⟩, hn⟩
  exact hn.isAbout hstop hstart

/-- One selector in an argument, and the one around it, each of which repeats combinators. -/
theorem SelectorList.warnings_parse_nested : ∃ l,
    (SelectorList.parse "a, :not(.b > > .c) ~ + d /**/").result = .ok l ∧
      (SelectorList.offenders l).map Complex.text = [".b > > .c", ":not(.b > > .c) ~ + d"] ∧
      List.Forall₂ (Warning.IsAbout "a, :not(.b > > .c) ~ + d /**/" {})
        (SelectorList.parse "a, :not(.b > > .c) ~ + d /**/").warnings
        (SelectorList.offenders l) := by
  have hread : (SelectorList.parse "a, :not(.b > > .c) ~ + d /**/").result = .ok
      [.ofCompound [.type ⟨none, "a"⟩],
        ⟨[], [⟨[.pseudo ⟨"not", false, none, some [⟨[], [⟨[.className "b"], [.child, .child]⟩,
          ⟨[.className "c"], []⟩], false⟩]⟩], [.followingSibling, .nextSibling]⟩,
          ⟨[.type ⟨none, "d"⟩], []⟩], false⟩] := by cbv
  exact ⟨_, hread, by rfl, warnings_parse hread⟩

end SelectorAlgebra

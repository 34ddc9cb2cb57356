import Mathlib
import SelectorAlgebra.Proofs.Parser.Written
import SelectorAlgebra.Proofs.Serialization.Compound

/-!
# Arguments and their text

The argument of a pseudo selector that takes no selectors is kept without the white space at its
end, part of which may belong to an escape there. Main statement: the pseudo selector comes back
from its canonical text exactly if the backslashes at the end of its argument pair off.
-/

namespace SelectorAlgebra

namespace Parser

open Text

variable {nested : Parser SelectorList} {s t : List Char} {p : Pseudo}

theorem not_reads_namespaced_pseudo {ns : String} : ¬ Reads (namespaced ns) s (.pseudo p) t := by
  simp [namespaced]

theorem not_reads_typeSelector_pseudo : ¬ Reads typeSelector s (.pseudo p) t := by
  simp only [typeSelector, reads_accept_bind_iff, if_true, Bool.false_eq_true, if_false,
    not_reads_namespaced_pseudo, and_false, exists_false, false_or, not_or, not_and]
  refine ⟨by simp, fun _ _ h ↦ ?_⟩
  obtain ⟨n, u, -, h⟩ := reads_bind_iff.1 h
  rw [reads_rest_bind_iff] at h
  split at h
  · exact not_reads_namespaced_pseudo h
  · cases (reads_pure_iff.1 h).1

/-- A pseudo selector is read behind a colon. -/
theorem reads_simple_pseudo_iff {allow : Allowance} {first : Bool} :
    Reads (simple allow nested first) s (.pseudo p) t ↔
      ∃ u, s = ':' :: u ∧ Reads (pseudo nested) u p t := by
  rw [simple, reads_rest_bind_iff]
  split
  · simp
  · simp
  · simp
  · split <;> simp
  · simp
  · unfold parent
    split
    · simp
    · split
      · simp
      · simp
  · simp [not_reads_typeSelector_pseudo]
  · simp [not_reads_typeSelector_pseudo]
  · next hcolon _ _ _ =>
    refine iff_of_false (fun h ↦ ?_) ?_
    · split at h
      · exact not_reads_typeSelector_pseudo h
      · exact not_reads_fail h
    · rintro ⟨u, rfl, -⟩
      exact hcolon u rfl

/-- The argument of a pseudo selector that takes no selectors is what stands between the blanks
behind the opening parenthesis and the white space in front of the closing one. -/
theorem exists_reads_rawArgument {a : String} (h : Reads (pseudo nested) s p t)
    (ha : p.argument = some a) (hkind : p.kind.takesSelector p.element = false) :
    ∃ u r, Reads rawArgument u a r := by
  rw [pseudo_eq, reads_bind_iff] at h
  obtain ⟨element, u, -, h⟩ := h
  obtain ⟨n, u, -, h⟩ := reads_bind_iff.1 h
  rcases reads_accept_bind_iff.1 h with ⟨u, -, hopen⟩ | ⟨-, hclosed⟩
  · rw [if_pos rfl, reads_blanks_bind_iff, reads_bind_iff] at hopen
    obtain ⟨q, v, hq, hopen⟩ := hopen
    obtain rfl : q = p := by
      simp only [reads_blanks_bind_iff, reads_expect_bind_iff, reads_pure_iff] at hopen
      obtain ⟨_, -, rfl, -⟩ := hopen
      rfl
    obtain ⟨⟨rfl, rfl⟩, -⟩ := hq.argument
    obtain ⟨b, hb, hqb⟩ := (reads_argument_raw_iff hkind).1 hq
    rw [hqb] at ha
    cases ha
    exact ⟨_, _, hb⟩
  · obtain ⟨rfl, -⟩ := reads_pure_iff.1 hclosed
    cases ha

end Parser

open Text

variable {text : String} {options options' : ParseOptions} {n a : String} {element : Bool}

/-- What a text is read as that holds a pseudo selector and its argument with white space behind. -/
theorem Simple.parse_argument_iff {z : List Char} (hn : IsName n.toList)
    (hlast : ∀ c ∈ a.toList.getLast?, isSpace c = false) (hz : ∀ c ∈ z, isSpace c = true)
    (htight : StartsTight (a.toList ++ (z ++ [')'])))
    (hkind : (PseudoKind.ofName (Pseudo.normalize n)).takesSelector element = false)
    (htext : text.toList = ':' :: ((if element then [':'] else []) ++
      (n.toList ++ '(' :: (a.toList ++ (z ++ [')']))))) :
    (Simple.parse text options).result = .ok (.pseudo ⟨n, element, some a, none⟩) ↔
      IsArgument (a.toList ++ z) := by
  have hread (r : List Char) : Parser.Reads (EntryPoint.simple.parser options.toAllowance)
      text.toList (.pseudo ⟨n, element, some a, none⟩) r ↔
        r = [] ∧ IsArgument (a.toList ++ z) := by
    have hnamed : Parser.Reads (Parser.namedPseudo (Parser.nestedList options.toAllowance) element)
        (n.toList ++ '(' :: (a.toList ++ (z ++ [')']))) ⟨n, element, some a, none⟩ r ↔ _ :=
      Parser.reads_namedPseudo_raw_iff hn hlast hz htight hkind
    rw [htext, ← hnamed, ← Parser.reads_pseudo_name_iff hn]
    exact Parser.reads_simple_pseudo_iff.trans (by simp)
  have hblanks : dropBlanks text.toList = text.toList := by
    rw [htext]
    exact dropBlanks_of_startsTight (startsTight_cons rfl (by decide) _)
  refine (EntryPoint.parse_eq_ok_iff (e := .simple)).trans ?_
  rw [hblanks]
  simp [hread, dropBlanks]

/-- A pseudo selector with an argument comes back from its text if a parenthesis ends the
argument. -/
theorem Simple.parse_text_argument_iff {K : List Char → Prop} (hn : IsName n.toList)
    (ha : Pseudo.WrittenArgument K a.toList)
    (hkind : (PseudoKind.ofName (Pseudo.normalize n)).takesSelector element = false) :
    (∃ s, (Simple.parse (Simple.text (.pseudo ⟨n, element, some a, none⟩)) options).result =
      .ok s ∧ Simple.same s (.pseudo ⟨n, element, some a, none⟩) = true) ↔
        IsArgument a.toList := by
  have htext : (Simple.text (.pseudo ⟨n, element, some a, none⟩)).toList =
      ':' :: ((if element then [':'] else []) ++
        (n.toList ++ '(' :: (a.toList ++ ([] ++ [')'])))) := by
    cases element <;> simp [Simple.text, Simple.chars, Pseudo.chars]
  have hparse : (Simple.parse (Simple.text (.pseudo ⟨n, element, some a, none⟩)) options).result =
      .ok (.pseudo ⟨n, element, some a, none⟩) ↔ IsArgument (a.toList ++ []) :=
    Simple.parse_argument_iff hn ha.last (by simp) (Parser.startsTight_argument ha []) hkind htext
  rw [List.append_nil] at hparse
  rw [← hparse]
  constructor
  · rintro ⟨s, hs, hsame⟩
    -- without a selector list there are no line breaks to differ in
    obtain ⟨q, rfl, hq⟩ := Simple.eraseBreaks_eq_pseudo_iff.1 ((Simple.same_iff _ _).1 hsame)
    obtain ⟨m, rfl, hm⟩ := Parser.Pseudo.eraseBreaks_eq_iff.1 hq
    obtain rfl : m = none := by simpa using hm
    exact hs
  · exact fun h ↦ ⟨_, h, (Simple.same_iff _ _).2 rfl⟩

/-- A pseudo selector with an argument that is no selector is read from its canonical text, as it
was or equal to that, exactly if the backslashes at the end of the argument pair off. -/
theorem Simple.parse_text_of_parse_argument_iff {p : Pseudo} {a : String}
    (h : (Simple.parse text options).result = .ok (.pseudo p)) (ha : p.argument = some a)
    (hkind : p.kind.takesSelector p.element = false) :
    (∃ s, (Simple.parse (Simple.text (.pseudo p)) options').result = .ok s ∧
      Simple.same s (.pseudo p) = true) ↔ Even (endBackslashes a.toList) := by
  have hwritten : Simple.Everywhere (.written fun _ ↦ True) (.pseudo p) :=
    EntryPoint.written_of_parse (e := .simple) (fun _ _ ↦ trivial) h
  -- the argument ended at a parenthesis with the white space that is cut off
  have hclosed : IsArgument a.toList ↔ Even (endBackslashes a.toList) := by
    obtain ⟨r, hr, -⟩ := (EntryPoint.parse_eq_ok_iff (e := .simple)).1 h
    obtain ⟨u, -, hp⟩ := Parser.reads_simple_pseudo_iff.1 hr
    obtain ⟨_, _, hread⟩ := Parser.exists_reads_rawArgument hp ha hkind
    obtain ⟨z, v, -, -, hargument, hz, -⟩ := Parser.exists_of_reads_rawArgument hread
    exact isArgument_trim_iff hz hargument
  obtain ⟨n, element, argument, l⟩ := p
  cases ha
  obtain ⟨⟨hn, -⟩, hargument⟩ := hwritten.simple
  obtain rfl : l = none := by
    cases l with
    | none => rfl
    | some l => exact absurd (hargument.takesSelector rfl) (by simp [hkind])
  obtain ⟨htakes, -⟩ | ⟨-, hargument⟩ := hargument
  · rw [hkind] at htakes
    cases htakes
  rw [Simple.parse_text_argument_iff hn hargument hkind, hclosed]

/-- The space that ends the escape in `:x((")") \\31 )` is cut off, and the escape needs none. -/
theorem Simple.parse_text_of_parse_argument_escape :
    ∃ s, (Simple.parse (Simple.text (.pseudo ⟨"x", false, some "(\")\") \\31", none⟩))).result =
      .ok s ∧ Simple.same s (.pseudo ⟨"x", false, some "(\")\") \\31", none⟩) = true := by
  have htight : StartsTight ("(\")\") \\31".toList ++ ([' '] ++ [')'])) :=
    startsTight_cons rfl (by decide) _
  have hlast : ∀ c ∈ "(\")\") \\31".toList.getLast?, isSpace c = false := by
    simp [isSpace, spaceRanges]
  have hargument : IsArgument ("(\")\") \\31".toList ++ [' ']) := by cbv
  have h : (Simple.parse ":x((\")\") \\31 )").result =
      .ok (.pseudo ⟨"x", false, some "(\")\") \\31", none⟩) :=
    (Simple.parse_argument_iff (isName_of_isPlainName rfl).1 hlast (by simp [isSpace, spaceRanges])
      htight (by decide) rfl).2 hargument
  exact (Simple.parse_text_of_parse_argument_iff h rfl (by decide)).2 (by decide)

/-- The space that is cut off from `:x(\\ )` leaves a backslash, which takes the parenthesis. -/
theorem Simple.not_parse_text_of_parse_argument :
    ¬ ∀ (text : String) (p : Pseudo) (a : String),
      (Simple.parse text).result = .ok (.pseudo p) → p.argument = some a →
        p.kind.takesSelector p.element = false →
          ∃ s, (Simple.parse (Simple.text (.pseudo p))).result = .ok s ∧
            Simple.same s (.pseudo p) = true := by
  intro h
  have hname : IsName "x".toList := (isName_of_isPlainName rfl).1
  have hargument : IsArgument ("\\".toList ++ [' ']) := by cbv
  have htight : StartsTight ("\\".toList ++ ([' '] ++ [')'])) := startsTight_cons rfl (by decide) _
  have hwritten : Pseudo.WrittenArgument (fun _ ↦ True) "\\".toList :=
    ⟨trivial, startsTight_cons rfl (by decide) [], by simp [isSpace, spaceRanges], by simp⟩
  have hread : (Simple.parse ":x(\\ )").result = .ok (.pseudo ⟨"x", false, some "\\", none⟩) :=
    (Simple.parse_argument_iff hname hwritten.last (by simp [isSpace, spaceRanges]) htight
      (by decide) rfl).2 hargument
  have hclosed := (Simple.parse_text_argument_iff hname hwritten (by decide)).1
    (h _ _ _ hread rfl (by decide))
  have herror : (dropArgument 0 ("\\".toList ++ [')'])).toOption.isSome = false := by cbv
  rw [show dropArgument 0 ("\\".toList ++ [')']) = _ from hclosed] at herror
  cases herror

end SelectorAlgebra

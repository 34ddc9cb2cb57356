import Mathlib
import SelectorAlgebra.Proofs.Excerpt.Selector
import SelectorAlgebra.Proofs.Parser.EntryPoint

/-!
# Entry points agree

A text that holds one selector of a sort is read by the entry points of all wider sorts. Main
statement: what is read as a simple selector, a compound selector or a complex selector is what the
next wider entry point reads as a sequence of one.
-/

namespace SelectorAlgebra

/-- A complex selector is a single compound selector exactly if its word is. -/
theorem Complex.singleCompound?_eq_some_iff {x : Complex} {c : Compound} :
    x.singleCompound? = some c ↔ x.word = [.compound c] := by
  constructor
  · intro h
    unfold singleCompound? at h
    split at h
    · next hleading hcomponents =>
      cases h
      simp [word, hleading, hcomponents]
    · cases h
  · intro h
    rw [← ofWord_word x, h]
    rfl

namespace Parser

open Text

variable {allow : Allowance} {nested : Parser SelectorList} {s t : List Char} {bound : Nat}

/-! ### Repetitions that take nothing -/

/-- What may follow in a compound selector is no blank. -/
theorem dropBlanks_ne_nil_of_continuesCompound (h : continuesCompound s = true) :
    dropBlanks s ≠ [] := by
  cases s with
  | nil => cases h
  | cons c s =>
    have hall : ∀ c ∈ ['[', '.', '#', '%', ':', '&'], isBlank c = false ∧ c ≠ '/' := by
      simp [isBlank]
    obtain ⟨hblank, hslash⟩ := hall c (by simpa [continuesCompound] using h)
    rw [dropBlanks_of_startsTight (startsTight_cons hblank hslash s)]
    exact List.cons_ne_nil c s

/-- No simple selectors are taken up to blanks at the end exactly if nothing else is there. -/
theorem exists_reads_moreSimples_nil_iff :
    (∃ t, Reads (moreSimples allow nested bound) s [] t ∧ dropBlanks t = []) ↔
      dropBlanks s = [] := by
  cases bound with
  | zero => simp [moreSimples]
  | succ bound =>
    simp only [moreSimples, reads_rest_bind_iff]
    split
    · next hgoes =>
      refine iff_of_false ?_ (dropBlanks_ne_nil_of_continuesCompound hgoes)
      simp
    · simp

theorem exists_reads_parts_nil_iff {adjacent : Bool} :
    (∃ t, Reads (parts allow nested bound adjacent) s [] t ∧ dropBlanks t = []) ↔
      dropBlanks s = [] := by
  cases bound with
  | zero => simp [parts, dropBlanks_dropBlanks]
  | succ bound =>
    simp only [parts, reads_rest_bind_iff, reads_blanks_bind_iff]
    split
    · next k hk =>
      refine iff_of_false (by simp) fun hnil ↦ ?_
      simp [hnil] at hk
    · split
      · next hgoes =>
        refine iff_of_false (by simp) fun hnil ↦ ?_
        simp [hnil, startsCompound] at hgoes
      · simp [dropBlanks_dropBlanks]

theorem exists_reads_moreMembers_nil_iff :
    (∃ t, Reads (moreMembers allow nested bound) s [] t ∧ dropBlanks t = []) ↔
      dropBlanks s = [] := by
  cases bound with
  | zero => simp [moreMembers]
  | succ bound =>
    constructor
    · rintro ⟨t, ht, hend⟩
      rcases reads_moreMembers_succ_iff.1 ht with ⟨_, _, _, _, -, -, -, hnil⟩ | ⟨-, -, rfl⟩
      · cases hnil
      · rwa [dropBlanks_dropBlanks] at hend
    · intro hend
      refine ⟨[], reads_moreMembers_succ_iff.2 (.inr ⟨?_, rfl, hend.symm⟩), by rw [dropBlanks]⟩
      simp [hend]

/-! ### Sequences of one -/

/-- What one parser reads in front of one that takes nothing but blanks up to the end. -/
theorem exists_reads_of_nil_iff {α β : Type} {p q : Parser α} {f : List Char → Parser (List β)}
    {a : α} (hpq : ∀ t, Reads p s a t ↔ Reads q s a t)
    (hf : ∀ u, (∃ t, Reads (f u) u [] t ∧ dropBlanks t = []) ↔ dropBlanks u = []) :
    (∃ t, (∃ u, Reads p s a u ∧ Reads (f u) u [] t) ∧ dropBlanks t = []) ↔
      ∃ u, Reads q s a u ∧ dropBlanks u = [] := by
  constructor
  · rintro ⟨t, ⟨u, hu, ht⟩, hend⟩
    exact ⟨u, (hpq u).1 hu, (hf u).1 ⟨t, ht, hend⟩⟩
  · rintro ⟨u, hu, hend⟩
    obtain ⟨t, ht, hend⟩ := (hf u).2 hend
    exact ⟨t, ⟨u, (hpq u).2 hu, ht⟩, hend⟩

theorem reads_cons_singleton_iff {α : Type} {a b : α} {p : Parser (List α)} :
    Reads (p >>= fun l ↦ pure (a :: l)) s [b] t ↔ b = a ∧ Reads p s [] t := by
  simp [reads_cons_iff, and_comm]

theorem reads_compound_singleton_iff {x : Simple} :
    Reads (compound allow nested) s [x] t ↔ ∃ u, Reads (simple allow nested true) s x u ∧
      Reads (moreSimples allow nested u.length) u [] t := by
  rw [compound, reads_bind_iff]
  simp only [reads_rest_bind_iff, reads_cons_singleton_iff]
  constructor
  · rintro ⟨_, u, hx, rfl, hu⟩
    exact ⟨u, hx, hu⟩
  · rintro ⟨u, hx, hu⟩
    exact ⟨x, u, hx, rfl, hu⟩

theorem reads_members_singleton_iff {c : Complex} (hs : StartsTight s) :
    Reads (members allow nested) s [c] t ↔ ∃ u, Reads (complex allow nested false) s c u ∧
      Reads (moreMembers allow nested u.length) u [] t := by
  rw [reads_members_iff, dropBlanks_of_startsTight hs]
  constructor
  · rintro ⟨_, u, _, hc, hu, heq⟩
    cases heq
    exact ⟨u, hc, hu⟩
  · rintro ⟨u, hc, hu⟩
    exact ⟨c, u, [], hc, hu, rfl⟩

theorem reads_parts_singleton_iff {c : Compound} (hs : StartsTight s) :
    Reads (parts allow nested s.length false) s [.compound c] t ↔
      ∃ u, Reads (compound allow nested) s c u ∧
        Reads (parts allow nested (s.length - 1) true) u [] t := by
  have hstop (h : startsCompound s ≠ true) :
      ¬ ∃ u, Reads (compound allow nested) s c u ∧
        Reads (parts allow nested (s.length - 1) true) u [] t := by
    rintro ⟨u, hu, -⟩
    exact h (startsCompound_of_reads_compound hu)
  cases s with
  | nil => exact iff_of_false (by simp [parts]) (hstop (by decide))
  | cons d s =>
    rw [List.length_cons, parts, reads_rest_bind_iff, reads_blanks_bind_iff,
      dropBlanks_of_startsTight hs, reads_rest_bind_iff]
    split
    · next k hk =>
      refine iff_of_false (by simp) (hstop fun hstarts ↦ ?_)
      rw [(startsCompound_head hstarts).1] at hk
      cases hk
    · split
      · rw [reads_bind_iff]
        simp only [reads_cons_singleton_iff, Part.compound.injEq]
        constructor
        · rintro ⟨_, u, hc, rfl, hu⟩
          exact ⟨u, hc, hu⟩
        · rintro ⟨u, hc, hu⟩
          exact ⟨c, u, hc, rfl, hu⟩
      · next hno => exact iff_of_false (by simp) (hstop (by simpa using hno))

/-- A complex selector that is one compound selector takes what the compound selector takes. -/
theorem exists_reads_parts_singleton_iff {c : Compound} (hs : StartsTight s) :
    (∃ t, Reads (parts allow nested s.length false) s [.compound c] t ∧ dropBlanks t = []) ↔
      ∃ u, Reads (compound allow nested) s c u ∧ dropBlanks u = [] := by
  simp only [reads_parts_singleton_iff hs]
  exact exists_reads_of_nil_iff (fun _ ↦ Iff.rfl) fun _ ↦ exists_reads_parts_nil_iff

/-! ### Depth -/

/-- A complex selector is read alike with all depths that its text has room for. -/
theorem reads_complex_list_iff {depth : Nat} {c : Complex} {lineBreak : Bool}
    (hdepth : s.length ≤ depth) : Reads (complex allow (nestedList allow) lineBreak) s c t ↔
      Reads (complex allow (list allow depth) lineBreak) s c t := by
  have hnil : StartsWithin complexEnds [] := by simp [StartsWithin]
  have hread {nested nested' : Parser SelectorList} (hstays : ∀ src u, Stays src nested u)
      (hnested : ∀ u, u.length < s.length → Excerpts [] False nested nested' u)
      (h : Reads (complex allow nested lineBreak) s c t) :
      Reads (complex allow nested' lineBreak) s c t := by
    have hcomplex : Excerpts [] True (complex allow nested lineBreak)
        (complex allow nested' lineBreak) s :=
      .complex hnil hstays hnested (Nat.le_refl _)
    exact (hcomplex c t h).2 s t (by simp) (by simp) fun _ ↦ trivial
  constructor
  · refine hread (fun _ _ ↦ stays_nestedList) fun u hu l t h ↦ ?_
    exact Excerpts.list hnil (by simp; omega) l t (reads_nestedList_iff.1 h)
  · exact hread (fun _ _ ↦ stays_list depth) fun u _ ↦ Excerpts.nestedList hnil

end Parser

variable {text : String} {options : ParseOptions}

/-- A simple selector is what a compound selector of one holds. -/
theorem Simple.parse_iff_compound {x : Simple} : (Simple.parse text options).result = .ok x ↔
    (Compound.parse text options).result = .ok [x] := by
  rw [Simple.parse_eq, Compound.parse_eq, Parser.run_eq_ok_iff, Parser.run_eq_ok_iff]
  simp only [Parser.reads_compound_singleton_iff]
  exact (Parser.exists_reads_of_nil_iff (fun _ ↦ Iff.rfl)
    fun u ↦ Parser.exists_reads_moreSimples_nil_iff).symm

/-- A compound selector is a complex selector that is nothing else. -/
theorem Compound.parse_iff_complex {d : Compound} : (Compound.parse text options).result = .ok d ↔
    ∃ c, (Complex.parse text options).result = .ok c ∧ c.singleCompound? = some d := by
  have htight := Text.startsTight_dropBlanks text.toList
  rw [Complex.parse_eq, Compound.parse_eq, Parser.run_eq_ok_iff]
  simp only [Parser.run_eq_ok_iff, Parser.reads_complex_word_iff,
    Complex.singleCompound?_eq_some_iff]
  rw [← Parser.exists_reads_parts_singleton_iff htight]
  constructor
  · rintro ⟨t, ht, hend⟩
    exact ⟨.ofCompound d, ⟨t, ⟨⟨ht, by simp [Complex.word, Complex.ofCompound]⟩, rfl⟩, hend⟩, rfl⟩
  · rintro ⟨c, ⟨t, ⟨⟨ht, -⟩, -⟩, hend⟩, hword⟩
    exact ⟨t, hword ▸ ht, hend⟩

/-- A complex selector is what a selector list of one holds. -/
theorem Complex.parse_iff_list {c : Complex} : (Complex.parse text options).result = .ok c ↔
    (SelectorList.parse text options).result = .ok [c] := by
  have htight := Text.startsTight_dropBlanks text.toList
  rw [Complex.parse_eq, SelectorList.parse_eq, Parser.run_eq_ok_iff, Parser.run_eq_ok_iff]
  simp only [Parser.reads_nestedList_iff, Parser.list,
    Parser.reads_members_singleton_iff htight]
  exact (Parser.exists_reads_of_nil_iff
    (fun _ ↦ (Parser.reads_complex_list_iff (Nat.le_refl _)).symm)
    fun u ↦ Parser.exists_reads_moreMembers_nil_iff).symm

/-- What an entry point reads from a text, the next wider one reads as the only member. -/
theorem EntryPoint.parse_singleton_iff (text : String) (options : ParseOptions) :
    (∀ c, (Complex.parse text options).result = .ok c ↔
      (SelectorList.parse text options).result = .ok [c]) ∧
    (∀ d, (Compound.parse text options).result = .ok d ↔
      ∃ c, (Complex.parse text options).result = .ok c ∧ c.singleCompound? = some d) ∧
    (∀ x, (Simple.parse text options).result = .ok x ↔
      (Compound.parse text options).result = .ok [x]) :=
  ⟨fun _ ↦ Complex.parse_iff_list, fun _ ↦ Compound.parse_iff_complex,
    fun _ ↦ Simple.parse_iff_compound⟩

end SelectorAlgebra

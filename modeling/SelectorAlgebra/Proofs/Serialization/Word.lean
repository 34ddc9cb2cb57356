import SelectorAlgebra.Proofs.Serialization.Compound

/-!
# Reading complex selectors back

The canonical text of a complex selector is that of its parts with a space in front of each, up to
the first space. So it is read back part by part, and only a name in front of a space can take
something that belongs to the text behind it.
-/

namespace SelectorAlgebra

namespace Parser

open Text

variable {K : List Char → Prop} {nested : Parser SelectorList} {s t r : List Char}

/-! ### The start of a compound selector -/

theorem startsCompound_head (h : startsCompound s = true) :
    s.head?.bind Combinator.ofSymbol? = none ∧ StartsTight s := by
  have hall : ∀ c ∈ ['*', '[', '.', '#', '%', ':', '&', '|'],
      Combinator.ofSymbol? c = none ∧ isBlank c = false ∧ c ≠ '/' := by
    simp [Combinator.ofSymbol?, isBlank]
  cases s with
  | nil => cases h
  | cons c s =>
    simp only [startsCompound, Bool.or_eq_true, decide_eq_true_eq] at h
    rcases h with h | h
    · obtain ⟨hnone, hblank, hslash⟩ := hall c h
      exact ⟨hnone, startsTight_cons hblank hslash s⟩
    · have hname : Combinator.ofSymbol? c = none ∧ isBlank c = false ∧ c ≠ '/' := by
        rcases head_of_startsName h with h | rfl | rfl
        · refine ⟨?_, ?_, ?_⟩
          · rw [Option.eq_none_iff_forall_ne_some]
            intro k hk
            rw [Combinator.ofSymbol?_eq_some_iff.1 hk] at h
            cases k <;> cases h
          · have hchar := isNameChar_of_isNameStart h
            apply Bool.eq_false_iff.2
            intro hblank
            rw [isNameChar_of_isBlank hblank] at hchar
            cases hchar
          · rintro rfl
            cases h
        · exact ⟨rfl, rfl, by decide⟩
        · exact ⟨rfl, rfl, by decide⟩
      exact ⟨hname.1, startsTight_cons hname.2.1 hname.2.2 s⟩

theorem startsCompound_append {x : Simple} (hx : x.Written K) (s : List Char) :
    startsCompound (x.chars ++ s) = true := by
  have hhead {u : List Char} (hu : u.head? = some '*' ∨ u.head? = some '|' ∨ startsName u = true) :
      startsCompound u = true := by
    cases u with
    | nil => rcases hu with h | h | h <;> cases h
    | cons c u =>
      rcases hu with h | h | h
      · obtain rfl := Option.some.inj h
        rfl
      · obtain rfl := Option.some.inj h
        rfl
      · simp [startsCompound, h]
  cases x with
  | pseudo p =>
    rw [Simple.chars, chars_pseudo p]
    rfl
  | universal ns =>
    rw [Simple.chars, List.append_assoc]
    exact hhead (namespaceChars_head hx (.inl rfl))
  | type n =>
    rw [Simple.chars, QualifiedName.chars, List.append_assoc]
    exact hhead (namespaceChars_head hx.1.ns (.inr (.inr (startsName_append hx.1.name.1 s))))
  | _ => rfl

/-! ### Parts -/

/-- What may stand behind a complex selector. -/
def complexEnds : List Char := [',', ')']

theorem StartsWithin.startsTight (hs : StartsWithin complexEnds s) : StartsTight s := by
  cases s with
  | nil => exact ⟨by simp, rfl⟩
  | cons c s =>
    have hall : ∀ c ∈ complexEnds, isBlank c = false ∧ c ≠ '/' := by simp [complexEnds, isBlank]
    obtain ⟨hblank, hslash⟩ := hall c (startsWithin_cons.1 hs)
    exact startsTight_cons hblank hslash s

theorem stops_of_startsWithin (hs : StartsWithin complexEnds s) :
    s.head?.bind Combinator.ofSymbol? = none ∧ startsCompound s = false := by
  cases s with
  | nil => exact ⟨rfl, rfl⟩
  | cons c s =>
    have hc := startsWithin_cons.1 hs
    simp only [complexEnds, List.mem_cons, List.not_mem_nil, or_false] at hc
    rcases hc with rfl | rfl <;> exact ⟨rfl, rfl⟩

/-- Whether a compound selector can be written and the lists in it are read back. -/
def IsReady (K : List Char → Prop) (nested : Parser SelectorList) (c : Compound) : Prop :=
  Compound.Written c ∧ ∀ x ∈ c, Ready K nested x

/-- Whether compound selectors of a word are legible and none takes a space behind it. -/
def LegibleWord (w : List Part) : Prop :=
  (∀ c, Part.compound c ∈ w → Compound.Each .legible c) ∧
    ∀ c, Part.compound c ∈ w.dropLast → ¬ Compound.TakesBlank c

theorem legibleWord_combinator_iff {k : Combinator} {w : List Part} :
    LegibleWord (.combinator k :: w) ↔ LegibleWord w := by
  cases w <;> simp [LegibleWord]

theorem legibleWord_compound_iff {c : Compound} {w : List Part} (hs : StartsWithin complexEnds s) :
    (Compound.Each .legible c ∧
        (Compound.TakesBlank c → (spacedParts w ++ s).head? ≠ some ' ')) ∧ LegibleWord w ↔
      LegibleWord (.compound c :: w) := by
  cases w with
  | nil =>
    have hspace : s.head? ≠ some ' ' := hs.head_ne (by decide)
    simp [LegibleWord, spacedParts, hspace]
  | cons x w =>
    have hblank : (Compound.TakesBlank c → (spacedParts (x :: w) ++ s).head? ≠ some ' ') ↔
        ¬ Compound.TakesBlank c := by simp [spacedParts_cons]
    rw [hblank, LegibleWord, LegibleWord, List.dropLast_cons_cons]
    constructor
    · rintro ⟨⟨hc, hclosed⟩, heach, hlast⟩
      refine ⟨fun d hd ↦ ?_, fun d hd ↦ ?_⟩
      · rcases List.mem_cons.1 hd with hd | hd
        · cases hd
          exact hc
        · exact heach d hd
      · rcases List.mem_cons.1 hd with hd | hd
        · cases hd
          exact hclosed
        · exact hlast d hd
    · rintro ⟨heach, hlast⟩
      exact ⟨⟨heach c (.head _), hlast c (.head _)⟩, fun d hd ↦ heach d (.tail _ hd),
        fun d hd ↦ hlast d (.tail _ hd)⟩

theorem startsCompound_chars {c : Compound} (hc : IsReady K nested c) (s : List Char) :
    startsCompound (Compound.chars c ++ s) = true := by
  obtain ⟨⟨x, d, rfl, -⟩, hready⟩ := hc
  rw [Compound.chars, List.append_assoc]
  exact startsCompound_append (hready x (.head d)).written _

theorem startsWithin_spacedParts (w : List Part) (hs : StartsWithin complexEnds s) :
    StartsWithin compoundEnds (spacedParts w ++ s) := by
  cases w with
  | nil => exact hs.mono (by decide)
  | cons x w => exact startsWithin_cons.2 (by decide)

/-- Where a compound selector may come next, blanks in front are passed over. -/
theorem reads_parts_space_iff {bound : Nat} {w : List Part} :
    Reads (parts {} nested bound false) (' ' :: s) w t ↔
      Reads (parts {} nested bound false) s w t := by
  have hblanks : dropBlanks (' ' :: s) = dropBlanks s := dropBlanks_cons_of_isBlank rfl
  cases bound with
  | zero => rw [parts, reads_blanks_bind_iff, reads_blanks_bind_iff, hblanks]
  | succ bound =>
    rw [parts, reads_rest_bind_iff, reads_blanks_bind_iff, hblanks]
    exact Iff.rfl

theorem everywhere_legible_iff {c : Complex} :
    c.Everywhere .legible ↔ LegibleWord c.word := by
  rw [Complex.everywhere_iff, Path.each_iff]
  constructor
  · rintro ⟨hlast, -, heach⟩
    refine ⟨fun e he ↦ ?_, hlast⟩
    obtain ⟨d, hd, rfl⟩ := Complex.mem_word_iff.1 he
    exact (heach d hd).2
  · rintro ⟨heach, hlast⟩
    exact ⟨hlast, trivial, fun d hd ↦ ⟨trivial, heach _ (Complex.mem_word_iff.2 ⟨d, hd, rfl⟩)⟩⟩

theorem length_le_spacedParts {w : List Part}
    (hw : ∀ c, Part.compound c ∈ w → IsReady K nested c) :
    2 * w.length ≤ (spacedParts w).length := by
  induction w with
  | nil => exact Nat.zero_le _
  | cons x w ih =>
    have hx : 0 < x.chars.length := by
      cases x with
      | combinator k => exact Nat.one_pos
      | compound c =>
        have hstarts := startsCompound_chars (hw c (.head w)) []
        rw [List.append_nil] at hstarts
        apply List.length_pos_of_ne_nil
        intro hnil
        change Compound.chars c = [] at hnil
        rw [hnil] at hstarts
        cases hstarts
    have := ih fun c hc ↦ hw c (.tail x hc)
    rw [spacedParts_cons]
    simp only [List.length_cons, List.length_append]
    omega

theorem reads_parts_nil_iff {allow : Allowance} {bound : Nat} {adjacent : Bool}
    (hs : StartsWithin complexEnds s) :
    Reads (parts allow nested bound adjacent) s [] t ↔ s = t := by
  obtain ⟨hnone, hstop⟩ := stops_of_startsWithin hs
  have hblanks := dropBlanks_of_startsTight hs.startsTight
  cases bound <;> simp [parts, hblanks, hnone, hstop]

theorem reads_parts_combinator_iff {k : Combinator} {v : List Part} {bound : Nat}
    {adjacent : Bool} :
    Reads (parts {} nested (bound + 1) adjacent) (' ' :: k.symbol :: s) (.combinator k :: v) t ↔
      Reads (parts {} nested bound false) s v t := by
  have hblanks : dropBlanks (' ' :: k.symbol :: s) = k.symbol :: s := by
    have htight : StartsTight (k.symbol :: s) := by
      cases k <;> exact startsTight_cons rfl (by decide) _
    exact (dropBlanks_cons_of_isBlank rfl).trans (dropBlanks_of_startsTight htight)
  rw [parts, reads_rest_bind_iff, reads_blanks_bind_iff, reads_rest_bind_iff, hblanks]
  simp only [List.head?_cons, Option.bind_some, Combinator.ofSymbol?_symbol]
  rw [reads_goTo_bind_iff, List.tail_cons]
  simp [reads_bind_iff]

/-- Behind a space a compound selector may come, whatever was in front. -/
theorem reads_parts_compound_iff {e : Compound} {v : List Part} {bound : Nat} {adjacent : Bool}
    (hs : startsCompound s = true) :
    Reads (parts {} nested (bound + 1) adjacent) (' ' :: s) (.compound e :: v) t ↔
      ∃ r, Reads (compound {} nested) s e r ∧ Reads (parts {} nested bound true) r v t := by
  obtain ⟨hnone, htight⟩ := startsCompound_head hs
  have hblanks : dropBlanks (' ' :: s) = s :=
    (dropBlanks_cons_of_isBlank rfl).trans (dropBlanks_of_startsTight htight)
  have hlt : s.length < (' ' :: s).length := Nat.lt_succ_self _
  rw [parts, reads_rest_bind_iff, reads_blanks_bind_iff, reads_rest_bind_iff, hblanks, hnone]
  dsimp only
  rw [if_pos (by rw [hs, decide_eq_true hlt]; simp)]
  simp [reads_bind_iff]

section Lists

variable (hnested : ∀ r, Takes nested r 0 fun l ↦ weight (SelectorList.chars l))

include hnested

/-- Parts are read back one after the other. -/
theorem reads_parts_iff {w v : List Part} {bound : Nat} {adjacent : Bool}
    (hready : ∀ c, Part.compound c ∈ w → IsReady K nested c) (hbound : w.length ≤ bound)
    (hs : StartsWithin complexEnds s) (hw : weight s ≤ weight t)
    (hv : v.map Part.eraseBreaks = w.map Part.eraseBreaks) :
    Reads (parts {} nested bound adjacent) (spacedParts w ++ s) v t ↔
      (v = w ∧ t = s) ∧ LegibleWord w := by
  induction w generalizing v bound adjacent t with
  | nil =>
    obtain rfl : v = [] := List.map_eq_nil_iff.1 hv
    change Reads _ s _ t ↔ _
    rw [reads_parts_nil_iff hs]
    simp [LegibleWord, eq_comm]
  | cons x w ih =>
    obtain ⟨bound, rfl⟩ := Nat.exists_eq_add_of_le' (Nat.one_le_of_lt (Nat.lt_of_succ_le hbound))
    cases v with
    | nil => cases hv
    | cons y v =>
    obtain ⟨hxy, hvw⟩ := List.cons.inj hv
    have hmore {adjacent : Bool} :
        Reads (parts {} nested bound adjacent) (spacedParts w ++ s) v t ↔ _ :=
      ih (fun c hc ↦ hready c (.tail _ hc)) (Nat.le_of_succ_le_succ hbound) hw hvw
    rw [spacedParts_cons, List.cons_append, List.append_assoc]
    cases x with
    | combinator k =>
      obtain rfl : y = .combinator k := by cases y <;> cases hxy; rfl
      change Reads _ (' ' :: k.symbol :: (spacedParts w ++ s)) _ t ↔ _
      rw [reads_parts_combinator_iff, hmore, legibleWord_combinator_iff]
      simp
    | compound c =>
      obtain ⟨e, rfl, he⟩ : ∃ e, y = .compound e ∧
          Compound.eraseBreaks e = Compound.eraseBreaks c := by
        cases y with
        | combinator k => cases hxy
        | compound e => exact ⟨e, rfl, Part.compound.inj hxy⟩
      have hc := hready c (.head w)
      have hcompound (r : List Char) (hr : weight (spacedParts w ++ s) ≤ weight r) :
          Reads (compound {} nested) (Compound.chars c ++ (spacedParts w ++ s)) e r ↔
            (Part.compound e = .compound c ∧ r = spacedParts w ++ s) ∧
              Compound.Each .legible c ∧
                (Compound.TakesBlank c → (spacedParts w ++ s).head? ≠ some ' ') := by
        rw [reads_compound_iff hnested hc.2 hc.1 (startsWithin_spacedParts w hs) hr he]
        simp
      have hcost (r : List Char) (hr : Reads (parts {} nested bound true) r v t) :
          weight (spacedParts w ++ s) ≤ weight r :=
        (takes_parts hnested bound true).weight_le hr (weight_of_map_eraseBreaks hvw) hw
      change Reads _ (' ' :: (Compound.chars c ++ (spacedParts w ++ s))) _ t ↔ _
      rw [reads_parts_compound_iff (startsCompound_chars hc _),
        exists_reads_iff hcompound hcost hmore, legibleWord_compound_iff hs]

/-- A complex selector is read back exactly if it is legible. -/
theorem reads_complex_iff {c d : Complex} (hne : c.word ≠ [])
    (hc : ∀ e ∈ c.components, IsReady K nested e.compound) (hs : StartsWithin complexEnds s)
    (hw : weight s ≤ weight t) (hd : d.eraseBreaks = c.eraseBreaks) :
    Reads (complex {} nested c.lineBreak) (c.chars ++ s) d t ↔
      (d = c ∧ t = s) ∧ c.Everywhere .legible := by
  have hword : d.word.map Part.eraseBreaks = c.word.map Part.eraseBreaks := by
    rw [← Complex.word_eraseBreaks, hd, Complex.word_eraseBreaks]
  have hready : ∀ e, Part.compound e ∈ c.word → IsReady K nested e := by
    intro e he
    obtain ⟨f, hf, rfl⟩ := Complex.mem_word_iff.1 he
    exact hc f hf
  have hbound : c.word.length ≤ (c.chars ++ s).length := by
    have hlength := length_le_spacedParts hready
    have hpos := List.length_pos_of_ne_nil hne
    rw [← Complex.space_chars hne, List.length_cons] at hlength
    rw [List.length_append]
    omega
  have hparts : Reads (parts {} nested (c.chars ++ s).length false) (c.chars ++ s) d.word t ↔
      (d.word = c.word ∧ t = s) ∧ LegibleWord c.word := by
    rw [← reads_parts_space_iff, ← List.cons_append, Complex.space_chars hne]
    exact reads_parts_iff hnested hready hbound hs hw hword
  rw [reads_complex_word_iff, hparts, everywhere_legible_iff]
  constructor
  · rintro ⟨⟨⟨⟨hword, rfl⟩, hlegible⟩, -⟩, hbreak⟩
    refine ⟨⟨?_, rfl⟩, hlegible⟩
    rw [← Complex.ofWord_word d, ← Complex.ofWord_word c, hword, hbreak]
  · rintro ⟨⟨rfl, rfl⟩, hlegible⟩
    exact ⟨⟨⟨⟨rfl, rfl⟩, hlegible⟩, hne⟩, rfl⟩

end Lists

end Parser

end SelectorAlgebra

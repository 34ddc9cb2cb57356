import SelectorAlgebra.Proofs.Serialization.Word

/-!
# Reading selector lists back

Main statement: the canonical text of a selector list that can be written is read as a list that is
the same up to line breaks exactly if the list is legible at every depth, and then it is read as the
list itself.
-/

namespace SelectorAlgebra

namespace Parser

open Text

variable {K : List Char → Prop} {nested : Parser SelectorList} {s t r : List Char}

/-- Whether a complex selector can be written and the lists in it are read back. -/
def IsReadyComplex (K : List Char → Prop) (nested : Parser SelectorList) (c : Complex) : Prop :=
  c.Written ∧ ∀ e ∈ c.components, IsReady K nested e.compound

theorem startsTight_complex {c : Complex} (hc : IsReadyComplex K nested c) (s : List Char) :
    StartsTight (c.chars ++ s) := by
  have hne := hc.1.word_ne_nil
  have hchars := Complex.space_chars hne
  obtain ⟨x, w, hw⟩ := List.exists_cons_of_ne_nil hne
  rw [hw, spacedParts_cons] at hchars
  rw [(List.cons.inj hchars).2, List.append_assoc]
  cases x with
  | combinator k => cases k <;> exact startsTight_cons rfl (by decide) _
  | compound e =>
    obtain ⟨d, hd, rfl⟩ := Complex.mem_word_iff.1 (hw ▸ List.mem_cons_self)
    exact (startsCompound_head (startsCompound_chars (hc.2 d hd) _)).2

theorem startsWithin_moreChars (m : SelectorList) (hs : StartsWithin [')'] s) :
    StartsWithin complexEnds (SelectorList.moreChars m ++ s) := by
  cases m with
  | nil => exact hs.mono (by decide)
  | cons c m => exact startsWithin_cons.2 (by decide)

theorem length_le_moreChars (m : SelectorList) :
    m.length ≤ (SelectorList.moreChars m).length := by
  induction m with
  | nil => exact Nat.zero_le _
  | cons c m ih =>
    rw [SelectorList.moreChars]
    simp only [List.length_append, List.length_cons]
    omega

theorem blanksBreakLine_space (s : List Char) :
    blanksBreakLine (' ' :: s) = blanksBreakLine s := rfl

theorem reads_moreMembers_nil_iff {allow : Allowance} {bound : Nat} (hs : StartsWithin [')'] s) :
    Reads (moreMembers allow nested bound) s [] t ↔ s = t := by
  have hends : StartsWithin complexEnds s := hs.mono (by decide)
  have hblanks := dropBlanks_of_startsTight hends.startsTight
  cases bound with
  | zero => simp [moreMembers]
  | succ bound =>
    rw [moreMembers, reads_blanks_bind_iff, hblanks,
      reads_accept_bind_of_ne (hs.head_ne (by decide))]
    simp

/-- The blank behind a comma says whether the next member starts a new line. -/
theorem reads_moreMembers_cons_iff {c d : Complex} {n : SelectorList} {bound : Nat}
    (hc : IsReadyComplex K nested c) :
    Reads (moreMembers {} nested (bound + 1))
        (',' :: (if c.lineBreak then '\n' else ' ') :: (c.chars ++ s)) (d :: n) t ↔
      ∃ r, Reads (complex {} nested c.lineBreak) (c.chars ++ s) d r ∧
        Reads (moreMembers {} nested bound) r n t := by
  have htight := startsTight_complex hc s
  have hbreak : blanksBreakLine ((if c.lineBreak then '\n' else ' ') :: (c.chars ++ s)) =
      c.lineBreak := by
    cases c.lineBreak with
    | true => rfl
    | false => exact (blanksBreakLine_space _).trans (blanksBreakLine_of_startsTight htight)
  have hblanks : dropBlanks ((if c.lineBreak then '\n' else ' ') :: (c.chars ++ s)) =
      c.chars ++ s := by
    rw [dropBlanks_cons_of_isBlank (by cases c.lineBreak <;> rfl)]
    exact dropBlanks_of_startsTight htight
  rw [moreMembers, reads_blanks_bind_iff,
    dropBlanks_of_startsTight (startsTight_cons rfl (by decide) _), reads_accept_bind_cons,
    if_pos rfl, reads_rest_bind_iff, reads_blanks_bind_iff, hbreak, hblanks]
  simp [reads_bind_iff]

theorem exists_of_eraseBreaks_members {c : Complex} {m n : SelectorList}
    (h : SelectorList.eraseBreaks n = SelectorList.eraseBreaks (c :: m)) :
    ∃ d n', n = d :: n' ∧ d.eraseBreaks = c.eraseBreaks ∧
      SelectorList.eraseBreaks n' = SelectorList.eraseBreaks m := by
  cases n with
  | nil => cases h
  | cons d n =>
    obtain ⟨hd, hn⟩ := List.cons.inj h
    exact ⟨d, n, rfl, hd, hn⟩

/-- Whether the members of a list can be written and the lists in them are read back. -/
def IsReadyList (K : List Char → Prop) (nested : Parser SelectorList) (l : SelectorList) : Prop :=
  SelectorList.Written l ∧ ∀ c ∈ l, IsReadyComplex K nested c

section Lists

variable (hnested : ∀ r, Takes nested r 0 fun l ↦ weight (SelectorList.chars l))

include hnested

/-- Members are read back one after the other, their line breaks too. -/
theorem reads_moreMembers_iff {m n : SelectorList} {bound : Nat}
    (hm : ∀ c ∈ m, IsReadyComplex K nested c) (hbound : m.length ≤ bound)
    (hs : StartsWithin [')'] s) (hw : weight s ≤ weight t)
    (hn : SelectorList.eraseBreaks n = SelectorList.eraseBreaks m) :
    Reads (moreMembers {} nested bound) (SelectorList.moreChars m ++ s) n t ↔
      (n = m ∧ t = s) ∧ SelectorList.Each .legible m := by
  induction m generalizing n bound t with
  | nil =>
    obtain rfl : n = [] := by
      cases n with
      | nil => rfl
      | cons d n => cases hn
    change Reads _ s _ t ↔ _
    rw [reads_moreMembers_nil_iff hs]
    simp [SelectorList.Each, eq_comm]
  | cons c m ih =>
    obtain ⟨d, n, rfl, hd, hnm⟩ := exists_of_eraseBreaks_members hn
    obtain ⟨bound, rfl⟩ := Nat.exists_eq_add_of_le' (Nat.one_le_of_lt (Nat.lt_of_succ_le hbound))
    have hc := hm c (.head m)
    have htext : SelectorList.moreChars (c :: m) ++ s = ',' :: (if c.lineBreak then '\n' else ' ') ::
        (c.chars ++ (SelectorList.moreChars m ++ s)) := by
      simp [SelectorList.moreChars]
    have hcomplex (r : List Char) (hr : weight (SelectorList.moreChars m ++ s) ≤ weight r) :
        Reads (complex {} nested c.lineBreak) (c.chars ++ (SelectorList.moreChars m ++ s)) d r ↔ _ :=
      reads_complex_iff hnested hc.1.word_ne_nil hc.2 (startsWithin_moreChars m hs) hr hd
    have hcost (r : List Char) (hr : Reads (moreMembers {} nested bound) r n t) :
        weight (SelectorList.moreChars m ++ s) ≤ weight r :=
      (takes_moreMembers hnested bound).weight_le hr (SelectorList.weight_more_of_eraseBreaks hnm) hw
    have hmore := ih (fun e he ↦ hm e (.tail _ he)) (Nat.le_of_succ_le_succ hbound) hw hnm
    rw [htext, reads_moreMembers_cons_iff hc, exists_reads_iff hcomplex hcost hmore, SelectorList.Each]

/-- Lists are read back if the lists nested in them are. -/
theorem readsBack_members {l : SelectorList} (hl : IsReadyList K nested l) :
    ReadsBack (members {} nested) l := by
  obtain ⟨⟨c, m, rfl, hbreak⟩, hready⟩ := hl
  have hc := hready c (.head m)
  refine ⟨fun s ↦ ?_, fun {s t n} hs hw hn ↦ ?_⟩
  · rw [SelectorList.chars, List.append_assoc]
    exact startsTight_complex hc _
  · obtain ⟨d, n, rfl, hd, hnm⟩ := exists_of_eraseBreaks_members hn
    have hread : Reads (members {} nested) (SelectorList.chars (c :: m) ++ s) (d :: n) t ↔
        ∃ r, Reads (complex {} nested c.lineBreak)
          (c.chars ++ (SelectorList.moreChars m ++ s)) d r ∧
            Reads (moreMembers {} nested r.length) r n t := by
      rw [SelectorList.chars, List.append_assoc, members, reads_blanks_bind_iff,
        dropBlanks_of_startsTight (startsTight_complex hc _), hbreak, reads_bind_iff]
      simp only [reads_rest_bind_iff]
      simp [reads_bind_iff]
    have hcomplex (r : List Char) (hr : weight (SelectorList.moreChars m ++ s) ≤ weight r) :
        Reads (complex {} nested c.lineBreak) (c.chars ++ (SelectorList.moreChars m ++ s)) d r ↔ _ :=
      reads_complex_iff hnested hc.1.word_ne_nil hc.2 (startsWithin_moreChars m hs) hr hd
    have hcost (r : List Char) (hr : Reads (moreMembers {} nested r.length) r n t) :
        weight (SelectorList.moreChars m ++ s) ≤ weight r :=
      (takes_moreMembers hnested _).weight_le hr (SelectorList.weight_more_of_eraseBreaks hnm) hw
    have hbound : m.length ≤ (SelectorList.moreChars m ++ s).length := by
      have := length_le_moreChars m
      rw [List.length_append]
      omega
    have hmore := reads_moreMembers_iff hnested (fun e he ↦ hready e (.tail _ he)) hbound hs hw hnm
    rw [hread, exists_reads_iff hcomplex hcost hmore, SelectorList.Each]

end Lists

/-- A selector list that can be written is read back by the parser of lists of its depth. -/
theorem readsBack_list {l : SelectorList} {depth : Nat}
    (hl : SelectorList.Everywhere (.written K) l) (hdepth : SelectorList.depth l < depth) :
    ReadsBack (list {} depth) l := by
  induction depth generalizing l with
  | zero => exact absurd hdepth (Nat.not_lt_zero _)
  | succ depth ih =>
    refine readsBack_members (K := K) (takes_list depth) ⟨hl.1, fun c hc ↦ ?_⟩
    have hcwritten := SelectorList.each_iff.1 hl.2 c hc
    refine ⟨hcwritten.complex, fun d hd ↦ ⟨(hcwritten.component hd).1, fun x hx ↦ ?_⟩⟩
    have hxwritten := hcwritten.condition hd hx
    refine ⟨hxwritten.simple, ?_⟩
    rintro p rfl k hk
    apply ih (hxwritten.list hk)
    have hpath := Nat.le_trans (Compound.depth_le hx) (Path.depth_le hd)
    rw [← Complex.depth_eq] at hpath
    have hle := Nat.le_trans hpath (SelectorList.depth_le hc)
    have hpseudo : (Simple.pseudo p).depth = SelectorList.depth k + 1 := by
      obtain ⟨n, element, a, selector⟩ := p
      cases hk
      rfl
    omega

end Parser

/-- The text of a selector list that can be written is read as a list that is the same exactly if
the list is legible, and then as the list itself. -/
theorem SelectorList.parse_text_iff {K : List Char → Prop} {l m : SelectorList}
    (hl : SelectorList.Everywhere (.written K) l) (hm : SelectorList.same m l = true) :
    (SelectorList.parse l.text).result = .ok m ↔ m = l ∧ SelectorList.Everywhere .legible l := by
  have hback := Parser.readsBack_list hl (Nat.lt_succ_of_le (SelectorList.depth_le_chars l))
  have htight := hback.tight []
  rw [List.append_nil] at htight
  have hends : Parser.StartsWithin [')'] [] := by simp [Parser.StartsWithin]
  have hread (r : List Char) := hback.reads_iff (t := r) hends (Nat.zero_le _)
    ((SelectorList.same_iff m l).1 hm)
  rw [List.append_nil] at hread
  rw [SelectorList.parse_eq_ok_iff, SelectorList.text, String.toList_ofList,
    Text.dropBlanks_of_startsTight htight]
  constructor
  · rintro ⟨r, hr, -⟩
    obtain ⟨⟨hml, -⟩, heach⟩ := (hread r).1 (Parser.reads_nestedList_iff.1 hr)
    exact ⟨hml, trivial, heach⟩
  · rintro ⟨hml, -, heach⟩
    exact ⟨[], Parser.reads_nestedList_iff.2 ((hread []).2 ⟨⟨hml, rfl⟩, heach⟩), rfl⟩

end SelectorAlgebra

import SelectorAlgebra.Proofs.Excerpt.Selector
import SelectorAlgebra.Proofs.Extension.Simple
import SelectorAlgebra.Proofs.Parser.Notices
import SelectorAlgebra.Proofs.Serialization.Recovery

/-!
# Selectors with more text behind

Bounds of repetitions and the depth of nesting may be larger with more text, as long as they had
room for the text itself. What a complex selector leaves has to be what may follow one, since a
backslash that is left would start a name with more text behind it. Main statement: the members of a
selector list are read, and behind them those that are read from what is put behind the list.
-/

namespace SelectorAlgebra.Parser

open Text

variable {r s t v : List Char} {ok : List Char → Prop}

namespace Extends

section Nested

variable {allow : Allowance} {nested nested' : Parser SelectorList}
  (hr : StartsWithin complexEnds r)

include hr

/-! ### Compound selectors -/

/-- Where no condition follows in the text, none does with more text behind. -/
theorem moreSimples_stop {bound bound' : Nat} (hs : continuesCompound s = false) :
    Extends r ok (moreSimples allow nested bound) (moreSimples allow nested' bound') s := by
  intro _ d t h
  obtain ⟨rfl, rfl⟩ := h.unique (reads_moreSimples_stop hs)
  refine ⟨List.suffix_refl _, fun _ ↦ reads_moreSimples_stop ?_⟩
  rwa [continuesCompound_append hr]

theorem parts_stop {bound bound' : Nat} {adjacent : Bool} :
    Extends r ok (parts allow nested bound adjacent) (parts allow nested' bound' adjacent) [] := by
  intro _ w t h
  obtain ⟨rfl, rfl⟩ := h.unique ((reads_parts_nil_iff (by simp [StartsWithin])).2 rfl)
  exact ⟨List.suffix_refl _, fun _ ↦ (reads_parts_nil_iff hr).2 rfl⟩

/-- What may follow a complex selector starts no compound selector with more text behind either. -/
theorem parts_end {q : Parser (List Part)} : Extends r (StartsWithin complexEnds) (Pure.pure [])
    (if startsCompound (s ++ r) then q else Pure.pure []) s := by
  intro _ w t h
  obtain ⟨rfl, rfl⟩ := reads_pure_iff.1 h
  refine ⟨List.suffix_refl s, fun hs ↦ ?_⟩
  have hends : StartsWithin complexEnds (s ++ r) := by
    cases s with
    | nil => exact hr
    | cons c s => exact startsWithin_cons.2 (startsWithin_cons.1 hs)
  rw [(stops_of_startsWithin hends).2, if_neg (by decide)]
  exact reads_pure_iff.2 ⟨rfl, rfl⟩

variable (hstays : ∀ src u, Stays src nested u) (hnested : ∀ u, Extends r Closes nested nested' u)

include hstays hnested

theorem moreSimples {bound bound' : Nat} (hbound : s.length ≤ bound)
    (hbound' : s.length ≤ bound') :
    Extends r ok (moreSimples allow nested bound) (moreSimples allow nested' bound') s := by
  induction bound generalizing s bound' with
  | zero =>
    obtain rfl := List.length_eq_zero_iff.1 (Nat.le_zero.1 hbound)
    exact moreSimples_stop hr rfl
  | succ bound ih =>
    cases hgoes : continuesCompound s with
    | false => exact moreSimples_stop hr hgoes
    | true =>
      obtain ⟨bound', rfl⟩ : ∃ b, bound' = b + 1 := by
        refine Nat.exists_eq_add_of_le' (Nat.le_trans ?_ hbound')
        cases s with
        | nil => cases hgoes
        | cons c s => exact Nat.succ_pos _
      refine rest_bind ?_
      rw [continuesCompound_append hr, if_pos hgoes, if_pos hgoes]
      refine (simple hr hnested).bind_reads fun x u hx hu ↦ ?_
      have hlt := length_lt_of_reads_simple hstays hx
      exact (ih (by omega) (by omega)).bind_pure

theorem compound : Extends r ok (compound allow nested) (compound allow nested') s := by
  refine (simple hr hnested).bind fun x u hu ↦ rest_bind ?_
  refine (moreSimples hr hstays hnested (Nat.le_refl _) ?_).bind_pure
  rw [List.length_append]
  exact Nat.le_add_right _ _

/-! ### Complex selectors -/

/-- A part is taken or left with more text behind as it is without, and so are the parts that follow
in what it leaves. -/
theorem parts_step {c : Char} {bound bound' : Nat} {adjacent : Bool}
    (hmore : ∀ u b, u.length ≤ s.length → Extends r (StartsWithin complexEnds)
      (parts allow nested bound b) (parts allow nested' bound' b) u) :
    Extends r (StartsWithin complexEnds) (parts allow nested (bound + 1) adjacent)
      (parts allow nested' (bound' + 1) adjacent) (c :: s) := by
  refine rest_bind (blanks.bind fun _ u hu ↦ rest_bind ?_)
  have hle := hu.length_le
  rw [List.length_cons] at hle
  cases u with
  | nil =>
    obtain ⟨hnone, hstop⟩ := stops_of_startsWithin hr
    have hnil : startsCompound [] = false := rfl
    rw [List.nil_append, hnone]
    simp only [hstop, hnil, List.head?_nil, Option.bind_none, Bool.and_false, Bool.false_eq_true,
      if_false]
    exact .pure
  | cons d u =>
    have hlong : (d :: u ++ r).head?.bind Combinator.ofSymbol? = Combinator.ofSymbol? d := rfl
    have hshort : (d :: u).head?.bind Combinator.ofSymbol? = Combinator.ofSymbol? d := rfl
    rw [hlong, hshort]
    rw [List.length_cons] at hle
    cases hk : Combinator.ofSymbol? d with
    | some k =>
      exact goTo_bind (List.suffix_cons d u) (hmore u false (Nat.le_of_succ_le_succ hle)).bind_pure
    | none =>
      dsimp only
      have hlength : (d :: u ++ r).length < (c :: s ++ r).length ↔
          (d :: u).length < (c :: s).length := by
        rw [List.length_append, List.length_append, Nat.add_lt_add_iff_right]
      rw [decide_eq_decide.2 hlength]
      cases !adjacent || decide ((d :: u).length < (c :: s).length) with
      | false => exact .pure
      | true =>
        simp only [Bool.true_and]
        split
        · next hstarts =>
          have hlong := startsCompound_of_prefix hstarts r
          rw [if_pos hlong]
          refine (compound hr hstays hnested).bind_reads fun e v he hv ↦ ?_
          have hlt := length_lt_of_reads_compound hstays he
          rw [List.length_cons] at hlt
          exact (hmore v true (by omega)).bind_pure
        · exact parts_end hr

/-- Parts end where nothing is left that could be another with more text behind. -/
theorem parts {bound bound' : Nat} {adjacent : Bool} (hbound : s.length ≤ bound)
    (hbound' : s.length ≤ bound') : Extends r (StartsWithin complexEnds)
      (parts allow nested bound adjacent) (parts allow nested' bound' adjacent) s := by
  induction bound generalizing s bound' adjacent with
  | zero =>
    obtain rfl := List.length_eq_zero_iff.1 (Nat.le_zero.1 hbound)
    exact parts_stop hr
  | succ bound ih =>
    cases s with
    | nil => exact parts_stop hr
    | cons c s =>
      rw [List.length_cons] at hbound hbound'
      obtain ⟨bound', rfl⟩ := Nat.exists_eq_add_of_le' (Nat.le_trans (Nat.succ_pos _) hbound')
      exact parts_step hr hstays hnested fun u b hu ↦ ih (by omega) (by omega)

theorem complex {lineBreak : Bool} : Extends r (StartsWithin complexEnds)
    (complex allow nested lineBreak) (complex allow nested' lineBreak) s := by
  intro hs c t h
  obtain ⟨⟨hw, hne⟩, hb⟩ := reads_complex_word_iff.1 h
  have hparts : Extends r (StartsWithin complexEnds) (Parser.parts allow nested s.length false)
      (Parser.parts allow nested' (s ++ r).length false) s :=
    parts hr hstays hnested (Nat.le_refl _) (by simp)
  obtain ⟨ht, hread⟩ := hparts hs _ t hw
  exact ⟨ht, fun hok ↦ reads_complex_word_iff.2 ⟨⟨hread hok, hne⟩, hb⟩⟩

end Nested

end Extends

/-! ### Selector lists -/

section Lists

variable {allow : Allowance} {depth : Nat} {l m : SelectorList}

/-- Members that are read behind blanks are read with the blanks in front. -/
theorem reads_moreMembers_of_blanks {nested : Parser SelectorList} {bound : Nat}
    (h : ∀ b, (dropBlanks s).length ≤ b → Reads (moreMembers allow nested b) (dropBlanks s) l t)
    (hbound : s.length ≤ bound) : Reads (moreMembers allow nested bound) s l t := by
  cases bound with
  | zero =>
    obtain rfl := List.length_eq_zero_iff.1 (Nat.le_zero.1 hbound)
    exact h 0 (Nat.le_refl _)
  | succ bound =>
    rw [reads_moreMembers_blanks_iff]
    exact h _ ((dropBlanks_suffix s).length_le.trans hbound)

/-- What a complex selector leaves is what the next parser of the list may leave. -/
theorem startsWithin_of_reads_moreMembers {bound : Nat} (hs : StartsTight s)
    (h : Reads (moreMembers allow (list allow depth) bound) s l t)
    (ht : StartsWithin complexEnds (dropBlanks t)) : StartsWithin complexEnds s := by
  obtain ⟨htight, hends⟩ := gives_moreMembers (fun _ ↦ givesList_list depth) hs bound l t h
  rw [dropBlanks_of_startsTight htight] at ht
  exact (hends ht).1

theorem startsTight_of_reads_complex {lineBreak : Bool} {c : Complex}
    (h : Reads (complex allow (list allow depth) lineBreak) s c t) : StartsTight t :=
  (gives_complex_parts (fun _ ↦ givesList_list depth) c t h).1

variable {nested : Parser SelectorList} (hr : StartsWithin complexEnds r) (hs : BlanksStop r s)
  (hnested : ∀ u, Extends r Closes (list allow depth) nested u)
  (ht : StartsWithin complexEnds (dropBlanks t))

include hr hs hnested ht

/-- A member is read with more text behind the list, whether it is the last one or not. -/
theorem reads_complex_append {lineBreak : Bool} {c : Complex} {w : List Char} {bound : Nat}
    (hc : Reads (complex allow (list allow depth) lineBreak) s c w)
    (hl : Reads (moreMembers allow (list allow depth) bound) w l t) :
    w <:+ s ∧ Reads (complex allow nested lineBreak) (s ++ r) c (w ++ r) := by
  obtain ⟨hw, hread⟩ := Extends.complex hr (fun _ _ ↦ stays_list depth) hnested hs c w hc
  exact ⟨hw, hread (startsWithin_of_reads_moreMembers (startsTight_of_reads_complex hc) hl ht)⟩

variable (hm : ∀ b, (dropBlanks t ++ r).length ≤ b →
  Reads (moreMembers allow nested b) (dropBlanks t ++ r) m v)

include hm

/-- Members that are read from a text are read with the members that come behind it. -/
theorem reads_moreMembers_append {bound bound' : Nat} (hbound : s.length ≤ bound)
    (hbound' : (s ++ r).length ≤ bound')
    (h : Reads (moreMembers allow (list allow depth) bound) s l t) :
    Reads (moreMembers allow nested bound') (s ++ r) (l ++ m) v := by
  induction bound generalizing s l bound' with
  | zero =>
    obtain rfl := List.length_eq_zero_iff.1 (Nat.le_zero.1 hbound)
    obtain ⟨rfl, rfl⟩ := reads_pure_iff.1 h
    exact hm bound' hbound'
  | succ bound ih =>
    have hblanks := hs s (List.suffix_refl s)
    have hlength : (s ++ r).length = s.length + r.length := List.length_append
    rcases reads_moreMembers_succ_iff.1 h with ⟨u, c, w, n, hu, hc, hn, rfl⟩ | ⟨-, rfl, rfl⟩
    · have hsuffix := dropBlanks_suffix s
      rw [hu] at hblanks hsuffix
      have husuffix : u <:+ s := (List.suffix_cons ',' u).trans hsuffix
      have hwsuffix : dropBlanks u <:+ s := (dropBlanks_suffix u).trans husuffix
      have hle := hsuffix.length_le
      rw [List.length_cons] at hle
      have hlt := length_lt_of_reads_complex (fun _ _ ↦ stays_list depth) hc
      have hule := (dropBlanks_suffix u).length_le
      obtain ⟨bound', rfl⟩ := Nat.exists_eq_add_of_le' (Nat.le_trans (by omega : 1 ≤ _) hbound')
      have hbreak : blanksBreakLine (u ++ r) = blanksBreakLine u :=
        blanksBreakLine_append (fun hnil ↦ by simp [hnil] at hlt) hr.not_star
      obtain ⟨hw, hread⟩ := reads_complex_append hr (hs.suffix hwsuffix) hnested ht hc hn
      have hmore : Reads (moreMembers allow nested bound') (w ++ r) (n ++ m) v :=
        ih (hs.suffix (hw.trans hwsuffix)) (by omega) (by rw [List.length_append]; omega) hn
      refine reads_moreMembers_succ_iff.2
        (.inl ⟨u ++ r, c, w ++ r, n ++ m, hblanks, ?_, hmore, rfl⟩)
      rwa [hbreak, hs u husuffix]
    · rw [dropBlanks_dropBlanks, ← hblanks] at hm
      rw [List.nil_append]
      exact reads_moreMembers_of_blanks hm hbound'

theorem reads_members_append (h : Reads (members allow (list allow depth)) s l t) :
    Reads (members allow nested) (s ++ r) (l ++ m) v := by
  have hsuffix := dropBlanks_suffix s
  obtain ⟨c, w, n, hc, hn, rfl⟩ := reads_members_iff.1 h
  obtain ⟨hw, hread⟩ := reads_complex_append hr (hs.suffix hsuffix) hnested ht hc hn
  have hmore := reads_moreMembers_append hr (hs.suffix (hw.trans hsuffix)) hnested ht hm
    (Nat.le_refl _) (Nat.le_refl _) hn
  refine reads_members_iff.2 ⟨c, w ++ r, n ++ m, ?_, hmore, rfl⟩
  rwa [hs s (List.suffix_refl s)]

end Lists

namespace Extends

variable {allow : Allowance} {depth : Nat} (hr : StartsWithin complexEnds r)

include hr

/-- A list in an argument has no members behind the parenthesis that closes the argument. -/
theorem members {nested : Parser SelectorList}
    (hnested : ∀ u, Extends r Closes (list allow depth) nested u) :
    Extends r Closes (members allow (list allow depth)) (members allow nested) s := by
  intro hs l t h
  have hstays : Stays s (Parser.members allow (Parser.list allow depth)) s :=
    stays_members fun _ ↦ stays_list depth
  refine ⟨hstays.suffix h, ?_⟩
  rintro ⟨v, hv⟩
  have hends : StartsWithin [')'] (dropBlanks t ++ r) := by
    rw [hv, List.cons_append]
    exact startsWithin_cons.2 List.mem_cons_self
  have htight := (givesList_members (fun _ ↦ givesList_list depth) l t h).1
  have happend := reads_members_append (m := []) hr hs hnested
    (by rw [hv]; exact startsWithin_cons.2 (by decide))
    (fun b _ ↦ (reads_moreMembers_nil_iff hends).2 rfl) h
  rwa [List.append_nil, dropBlanks_of_startsTight htight] at happend

/-- More depth than was there is there for lists with more text behind. -/
theorem list {depth' : Nat} (hdepth : depth ≤ depth') :
    Extends r Closes (list allow depth) (list allow depth') s := by
  induction depth generalizing s depth' with
  | zero => exact .fail
  | succ depth ih =>
    obtain ⟨depth', rfl⟩ := Nat.exists_eq_add_of_le' (Nat.le_trans (Nat.succ_pos _) hdepth)
    exact members hr fun _ ↦ ih (Nat.le_of_succ_le_succ hdepth)

end Extends

end SelectorAlgebra.Parser

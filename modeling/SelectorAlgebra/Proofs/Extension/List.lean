import Mathlib
import SelectorAlgebra.Proofs.Extension.Selector
import SelectorAlgebra.Proofs.Parser.Warning

/-!
# Selector lists put together

What follows a comma behind a selector list is read as it is by itself, line breaks apart: the first
member of the second list may start a new line, which it does not at the start of a text. Main
statement: two texts that are read as selector lists are read as the two lists in one, with a comma
between them and without comments in the first, which could take the comma in.
-/

namespace SelectorAlgebra

namespace Parser

open Text

variable {allow : Allowance} {depth depth' : Nat} {s t : List Char} {l m : SelectorList}

/-- A list that takes a text up to blanks is read behind a comma as further members, the first of
which may start a new line. -/
theorem exists_reads_moreMembers_comma (hdepth : depth ≤ depth')
    (h : Reads (members allow (list allow depth)) (dropBlanks t) m s) (hs : dropBlanks s = []) :
    ∃ k, k.map Complex.word = m.map Complex.word ∧ ∀ bound, t.length < bound →
      Reads (moreMembers allow (list allow depth') bound) (',' :: t) k [] := by
  have hnil : StartsWithin complexEnds [] := by simp [StartsWithin]
  have hdeeper u : Extends [] Closes (list allow depth) (list allow depth') u := .list hnil hdepth
  obtain ⟨c, w, n, hc, hn, rfl⟩ := reads_members_iff.1 h
  rw [dropBlanks_dropBlanks] at hc
  have hends : StartsWithin complexEnds (dropBlanks s) := hs ▸ hnil
  obtain ⟨hw, hfirst⟩ := reads_complex_append hnil (blanksStop_nil _) hdeeper hends hc hn
  rw [List.append_nil, List.append_nil] at hfirst
  have hstop (b : Nat) :
      Reads (moreMembers allow (list allow depth') b) (dropBlanks s ++ []) [] [] := by
    rw [hs]
    exact (reads_moreMembers_nil_iff (by simp [StartsWithin])).2 rfl
  refine ⟨{ c with lineBreak := blanksBreakLine t } :: n, rfl, fun bound hbound ↦ ?_⟩
  obtain ⟨bound, rfl⟩ := Nat.exists_eq_add_of_le' (Nat.le_trans (Nat.succ_pos _) hbound)
  have hle := (hw.trans (dropBlanks_suffix t)).length_le
  have hroom : (w ++ []).length ≤ bound := by
    rw [List.append_nil]
    omega
  have hmore := reads_moreMembers_append hnil (blanksStop_nil w) hdeeper hends (fun b _ ↦ hstop b)
    (Nat.le_refl _) hroom hn
  rw [List.append_nil, List.append_nil] at hmore
  have hcomma : dropBlanks (',' :: t) = ',' :: t := dropBlanks_cons (by decide) rfl
  exact reads_moreMembers_succ_iff.2
    (.inl ⟨t, _, w, n, hcomma, hfirst.withLineBreak _, hmore, rfl⟩)

/-- Lists that take two texts up to blanks are read one behind the other with a comma between. -/
theorem exists_reads_nestedList_comma {x y : List Char} (hcomment : IsCommentFree s)
    (hl : Reads (nestedList allow) (dropBlanks s) l x) (hx : dropBlanks x = [])
    (hm : Reads (nestedList allow) (dropBlanks t) m y) (hy : dropBlanks y = []) :
    ∃ k, k.map Complex.word = m.map Complex.word ∧
      Reads (nestedList allow) (dropBlanks (s ++ ',' :: t)) (l ++ k) [] := by
  have hr : StartsWithin complexEnds (',' :: t) := startsWithin_cons.2 (by decide)
  have hstop := blanksStop_of_isCommentFree hcomment hr
  rw [reads_nestedList_iff] at hl hm
  simp only [reads_nestedList_iff, hstop s (List.suffix_refl s)]
  -- the text has room for what is nested in either part of it
  have hdepth : (dropBlanks s).length ≤ (dropBlanks s ++ ',' :: t).length := by simp
  have hdepth' : (dropBlanks t).length ≤ (dropBlanks s ++ ',' :: t).length := by
    have hle := (dropBlanks_suffix t).length_le
    simp only [List.length_append, List.length_cons]
    omega
  obtain ⟨k, hk, hread⟩ := exists_reads_moreMembers_comma hdepth' hm hy
  refine ⟨k, hk, reads_members_append hr (hstop.suffix (dropBlanks_suffix s))
    (fun _ ↦ .list hr hdepth) ?_ (fun b hb ↦ ?_) hl⟩
  · simp [hx, StartsWithin]
  · rw [hx, List.nil_append] at hb ⊢
    exact hread b hb

end Parser

/-- Two texts that are read as selector lists, the first of which holds no comment, are read as the
members of both with a comma between them. -/
theorem SelectorList.parse_append_comma {s t : String} {options : ParseOptions}
    {l m : SelectorList} (hcomment : ¬ ['/', '*'] <:+: s.toList)
    (hl : (SelectorList.parse s options).result = .ok l)
    (hm : (SelectorList.parse t options).result = .ok m) :
    ∃ k, (SelectorList.parse (s ++ "," ++ t) options).result = .ok k ∧
      SelectorList.same k (l ++ m) = true := by
  obtain ⟨x, hx, hxend⟩ := SelectorList.parse_eq_ok_iff.1 hl
  obtain ⟨y, hy, hyend⟩ := SelectorList.parse_eq_ok_iff.1 hm
  have htext : (s ++ "," ++ t).toList = s.toList ++ ',' :: t.toList := by simp
  obtain ⟨k, hk, hread⟩ := Parser.exists_reads_nestedList_comma hcomment hx hxend hy hyend
  rw [← htext] at hread
  refine ⟨l ++ k, SelectorList.parse_eq_ok_iff.2 ⟨[], hread, rfl⟩, SelectorList.same_of_words ?_⟩
  rw [List.map_append, List.map_append, hk]

/-- A list that ends in a nested list, and one that starts with a blank. -/
theorem SelectorList.parse_append_comma_nested : ∃ k,
    (SelectorList.parse ("a, :not(.b)" ++ "," ++ " c > d")).result = .ok k ∧
      SelectorList.same k [.ofCompound [.type ⟨none, "a"⟩],
        .ofCompound [.pseudo ⟨"not", false, none, some [.ofCompound [.className "b"]]⟩],
        ⟨[], [⟨[.type ⟨none, "c"⟩], [.child]⟩, ⟨[.type ⟨none, "d"⟩], []⟩], false⟩] = true := by
  have hs : (SelectorList.parse "a, :not(.b)").result = .ok [.ofCompound [.type ⟨none, "a"⟩],
      .ofCompound [.pseudo ⟨"not", false, none, some [.ofCompound [.className "b"]]⟩]] := by
    rw [SelectorList.parse_eq]
    cbv
  have ht : (SelectorList.parse " c > d").result =
      .ok [⟨[], [⟨[.type ⟨none, "c"⟩], [.child]⟩, ⟨[.type ⟨none, "d"⟩], []⟩], false⟩] := by
    rw [SelectorList.parse_eq]
    cbv
  exact parse_append_comma (by decide) hs ht

end SelectorAlgebra

import SelectorAlgebra.Proofs.Parser.EntryPoint
import SelectorAlgebra.Proofs.Selector.Written

/-!
# Selectors are read as they can be written

Main statement: what is read from a text has at every depth the shape of selectors that can be
written, and the texts that it keeps are parts of the text.
-/

namespace SelectorAlgebra

namespace Parser

open Text

variable {α β : Type} {K : List Char → Prop} {s r : List Char}

/-- Whether a condition holds of every part of a text. -/
def AllParts (K : List Char → Prop) (s : List Char) : Prop := ∀ u, u <:+: s → K u

theorem AllParts.suffix (h : AllParts K s) (hr : r <:+ s) : AllParts K r :=
  fun u hu ↦ h u (hu.trans hr.isInfix)

/-- Whether all that a parser takes from a text has a property and what it leaves is the end of the
text, if a condition holds of every part of it. -/
def Yields (K : List Char → Prop) (p : Parser α) (s : List Char) (P : α → Prop) : Prop :=
  AllParts K s → ∀ a r, Reads p s a r → r <:+ s ∧ P a

namespace Yields

variable {p : Parser α} {P : α → Prop} {Q : β → Prop}

theorem pure {a : α} (ha : P a) : Yields K (pure a) s P := by
  intro _ b r h
  obtain ⟨rfl, rfl⟩ := reads_pure_iff.1 h
  exact ⟨List.suffix_refl s, ha⟩

theorem imp {P' : α → Prop} (h : Yields K p s P) (hP : ∀ a, P a → P' a) : Yields K p s P' :=
  fun hK a r hr ↦ (h hK a r hr).imp_right (hP a)

theorem fail {fault : SyntaxFault} : Yields K (fail fault) s P :=
  fun _ _ _ h ↦ absurd h not_reads_fail

theorem failSince {start : List Char} {fault : SyntaxFault} :
    Yields K (failSince start fault) s P :=
  fun _ _ _ h ↦ absurd h not_reads_failSince

theorem bind {f : α → Parser β} (hp : Yields K p s P)
    (hf : ∀ a r, r <:+ s → P a → Yields K (f a) r Q) : Yields K (p >>= f) s Q := by
  intro hK b t h
  obtain ⟨a, r, ha, hb⟩ := reads_bind_iff.1 h
  obtain ⟨hr, hPa⟩ := hp hK a r ha
  obtain ⟨ht, hQ⟩ := hf a r hr hPa (hK.suffix hr) b t hb
  exact ⟨ht.trans hr, hQ⟩

theorem rest_bind {f : List Char → Parser β} (hf : Yields K (f s) s Q) :
    Yields K (rest >>= f) s Q := hf

theorem goTo_bind {f : Unit → Parser β} {u : List Char} (hu : u <:+ s)
    (hf : Yields K (f ()) u Q) : Yields K (goTo u >>= f) s Q := by
  intro hK b t h
  obtain ⟨ht, hQ⟩ := hf (hK.suffix hu) b t (reads_goTo_bind_iff.1 h)
  exact ⟨ht.trans hu, hQ⟩

theorem blanks_bind {f : Unit → Parser β} (hf : Yields K (f ()) (dropBlanks s) Q) :
    Yields K (blanks >>= f) s Q :=
  goTo_bind (dropBlanks_suffix s) hf

theorem notice_bind {start : List Char} {f : Unit → Parser β} (hf : Yields K (f ()) s Q) :
    Yields K (notice start >>= f) s Q := hf

theorem accept_bind {c : Char} {f : Bool → Parser β}
    (htrue : ∀ r, s = c :: r → Yields K (f true) r Q) (hfalse : Yields K (f false) s Q) :
    Yields K (accept c >>= f) s Q := by
  intro hK b t h
  rcases reads_accept_bind_iff.1 h with ⟨r, rfl, hr⟩ | ⟨-, hs⟩
  · obtain ⟨ht, hQ⟩ := htrue r rfl (hK.suffix (List.suffix_cons c r)) b t hr
    exact ⟨ht.trans (List.suffix_cons c r), hQ⟩
  · exact hfalse hK b t hs

theorem expect_bind {c : Char} {fault : SyntaxFault} {f : Unit → Parser β}
    (hf : ∀ r, s = c :: r → Yields K (f ()) r Q) : Yields K (expect c fault >>= f) s Q := by
  intro hK b t h
  obtain ⟨r, rfl, hr⟩ := reads_expect_bind_iff.1 h
  obtain ⟨ht, hQ⟩ := hf r rfl (hK.suffix (List.suffix_cons c r)) b t hr
  exact ⟨ht.trans (List.suffix_cons c r), hQ⟩

theorem nameChars : Yields K nameChars s fun n ↦ IsNameText n.toList ∧ K n.toList := by
  intro hK n r h
  obtain ⟨hr, rfl⟩ := reads_nameChars_iff.1 h
  obtain ⟨m, hm, hname⟩ := isNameText_of_dropName hr
  rw [← List.append_cancel_right hm] at hname
  exact ⟨List.suffix_append _ _, hname, hK _ ⟨[], r, rfl⟩⟩

theorem name : Yields K name s fun n ↦ IsName n.toList ∧ K n.toList := by
  intro hK n r h
  obtain ⟨hs, hr, rfl⟩ := reads_name_iff.1 h
  obtain ⟨m, hm, hname⟩ := isName_of_dropName hs hr
  rw [← List.append_cancel_right hm] at hname
  exact ⟨List.suffix_append _ _, hname, hK _ ⟨[], r, rfl⟩⟩

end Yields

/-! ### Type and attribute selectors -/

theorem yields_namespaced {ns : String} (hns : IsNamespace (some ns)) :
    Yields K (namespaced ns) s (Simple.Everywhere (.written K)) := by
  refine .accept_bind (fun r _ ↦ ?_) ?_
  · exact .pure hns
  · exact .bind .name fun n r _ hn ↦ .pure ⟨⟨hns, hn.1⟩, hn.2⟩

theorem yields_typeSelector : Yields K typeSelector s (Simple.Everywhere (.written K)) := by
  refine .accept_bind (fun r _ ↦ ?_) ?_
  · refine .accept_bind (fun r _ ↦ ?_) ?_
    · exact yields_namespaced (.inr (.inl rfl))
    · exact .pure trivial
  · refine .accept_bind (fun r _ ↦ ?_) ?_
    · exact yields_namespaced (.inl rfl)
    · refine .bind .name fun n r _ hn ↦ .rest_bind ?_
      split
      · exact .goTo_bind (List.tail_suffix r) (yields_namespaced (.inr (.inr hn.1)))
      · exact .pure ⟨⟨trivial, hn.1⟩, hn.2⟩

theorem yields_attributeName : Yields K attributeName s QualifiedName.Written := by
  refine .accept_bind (fun r _ ↦ ?_) (.rest_bind ?_)
  · apply Yields.expect_bind
    intro r _
    exact .bind .name fun n r _ hn ↦ .pure ⟨.inr (.inl rfl), hn.1⟩
  · split
    · apply Yields.goTo_bind (List.tail_suffix s)
      exact .bind .name fun n r _ hn ↦ .pure ⟨.inl rfl, hn.1⟩
    · refine .bind .name fun n r _ hn ↦ .rest_bind ?_
      split
      · apply Yields.goTo_bind (List.tail_suffix r)
        exact .bind .name fun m _ _ hm ↦ .pure ⟨.inr (.inr hn.1), hm.1⟩
      · exact .pure ⟨trivial, hn.1⟩

theorem yields_attributeOperator : Yields K attributeOperator s fun _ ↦ True := by
  apply Yields.rest_bind
  dsimp only
  split
  · exact .goTo_bind (List.drop_suffix _ s) (.pure trivial)
  · exact .fail

/-- A value comes from a part of the text, and has no line feed unless that has a backslash. -/
theorem yields_attributeValue :
    Yields K attributeValue s fun v ↦ ∃ w, K w ∧ ('\\' ∉ w → '\n' ∉ v.toList) := by
  have hquoted : Yields K quoted s fun v ↦ ∃ w, K w ∧ ('\\' ∉ w → '\n' ∉ v.toList) := by
    intro hK v r h
    obtain ⟨q, t, rfl, hv⟩ := reads_quoted_iff.1 h
    obtain ⟨w, rfl, -, hw⟩ := exists_of_readQuoted hv
    exact ⟨⟨q :: w ++ [q], by simp⟩, w, hK w ⟨[q], q :: r, by simp⟩, hw⟩
  have hname : Yields K (do return String.ofList (decodeName (← name).toList)) s
      fun v ↦ ∃ w, K w ∧ ('\\' ∉ w → '\n' ∉ v.toList) := by
    refine .bind .name fun n r _ hn ↦ .pure ⟨n.toList, hn.2, fun hb ↦ ?_⟩
    rw [String.toList_ofList, decodeName_of_not_mem hb]
    exact fun hm ↦ ne_of_isNameChar ((isNameText_iff_of_not_mem hb).1 hn.1.2 _ hm) rfl rfl
  apply Yields.rest_bind
  split
  · exact hquoted
  · exact hquoted
  · exact hname

theorem yields_attributeModifier :
    Yields K attributeModifier s fun m ↦ ∀ c ∈ m, c.isAlpha = true := by
  apply Yields.rest_bind
  split
  · next c t =>
    split
    · next hc =>
      refine .goTo_bind (List.suffix_cons c t) (.blanks_bind (.pure ?_))
      simpa using hc
    · exact .pure (by simp)
  · exact .pure (by simp)

theorem yields_attributeSelector : Yields K attributeSelector s fun a ↦
    a.name.Written ∧ a.HasWrittenTest K := by
  refine .blanks_bind (.bind yields_attributeName fun n _ _ hn ↦ .blanks_bind ?_)
  refine .accept_bind (fun r _ ↦ .pure ⟨hn, trivial⟩) ?_
  refine .bind yields_attributeOperator fun o _ _ _ ↦ .blanks_bind ?_
  refine .bind yields_attributeValue fun v _ _ hv ↦ .blanks_bind ?_
  apply Yields.bind yields_attributeModifier
  intro m _ _ hm
  exact .expect_bind fun r _ ↦ .pure ⟨hn, hv, hm⟩

/-! ### Pseudo selectors -/

/-- What is asked of a selector list, its members and all that is in them. -/
abbrev IsWritten (K : List Char → Prop) (l : SelectorList) : Prop :=
  SelectorList.Everywhere (.written K) l

/-- An argument is what white space was cut off from. -/
theorem exists_of_reads_rawArgument {a : String} (h : Reads rawArgument s a r) :
    ∃ z v, s = a.toList ++ (z ++ ')' :: v) ∧ r = ')' :: v ∧ IsArgument (a.toList ++ z) ∧
      (∀ c ∈ z, isSpace c = true) ∧ ∀ c ∈ a.toList.getLast?, isSpace c = false := by
  obtain ⟨hr, ha⟩ := reads_rawArgument_iff.1 h
  obtain ⟨u, v, rfl, rfl, -⟩ := dropArgument_append hr
  rw [Stretch.chars_mk_append] at ha
  obtain ⟨⟨z, rfl, hz⟩, hlast⟩ := trimEnd_eq_iff.1 ha.symm
  exact ⟨z, v, List.append_assoc .., rfl, (isArgument_iff v).2 hr, hz, hlast⟩

theorem yields_rawArgument (hs : StartsTight s) :
    Yields K rawArgument s fun a ↦ Pseudo.WrittenArgument K a.toList := by
  intro hK a r h
  obtain ⟨z, v, rfl, rfl, hargument, hz, hlast⟩ := exists_of_reads_rawArgument h
  refine ⟨⟨a.toList ++ z, by simp⟩, hK _ ⟨[], z ++ ')' :: v, rfl⟩, hs.of_append, hlast, ?_⟩
  exact fun hb ↦ isArgument_of_append hz hb hargument

theorem yields_indices {nested : Parser SelectorList}
    (hnested : ∀ r, r <:+ s → Yields K nested r (IsWritten K)) :
    Yields K (indices nested) s fun x ↦ Pseudo.WrittenIndices K x.1.toList ∧
      ∀ l ∈ x.2, IsWritten K l := by
  rintro hK ⟨a, l⟩ r h
  obtain ⟨⟨hne, ha⟩, h⟩ := reads_indices_iff.1 h
  have hwritten : Pseudo.WrittenIndices K a.toList := by
    obtain ⟨u, hu⟩ := stop_dropIndices_suffix s
    have hends := isIndices_or_endsWithOf (s := s) rfl (ha ▸ hne)
    obtain ⟨⟨y, z, hyz, -⟩, htrim⟩ := exists_of_trim (Stretch.chars ⟨s, (dropIndices s s).stop⟩)
    rw [← ha] at hyz htrim hends
    refine ⟨hK _ ⟨y, z ++ (dropIndices s s).stop, ?_⟩, hne, htrim, hends⟩
    rw [← List.append_assoc, ← hyz]
    exact Stretch.chars_append ⟨u, hu⟩
  have hrest := rest_dropIndices_suffix s s
  split at h
  · obtain ⟨m, hm, rfl⟩ := h
    have hr := (dropBlanks_suffix _).trans hrest
    obtain ⟨hsuffix, hl⟩ := hnested _ hr (hK.suffix hr) m r hm
    exact ⟨hsuffix.trans hr, hwritten, by simpa using hl⟩
  · obtain ⟨rfl, rfl⟩ := h
    exact ⟨hrest, hwritten, by simp⟩

/-- A pseudo selector as it is read, its list included. -/
def IsWrittenPseudo (K : List Char → Prop) (p : Pseudo) : Prop :=
  (Simple.pseudo p).Written K ∧ ∀ l ∈ p.selector, IsWritten K l

theorem yields_argument {nested : Parser SelectorList} {n : String} {element : Bool}
    (hn : IsName n.toList ∧ K n.toList) (hs : StartsTight s)
    (hnested : ∀ r, r <:+ s → Yields K nested r (IsWritten K)) :
    Yields K (argument nested n element) s (IsWrittenPseudo K) := by
  unfold argument
  dsimp only
  split
  · next hkind =>
    split
    · next hcounting =>
      apply Yields.bind (yields_indices hnested)
      intro x r _ hx
      obtain ⟨a, l⟩ := x
      refine .pure ⟨⟨hn, ?_⟩, hx.2⟩
      cases l with
      | none => exact .inl ⟨hkind, hcounting, hx.1⟩
      | some l => exact ⟨hkind, hcounting, hx.1⟩
    · next hcounting =>
      apply Yields.bind (hnested s (List.suffix_refl s))
      intro l r _ hl
      exact .pure ⟨⟨hn, hkind, hcounting⟩, by simpa using hl⟩
  · next hkind =>
    refine .bind (yields_rawArgument hs) fun a r _ ha ↦ .pure ⟨⟨hn, ?_⟩, by simp⟩
    exact .inr ⟨Bool.eq_false_iff.2 hkind, ha⟩

theorem yields_pseudo {nested : Parser SelectorList}
    (hnested : ∀ r, r <:+ s → Yields K nested r (IsWritten K)) :
    Yields K (pseudo nested) s (IsWrittenPseudo K) := by
  have hrest (element : Bool) (t : List Char) (ht : t <:+ s) : Yields K (do
      let n ← name
      if ← accept '(' then
        blanks
        let p ← argument nested n element
        blanks
        expect ')' .expectedParenthesis
        return p
      else return ⟨n, element, none, none⟩) t (IsWrittenPseudo K) := by
    refine .bind .name fun n r hr hn ↦ .accept_bind (fun u hu ↦ ?_) ?_
    · refine .blanks_bind (.bind ?_ fun p _ _ hp ↦ .blanks_bind (.expect_bind fun _ _ ↦ .pure hp))
      refine yields_argument hn (startsTight_dropBlanks u) fun v hv ↦ hnested v ?_
      have hur : u <:+ r := hu ▸ List.suffix_cons '(' u
      exact hv.trans ((dropBlanks_suffix u).trans (hur.trans (hr.trans ht)))
    · exact .pure ⟨⟨hn, trivial⟩, by simp⟩
  refine .accept_bind (fun t ht ↦ ?_) (hrest false s (List.suffix_refl s))
  exact hrest true t (ht ▸ List.suffix_cons ':' t)

/-! ### Simple and compound selectors -/

/-- A simple selector and all parts of it are as they are read; one that is not the first of its
compound selector is a condition that may follow another. -/
theorem yields_simple {allow : Allowance} {nested : Parser SelectorList} {first : Bool}
    (hnested : ∀ r, r <:+ s → Yields K nested r (IsWritten K))
    (hfirst : first = false → continuesCompound s = true) :
    Yields K (simple allow nested first) s fun t ↦
      t.Everywhere (.written K) ∧ (first = false → t.Follows) := by
  apply Yields.rest_bind
  split
  · next t =>
    apply Yields.goTo_bind (List.suffix_cons _ t)
    exact .bind yields_attributeSelector fun a _ _ ha ↦ .pure ⟨ha, fun _ ↦ trivial⟩
  · next t =>
    apply Yields.goTo_bind (List.suffix_cons _ t)
    exact .bind .name fun n _ _ hn ↦ .pure ⟨hn, fun _ ↦ trivial⟩
  · next t =>
    apply Yields.goTo_bind (List.suffix_cons _ t)
    exact .bind .name fun n _ _ hn ↦ .pure ⟨hn, fun _ ↦ trivial⟩
  · next t =>
    split
    · apply Yields.goTo_bind (List.suffix_cons _ t)
      exact .bind .name fun n _ _ hn ↦ .pure ⟨hn, fun _ ↦ trivial⟩
    · exact .fail
  · next t =>
    apply Yields.goTo_bind (List.suffix_cons _ t)
    apply Yields.bind (yields_pseudo fun r hr ↦ hnested r (hr.trans (List.suffix_cons _ t)))
    exact fun p _ _ hp ↦ .pure ⟨Simple.everywhere_pseudo_iff.2 hp, fun _ ↦ trivial⟩
  · next t =>
    unfold parent
    split
    · exact .fail
    · split
      · exact .fail
      · next hfirst =>
        refine .rest_bind (.goTo_bind (List.suffix_cons _ t) ?_)
        refine .bind .nameChars fun n _ _ hn ↦ .pure ⟨?_, by simp_all⟩
        intro m hm
        split at hm
        · cases hm
        · next hempty =>
          cases hm
          exact ⟨fun h ↦ hempty (by simpa using h), hn⟩
  · refine yields_typeSelector.imp fun u hu ↦ ⟨hu, fun h ↦ ?_⟩
    simpa [continuesCompound] using hfirst h
  · refine yields_typeSelector.imp fun u hu ↦ ⟨hu, fun h ↦ ?_⟩
    simpa [continuesCompound] using hfirst h
  · split
    · refine yields_typeSelector.imp fun u hu ↦ ⟨hu, fun h ↦ ?_⟩
      have := hfirst h
      cases s with
      | nil => cases this
      | cons c t =>
        simp [continuesCompound] at this
        simp_all
    · exact .fail

section Lists

variable {allow : Allowance} {nested : Parser SelectorList}

theorem yields_moreSimples (bound : Nat)
    (hnested : ∀ r, r <:+ s → Yields K nested r (IsWritten K)) :
    Yields K (moreSimples allow nested bound) s fun d ↦
      Compound.Each (.written K) d ∧ ∀ t ∈ d, t.Follows := by
  induction bound generalizing s with
  | zero => exact .pure ⟨trivial, by simp⟩
  | succ bound ih =>
    apply Yields.rest_bind
    split
    · next hs =>
      apply Yields.bind (yields_simple hnested fun _ ↦ hs)
      intro t r hr ht
      refine .bind (ih fun u hu ↦ hnested u (hu.trans hr)) fun d _ _ hd ↦ .pure ?_
      exact ⟨⟨ht.1, hd.1⟩, List.forall_mem_cons.2 ⟨ht.2 rfl, hd.2⟩⟩
    · exact .pure ⟨trivial, by simp⟩

theorem yields_compound (hnested : ∀ r, r <:+ s → Yields K nested r (IsWritten K)) :
    Yields K (compound allow nested) s fun c ↦
      Compound.Written c ∧ Compound.Each (.written K) c := by
  refine .bind (yields_simple hnested (by simp)) fun t r hr ht ↦ .rest_bind ?_
  refine .bind (yields_moreSimples _ fun u hu ↦ hnested u (hu.trans hr)) fun d _ _ hd ↦ .pure ?_
  exact ⟨⟨t, d, rfl, hd.2⟩, ht.1, hd.1⟩

/-- Every compound selector among the parts that are read is one as it is read. -/
theorem yields_parts (bound : Nat) (adjacent : Bool)
    (hnested : ∀ r, r <:+ s → Yields K nested r (IsWritten K)) :
    Yields K (parts allow nested bound adjacent) s fun w ↦
      ∀ c, Part.compound c ∈ w → Compound.Written c ∧ Compound.Each (.written K) c := by
  induction bound generalizing s adjacent with
  | zero => exact .blanks_bind (.pure (by simp))
  | succ bound ih =>
    have hs := dropBlanks_suffix s
    refine .rest_bind (.blanks_bind (.rest_bind ?_))
    split
    · next k _ =>
      have ht := List.tail_suffix (dropBlanks s)
      refine .goTo_bind ht (.bind (ih _ fun u hu ↦ hnested u (hu.trans (ht.trans hs))) ?_)
      exact fun w _ _ hw ↦ .pure (by simpa using hw)
    · split
      · apply Yields.bind (yields_compound fun u hu ↦ hnested u (hu.trans hs))
        intro c r hr hc
        refine .bind (ih _ fun u hu ↦ hnested u (hu.trans (hr.trans hs))) fun w _ _ hw ↦ .pure ?_
        intro d hd
        rcases List.mem_cons.1 hd with hd | hd
        · cases hd
          exact hc
        · exact hw d hd
      · exact .pure (by simp)

/-- A complex selector is made of the compound selectors among its parts. -/
theorem everywhere_ofWord {w : List Part} (lineBreak : Bool) (hne : w ≠ [])
    (hw : ∀ c, Part.compound c ∈ w → Compound.Written c ∧ Compound.Each (.written K) c) :
    (Complex.ofWord w lineBreak).Everywhere (.written K) := by
  have hword := Complex.word_ofWord w lineBreak
  generalize Complex.ofWord w lineBreak = c at hword
  refine Complex.everywhere_iff.2 ⟨?_, trivial, Path.each_iff.2 fun d hd ↦ hw _ ?_⟩
  · change c.leading ≠ [] ∨ c.components ≠ []
    by_contra h
    rw [not_or, not_not, not_not] at h
    exact hne (by rw [← hword, Complex.word, h.1, h.2]; rfl)
  · rw [← hword, Complex.word, List.mem_append]
    exact .inr (List.mem_flatMap.2 ⟨d, hd, .head _⟩)

theorem yields_complex (lineBreak : Bool)
    (hnested : ∀ r, r <:+ s → Yields K nested r (IsWritten K)) :
    Yields K (complex allow nested lineBreak) s fun c ↦
      c.Everywhere (.written K) ∧ c.lineBreak = lineBreak := by
  refine .rest_bind (.bind (yields_parts _ _ hnested) fun w r hr hw ↦ ?_)
  split
  · exact .failSince
  · next hne =>
    have hc := everywhere_ofWord lineBreak (by simpa using hne) hw
    dsimp only
    split
    · exact .notice_bind (.pure ⟨hc, rfl⟩)
    · exact .pure ⟨hc, rfl⟩

theorem yields_moreMembers (bound : Nat)
    (hnested : ∀ r, r <:+ s → Yields K nested r (IsWritten K)) :
    Yields K (moreMembers allow nested bound) s fun m ↦ SelectorList.Each (.written K) m := by
  induction bound generalizing s with
  | zero => exact .pure trivial
  | succ bound ih =>
    refine .blanks_bind (.accept_bind (fun r hr ↦ .rest_bind (.blanks_bind ?_)) (.pure trivial))
    have hsuffix : dropBlanks r <:+ s := by
      refine (dropBlanks_suffix r).trans (.trans ?_ (dropBlanks_suffix s))
      rw [hr]
      exact List.suffix_cons ',' r
    apply Yields.bind (yields_complex _ fun u hu ↦ hnested u (hu.trans hsuffix))
    intro c t ht hc
    apply Yields.bind (ih fun u hu ↦ hnested u (hu.trans (ht.trans hsuffix)))
    intro m _ _ hm
    exact .pure ⟨hc.1, hm⟩

theorem yields_members (hnested : ∀ r, r <:+ s → Yields K nested r (IsWritten K)) :
    Yields K (members allow nested) s (IsWritten K) := by
  have hsuffix := dropBlanks_suffix s
  refine .blanks_bind (.bind (yields_complex _ fun u hu ↦ hnested u (hu.trans hsuffix)) ?_)
  refine fun c r hr hc ↦ .rest_bind (.bind (yields_moreMembers _ fun u hu ↦ ?_) ?_)
  · exact hnested u (hu.trans (hr.trans hsuffix))
  · exact fun m _ _ hm ↦ .pure ⟨⟨c, m, rfl, hc.2⟩, hc.1, hm⟩

theorem yields_list (depth : Nat) : Yields K (list allow depth) s (IsWritten K) := by
  induction depth generalizing s with
  | zero => exact .fail
  | succ depth ih => exact yields_members fun _ _ ↦ ih

theorem yields_nestedList : Yields K (nestedList allow) s (IsWritten K) := by
  intro hK l r h
  rw [reads_nestedList_iff] at h
  exact yields_list _ hK l r h

end Lists

end Parser

namespace EntryPoint

variable {e : EntryPoint} {K : List Char → Prop}

theorem yields_whole {allow : Allowance} {s : List Char} :
    Parser.Yields K (e.parser allow) s (e.Everywhere (.written K)) := by
  have hnested (r : List Char) (_ : r <:+ s) :
      Parser.Yields K (Parser.nestedList allow) r (Parser.IsWritten K) := Parser.yields_nestedList
  cases e with
  | list => exact Parser.yields_nestedList
  | complex => exact (Parser.yields_complex false hnested).imp fun _ h ↦ h.1
  | compound => exact Parser.yields_compound hnested
  | simple => exact (Parser.yields_simple hnested (by simp)).imp fun _ h ↦ h.1

/-- What is read from a text has the shape of what can be written, and keeps only parts of the
text. -/
theorem written_of_parse {text : String} {options : ParseOptions} {x : e.Tree}
    (hK : Parser.AllParts K text.toList) (h : (e.parse text options).result = .ok x) :
    e.Everywhere (.written K) x := by
  obtain ⟨r, hr, -⟩ := parse_eq_ok_iff.1 h
  exact (yields_whole (hK.suffix (Text.dropBlanks_suffix _)) x r hr).2

end EntryPoint

theorem SelectorList.written_of_parse {K : List Char → Prop} {text : String}
    {options : ParseOptions} {l : SelectorList} (hK : Parser.AllParts K text.toList)
    (h : (SelectorList.parse text options).result = .ok l) :
    SelectorList.Everywhere (.written K) l :=
  EntryPoint.written_of_parse (e := .list) hK h

theorem Complex.written_of_parse {K : List Char → Prop} {text : String} {options : ParseOptions}
    {c : Complex} (hK : Parser.AllParts K text.toList)
    (h : (Complex.parse text options).result = .ok c) : c.Everywhere (.written K) :=
  EntryPoint.written_of_parse (e := .complex) hK h

theorem Compound.written_of_parse {K : List Char → Prop} {text : String} {options : ParseOptions}
    {c : Compound} (hK : Parser.AllParts K text.toList)
    (h : (Compound.parse text options).result = .ok c) :
    Compound.Written c ∧ Compound.Each (.written K) c :=
  EntryPoint.written_of_parse (e := .compound) hK h

/-- A complex selector that the parser accepts, alone or as a member of a list. -/
inductive Complex.Accepted : Complex → Prop
  | alone {text : String} {options : ParseOptions} {c : Complex}
      (h : (Complex.parse text options).result = .ok c) : Accepted c
  | member {text : String} {options : ParseOptions} {l : SelectorList} {c : Complex}
      (h : (SelectorList.parse text options).result = .ok l) (hc : c ∈ l) : Accepted c

theorem Complex.Accepted.written {c : Complex} (h : c.Accepted) :
    c.Everywhere (.written fun _ ↦ True) := by
  cases h with
  | alone h => exact Complex.written_of_parse (fun _ _ ↦ trivial) h
  | member h hc =>
    exact SelectorList.each_iff.1 (SelectorList.written_of_parse (fun _ _ ↦ trivial) h).2 c hc

end SelectorAlgebra

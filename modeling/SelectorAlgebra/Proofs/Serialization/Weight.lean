import SelectorAlgebra.Proofs.Parser.Reads
import SelectorAlgebra.Proofs.Selector.Text
import SelectorAlgebra.Proofs.Text.Weight

/-!
# What reading takes

Reading takes at least the weight of what is read, so that nothing is left over where a comment is
passed over that should have been read. Main statement: the canonical text of a selector list that
is read weighs, with what is left, no more than the text.
-/

namespace SelectorAlgebra

namespace Parser

open Text

variable {α β : Type} {s t r : List Char} {k : Nat}

/-- Whether all that a parser reads from a text weighs, with what it leaves, no more than the text
and a credit. -/
def Takes (p : Parser α) (s : List Char) (k : Nat) (c : α → Nat) : Prop :=
  ∀ a r, Reads p s a r → c a + weight r ≤ weight s + k

namespace Takes

variable {p : Parser α} {c : α → Nat} {d : β → Nat}

theorem pure {a : α} (h : c a ≤ k) : Takes (pure a) s k c := by
  intro b r hb
  obtain ⟨rfl, rfl⟩ := reads_pure_iff.1 hb
  omega

theorem fail {fault : SyntaxFault} : Takes (fail fault) s k c :=
  fun _ _ h ↦ absurd h not_reads_fail

theorem failSince {start : List Char} {fault : SyntaxFault} : Takes (failSince start fault) s k c :=
  fun _ _ h ↦ absurd h not_reads_failSince

theorem bind {f : α → Parser β} (hp : Takes p s 0 c) (hf : ∀ a r, Takes (f a) r (k + c a) d) :
    Takes (p >>= f) s k d := by
  intro b t h
  obtain ⟨a, r, ha, hb⟩ := reads_bind_iff.1 h
  have := hp a r ha
  have := hf a r b t hb
  omega

theorem rest_bind {f : List Char → Parser β} (hf : Takes (f s) s k d) : Takes (rest >>= f) s k d :=
  hf

theorem goTo_bind {f : Unit → Parser β} {u : List Char} {j : Nat} (hu : weight u + j ≤ weight s)
    (hf : Takes (f ()) u (k + j) d) : Takes (goTo u >>= f) s k d := by
  intro b t h
  have := hf b t (reads_goTo_bind_iff.1 h)
  omega

/-- Going past a character gives its weight as credit. -/
theorem goTo_cons {f : Unit → Parser β} {x : Char} (hf : Takes (f ()) t (weight [x]) d) :
    Takes (goTo t >>= f) (x :: t) 0 d := by
  refine goTo_bind (j := weight [x]) ?_ (by rwa [Nat.zero_add])
  rw [Nat.add_comm, ← weight_append]
  exact Nat.le_refl _

theorem map {f : α → β} (hp : Takes p s k c) (hf : ∀ a, d (f a) ≤ c a) :
    Takes (p >>= fun a ↦ Pure.pure (f a)) s k d := by
  intro b t h
  obtain ⟨a, r, ha, hb⟩ := reads_bind_iff.1 h
  obtain ⟨rfl, rfl⟩ := reads_pure_iff.1 hb
  exact Nat.le_trans (Nat.add_le_add_right (hf a) _) (hp a r ha)

theorem blanks_bind {f : Unit → Parser β} (hf : Takes (f ()) (dropBlanks s) k d) :
    Takes (blanks >>= f) s k d :=
  goTo_bind (j := 0) (weight_dropBlanks_le s) hf

theorem notice_bind {start : List Char} {f : Unit → Parser β} (hf : Takes (f ()) s k d) :
    Takes (notice start >>= f) s k d := hf

theorem accept_bind {c : Char} {f : Bool → Parser β}
    (htrue : ∀ r, s = c :: r → Takes (f true) r (k + weight [c]) d)
    (hfalse : Takes (f false) s k d) : Takes (accept c >>= f) s k d := by
  intro b t h
  rcases reads_accept_bind_iff.1 h with ⟨r, rfl, hr⟩ | ⟨-, hs⟩
  · have := htrue r rfl b t hr
    rw [weight_cons] at this ⊢
    rw [weight_nil] at this
    omega
  · exact hfalse b t hs

theorem expect_bind {c : Char} {fault : SyntaxFault} {f : Unit → Parser β}
    (hf : ∀ r, s = c :: r → Takes (f ()) r (k + weight [c]) d) :
    Takes (expect c fault >>= f) s k d := by
  intro b t h
  obtain ⟨r, rfl, hr⟩ := reads_expect_bind_iff.1 h
  have := hf r rfl b t hr
  rw [weight_cons] at this ⊢
  rw [weight_nil] at this
  omega

theorem nameChars : Takes nameChars s 0 fun n ↦ weight n.toList := by
  intro n r h
  obtain ⟨-, rfl⟩ := reads_nameChars_iff.1 h
  rw [weight_append]
  exact Nat.le_refl _

theorem name : Takes name s 0 fun n ↦ weight n.toList := by
  intro n r h
  obtain ⟨-, -, rfl⟩ := reads_name_iff.1 h
  rw [weight_append]
  exact Nat.le_refl _

/-- What a parser leaves no less of than is written behind its value, it found behind as much. -/
theorem weight_le {a : α} {x : List Char} (hp : Takes p s 0 c) (h : Reads p s a t)
    (ha : c a = weight x) (hr : weight r ≤ weight t) : weight (x ++ r) ≤ weight s := by
  have := hp a t h
  rw [weight_append]
  omega

end Takes

/-! ### Type and attribute selectors -/

theorem takes_namespaced {ns : String} :
    Takes (namespaced ns) s (weight ns.toList + 1) fun x ↦ weight x.chars := by
  refine .accept_bind (fun r _ ↦ .pure ?_) (.bind .name fun n r ↦ .pure ?_)
  · rw [Simple.chars, namespaceChars, weight_append, weight_append]
    exact Nat.le_refl _
  · rw [Simple.chars, QualifiedName.chars, namespaceChars, weight_append, weight_append]
    exact Nat.le_refl _

theorem weight_tail_of_startsBar (h : startsBar s = true) : weight s.tail + 1 ≤ weight s := by
  unfold startsBar at h
  split at h
  · cases h
  · next t _ =>
    rw [weight_cons_of_weighs (by decide)]
    exact Nat.le_refl _
  · cases h

theorem takes_typeSelector : Takes typeSelector s 0 fun x ↦ weight x.chars := by
  refine .accept_bind (fun r _ ↦ ?_) ?_
  · refine .accept_bind (fun r _ ↦ ?_) (.pure ?_)
    · exact takes_namespaced
    · exact Nat.le_refl _
  · refine .accept_bind (fun r _ ↦ ?_) ?_
    · exact takes_namespaced
    · refine .bind .name fun n r ↦ .rest_bind ?_
      split
      · next hbar =>
        apply Takes.goTo_bind (weight_tail_of_startsBar hbar)
        rw [Nat.zero_add]
        exact takes_namespaced
      · apply Takes.pure
        rw [Simple.chars, QualifiedName.chars, namespaceChars, List.nil_append]
        exact Nat.le_add_left _ _

theorem takes_attributeName : Takes attributeName s 0 fun n ↦ weight n.chars := by
  have hname {ns : String} {u : List Char} : Takes (name >>= fun n ↦ pure
      (⟨some ns, n⟩ : QualifiedName)) u (weight ns.toList + 1) fun n ↦ weight n.chars := by
    refine .bind .name fun n r ↦ .pure ?_
    rw [QualifiedName.chars, namespaceChars, weight_append, weight_append]
    exact Nat.le_refl _
  refine .accept_bind (fun r _ ↦ .expect_bind fun r _ ↦ hname) (.rest_bind ?_)
  split
  · next hbar => exact .goTo_bind (weight_tail_of_startsBar hbar) hname
  · refine .bind .name fun n r ↦ .rest_bind ?_
    split
    · next hbar =>
      apply Takes.goTo_bind (weight_tail_of_startsBar hbar)
      rw [Nat.zero_add]
      exact hname
    · apply Takes.pure
      rw [QualifiedName.chars, namespaceChars, List.nil_append]
      exact Nat.le_add_left _ _

theorem takes_attributeOperator : Takes attributeOperator s 0 fun o ↦ weight o.symbol := by
  apply Takes.rest_bind
  dsimp only
  generalize (if s.head? = some '=' then 1 else 2) = size
  split
  · next o ho =>
    have hsymbol : s.take size = o.symbol := by
      unfold AttributeOperator.ofSymbol? at ho
      split at ho
      all_goals cases ho
      all_goals assumption
    refine .goTo_bind (j := weight o.symbol) ?_ (.pure (Nat.le_add_left _ _))
    rw [← hsymbol, Nat.add_comm, ← weight_append, List.take_append_drop]
  · exact .fail

/-- A value weighs no more than the text that it is read from. -/
theorem takes_attributeValue : Takes attributeValue s 0 fun v ↦ weight (writeValue v.toList) := by
  have hquoted : Takes quoted s 0 fun v ↦ weight (writeValue v.toList) := by
    intro v r h
    obtain ⟨q, t, rfl, hv⟩ := reads_quoted_iff.1 h
    have := weight_of_readQuoted hv
    dsimp only
    rw [weight_writeValue, weight_cons]
    omega
  apply Takes.rest_bind
  split
  · exact hquoted
  · exact hquoted
  · intro v r h
    obtain ⟨n, u, hn, hv⟩ := reads_bind_iff.1 h
    obtain ⟨rfl, rfl⟩ := reads_pure_iff.1 hv
    obtain ⟨-, hdrop, rfl⟩ := reads_name_iff.1 hn
    obtain ⟨m, hm, hname⟩ := isNameText_of_dropName hdrop
    rw [← List.append_cancel_right hm] at hname
    have := weight_requote_decodeName hname
    dsimp only
    rw [String.toList_ofList, weight_writeValue, weight_append]
    omega

theorem takes_attributeModifier :
    Takes attributeModifier s 0 fun m ↦ weight m.toList := by
  apply Takes.rest_bind
  split
  · next c t =>
    split
    · refine .goTo_bind (j := weight [c]) ?_ (.blanks_bind (.pure ?_))
      · rw [weight_cons, weight_cons, weight_nil]
        omega
      · exact Nat.le_add_left _ _
    · exact .pure (Nat.zero_le _)
  · exact .pure (Nat.zero_le _)

theorem takes_attributeSelector :
    Takes attributeSelector s (weight ['[']) fun a ↦ weight a.chars := by
  refine .blanks_bind (.bind takes_attributeName fun n _ ↦ .blanks_bind ?_)
  refine .accept_bind (fun r _ ↦ .pure ?_) ?_
  · simp only [AttributeSelector.chars, List.cons_append, List.append_nil, weight_append,
      weight_cons, weight_nil]
    omega
  refine .bind takes_attributeOperator fun o _ ↦ .blanks_bind ?_
  refine .bind takes_attributeValue fun v _ ↦ .blanks_bind ?_
  apply Takes.bind takes_attributeModifier
  intro m _
  refine .expect_bind fun r _ ↦ .pure ?_
  have hspace : weighs ' ' = false := by decide
  cases m with
  | none =>
    simp only [AttributeSelector.chars, List.cons_append, weight_append, weight_cons, weight_nil,
      Option.toList_none]
    omega
  | some m =>
    simp only [AttributeSelector.chars, List.cons_append, weight_append, weight_cons, weight_nil,
      Option.toList_some, hspace, Bool.false_eq_true, if_false]
    omega

/-! ### Pseudo selectors -/

theorem takes_rawArgument : Takes rawArgument s 0 fun a ↦ weight a.toList := by
  intro a r h
  obtain ⟨hdrop, ha⟩ := reads_rawArgument_iff.1 h
  obtain ⟨u, v, rfl, rfl, -⟩ := dropArgument_append hdrop
  rw [Stretch.chars_mk_append] at ha
  have := weight_trimEnd_le u
  dsimp only
  rw [ha, weight_append]
  omega

/-- The text of indices and of a list behind them. -/
def indicesChars (a : String) : Option SelectorList → List Char
  | none => a.toList
  | some l => a.toList ++ [' ', 'o', 'f', ' '] ++ SelectorList.chars l

theorem takes_indices {nested : Parser SelectorList}
    (hnested : ∀ r, Takes nested r 0 fun l ↦ weight (SelectorList.chars l)) :
    Takes (indices nested) s 0 fun x ↦ weight (indicesChars x.1 x.2) := by
  rintro ⟨a, l⟩ r h
  obtain ⟨⟨-, ha⟩, h⟩ := reads_indices_iff.1 h
  have hrest := weight_rest_dropIndices (List.suffix_refl s)
  have hsplit : Stretch.chars ⟨s, (dropIndices s s).stop⟩ ++ (dropIndices s s).stop = s :=
    Stretch.chars_append (stop_dropIndices_suffix s)
  have hchars := congrArg weight hsplit
  have htrim := weight_trim_le (Stretch.chars ⟨s, (dropIndices s s).stop⟩)
  rw [← ha] at htrim
  rw [weight_append] at hchars
  split at h
  · next hof =>
    obtain ⟨m, hm, rfl⟩ := h
    have hlist : weight (SelectorList.chars m) + weight r ≤ _ := hnested _ m r hm
    have hblanks := weight_dropBlanks_le (dropIndices s s).rest
    have hword : weight [' ', 'o', 'f', ' '] = 2 := by decide
    simp only [hof, if_true] at hrest
    simp only [indicesChars, weight_append, hword]
    omega
  · obtain ⟨rfl, rfl⟩ := h
    simp only [indicesChars]
    omega

/-- Whatever is read as an argument is written inside the parentheses. -/
theorem takes_argument {nested : Parser SelectorList} {n : String} {element : Bool}
    (hnested : ∀ r, Takes nested r 0 fun l ↦ weight (SelectorList.chars l)) :
    Takes (argument nested n element) s (weight (if element then [':', ':'] else [':']) +
      weight n.toList + weight ['(', ')']) fun p ↦ weight p.chars := by
  unfold argument
  dsimp only
  split
  · split
    · refine .bind (takes_indices hnested) fun x r ↦ .pure ?_
      obtain ⟨a, l⟩ := x
      cases l with
      | none =>
        simp only [Pseudo.chars, indicesChars, weight_append, weight_cons, weight_nil]
        omega
      | some l =>
        simp only [Pseudo.chars, indicesChars, weight_append, weight_cons, weight_nil]
        omega
    · refine .bind (hnested s) fun l r ↦ .pure ?_
      simp only [Pseudo.chars, weight_append, weight_cons, weight_nil]
      omega
  · refine .bind takes_rawArgument fun a r ↦ .pure ?_
    simp only [Pseudo.chars, weight_append, weight_cons, weight_nil]
    omega

theorem takes_pseudo {nested : Parser SelectorList}
    (hnested : ∀ r, Takes nested r 0 fun l ↦ weight (SelectorList.chars l)) :
    Takes (pseudo nested) s (weight [':']) fun p ↦ weight p.chars := by
  have hargument {n : String} {element : Bool} {u : List Char} : Takes (do
      let p ← argument nested n element
      blanks
      expect ')' .expectedParenthesis
      return p) u (weight (if element then [':', ':'] else [':']) + weight n.toList + weight ['('])
        fun p ↦ weight p.chars := by
    intro p r h
    obtain ⟨q, v, hq, h⟩ := reads_bind_iff.1 h
    obtain ⟨w, hw, h⟩ := reads_expect_bind_iff.1 (reads_blanks_bind_iff.1 h)
    obtain ⟨rfl, rfl⟩ := reads_pure_iff.1 h
    have hread : weight q.chars + weight v ≤ _ := takes_argument hnested q v hq
    have hclose := weight_dropBlanks_le v
    have hone : weight ['(', ')'] = weight ['('] + 1 := by decide
    rw [hw, weight_cons_of_weighs (by decide)] at hclose
    dsimp only
    omega
  have hnamed {element : Bool} {u : List Char} : Takes (do
      let n ← name
      if ← accept '(' then
        blanks
        let p ← argument nested n element
        blanks
        expect ')' .expectedParenthesis
        return p
      else return ⟨n, element, none, none⟩) u (weight (if element then [':', ':'] else [':']))
        fun p ↦ weight p.chars := by
    refine .bind .name fun n r ↦ .accept_bind (fun v _ ↦ .blanks_bind hargument) (.pure ?_)
    simp only [Pseudo.chars, weight_append, weight_nil]
    omega
  exact .accept_bind (fun r _ ↦ hnamed) hnamed

/-! ### Simple and compound selectors -/

section Lists

variable {allow : Allowance} {nested : Parser SelectorList}
  (hnested : ∀ r, Takes nested r 0 fun l ↦ weight (SelectorList.chars l))

include hnested

theorem takes_simple {first : Bool} :
    Takes (simple allow nested first) s 0 fun x ↦ weight x.chars := by
  apply Takes.rest_bind
  split
  · exact .goTo_cons (.map takes_attributeSelector fun a ↦ Nat.le_refl _)
  · exact .goTo_cons (.bind .name fun n r ↦ .pure (Nat.le_of_eq (weight_append ['.'] _)))
  · exact .goTo_cons (.bind .name fun n r ↦ .pure (Nat.le_of_eq (weight_append ['#'] _)))
  · split
    · exact .goTo_cons (.bind .name fun n r ↦ .pure (Nat.le_of_eq (weight_append ['%'] _)))
    · exact .fail
  · exact .goTo_cons (.map (takes_pseudo hnested) fun p ↦ Nat.le_refl _)
  · unfold parent
    split
    · exact .fail
    · split
      · exact .fail
      · refine .rest_bind (.goTo_cons (.bind .nameChars fun n r ↦ .pure ?_))
        have hsuffix : ((if n.isEmpty then none else some n).getD "") = n := by
          split
          · next hempty => exact (String.isEmpty_iff.1 hempty).symm
          · rfl
        rw [Simple.chars, hsuffix]
        exact Nat.le_of_eq (weight_append ['&'] _)
  · exact takes_typeSelector
  · exact takes_typeSelector
  · split
    · exact takes_typeSelector
    · exact .fail

theorem takes_moreSimples (bound : Nat) :
    Takes (moreSimples allow nested bound) s 0 fun c ↦ weight (Compound.chars c) := by
  induction bound generalizing s with
  | zero => exact .pure (Nat.zero_le _)
  | succ bound ih =>
    apply Takes.rest_bind
    split
    · refine .bind (takes_simple hnested) fun x r ↦ .bind ih fun d t ↦ .pure ?_
      rw [Compound.chars, weight_append]
      omega
    · exact .pure (Nat.zero_le _)

theorem takes_compound :
    Takes (compound allow nested) s 0 fun c ↦ weight (Compound.chars c) := by
  refine .bind (takes_simple hnested) fun x r ↦ .rest_bind ?_
  refine .bind (takes_moreSimples hnested _) fun d t ↦ .pure ?_
  rw [Compound.chars, weight_append]
  omega

theorem takes_parts (bound : Nat) (adjacent : Bool) :
    Takes (parts allow nested bound adjacent) s 0 fun w ↦ weight (spacedParts w) := by
  induction bound generalizing s adjacent with
  | zero => exact .blanks_bind (.pure (Nat.zero_le _))
  | succ bound ih =>
    refine .rest_bind (.blanks_bind (.rest_bind ?_))
    split
    · next k hk =>
      obtain ⟨c, hc, hck⟩ := Option.bind_eq_some_iff.1 hk
      obtain ⟨u, hu⟩ := List.head?_eq_some_iff.1 hc
      obtain rfl := Combinator.ofSymbol?_eq_some_iff.1 hck
      rw [hu]
      refine .goTo_cons (.bind (ih false) fun w t ↦ .pure ?_)
      rw [spacedParts_cons, weight_cons, weight_append]
      exact Nat.le_refl _
    · split
      · refine .bind (takes_compound hnested) fun c r ↦ .bind (ih true) fun w t ↦ .pure ?_
        rw [spacedParts_cons, weight_cons, weight_append, Nat.zero_add]
        exact Nat.le_refl _
      · exact .pure (Nat.zero_le _)

theorem takes_complex (lineBreak : Bool) :
    Takes (complex allow nested lineBreak) s 0 fun c ↦ weight c.chars := by
  refine .rest_bind (.bind (takes_parts hnested _ _) fun w r ↦ ?_)
  split
  · exact .failSince
  · next hne =>
    have hword := Complex.word_ofWord w lineBreak
    have hchars : ' ' :: (Complex.ofWord w lineBreak).chars = spacedParts w := by
      rw [Complex.space_chars (by rw [hword]; simpa using hne), hword]
    have hweight : weight (Complex.ofWord w lineBreak).chars ≤ 0 + weight (spacedParts w) := by
      rw [← hchars, weight_cons]
      omega
    dsimp only
    split
    · exact .notice_bind (.pure hweight)
    · exact .pure hweight

theorem takes_moreMembers (bound : Nat) :
    Takes (moreMembers allow nested bound) s 0 fun m ↦ weight (SelectorList.moreChars m) := by
  induction bound generalizing s with
  | zero => exact .pure (Nat.zero_le _)
  | succ bound ih =>
    refine .blanks_bind (.accept_bind (fun r _ ↦ .rest_bind (.blanks_bind ?_)) ?_)
    · refine .bind (takes_complex hnested _) fun c t ↦ .bind ih fun m u ↦ .pure ?_
      have hmark : weight [',', if c.lineBreak then '\n' else ' '] = weight [','] := by
        cases c.lineBreak <;> rfl
      rw [SelectorList.moreChars, weight_append, weight_append, hmark]
      omega
    · exact .pure (Nat.zero_le _)

theorem takes_members :
    Takes (members allow nested) s 0 fun l ↦ weight (SelectorList.chars l) := by
  refine .blanks_bind (.bind (takes_complex hnested false) fun c r ↦ .rest_bind ?_)
  refine .bind (takes_moreMembers hnested _) fun m t ↦ .pure ?_
  rw [SelectorList.chars, weight_append]
  omega

end Lists

/-- The canonical text of a selector list weighs no more than what the list is read from. -/
theorem takes_list {allow : Allowance} (depth : Nat) (s : List Char) :
    Takes (list allow depth) s 0 fun l ↦ weight (SelectorList.chars l) := by
  induction depth generalizing s with
  | zero => exact .fail
  | succ depth ih => exact takes_members ih

end Parser

/-! ### Weights without line breaks -/

theorem weight_spaced (texts : List (List Char)) :
    Text.weight (spaced texts) = Text.weight (texts.flatMap fun u ↦ ' ' :: u) := by
  cases texts with
  | nil => rfl
  | cons x texts =>
    rw [← space_spaced, Text.weight_cons]
    rfl

mutual

theorem Simple.weight_eraseBreaks (x : Simple) :
    Text.weight x.eraseBreaks.chars = Text.weight x.chars := by
  match x with
  | .pseudo p => exact Pseudo.weight_eraseBreaks p
  | .universal _ | .type _ | .className _ | .id _ | .attribute _ | .placeholder _ | .parent _ =>
    rfl

theorem Pseudo.weight_eraseBreaks (p : Pseudo) :
    Text.weight p.eraseBreaks.chars = Text.weight p.chars := by
  match p with
  | ⟨_, _, _, none⟩ => rfl
  | ⟨_, _, none, some l⟩ | ⟨_, _, some _, some l⟩ =>
    have := SelectorList.weight_eraseBreaks l
    simp only [Pseudo.eraseBreaks, Pseudo.chars, Text.weight_append, Text.weight_cons]
    omega

theorem SelectorList.weight_eraseBreaks (l : SelectorList) :
    Text.weight (SelectorList.chars (SelectorList.eraseBreaks l)) =
      Text.weight (SelectorList.chars l) := by
  match l with
  | [] => rfl
  | c :: l =>
    have := Complex.weight_eraseBreaks c
    have := SelectorList.weight_more_eraseBreaks l
    simp only [SelectorList.eraseBreaks, SelectorList.chars, Text.weight_append]
    omega

theorem SelectorList.weight_more_eraseBreaks (l : SelectorList) :
    Text.weight (SelectorList.moreChars (SelectorList.eraseBreaks l)) =
      Text.weight (SelectorList.moreChars l) := by
  match l with
  | [] => rfl
  | c :: l =>
    have := Complex.weight_eraseBreaks c
    have := SelectorList.weight_more_eraseBreaks l
    have hmark (b : Bool) : Text.weight [',', if b then '\n' else ' '] = 1 := by
      cases b <;> rfl
    simp only [SelectorList.eraseBreaks, SelectorList.moreChars, Text.weight_append, hmark]
    omega

theorem Complex.weight_eraseBreaks (c : Complex) :
    Text.weight c.eraseBreaks.chars = Text.weight c.chars := by
  match c with
  | ⟨leading, p, _⟩ =>
    have := Path.weight_eraseBreaks p
    simp only [Complex.eraseBreaks, Complex.chars, weight_spaced, List.flatMap_append,
      Text.weight_append]
    omega

theorem Path.weight_eraseBreaks (p : Path) :
    Text.weight ((Path.texts (Path.eraseBreaks p)).flatMap fun u ↦ ' ' :: u) =
      Text.weight ((Path.texts p).flatMap fun u ↦ ' ' :: u) := by
  match p with
  | [] => rfl
  | ⟨c, ks⟩ :: p =>
    have := Compound.weight_eraseBreaks c
    have := Path.weight_eraseBreaks p
    simp only [Path.eraseBreaks, Path.texts, List.flatMap_cons, Text.weight_append,
      Text.weight_cons]
    omega

theorem Compound.weight_eraseBreaks (c : Compound) :
    Text.weight (Compound.chars (Compound.eraseBreaks c)) = Text.weight (Compound.chars c) := by
  match c with
  | [] => rfl
  | x :: c =>
    have := Simple.weight_eraseBreaks x
    have := Compound.weight_eraseBreaks c
    simp only [Compound.eraseBreaks, Compound.chars, Text.weight_append]
    omega

end

theorem SelectorList.weight_of_eraseBreaks {l m : SelectorList}
    (h : SelectorList.eraseBreaks m = SelectorList.eraseBreaks l) :
    Text.weight (SelectorList.chars m) = Text.weight (SelectorList.chars l) := by
  rw [← SelectorList.weight_eraseBreaks m, h, SelectorList.weight_eraseBreaks l]

theorem SelectorList.weight_more_of_eraseBreaks {l m : SelectorList}
    (h : SelectorList.eraseBreaks m = SelectorList.eraseBreaks l) :
    Text.weight (SelectorList.moreChars m) = Text.weight (SelectorList.moreChars l) := by
  rw [← SelectorList.weight_more_eraseBreaks m, h, SelectorList.weight_more_eraseBreaks l]

theorem Compound.weight_of_eraseBreaks {c d : Compound}
    (h : Compound.eraseBreaks d = Compound.eraseBreaks c) :
    Text.weight (Compound.chars d) = Text.weight (Compound.chars c) := by
  rw [← Compound.weight_eraseBreaks d, h, Compound.weight_eraseBreaks c]

theorem weight_of_map_eraseBreaks {v w : List Part}
    (h : v.map Part.eraseBreaks = w.map Part.eraseBreaks) :
    Text.weight (spacedParts v) = Text.weight (spacedParts w) := by
  induction w generalizing v with
  | nil => rw [List.map_eq_nil_iff.1 h]
  | cons y w ih =>
    cases v with
    | nil => cases h
    | cons x v =>
      obtain ⟨hxy, hvw⟩ := List.cons.inj h
      have hpart : Text.weight x.chars = Text.weight y.chars := by
        cases x with
        | combinator j =>
          cases y with
          | combinator k =>
            cases hxy
            rfl
          | compound c => cases hxy
        | compound d =>
          cases y with
          | combinator k => cases hxy
          | compound c => exact Compound.weight_of_eraseBreaks (Part.compound.inj hxy)
      rw [spacedParts_cons, spacedParts_cons, Text.weight_cons, Text.weight_cons,
        Text.weight_append, Text.weight_append, hpart, ih hvw]

end SelectorAlgebra

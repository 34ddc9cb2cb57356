import Mathlib.Data.List.Forall2
import SelectorAlgebra.Proofs.Excerpt.Selector
import SelectorAlgebra.Proofs.Selector.Traversal

/-!
# What parsers report

Only the parser of complex selectors reports something, at most what it has just read. Main
statement: what the parser of selector lists reports are, in post-order, the places of the complex
selectors that hold several combinators in one place.
-/

namespace SelectorAlgebra.Parser

open Text

variable {α β : Type} {r s t : List Char}

/-! ### Parsers that report nothing -/

/-- Whether a parser never reports anything. -/
def Silent (p : Parser α) : Prop := ∀ s, (p s).notices = []

namespace Silent

variable {p : Parser α}

theorem pure {a : α} : Silent (pure a) := fun _ ↦ rfl

theorem fail {fault : SyntaxFault} : Silent (fail fault : Parser α) := fun _ ↦ rfl

theorem bind {f : α → Parser β} (hp : Silent p) (hf : ∀ a, Silent (f a)) : Silent (p >>= f) := by
  intro s
  cases hresult : (p s).result with
  | error e => rw [bind_eq_of_error hresult, hp]
  | ok x =>
    rw [Reads.bind_eq hresult, hp, hf]
    rfl

theorem rest : Silent rest := fun _ ↦ rfl

theorem goTo {u : List Char} : Silent (goTo u) := fun _ ↦ rfl

theorem blanks : Silent blanks := fun _ ↦ rfl

theorem accept {c : Char} : Silent (accept c) := by
  intro s
  unfold Parser.accept
  split
  · split <;> rfl
  · rfl

theorem expect {c : Char} {fault : SyntaxFault} : Silent (expect c fault) := by
  refine accept.bind fun b ↦ ?_
  split
  · exact .pure
  · exact .fail

theorem nameChars : Silent nameChars := by
  intro s
  unfold Parser.nameChars
  split <;> rfl

theorem name : Silent name := by
  refine rest.bind fun s ↦ ?_
  split
  · exact nameChars
  · exact .fail

theorem quoted : Silent quoted := by
  intro s
  unfold Parser.quoted
  split
  · rfl
  · split <;> rfl

theorem rawArgument : Silent rawArgument := by
  intro s
  unfold Parser.rawArgument
  split <;> rfl

theorem attributeName : Silent attributeName := by
  have hname (f : String → QualifiedName) : Silent (do return f (← Parser.name)) :=
    name.bind fun _ ↦ .pure
  refine accept.bind fun b ↦ ?_
  split
  · exact expect.bind fun _ ↦ hname _
  · refine rest.bind fun s ↦ ?_
    split
    · exact goTo.bind fun _ ↦ hname _
    · refine name.bind fun n ↦ rest.bind fun s ↦ ?_
      split
      · exact goTo.bind fun _ ↦ hname _
      · exact .pure

theorem attributeOperator : Silent attributeOperator := by
  refine rest.bind fun s ↦ ?_
  dsimp only
  split
  · exact goTo.bind fun _ ↦ .pure
  · exact .fail

theorem attributeValue : Silent attributeValue := by
  refine rest.bind fun s ↦ ?_
  split
  · exact quoted
  · exact quoted
  · exact name.bind fun _ ↦ .pure

theorem attributeModifier : Silent attributeModifier := by
  refine rest.bind fun s ↦ ?_
  split
  · split
    · exact goTo.bind fun _ ↦ blanks.bind fun _ ↦ .pure
    · exact .pure
  · exact .pure

theorem attributeSelector : Silent attributeSelector := by
  refine blanks.bind fun _ ↦ attributeName.bind fun _ ↦ blanks.bind fun _ ↦ accept.bind fun b ↦ ?_
  split
  · exact .pure
  · exact attributeOperator.bind fun _ ↦ blanks.bind fun _ ↦ attributeValue.bind fun _ ↦
      blanks.bind fun _ ↦ attributeModifier.bind fun _ ↦ expect.bind fun _ ↦ .pure

end Silent

/-! ### What is read and reported -/

/-- Whether whatever a parser reads from a text, what it leaves and what it reports are related. -/
def Gives (p : Parser α) (s : List Char) (Q : α → List Char → List Stretch → Prop) : Prop :=
  ∀ a t, Reads p s a t → Q a t (p s).notices

namespace Gives

variable {p : Parser α} {Q : α → List Char → List Stretch → Prop}
  {S : β → List Char → List Stretch → Prop}

theorem pure {a : α} (h : Q a s []) : Gives (pure a) s Q := by
  intro b t hb
  obtain ⟨rfl, rfl⟩ := reads_pure_iff.1 hb
  exact h

theorem of_not_reads (h : ∀ a t, ¬ Reads p s a t) : Gives p s Q :=
  fun a t ht ↦ absurd ht (h a t)

theorem of_silent (hp : Silent p) (h : ∀ a t, Reads p s a t → Q a t []) : Gives p s Q := by
  intro a t ht
  rw [hp s]
  exact h a t ht

theorem bind {f : α → Parser β} (hp : Gives p s Q)
    (hf : ∀ a r n, Q a r n → Gives (f a) r fun b t m ↦ S b t (n ++ m)) :
    Gives (p >>= f) s S := by
  intro b t h
  obtain ⟨a, r, ha, hb⟩ := reads_bind_iff.1 h
  rw [ha.bind_eq]
  exact hf a r _ (hp a r ha) b t hb

/-- A silent parser leaves it to the next one to report something. -/
theorem silent_bind {f : α → Parser β} (hp : Silent p)
    (hf : ∀ a r, Reads p s a r → Gives (f a) r S) : Gives (p >>= f) s S := by
  refine .bind (Q := fun a r n ↦ n = [] ∧ Reads p s a r) (of_silent hp fun _ _ h ↦ ⟨rfl, h⟩) ?_
  rintro a r n ⟨rfl, h⟩
  exact hf a r h

end Gives

/-! ### Arguments -/

section Nested

variable {nested : Parser SelectorList}

/-- Whether what is reported comes from the list that is read last, if there is one. -/
def NoticesOf (nested : Parser SelectorList) (l : Option SelectorList) (r : List Char)
    (notices : List Stretch) : Prop :=
  match l with
  | some l => ∃ s, Reads nested s l r ∧ notices = (nested s).notices
  | none => notices = []

theorem gives_nested {f : SelectorList → α} {sel : α → Option SelectorList}
    (hf : ∀ l, sel (f l) = some l) :
    Gives (do return f (← nested)) s fun a t n ↦ NoticesOf nested (sel a) t n := by
  refine .bind (Q := fun l t n ↦ Reads nested s l t ∧ n = (nested s).notices)
    (fun l t h ↦ ⟨h, rfl⟩) fun l t n h ↦ .pure ?_
  rw [hf, List.append_nil]
  exact ⟨s, h⟩

theorem gives_indices : Gives (indices nested) s fun a t n ↦ NoticesOf nested a.2 t n := by
  refine .silent_bind .rest fun start u _ ↦ .silent_bind .goTo fun _ v _ ↦ ?_
  split
  · refine .silent_bind .blanks fun _ w _ ↦ ?_
    dsimp only
    split
    · exact .of_not_reads fun _ _ ↦ not_reads_failSince
    · exact gives_nested fun _ ↦ rfl
  · dsimp only
    split
    · exact .of_not_reads fun _ _ ↦ not_reads_failSince
    · exact .pure rfl

theorem gives_argument {n : String} {element : Bool} :
    Gives (argument nested n element) s fun p t n ↦ NoticesOf nested p.selector t n := by
  unfold argument
  dsimp only
  split
  · split
    · refine gives_indices.bind fun a t n h ↦ .pure ?_
      rw [List.append_nil]
      exact h
    · exact gives_nested fun _ ↦ rfl
  · exact .silent_bind .rawArgument fun a t _ ↦ .pure rfl

end Nested

/-! ### Reports -/

/-- Whether a complex selector that holds several combinators in one place was read from a range of
a text. -/
structure Reported (allow : Allowance) (n : Stretch) (c : Complex) : Prop where
  tight : StartsTight n.start
  read : ∃ depth lineBreak, Reads (complex allow (list allow depth) lineBreak) n.start c n.stop
  ends : StartsWithin complexEnds n.stop

/-- Whether the places reported are those of the complex selectors that hold several combinators in
one place. -/
def Report (allow : Allowance) (ns : List Stretch) (cs : List Complex) : Prop :=
  List.Forall₂ (Reported allow) ns (cs.filter Complex.hasMultipleCombinators)

variable {allow : Allowance}

theorem Report.nil : Report allow [] [] := List.Forall₂.nil

theorem Report.append {ns ms : List Stretch} {cs ds : List Complex} (h : Report allow ns cs)
    (h' : Report allow ms ds) : Report allow (ns ++ ms) (cs ++ ds) := by
  rw [Report, List.filter_append]
  exact List.rel_append h h'

theorem reads_expect {c : Char} {fault : SyntaxFault} (h : Reads (expect c fault) s () t) :
    s = c :: t := by
  obtain ⟨b, u, hb, h⟩ := reads_bind_iff.1 h
  cases b with
  | false => exact absurd h not_reads_fail
  | true =>
    obtain ⟨-, rfl⟩ := reads_pure_iff.1 h
    exact reads_accept_iff.1 hb

theorem gives_namespaced {ns : String} :
    Gives (namespaced ns) s fun x _ n ↦ Report allow n x.complexes := by
  refine .silent_bind .accept fun b u _ ↦ ?_
  split
  · exact .pure .nil
  · exact .silent_bind .name fun _ _ _ ↦ .pure .nil

theorem gives_typeSelector : Gives typeSelector s fun x _ n ↦ Report allow n x.complexes := by
  refine .silent_bind .accept fun b u _ ↦ ?_
  split
  · refine .silent_bind .accept fun b u _ ↦ ?_
    split
    · exact gives_namespaced
    · exact .pure .nil
  · refine .silent_bind .accept fun b u _ ↦ ?_
    split
    · exact gives_namespaced
    · refine .silent_bind .name fun n u _ ↦ .silent_bind .rest fun s v _ ↦ ?_
      split
      · exact .silent_bind .goTo fun _ _ _ ↦ gives_namespaced
      · exact .pure .nil

theorem gives_parent {first : Bool} :
    Gives (parent allow first) s fun x _ n ↦ Report allow n x.complexes := by
  unfold parent
  split
  · exact .of_not_reads fun _ _ ↦ not_reads_fail
  · split
    · exact .of_not_reads fun _ _ ↦ not_reads_fail
    · exact .silent_bind .rest fun _ _ _ ↦ .silent_bind .goTo fun _ _ _ ↦
        .silent_bind .nameChars fun _ _ _ ↦ .pure .nil

/-- Whether a parser leaves no blanks behind a selector list, and what it reports are the places of
complex selectors in the list, if the text goes on as it may behind a complex selector. -/
def GivesList (allow : Allowance) (nested : Parser SelectorList) (s : List Char) : Prop :=
  Gives nested s fun l t n ↦ StartsTight t ∧
    (StartsWithin complexEnds t → Report allow n (SelectorList.complexes l))

section Nested

variable {nested : Parser SelectorList} (hnested : ∀ s, GivesList allow nested s)

include hnested

/-- A list in an argument is followed by the parenthesis that closes it. -/
theorem gives_pseudo : Gives (pseudo nested) s fun p _ n ↦ Report allow n p.complexes := by
  refine .silent_bind .accept fun element u _ ↦ .silent_bind .name fun m v _ ↦
    .silent_bind .accept fun b w _ ↦ ?_
  split
  · refine .silent_bind .blanks fun _ x _ ↦ gives_argument.bind fun p y n hn ↦
      .silent_bind .blanks fun _ z hz ↦ .silent_bind .expect fun _ t ht ↦ .pure ?_
    obtain rfl : dropBlanks y = z := by cases hz; rfl
    have hclose : dropBlanks y = ')' :: t := reads_expect ht
    rw [List.append_nil, Pseudo.complexes_eq]
    cases hl : p.selector with
    | none =>
      rw [hl] at hn
      exact hn ▸ .nil
    | some l =>
      rw [hl] at hn
      obtain ⟨r, hr, rfl⟩ := hn
      obtain ⟨htight, hreport⟩ := hnested r l y hr
      rw [dropBlanks_of_startsTight htight] at hclose
      exact hreport (hclose ▸ startsWithin_cons.2 (by decide))
  · exact .pure .nil

theorem gives_simple {first : Bool} :
    Gives (simple allow nested first) s fun x _ n ↦ Report allow n x.complexes := by
  refine .silent_bind .rest fun u v h ↦ ?_
  split
  · exact .silent_bind .goTo fun _ _ _ ↦ .silent_bind .attributeSelector fun _ _ _ ↦ .pure .nil
  · exact .silent_bind .goTo fun _ _ _ ↦ .silent_bind .name fun _ _ _ ↦ .pure .nil
  · exact .silent_bind .goTo fun _ _ _ ↦ .silent_bind .name fun _ _ _ ↦ .pure .nil
  · split
    · exact .silent_bind .goTo fun _ _ _ ↦ .silent_bind .name fun _ _ _ ↦ .pure .nil
    · exact .of_not_reads fun _ _ ↦ not_reads_fail
  · refine .silent_bind .goTo fun _ _ _ ↦ (gives_pseudo hnested).bind fun p _ n hn ↦ .pure ?_
    rw [List.append_nil]
    exact hn
  · exact gives_parent
  · exact gives_typeSelector
  · exact gives_typeSelector
  · split
    · exact gives_typeSelector
    · exact .of_not_reads fun _ _ ↦ not_reads_fail

theorem gives_moreSimples (bound : Nat) : Gives (moreSimples allow nested bound) s
    fun c _ n ↦ Report allow n (Compound.complexes c) := by
  induction bound generalizing s with
  | zero => exact .pure .nil
  | succ bound ih =>
    refine .silent_bind .rest fun _ _ _ ↦ ?_
    split
    · refine (gives_simple hnested).bind fun x _ n hn ↦ ih.bind fun c _ m hm ↦ .pure ?_
      rw [List.append_nil]
      exact hn.append hm
    · exact .pure .nil

theorem gives_compound : Gives (compound allow nested) s
    fun c _ n ↦ Report allow n (Compound.complexes c) := by
  refine (gives_simple hnested).bind fun x _ n hn ↦ .silent_bind .rest fun _ _ _ ↦
    (gives_moreSimples hnested _).bind fun c _ m hm ↦ .pure ?_
  rw [List.append_nil]
  exact hn.append hm

theorem gives_parts (bound : Nat) (adjacent : Bool) : Gives (parts allow nested bound adjacent) s
    fun w t n ↦ StartsTight t ∧ Report allow n (w.flatMap Part.complexes) := by
  induction bound generalizing s adjacent with
  | zero =>
    refine .silent_bind .blanks fun _ t ht ↦ .pure ⟨?_, .nil⟩
    cases ht
    exact startsTight_dropBlanks s
  | succ bound ih =>
    refine .silent_bind .rest fun before v hv ↦ .silent_bind .blanks fun _ t ht ↦
      .silent_bind .rest fun u w hw ↦ ?_
    cases hv
    cases ht
    cases hw
    split
    · refine .silent_bind .goTo fun _ _ _ ↦ (ih false).bind fun w t n hn ↦ .pure ?_
      rw [List.append_nil]
      exact hn
    · split
      · refine (gives_compound hnested).bind fun c u n hn ↦ (ih true).bind fun w t m hm ↦ .pure ?_
        rw [List.append_nil]
        exact ⟨hm.1, hn.append hm.2⟩
      · exact .pure ⟨startsTight_dropBlanks s, .nil⟩

/-- What is reported behind the reports from the parts is what has been read. -/
theorem gives_complex_parts {lineBreak : Bool} : Gives (complex allow nested lineBreak) s
    fun c t n ↦ StartsTight t ∧ ∃ m, Report allow m (Path.complexes c.components) ∧
      n = m ++ if c.hasMultipleCombinators then [⟨s, t⟩] else [] := by
  refine .silent_bind .rest fun start u hstart ↦
    (gives_parts hnested _ _).bind fun w t n hn ↦ ?_
  cases hstart
  rw [← Path.complexes_split] at hn
  split
  · exact .of_not_reads fun _ _ ↦ not_reads_failSince
  · dsimp only
    split
    · next hmultiple =>
      refine .bind (Q := fun _ r m ↦ r = t ∧ m = [⟨s, t⟩]) ?_ fun _ r m h ↦ .pure ?_
      · intro _ r hr
        cases hr
        exact ⟨rfl, rfl⟩
      · obtain ⟨rfl, rfl⟩ := h
        exact ⟨hn.1, n, hn.2, by rw [if_pos hmultiple, List.append_nil]⟩
    · next hmultiple =>
      exact .pure ⟨hn.1, n, hn.2, by rw [if_neg hmultiple]⟩

end Nested

section Lists

variable {depth : Nat} (hnested : ∀ s, GivesList allow (list allow depth) s)

include hnested

/-- The complex selector itself is reported last, if it holds several combinators in one place. -/
theorem gives_complex {lineBreak : Bool} (hs : StartsTight s) :
    Gives (complex allow (list allow depth) lineBreak) s fun c t n ↦ StartsTight t ∧
      (StartsWithin complexEnds t → Report allow n c.complexes) := by
  intro c t h
  obtain ⟨htight, m, hm, hn⟩ := gives_complex_parts hnested c t h
  refine ⟨htight, fun hends ↦ ?_⟩
  have hself : Report allow (if c.hasMultipleCombinators then [⟨s, t⟩] else []) [c] := by
    cases hc : c.hasMultipleCombinators with
    | true =>
      rw [Report, List.filter_singleton, hc]
      exact .cons ⟨hs, ⟨depth, lineBreak, h⟩, hends⟩ .nil
    | false =>
      rw [Report, List.filter_singleton, hc]
      exact .nil
  rw [hn, Complex.complexes_eq]
  exact hm.append hself

theorem gives_moreMembers (hs : StartsTight s) (bound : Nat) :
    Gives (moreMembers allow (list allow depth) bound) s fun l t n ↦ StartsTight t ∧
      (StartsWithin complexEnds t → StartsWithin complexEnds s ∧
        Report allow n (SelectorList.complexes l)) := by
  induction bound generalizing s with
  | zero => exact .pure ⟨hs, fun hends ↦ ⟨hends, .nil⟩⟩
  | succ bound ih =>
    refine .silent_bind .blanks fun _ u hu ↦ .silent_bind .accept fun b v hv ↦ ?_
    obtain rfl : s = u := by
      cases hu
      exact (dropBlanks_of_startsTight hs).symm
    cases b with
    | true =>
      obtain rfl := reads_accept_iff.1 hv
      refine .silent_bind .rest fun _ w _ ↦ .silent_bind .blanks fun _ x hx ↦ ?_
      cases hx
      refine (gives_complex hnested (startsTight_dropBlanks w)).bind fun c y n hc ↦
        (ih hc.1).bind fun l t m hl ↦ .pure ⟨hl.1, fun hends ↦ ?_⟩
      obtain ⟨hy, hm⟩ := hl.2 hends
      rw [List.append_nil]
      exact ⟨startsWithin_cons.2 (by decide), (hc.2 hy).append hm⟩
    | false =>
      obtain ⟨-, rfl⟩ := reads_accept_iff.1 hv
      exact .pure ⟨hs, fun hends ↦ ⟨hends, .nil⟩⟩

theorem givesList_members : GivesList allow (members allow (list allow depth)) s := by
  refine .silent_bind .blanks fun _ u hu ↦ ?_
  cases hu
  refine (gives_complex hnested (startsTight_dropBlanks s)).bind fun c v n hc ↦
    .silent_bind .rest fun _ w hw ↦ ?_
  cases hw
  refine (gives_moreMembers hnested hc.1 _).bind fun l t m hl ↦ .pure ⟨hl.1, fun hends ↦ ?_⟩
  obtain ⟨hv, hm⟩ := hl.2 hends
  rw [List.append_nil]
  exact (hc.2 hv).append hm

end Lists

/-- What the parser of selector lists reports are the places of the complex selectors in the list
that hold several combinators in one place. -/
theorem givesList_list (depth : Nat) : GivesList allow (list allow depth) s := by
  induction depth generalizing s with
  | zero => exact .of_not_reads fun _ _ ↦ not_reads_fail
  | succ depth ih => exact givesList_members fun _ ↦ ih

/-- What is reported about a whole text are the places of the complex selectors in the list that
hold several combinators in one place. -/
theorem gives_whole_nestedList : Gives (whole (nestedList allow)) s
    fun l _ n ↦ Report allow n (SelectorList.complexes l) := by
  have hlist {u : List Char} : GivesList allow (nestedList allow) u := by
    intro l t h
    rw [nestedList]
    exact givesList_list (u.length + 1) l t (reads_nestedList_iff.1 h)
  refine .silent_bind .blanks fun _ u _ ↦ hlist.bind fun l t n hn ↦
    .silent_bind .blanks fun _ v hv ↦ .silent_bind .rest fun w x hw ↦ ?_
  cases hv
  cases hw
  rw [dropBlanks_of_startsTight hn.1]
  split
  · refine .pure ?_
    rw [List.append_nil]
    exact hn.2 (by simp [StartsWithin])
  · exact .of_not_reads fun _ _ ↦ not_reads_fail

end SelectorAlgebra.Parser

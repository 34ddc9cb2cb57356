import SelectorAlgebra.Proofs.Parser.Reads
import SelectorAlgebra.Proofs.Text.Argument
import SelectorAlgebra.Proofs.Text.Fault
import SelectorAlgebra.Proofs.Text.Indices

/-!
# Where parsers stand

Where a parser stands is kept as the text that is left. Main statement: each step of a parser leaves
a later part of the text than the one before it, and what its faults and notices are about are
ranges of the text.
-/

namespace SelectorAlgebra.Parser

open Text

variable {α β : Type} {src s r : List Char}

/-- Whether a parser that starts in a text stays inside it: what it leaves is the end of what it was
given, and faults and notices are about ranges of the text. -/
structure StaysAt (src : List Char) (p : Parser α) (s : List Char) : Prop where
  suffix : ∀ {a r}, Reads p s a r → r <:+ s
  place : ∀ e, (p s).result = .error e → e.place.Within src
  notices : ∀ n ∈ (p s).notices, n.stop <:+ n.start ∧ n.start <:+ src

/-- Whether a parser stays inside a text if it starts there. -/
def Stays (src : List Char) (p : Parser α) (s : List Char) : Prop :=
  s <:+ src → StaysAt src p s

namespace StaysAt

variable {p : Parser α} {a : α}

/-- Only what a parser makes of the text counts. -/
theorem congr {q : Parser α} (hq : StaysAt src q s) (h : p s = q s) : StaysAt src p s := by
  refine ⟨fun hr ↦ ?_, fun e he ↦ ?_, ?_⟩
  · rw [Reads, h] at hr
    exact hq.suffix hr
  · rw [h] at he
    exact hq.place e he
  · rw [h]
    exact hq.notices

theorem of_value (hr : r <:+ s) (h : p s = ⟨[], .ok (a, r)⟩) : StaysAt src p s := by
  refine ⟨fun ht ↦ ?_, fun e he ↦ ?_, by simp [h]⟩
  · rw [Reads, h] at ht
    cases ht
    exact hr
  · rw [h] at he
    cases he

theorem of_fault {e : Fault} (he : e.place.Within src) (h : p s = ⟨[], .error e⟩) :
    StaysAt src p s := by
  refine ⟨fun hr ↦ ?_, fun e' he' ↦ ?_, by simp [h]⟩
  · rw [Reads, h] at hr
    cases hr
  · rw [h] at he'
    cases he'
    exact he

end StaysAt

namespace Stays

variable {p : Parser α}

theorem suffix {a : α} (h : Stays s p s) (hr : Reads p s a r) :
    r <:+ s :=
  (h (List.suffix_refl s)).suffix hr

theorem pure {a : α} : Stays src (pure a) s := fun _ ↦
  .of_value (List.suffix_refl _) rfl

theorem fail {fault : SyntaxFault} : Stays src (fail fault : Parser α) s := fun hs ↦
  .of_fault (Stretch.within_of_tail hs (List.suffix_refl _)) rfl

theorem failSince {start : List Char} {fault : SyntaxFault} (hstart : start <:+ src)
    (hs : s <:+ start) : Stays src (failSince start fault : Parser α) s := by
  intro _
  refine .of_fault ?_ rfl
  split
  · next hlt => exact ⟨hstart, hs, fun _ heq ↦ by simp_all⟩
  · exact Stretch.within_of_tail hstart (List.suffix_refl _)

theorem bind {f : α → Parser β} (hp : Stays src p s)
    (hf : ∀ a r, r <:+ s → Stays src (f a) r) : Stays src (p >>= f) s := by
  intro hs
  have hp := hp hs
  cases hresult : (p s).result with
  | error e =>
    have heq := bind_eq_of_error (f := f) hresult
    refine ⟨fun hb ↦ ?_, fun e' he' ↦ ?_, by rw [heq]; exact hp.notices⟩
    · rw [Reads, heq] at hb
      cases hb
    · rw [heq] at he'
      cases he'
      exact hp.place e hresult
  | ok x =>
    obtain ⟨a, r⟩ := x
    have heq := Reads.bind_eq (f := f) hresult
    have hr := hp.suffix hresult
    have hf := hf a r hr (hr.trans hs)
    refine ⟨fun hb ↦ (hf.suffix (by rwa [Reads, heq] at hb)).trans hr,
      fun e' he' ↦ hf.place e' (by rw [heq] at he'; exact he'), fun n hn ↦ ?_⟩
    rw [heq] at hn
    exact (List.mem_append.1 hn).elim (hp.notices n) (hf.notices n)

theorem rest_bind {f : List Char → Parser β} (hf : Stays src (f s) s) :
    Stays src (rest >>= f) s := by
  intro hs
  have h := hf hs
  exact ⟨h.suffix, h.place, h.notices⟩

theorem goTo {u : List Char} (hu : u <:+ s) : Stays src (goTo u) s := fun _ ↦ .of_value hu rfl

theorem blanks : Stays src blanks s := fun _ ↦ .of_value (dropBlanks_suffix s) rfl

theorem notice {start : List Char} (hstart : start <:+ src) (hs : s <:+ start) :
    Stays src (notice start) s := by
  intro _
  refine ⟨fun hr ↦ ?_, fun e he ↦ ?_, ?_⟩
  · cases hr
    exact List.suffix_refl _
  · cases he
  · simpa [Parser.notice] using ⟨hs, hstart⟩

theorem accept {c : Char} : Stays src (accept c) s := by
  intro _
  cases s with
  | nil => exact .of_value (List.suffix_refl _) rfl
  | cons d r =>
    by_cases h : d = c
    · exact .of_value (List.suffix_cons d r) (if_pos h)
    · exact .of_value (List.suffix_refl _) (if_neg h)

theorem expect {c : Char} {fault : SyntaxFault} : Stays src (expect c fault) s := by
  refine .bind .accept fun b r _ ↦ ?_
  split
  · exact .pure
  · exact .fail

theorem nameChars : Stays src nameChars s := by
  intro hs
  cases h : dropName s with
  | some r =>
    exact .of_value (dropName_suffix h) (by simp only [Parser.nameChars, h]; rfl)
  | none =>
    refine .of_fault (Stretch.within_of_tail ?_ List.nil_suffix)
      (by simp only [Parser.nameChars, h]; rfl)
    exact (suffix_of_dropName_eq_none h).trans hs

theorem name : Stays src name s := by
  apply Stays.rest_bind
  split
  · exact .nameChars
  · exact .fail

theorem quoted : Stays src quoted s := by
  intro hs
  cases s with
  | nil =>
    have h : StaysAt src (Parser.fail .expectedString : Parser String) [] := Stays.fail hs
    exact h.congr rfl
  | cons q t =>
    cases h : readQuoted q t with
    | ok x =>
      have hr := (readQuoted_suffix h).1.trans (List.suffix_cons q t)
      exact .of_value hr (by simp only [Parser.quoted, h]; rfl)
    | error stop =>
      have hstop := suffix_of_readQuoted_eq_error h
      exact .of_fault (e := ⟨.expectedString, ⟨q :: t, stop⟩⟩) (Stretch.within_of_tail hs hstop)
        (by simp only [Parser.quoted, h])

theorem rawArgument : Stays src rawArgument s := by
  intro hs
  cases h : dropArgument 0 s with
  | ok r =>
    obtain ⟨u, t, rfl, rfl, -⟩ := dropArgument_append h
    exact .of_value (List.suffix_append _ _) (by simp only [Parser.rawArgument, h]; rfl)
  | error e =>
    exact .of_fault ((within_of_dropArgument_eq_error h).suffix hs)
      (by simp only [Parser.rawArgument, h])

end Stays

/-! ### Simple selectors -/

theorem stays_namespaced {ns : String} : Stays src (namespaced ns) s := by
  refine .bind .accept fun b r _ ↦ ?_
  split
  · exact .pure
  · exact .bind .name fun _ _ _ ↦ .pure

theorem stays_typeSelector : Stays src typeSelector s := by
  refine .bind .accept fun b r _ ↦ ?_
  split
  · refine .bind .accept fun b t _ ↦ ?_
    split
    · exact stays_namespaced
    · exact .pure
  · refine .bind .accept fun b t _ ↦ ?_
    split
    · exact stays_namespaced
    · refine .bind .name fun n u _ ↦ .rest_bind ?_
      split
      · exact .bind (.goTo (List.tail_suffix u)) fun _ _ _ ↦ stays_namespaced
      · exact .pure

theorem stays_attributeName : Stays src attributeName s := by
  have hname (f : String → QualifiedName) (t : List Char) :
      Stays src (do return f (← name)) t := .bind .name fun _ _ _ ↦ .pure
  refine .bind .accept fun b r _ ↦ ?_
  split
  · exact .bind .expect fun _ _ _ ↦ hname _ _
  · apply Stays.rest_bind
    split
    · exact .bind (.goTo (List.tail_suffix r)) fun _ _ _ ↦ hname _ _
    · refine .bind .name fun n t _ ↦ .rest_bind ?_
      split
      · exact .bind (.goTo (List.tail_suffix t)) fun _ _ _ ↦ hname _ _
      · exact .pure

theorem stays_attributeOperator : Stays src attributeOperator s := by
  apply Stays.rest_bind
  dsimp only
  split
  · exact .bind (.goTo (List.drop_suffix _ s)) fun _ _ _ ↦ .pure
  · exact .fail

theorem stays_attributeValue : Stays src attributeValue s := by
  apply Stays.rest_bind
  split
  · exact .quoted
  · exact .quoted
  · exact .bind .name fun _ _ _ ↦ .pure

theorem stays_attributeModifier : Stays src attributeModifier s := by
  apply Stays.rest_bind
  split
  · next c t =>
    split
    · exact .bind (.goTo (List.suffix_cons c t)) fun _ _ _ ↦ .bind .blanks fun _ _ _ ↦ .pure
    · exact .pure
  · exact .pure

theorem stays_attributeSelector : Stays src attributeSelector s := by
  refine .bind .blanks fun _ _ _ ↦ .bind stays_attributeName fun _ _ _ ↦
    .bind .blanks fun _ _ _ ↦ .bind .accept fun b _ _ ↦ ?_
  split
  · exact .pure
  · exact .bind stays_attributeOperator fun _ _ _ ↦ .bind .blanks fun _ _ _ ↦
      .bind stays_attributeValue fun _ _ _ ↦ .bind .blanks fun _ _ _ ↦
      .bind stays_attributeModifier fun _ _ _ ↦ .bind .expect fun _ _ _ ↦ .pure

section Nested

variable {allow : Allowance} {nested : Parser SelectorList}

theorem stays_indices (hnested : ∀ r, Stays src nested r) : Stays src (indices nested) s := by
  intro hs
  refine Stays.rest_bind (.bind (.goTo (rest_dropIndices_suffix s s)) fun _ r hr ↦ ?_) hs
  split
  · refine .bind .blanks fun _ t ht ↦ ?_
    dsimp only
    split
    · exact .failSince hs (ht.trans hr)
    · exact .bind (hnested t) fun _ _ _ ↦ .pure
  · dsimp only
    split
    · exact .failSince hs hr
    · exact .pure

theorem stays_argument (hnested : ∀ r, Stays src nested r) {n : String} {element : Bool} :
    Stays src (argument nested n element) s := by
  unfold argument
  dsimp only
  split
  · split
    · exact .bind (stays_indices hnested) fun _ _ _ ↦ .pure
    · exact .bind (hnested s) fun _ _ _ ↦ .pure
  · exact .bind .rawArgument fun _ _ _ ↦ .pure

theorem stays_pseudo (hnested : ∀ r, Stays src nested r) : Stays src (pseudo nested) s := by
  refine .bind .accept fun element _ _ ↦ .bind .name fun n _ _ ↦ .bind .accept fun b _ _ ↦ ?_
  split
  · exact .bind .blanks fun _ _ _ ↦ .bind (stays_argument hnested) fun _ _ _ ↦
      .bind .blanks fun _ _ _ ↦ .bind .expect fun _ _ _ ↦ .pure
  · exact .pure

theorem stays_parent {first : Bool} : Stays src (parent allow first) s := by
  unfold parent
  split
  · exact .fail
  · split
    · exact .fail
    · exact .rest_bind (.bind (.goTo (List.tail_suffix s)) fun _ _ _ ↦
        .bind .nameChars fun _ _ _ ↦ .pure)

theorem stays_simple (hnested : ∀ r, Stays src nested r) {first : Bool} :
    Stays src (simple allow nested first) s := by
  have hgoTo {c : Char} {t : List Char} {f : Unit → Parser Simple}
      (hf : ∀ r, Stays src (f ()) r) : Stays src (goTo t >>= f) (c :: t) :=
    .bind (.goTo (List.suffix_cons c t)) fun _ r _ ↦ hf r
  have hname {c : Char} {t : List Char} (f : String → Simple) :
      Stays src (do goTo t; return f (← name)) (c :: t) :=
    hgoTo fun _ ↦ .bind .name fun _ _ _ ↦ .pure
  apply Stays.rest_bind
  split
  · exact hgoTo fun _ ↦ .bind stays_attributeSelector fun _ _ _ ↦ .pure
  · exact hname _
  · exact hname _
  · split
    · exact hname _
    · exact .fail
  · exact hgoTo fun _ ↦ .bind (stays_pseudo hnested) fun _ _ _ ↦ .pure
  · exact stays_parent
  · exact stays_typeSelector
  · exact stays_typeSelector
  · split
    · exact stays_typeSelector
    · exact .fail

/-! ### Selectors -/

theorem stays_moreSimples (hnested : ∀ r, Stays src nested r) (bound : Nat) :
    Stays src (moreSimples allow nested bound) s := by
  induction bound generalizing s with
  | zero => exact .pure
  | succ bound ih =>
    apply Stays.rest_bind
    split
    · exact .bind (stays_simple hnested) fun _ _ _ ↦ .bind ih fun _ _ _ ↦ .pure
    · exact .pure

theorem stays_compound (hnested : ∀ r, Stays src nested r) :
    Stays src (compound allow nested) s :=
  .bind (stays_simple hnested) fun _ _ _ ↦
    .rest_bind (.bind (stays_moreSimples hnested _) fun _ _ _ ↦ .pure)

/-- One part behind blanks is taken inside the text, and those behind it are if `more` stays inside. -/
theorem stays_part {more : Bool → Parser (List Part)} {takes : List Char → Bool}
    (hnested : ∀ r, Stays src nested r) (hmore : ∀ adjacent r, Stays src (more adjacent) r) :
    Stays src (do
      let s ← rest
      match s.head?.bind Combinator.ofSymbol? with
      | some k =>
        goTo s.tail
        return .combinator k :: (← more false)
      | none =>
        if takes s then
          let c ← compound allow nested
          return .compound c :: (← more true)
        else return []) s := by
  refine .rest_bind ?_
  split
  · exact .bind (.goTo (List.tail_suffix s)) fun _ r _ ↦ .bind (hmore false r) fun _ _ _ ↦ .pure
  · split
    · exact .bind (stays_compound hnested) fun _ r _ ↦ .bind (hmore true r) fun _ _ _ ↦ .pure
    · exact .pure

theorem stays_parts (hnested : ∀ r, Stays src nested r) (bound : Nat) (adjacent : Bool) :
    Stays src (parts allow nested bound adjacent) s := by
  induction bound generalizing s adjacent with
  | zero => exact .bind .blanks fun _ _ _ ↦ .pure
  | succ bound ih =>
    exact .rest_bind (.bind .blanks fun _ _ _ ↦ stays_part hnested fun adjacent _ ↦ ih adjacent)

theorem stays_complex (hnested : ∀ r, Stays src nested r) (lineBreak : Bool) :
    Stays src (complex allow nested lineBreak) s := by
  intro hs
  refine Stays.rest_bind (.bind (stays_parts hnested _ _) fun word r hr ↦ ?_) hs
  split
  · exact .failSince hs hr
  · dsimp only
    split
    · exact .bind (.notice hs hr) fun _ _ _ ↦ .pure
    · exact .pure

theorem stays_moreMembers (hnested : ∀ r, Stays src nested r) (bound : Nat) :
    Stays src (moreMembers allow nested bound) s := by
  induction bound generalizing s with
  | zero => exact .pure
  | succ bound ih =>
    refine .bind .blanks fun _ _ _ ↦ .bind .accept fun b _ _ ↦ ?_
    split
    · exact .rest_bind (.bind .blanks fun _ _ _ ↦ .bind (stays_complex hnested _) fun _ _ _ ↦
        .bind ih fun _ _ _ ↦ .pure)
    · exact .pure

theorem stays_members (hnested : ∀ r, Stays src nested r) :
    Stays src (members allow nested) s :=
  .bind .blanks fun _ _ _ ↦ .bind (stays_complex hnested _) fun _ _ _ ↦
    .rest_bind (.bind (stays_moreMembers hnested _) fun _ _ _ ↦ .pure)

end Nested

variable {allow : Allowance}

theorem stays_list (depth : Nat) : Stays src (list allow depth) s := by
  induction depth generalizing s with
  | zero => exact .fail
  | succ depth ih => exact stays_members fun _ ↦ ih

theorem stays_nestedList : Stays src (nestedList allow) s := fun hs ↦
  (stays_list (s.length + 1) hs).congr (by rw [nestedList])

theorem stays_whole {p : Parser α} (hp : ∀ r, Stays src p r) : Stays src (whole p) s := by
  refine .bind .blanks fun _ r _ ↦ .bind (hp r) fun _ _ _ ↦ .bind .blanks fun _ t _ ↦
    .rest_bind ?_
  split
  · exact .pure
  · exact .fail

end SelectorAlgebra.Parser

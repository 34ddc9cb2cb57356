import SelectorAlgebra.Proofs.Excerpt.Simple
import SelectorAlgebra.Proofs.Extension.Reading

/-!
# Simple selectors with more text behind

One lemma for each function of the grammar, on what it reads of a text that a comma or a closing
parenthesis follows. Main statement: a simple selector is read if the lists nested in it are, which
end in front of a parenthesis that belongs to the selector.
-/

namespace SelectorAlgebra.Parser

open Text

variable {α β : Type} {r s t : List Char} {ok : List Char → Prop}

/-- Whether a closing parenthesis comes next behind blanks. -/
def Closes (s : List Char) : Prop := ∃ t, dropBlanks s = ')' :: t

theorem Closes.ne_nil (h : Closes s) : s ≠ [] := by
  rintro rfl
  obtain ⟨t, ht⟩ := h
  cases ht

namespace Extends

theorem attributeOperator : Extends r ok attributeOperator attributeOperator s := by
  intro _ o t h
  obtain rfl := reads_attributeOperator_iff.1 h
  refine ⟨List.suffix_append _ _, fun _ ↦ reads_attributeOperator_iff.2 ?_⟩
  rw [List.append_assoc]

section Behind

variable (hr : StartsWithin complexEnds r)

include hr

/-- A bar that ends a namespace is taken if it comes next in the text itself. -/
theorem bar {f g : Unit → Parser β} {p q : Parser β} (hf : ∀ u, Extends r ok (f ()) (g ()) u)
    (hp : Extends r ok p q s) :
    Extends r ok (rest >>= fun s ↦ if startsBar s then goTo s.tail >>= f else p)
      (rest >>= fun s ↦ if startsBar s then goTo s.tail >>= g else q) s := by
  refine rest_bind ?_
  rw [startsBar_append hr]
  cases s with
  | nil => exact hp
  | cons c s =>
    rw [List.cons_append, List.tail_cons, List.tail_cons]
    split
    · exact goTo_bind (List.suffix_cons c s) (hf s)
    · exact hp

theorem name_bind {f : String → α} :
    Extends r ok (do return f (← Parser.name)) (do return f (← Parser.name)) s :=
  (name hr).bind_pure

theorem namespaced {ns : String} : Extends r ok (namespaced ns) (namespaced ns) s := by
  refine (accept hr (by decide)).bind fun b u _ ↦ ?_
  split
  · exact .pure
  · exact name_bind hr

theorem typeSelector : Extends r ok typeSelector typeSelector s := by
  refine (accept hr (by decide)).bind fun b u _ ↦ ?_
  split
  · refine (accept hr (by decide)).bind fun b u _ ↦ ?_
    split
    · exact namespaced hr
    · exact .pure
  · refine (accept hr (by decide)).bind fun b u _ ↦ ?_
    split
    · exact namespaced hr
    · exact (name hr).bind fun n u _ ↦ bar hr (fun _ ↦ namespaced hr) .pure

theorem attributeName : Extends r ok attributeName attributeName s := by
  refine (accept hr (by decide)).bind fun b u _ ↦ ?_
  split
  · exact expect.bind fun _ u _ ↦ name_bind hr
  · refine bar hr (fun _ ↦ name_bind hr) ?_
    exact (name hr).bind fun n u _ ↦ bar hr (fun _ ↦ name_bind hr) .pure

theorem attributeValue : Extends r ok attributeValue attributeValue s := by
  cases s with
  | nil =>
    refine of_not_reads fun v t h ↦ ?_
    obtain ⟨n, u, hn, -⟩ := reads_bind_iff.1 (reads_rest_bind_iff.1 h)
    cases (reads_name_iff.1 hn).1
  | cons c s =>
    refine rest_bind ?_
    rw [List.cons_append]
    split
    · next heq =>
      cases heq
      exact quoted
    · next heq =>
      cases heq
      exact quoted
    · next hdouble hsingle =>
      split
      · next heq =>
        cases heq
        exact absurd rfl (hdouble _)
      · next heq =>
        cases heq
        exact absurd rfl (hsingle _)
      · exact name_bind hr

theorem attributeModifier : Extends r ok attributeModifier attributeModifier s := by
  refine rest_bind ?_
  cases s with
  | nil =>
    cases r with
    | nil => exact .pure
    | cons c r =>
      have hc : ¬ c.isAlpha = true := by
        rcases hr.head_eq rfl with rfl | rfl <;> decide
      rw [List.nil_append]
      dsimp only
      rw [if_neg hc]
      exact .pure
  | cons c s =>
    rw [List.cons_append]
    dsimp only
    split
    · exact goTo_bind (List.suffix_cons c s) (blanks.bind fun _ _ _ ↦ .pure)
    · exact .pure

theorem attributeSelector : Extends r ok attributeSelector attributeSelector s := by
  refine blanks.bind fun _ _ _ ↦ (attributeName hr).bind fun n _ _ ↦
    blanks.bind fun _ _ _ ↦ (accept hr (by decide)).bind fun b _ _ ↦ ?_
  split
  · exact .pure
  · exact attributeOperator.bind fun o _ _ ↦ blanks.bind fun _ _ _ ↦
      (attributeValue hr).bind fun v _ _ ↦ blanks.bind fun _ _ _ ↦
      (attributeModifier hr).bind fun m _ _ ↦ expect.bind fun _ _ _ ↦ .pure

theorem parent {allow : Allowance} {first : Bool} {c : Char} :
    Extends r ok (parent allow first) (parent allow first) (c :: s) := by
  unfold Parser.parent
  split
  · exact .fail
  · split
    · exact .fail
    · exact rest_bind (goTo_bind (List.suffix_cons c s) ((nameChars hr).bind fun _ _ _ ↦ .pure))

end Behind

/-! ### Pseudo selectors -/

section Nested

variable {allow : Allowance} {nested nested' : Parser SelectorList}
  (hr : StartsWithin complexEnds r) (hstays : ∀ src u, Stays src nested u)
  (hnested : ∀ u, Extends r Closes nested nested' u)

include hr hnested

/-- Indices end in front of the parenthesis that closes the argument. -/
theorem indices : Extends r Closes (indices nested) (indices nested') s := by
  rintro hs ⟨a, l⟩ t h
  rw [reads_indices_iff] at h ⊢
  obtain ⟨⟨hne, ha⟩, hrest⟩ := h
  have hsuffix := rest_dropIndices_suffix s s
  have hextend (hrest : (dropIndices s s).rest ≠ []) :
      a.toList = trim (Stretch.chars ⟨s ++ r, (dropIndices (s ++ r) (s ++ r)).stop⟩) ∧
        (dropIndices (s ++ r) (s ++ r)).rest = (dropIndices s s).rest ++ r ∧
          (dropIndices (s ++ r) (s ++ r)).ofList = (dropIndices s s).ofList := by
    rw [dropIndices_extend hr hrest, Stretch.chars_append_right (stop_dropIndices_suffix s)]
    exact ⟨ha, rfl, rfl⟩
  split at hrest
  · next hlist =>
    obtain ⟨m, hm, hl⟩ := hrest
    have hblanks := (dropBlanks_suffix _).trans hsuffix
    obtain ⟨ht, hread⟩ := hnested _ (hs.suffix hblanks) m t hm
    refine ⟨ht.trans hblanks, fun hok ↦ ?_⟩
    obtain ⟨ha, hrest, hof⟩ := hextend fun hnil ↦ hok.ne_nil <| by
      rw [hnil] at ht
      exact List.suffix_nil.1 ht
    rw [hof, hrest, if_pos hlist, hs _ hsuffix]
    exact ⟨⟨hne, ha⟩, m, hread hok, hl⟩
  · next hlist =>
    obtain ⟨hl, rfl⟩ := hrest
    refine ⟨hsuffix, fun hok ↦ ?_⟩
    obtain ⟨ha, hrest, hof⟩ := hextend hok.ne_nil
    rw [hof, hrest, if_neg hlist]
    exact ⟨⟨hne, ha⟩, hl, rfl⟩

theorem argument {name : String} {element : Bool} :
    Extends r Closes (argument nested name element) (argument nested' name element) s := by
  unfold Parser.argument
  dsimp only
  split
  · split
    · exact (indices hr hnested).bind_pure
    · exact (hnested s).bind_pure
  · exact rawArgument.bind_pure

theorem pseudo : Extends r ok (pseudo nested) (pseudo nested') s := by
  refine (accept hr (by decide)).bind fun element t ht ↦ (name hr).bind fun m u hu ↦
    (accept hr (by decide)).bind fun b v hv ↦ ?_
  split
  · refine blanks.bind fun _ w hw ↦ bind_within (argument hr hnested)
      (fun _ _ _ _ ↦ blanks.bind fun _ _ _ ↦ expect.bind fun _ _ _ ↦ .pure) ?_
    intro a u b t h _
    rw [reads_blanks_bind_iff, reads_expect_bind_iff] at h
    obtain ⟨v, hv, -⟩ := h
    exact ⟨v, hv⟩
  · exact .pure

/-! ### Simple selectors -/

theorem simple {first : Bool} :
    Extends r ok (simple allow nested first) (simple allow nested' first) s := by
  cases s with
  | nil => exact of_not_reads fun _ _ ↦ not_reads_simple (by simp [StartsWithin])
  | cons c s =>
    have hname (f : String → Simple) : Extends r ok
        (goTo s >>= fun _ ↦ do return f (← Parser.name))
        (goTo (s ++ r) >>= fun _ ↦ do return f (← Parser.name)) (c :: s) :=
      goTo_bind (List.suffix_cons c s) (name_bind hr)
    refine rest_bind ?_
    rw [List.cons_append]
    split
    · next heq =>
      cases heq
      exact goTo_bind (List.suffix_cons _ s) (attributeSelector hr).bind_pure
    · next heq =>
      cases heq
      exact hname _
    · next heq =>
      cases heq
      exact hname _
    · next heq =>
      cases heq
      split
      · exact hname _
      · exact .fail
    · next heq =>
      cases heq
      exact goTo_bind (List.suffix_cons _ s) (pseudo hr hnested).bind_pure
    · next heq =>
      cases heq
      exact parent hr
    · next heq =>
      cases heq
      exact typeSelector hr
    · next heq =>
      cases heq
      exact typeSelector hr
    · split
      · next hstarts =>
        intro hs a t h
        obtain ⟨hsuffix, hread⟩ := typeSelector hr hs a t h
        have hname : startsName (c :: s ++ r) = true := startsName_append hstarts r
        exact ⟨hsuffix, fun hok ↦ (reads_simple_type_iff (.inr (.inr hname))).2 (hread hok)⟩
      · exact .fail

end Nested

end Extends

end SelectorAlgebra.Parser

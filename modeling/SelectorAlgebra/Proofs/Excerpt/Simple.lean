import SelectorAlgebra.Proofs.Excerpt.Reading
import SelectorAlgebra.Proofs.Parser.Progress

/-!
# Simple selectors in an excerpt

One lemma for each function of the grammar, on what it reads in front of a comma or a closing
parenthesis. Main statement: a simple selector is read from an excerpt if the lists nested in it
are, which end inside the excerpt.
-/

namespace SelectorAlgebra.Parser

open Text

variable {α β : Type} {r s t : List Char} {ends : Prop}

/-- What reads a name in the end takes one. -/
theorem startsName_of_reads_typeSelector {x : Simple} (h : Reads typeSelector s x t)
    (hstar : s.head? ≠ some '*') (hbar : s.head? ≠ some '|') : startsName s = true := by
  rw [typeSelector, reads_accept_bind_of_ne hstar, if_neg (by decide),
    reads_accept_bind_of_ne hbar, if_neg (by decide), reads_bind_iff] at h
  obtain ⟨n, u, hn, -⟩ := h
  exact (reads_name_iff.1 hn).1

/-- An operator is read exactly from its symbol. -/
theorem reads_attributeOperator_iff {o : AttributeOperator} :
    Reads attributeOperator s o t ↔ s = o.symbol ++ t := by
  constructor
  · intro h
    rw [attributeOperator, reads_rest_bind_iff] at h
    dsimp only at h
    split at h
    · next o' ho =>
      rw [reads_goTo_bind_iff, reads_pure_iff] at h
      obtain ⟨rfl, rfl⟩ := h
      have hsymbol : ∀ u, AttributeOperator.ofSymbol? u = some o' → u = o'.symbol := by
        intro u hu
        unfold AttributeOperator.ofSymbol? at hu
        split at hu <;> cases hu <;> rfl
      rw [← hsymbol _ ho, List.take_append_drop]
    · exact absurd h not_reads_fail
  · rintro rfl
    exact reads_attributeOperator o t

theorem not_reads_simple {allow : Allowance} {nested : Parser SelectorList} {first : Bool}
    {x : Simple} (hr : StartsWithin complexEnds r) : ¬ Reads (simple allow nested first) r x t := by
  have hstarts := startsName_of_startsWithin hr
  intro h
  rw [simple, reads_rest_bind_iff] at h
  split at h
  case h_9 => simp [hstarts] at h
  all_goals exact absurd (hr.head_eq rfl) (by decide)

namespace Excerpts

theorem attributeOperator : Excerpts r ends attributeOperator attributeOperator s := by
  intro o t h
  obtain rfl := reads_attributeOperator_iff.1 h
  refine ⟨List.suffix_append _ _, ?_⟩
  rintro x y hx rfl -
  rw [← List.append_assoc] at hx
  rw [← List.append_cancel_right hx]
  exact reads_attributeOperator o y

section Cut

variable (hr : StartsWithin complexEnds r)

include hr

/-- A bar that ends a namespace is taken in the excerpt too. -/
theorem bar {f g : Unit → Parser β} {p q : Parser β} (hf : ∀ u, Excerpts r ends (f ()) (g ()) u)
    (hp : Excerpts r ends p q s) :
    Excerpts r ends (rest >>= fun s ↦ if startsBar s then goTo s.tail >>= f else p)
      (rest >>= fun s ↦ if startsBar s then goTo s.tail >>= g else q) s := by
  intro b t h
  rw [reads_rest_bind_iff] at h
  split at h
  · next hbar =>
    obtain ⟨hsuffix, hread⟩ := hf s.tail b t (reads_goTo_bind_iff.1 h)
    refine ⟨hsuffix.trans (List.tail_suffix s), ?_⟩
    rintro x y rfl rfl hy
    rw [startsBar_append hr] at hbar
    rw [reads_rest_bind_iff, if_pos hbar, reads_goTo_bind_iff]
    cases x with
    | nil => cases hbar
    | cons c x => exact hread x y rfl rfl hy
  · next hbar =>
    obtain ⟨hsuffix, hread⟩ := hp b t h
    refine ⟨hsuffix, ?_⟩
    rintro x y rfl rfl hy
    rw [startsBar_append hr] at hbar
    rw [reads_rest_bind_iff, if_neg hbar]
    exact hread x y rfl rfl hy

theorem name_bind {f : String → α} :
    Excerpts r ends (do return f (← Parser.name)) (do return f (← Parser.name)) s :=
  (name hr).bind fun _ _ _ ↦ .pure

theorem namespaced {ns : String} :
    Excerpts r ends (namespaced ns) (namespaced ns) s := by
  refine accept.bind fun b u _ ↦ ?_
  split
  · exact .pure
  · exact name_bind hr

theorem typeSelector : Excerpts r ends typeSelector typeSelector s := by
  refine accept.bind fun b u _ ↦ ?_
  split
  · refine accept.bind fun b u _ ↦ ?_
    split
    · exact namespaced hr
    · exact .pure
  · refine accept.bind fun b u _ ↦ ?_
    split
    · exact namespaced hr
    · exact (name hr).bind fun n u _ ↦ bar hr (fun _ ↦ namespaced hr) .pure

theorem attributeName : Excerpts r ends attributeName attributeName s := by
  refine accept.bind fun b u _ ↦ ?_
  split
  · exact expect.bind fun _ u _ ↦ name_bind hr
  · refine bar hr (fun _ ↦ name_bind hr) ?_
    exact (name hr).bind fun n u _ ↦ bar hr (fun _ ↦ name_bind hr) .pure

theorem attributeValue : Excerpts r ends attributeValue attributeValue s := by
  refine of_cons stays_attributeValue (fun v t h ↦ ?_) fun c x _ ↦ .rest_bind ?_
  · rw [Parser.attributeValue, reads_rest_bind_iff] at h
    split at h
    · exact absurd (hr.head_eq rfl) (by decide)
    · exact absurd (hr.head_eq rfl) (by decide)
    · obtain ⟨n, u, hn, -⟩ := reads_bind_iff.1 h
      have hstarts := (reads_name_iff.1 hn).1
      rw [startsName_of_startsWithin hr] at hstarts
      cases hstarts
  · rw [List.cons_append]
    split
    · next heq =>
      cases heq
      exact quoted
    · next heq =>
      cases heq
      exact quoted
    · next hdouble hsingle =>
      split
      · next heq =>
        cases heq
        exact absurd rfl (hdouble _)
      · next heq =>
        cases heq
        exact absurd rfl (hsingle _)
      · exact name_bind hr

theorem attributeModifier : Excerpts r ends attributeModifier attributeModifier s := by
  refine of_front stays_attributeModifier fun x _ ↦ .rest_bind ?_
  cases x with
  | nil =>
    cases r with
    | nil => exact .pure
    | cons c r =>
      have hc : ¬ c.isAlpha = true := by
        rcases hr.head_eq rfl with rfl | rfl <;> decide
      rw [List.nil_append]
      dsimp only
      rw [if_neg hc]
      exact .pure
  | cons c x =>
    rw [List.cons_append]
    dsimp only
    split
    · exact goTo_bind ((blanks hr).bind fun _ _ _ ↦ .pure)
    · exact .pure

theorem attributeSelector : Excerpts r ends attributeSelector attributeSelector s := by
  refine (blanks hr).bind fun _ _ _ ↦ (attributeName hr).bind fun n _ _ ↦
    (blanks hr).bind fun _ _ _ ↦ accept.bind fun b _ _ ↦ ?_
  split
  · exact .pure
  · exact attributeOperator.bind fun o _ _ ↦ (blanks hr).bind fun _ _ _ ↦
      (attributeValue hr).bind fun v _ _ ↦ (blanks hr).bind fun _ _ _ ↦
      (attributeModifier hr).bind fun m _ _ ↦ expect.bind fun _ _ _ ↦ .pure

theorem parent {allow : Allowance} {first : Bool} (hs : s.head? = some '&') :
    Excerpts r ends (parent allow first) (parent allow first) s := by
  unfold Parser.parent
  split
  · exact .fail
  · split
    · exact .fail
    · refine of_front (.rest_bind (.bind (.goTo (List.tail_suffix s)) fun _ _ _ ↦
        .bind .nameChars fun _ _ _ ↦ .pure)) fun x hx ↦ .rest_bind ?_
      cases x with
      | nil =>
        rw [hx] at hs
        exact absurd (hr.head_eq hs) (by decide)
      | cons c x => exact goTo_bind ((nameChars hr).bind fun _ _ _ ↦ .pure)

end Cut

/-! ### Pseudo selectors -/

section Nested

variable {allow : Allowance} {nested nested' : Parser SelectorList} {n : Nat}
  (hr : StartsWithin complexEnds r) (hstays : ∀ src u, Stays src nested u)
  (hnested : ∀ u, u.length < n → Excerpts r False nested nested' u)

include hr hstays hnested

/-- Indices end in front of the parenthesis that closes the argument. -/
theorem indices (hs : s.length < n) :
    Excerpts r False (indices nested) (indices nested') s := by
  rintro ⟨a, l⟩ t h
  have hsuffix : t <:+ s := (stays_indices (hstays s)).suffix h
  refine ⟨hsuffix, ?_⟩
  rintro x y rfl rfl hy
  rw [reads_indices_iff] at h ⊢
  obtain ⟨⟨hne, ha⟩, hrest⟩ := h
  have hle : y ++ r <:+ (dropIndices (x ++ r) (x ++ r)).rest := by
    split at hrest
    · obtain ⟨m, hm, -⟩ := hrest
      exact ((hstays _ _).suffix hm).trans (dropBlanks_suffix _)
    · exact hrest.2 ▸ List.suffix_refl _
  obtain ⟨z, hz⟩ := exists_append_of_suffix hle
  have hzne : z ≠ [] := by
    rintro rfl
    exact hy (nil_of_append_suffix (hz ▸ hle))
  obtain ⟨hcut, hstop, hof⟩ := dropIndices_excerpt hr hz hzne
  rw [hstop, Stretch.chars_append_right (stop_dropIndices_suffix x)] at ha
  refine ⟨⟨hne, ha⟩, ?_⟩
  rw [hof, hz] at hrest
  rw [hcut]
  split at hrest
  · next hlist =>
    obtain ⟨m, hm, hl⟩ := hrest
    have hlength := (dropBlanks_suffix (z ++ r)).trans (hz ▸ rest_dropIndices_suffix _ _)
    have hread := hnested _ (Nat.lt_of_le_of_lt hlength.length_le hs) m _ hm
    obtain ⟨v, hv⟩ := exists_append_of_suffix hread.1
    rw [if_pos hlist, dropBlanks_excerpt hr hv]
    exact ⟨m, hread.2 v y hv rfl hy, hl⟩
  · next hlist =>
    rw [if_neg hlist]
    exact ⟨hrest.1, List.append_cancel_right hrest.2⟩

theorem argument {name : String} {element : Bool} (hs : s.length < n) :
    Excerpts r False (argument nested name element) (argument nested' name element) s := by
  unfold Parser.argument
  dsimp only
  split
  · split
    · exact (indices hr hstays hnested hs).bind fun _ _ _ ↦ .pure
    · exact (hnested s hs).bind fun _ _ _ ↦ .pure
  · exact rawArgument.bind fun _ _ _ ↦ .pure

theorem pseudo (hs : s.length < n) : Excerpts r ends (pseudo nested) (pseudo nested') s := by
  refine accept.bind fun element t ht ↦ (name hr).bind fun m u hu ↦ accept.bind fun b v hv ↦ ?_
  split
  · refine (blanks hr).bind fun _ w hw ↦ bind_within (?_ : Excerpts r False _ _ _) ?_ ?_
    · have := ((hw.trans hv).trans (hu.trans ht)).length_le
      exact argument hr hstays hnested (by omega)
    · exact fun _ _ _ _ ↦ (blanks hr).bind fun _ _ _ ↦ expect.bind fun _ _ _ ↦ .pure
    · -- the parenthesis that closes the argument is in front of `r`
      intro a b t h hle
      rw [reads_blanks_bind_iff, reads_expect_bind_iff] at h
      obtain ⟨u, hu, h⟩ := h
      obtain ⟨-, rfl⟩ := reads_pure_iff.1 h
      have := hle.length_le
      have hblanks := (dropBlanks_suffix r).length_le
      rw [hu, List.length_cons] at hblanks
      omega
  · exact .pure

/-! ### Simple selectors -/

theorem simple {first : Bool} (hs : s.length ≤ n) :
    Excerpts r ends (simple allow nested first) (simple allow nested' first) s := by
  refine of_cons (stays_simple (hstays s)) (fun _ _ ↦ not_reads_simple hr) fun c x hx ↦
    .rest_bind ?_
  rw [hx, List.cons_append, List.length_cons] at hs
  have hname (f : String → Simple) : Excerpts r ends
      (goTo (x ++ r) >>= fun _ ↦ do return f (← Parser.name))
      (goTo x >>= fun _ ↦ do return f (← Parser.name)) (c :: x ++ r) := goTo_bind (name_bind hr)
  rw [List.cons_append] at hname ⊢
  split
  · next heq =>
    cases heq
    exact goTo_bind ((attributeSelector hr).bind fun _ _ _ ↦ .pure)
  · next heq =>
    cases heq
    exact hname _
  · next heq =>
    cases heq
    exact hname _
  · next heq =>
    cases heq
    split
    · exact hname _
    · exact .fail
  · next heq =>
    cases heq
    exact goTo_bind ((pseudo hr hstays hnested (by omega)).bind fun _ _ _ ↦ .pure)
  · next heq =>
    cases heq
    exact parent hr rfl
  · next heq =>
    cases heq
    exact typeSelector hr
  · next heq =>
    cases heq
    exact typeSelector hr
  · next hstar hbar =>
    intro a t h
    split at h
    case isFalse => exact absurd h not_reads_fail
    have htypes : Excerpts r ends _ _ (c :: x ++ r) := typeSelector hr
    obtain ⟨hsuffix, hread⟩ := htypes a t h
    refine ⟨hsuffix, fun y z hy hz hends ↦ ?_⟩
    obtain rfl : c :: x = y := List.append_cancel_right hy
    have htype := hread _ z hy hz hends
    have hstarts := startsName_of_reads_typeSelector htype
      (fun h ↦ hstar _ (by rw [Option.some.inj h])) (fun h ↦ hbar _ (by rw [Option.some.inj h]))
    exact (reads_simple_type_iff (.inr (.inr hstarts))).2 htype

end Nested

end Excerpts

end SelectorAlgebra.Parser

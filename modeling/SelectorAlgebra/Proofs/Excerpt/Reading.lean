import SelectorAlgebra.Proofs.Excerpt.Scanning
import SelectorAlgebra.Proofs.Parser.Position

/-!
# Reading an excerpt

A part is cut out of a text, and what is behind it starts with a comma or a closing parenthesis, if
there is anything. What is read inside the part as long as the whole text is there is read from the
part alone too. There is one rule for each way to build a parser. Main statement: the rule for a
sequence, whose first parser may stop at the end of the part only if the sequence may.
-/

namespace SelectorAlgebra.Parser

open Text

variable {α β : Type} {r s : List Char} {ends : Prop}

/-- Whether what `p` reads from a text is read by `q` from the part of it in front of `r`, as long
as `p` does not go past that part; `ends` tells whether it may go up to the end of the part. -/
def Excerpts (r : List Char) (ends : Prop) (p q : Parser α) (s : List Char) : Prop :=
  ∀ a t, Reads p s a t → t <:+ s ∧
    ∀ x y, s = x ++ r → t = y ++ r → (y = [] → ends) → Reads q x a y

/-- What stops in front of `r` starts in front of it. -/
theorem exists_append_of_suffix {u y : List Char} (h : y ++ r <:+ u) : ∃ z, u = z ++ r := by
  obtain ⟨w, rfl⟩ := h
  exact ⟨w ++ y, by rw [List.append_assoc]⟩

theorem nil_of_append_suffix {y : List Char} (h : y ++ r <:+ r) : y = [] := by
  have := h.length_le
  rw [List.length_append] at this
  exact List.length_eq_zero_iff.1 (by omega)

namespace Excerpts

variable {p q : Parser α}

theorem of_not_reads (h : ∀ a t, ¬ Reads p s a t) : Excerpts r ends p q s :=
  fun a t ht ↦ absurd ht (h a t)

/-- Only texts with `r` at the end count. -/
theorem of_front (hp : Stays s p s) (h : ∀ x, s = x ++ r → Excerpts r ends p q (x ++ r)) :
    Excerpts r ends p q s := by
  refine fun a t ht ↦ ⟨hp.suffix ht, ?_⟩
  rintro x y rfl rfl hy
  exact (h x rfl a _ ht).2 x y rfl rfl hy

/-- Where a parser reads nothing from `r`, something is in front of `r`. -/
theorem of_cons {p q : Parser α} (hp : Stays s p s) (hnil : ∀ a t, ¬ Reads p r a t)
    (h : ∀ c x, s = c :: x ++ r → Excerpts r ends p q (c :: x ++ r)) : Excerpts r ends p q s := by
  refine of_front hp fun x hx ↦ ?_
  cases x with
  | nil => exact of_not_reads hnil
  | cons c x => exact h c x hx

/-- Nothing is asked of what starts where the part has ended. -/
theorem of_length_le (hp : Stays s p s) (h : s.length ≤ r.length) : Excerpts r False p q s := by
  refine fun a t ht ↦ ⟨hp.suffix ht, ?_⟩
  rintro x y - rfl hy
  have hlength := (hp.suffix ht).length_le
  rw [List.length_append] at hlength
  exact absurd (List.length_eq_zero_iff.1 (by omega)) hy

/-- A parser takes one value only. -/
theorem of_reads {x : List Char} {a : α} {t : List Char} (hp : Reads p (x ++ r) a t)
    (ht : t <:+ x ++ r) (hq : ∀ y, t = y ++ r → Reads q x a y) : Excerpts r ends p q (x ++ r) := by
  intro b u hb
  obtain ⟨rfl, rfl⟩ := hb.unique hp
  refine ⟨ht, fun y z hy hz _ ↦ ?_⟩
  obtain rfl := List.append_cancel_right hy
  exact hq z hz

theorem pure {a : α} : Excerpts r ends (pure a) (pure a) s := by
  intro b t h
  obtain ⟨rfl, rfl⟩ := reads_pure_iff.1 h
  refine ⟨List.suffix_refl s, fun x y hx hy _ ↦ reads_pure_iff.2 ⟨rfl, ?_⟩⟩
  exact List.append_cancel_right (hx.symm.trans hy)

theorem fail {fault : SyntaxFault} : Excerpts r ends (fail fault) q s :=
  of_not_reads fun _ _ ↦ not_reads_fail

theorem failSince {start : List Char} {fault : SyntaxFault} :
    Excerpts r ends (failSince start fault) q s :=
  of_not_reads fun _ _ ↦ not_reads_failSince

/-- What comes first may stop at the end of the part if the whole may, and does not if what comes
next is not read from `r`. -/
theorem bind_within {first : Prop} {f g : α → Parser β} (hp : Excerpts r first p q s)
    (hf : ∀ a u, Reads p s a u → u <:+ s → Excerpts r ends (f a) (g a) u)
    (hfirst : ∀ a b t, Reads (f a) r b t → r <:+ t → ends → first) :
    Excerpts r ends (p >>= f) (q >>= g) s := by
  intro b t h
  obtain ⟨a, u, ha, hb⟩ := reads_bind_iff.1 h
  obtain ⟨hu, hread⟩ := hp a u ha
  obtain ⟨ht, hmore⟩ := hf a u ha hu b t hb
  refine ⟨ht.trans hu, ?_⟩
  rintro x y rfl rfl hy
  obtain ⟨z, rfl⟩ := exists_append_of_suffix ht
  refine reads_bind_iff.2 ⟨a, z, hread x z rfl rfl ?_, hmore z y rfl rfl hy⟩
  rintro rfl
  obtain rfl := nil_of_append_suffix ht
  exact hfirst a b r hb (List.suffix_refl r) (hy rfl)

theorem bind_reads {f g : α → Parser β} (hp : Excerpts r ends p q s)
    (hf : ∀ a u, Reads p s a u → u <:+ s → Excerpts r ends (f a) (g a) u) :
    Excerpts r ends (p >>= f) (q >>= g) s :=
  hp.bind_within hf fun _ _ _ _ _ h ↦ h

theorem bind {f g : α → Parser β} (hp : Excerpts r ends p q s)
    (hf : ∀ a u, u <:+ s → Excerpts r ends (f a) (g a) u) :
    Excerpts r ends (p >>= f) (q >>= g) s :=
  hp.bind_reads fun a u _ ↦ hf a u

theorem rest_bind {x : List Char} {f g : List Char → Parser β}
    (h : Excerpts r ends (f (x ++ r)) (g x) (x ++ r)) :
    Excerpts r ends (rest >>= f) (rest >>= g) (x ++ r) := by
  intro b t ht
  obtain ⟨hsuffix, hread⟩ := h b t ht
  refine ⟨hsuffix, fun y z hy hz hends ↦ ?_⟩
  obtain rfl := List.append_cancel_right hy
  exact hread x z rfl hz hends

theorem goTo_bind {c : Char} {x : List Char} {f g : Unit → Parser β}
    (h : Excerpts r ends (f ()) (g ()) (x ++ r)) :
    Excerpts r ends (goTo (x ++ r) >>= f) (goTo x >>= g) (c :: x ++ r) := by
  intro b t ht
  obtain ⟨hsuffix, hread⟩ := h b t ht
  refine ⟨hsuffix.trans (List.suffix_cons c _), fun y z hy hz hends ↦ ?_⟩
  obtain rfl := List.append_cancel_right hy
  exact hread x z rfl hz hends

/-- A choice may be made by what is in front of `r`, if that tells it where the first parser
reads. -/
theorem ite {c c' : Prop} [Decidable c] [Decidable c'] {x : List Char} {p' q' : Parser α}
    (hp : Excerpts r ends p q (x ++ r)) (hp' : Excerpts r ends p' q' (x ++ r)) (hc : c' → c)
    (hread : ∀ a y, Reads q x a y → c') :
    Excerpts r ends (if c then p else p') (if c' then q else q') (x ++ r) := by
  intro a t h
  split at h
  · obtain ⟨hsuffix, hq⟩ := hp a t h
    refine ⟨hsuffix, fun y z hy hz hends ↦ ?_⟩
    have hq := hq y z hy hz hends
    obtain rfl := List.append_cancel_right hy
    rwa [if_pos (hread a z hq)]
  · next hnot =>
    rw [if_neg fun h ↦ hnot (hc h)]
    exact hp' a t h

theorem notice_bind {start start' : List Char} {f g : Unit → Parser β}
    (h : Excerpts r ends (f ()) (g ()) s) :
    Excerpts r ends (notice start >>= f) (notice start' >>= g) s := h

theorem accept {c : Char} : Excerpts r ends (accept c) (accept c) s := by
  intro b t h
  cases s with
  | nil =>
    cases h
    refine ⟨List.suffix_refl _, fun x y hx hy _ ↦ ?_⟩
    obtain ⟨rfl, rfl⟩ := List.append_eq_nil_iff.1 hx.symm
    obtain ⟨rfl, -⟩ := List.append_eq_nil_iff.1 hy.symm
    rfl
  | cons d s =>
    by_cases hd : d = c
    · subst hd
      obtain ⟨rfl, rfl⟩ : true = b ∧ s = t := by simpa [Reads, Parser.accept] using h
      refine ⟨List.suffix_cons d s, fun x y hx hy _ ↦ ?_⟩
      rw [hy, ← List.cons_append] at hx
      rw [← List.append_cancel_right hx]
      simp [Reads, Parser.accept]
    · obtain ⟨rfl, rfl⟩ : false = b ∧ d :: s = t := by simpa [Reads, Parser.accept, hd] using h
      refine ⟨List.suffix_refl _, fun x y hx hy _ ↦ ?_⟩
      obtain rfl := List.append_cancel_right (hx.symm.trans hy)
      cases x with
      | nil => rfl
      | cons e x =>
        obtain ⟨rfl, -⟩ := List.cons.inj hx
        simp [Reads, Parser.accept, hd]

theorem expect {c : Char} {fault : SyntaxFault} :
    Excerpts r ends (expect c fault) (expect c fault) s := by
  refine accept.bind fun b u _ ↦ ?_
  split
  · exact .pure
  · exact .fail

section Cut

variable (hr : StartsWithin complexEnds r)

include hr

theorem blanks : Excerpts r ends blanks blanks s := by
  intro b t h
  cases h
  refine ⟨dropBlanks_suffix s, ?_⟩
  rintro x y rfl ht -
  rw [← dropBlanks_excerpt hr ht]
  rfl

theorem blanks_bind {f g : Unit → Parser β} (hstays : ∀ u, Stays u (f ()) u)
    (hf : ∀ z, z ++ r <:+ s → Excerpts r ends (f ()) (g ()) (z ++ r)) :
    Excerpts r ends (Parser.blanks >>= f) (Parser.blanks >>= g) s := by
  intro b t h
  rw [reads_blanks_bind_iff] at h
  have hdrop : t <:+ dropBlanks s := (hstays _).suffix h
  refine ⟨hdrop.trans (dropBlanks_suffix s), ?_⟩
  rintro x y rfl rfl hy
  obtain ⟨z, hz⟩ := exists_append_of_suffix hdrop
  have hsuffix := dropBlanks_suffix (x ++ r)
  rw [reads_blanks_bind_iff]
  rw [hz] at h hsuffix
  rw [dropBlanks_excerpt hr hz]
  exact (hf z hsuffix b _ h).2 z y rfl rfl hy

theorem nameChars : Excerpts r ends nameChars nameChars s := by
  intro n t h
  obtain ⟨ht, hs⟩ := reads_nameChars_iff.1 h
  refine ⟨dropName_suffix ht, ?_⟩
  rintro x y rfl rfl -
  rw [← List.append_assoc] at hs
  exact reads_nameChars_iff.2 ⟨dropName_excerpt hr ht, List.append_cancel_right hs⟩

theorem name : Excerpts r ends name name s := by
  intro n t h
  obtain ⟨hstarts, ht, hs⟩ := reads_name_iff.1 h
  refine ⟨dropName_suffix ht, ?_⟩
  rintro x y rfl rfl -
  rw [← List.append_assoc] at hs
  exact reads_name_iff.2 ⟨startsName_excerpt hstarts ht, dropName_excerpt hr ht,
    List.append_cancel_right hs⟩

end Cut

theorem quoted : Excerpts r ends quoted quoted s := by
  intro v t h
  obtain ⟨q, u, rfl, hread⟩ := reads_quoted_iff.1 h
  refine ⟨(readQuoted_suffix hread).1.trans (List.suffix_cons q u), ?_⟩
  rintro x y hx rfl -
  obtain ⟨w, hw, -⟩ := exists_of_readQuoted hread
  cases x with
  | nil =>
    -- the string would start behind the place in front of which it ends
    have := congrArg List.length hx
    simp [hw] at this
    omega
  | cons c x =>
    obtain ⟨rfl, rfl⟩ := List.cons.inj hx
    exact reads_quoted_iff.2 ⟨q, x, rfl, readQuoted_excerpt hread⟩

theorem rawArgument : Excerpts r False rawArgument rawArgument s := by
  intro a t h
  obtain ⟨ht, ha⟩ := reads_rawArgument_iff.1 h
  obtain ⟨w, u, hw, -⟩ := dropArgument_append ht
  refine ⟨hw ▸ List.suffix_append w t, ?_⟩
  rintro x y rfl rfl hy
  obtain ⟨hx, hchars⟩ := dropArgument_excerpt ht hy
  exact reads_rawArgument_iff.2 ⟨hx, hchars ▸ ha⟩

end Excerpts

end SelectorAlgebra.Parser

import Mathlib.Data.List.Forall2
import SelectorAlgebra.Proofs.Covering.Alignment

/-!
# Laws of alignments

What can be done with the alignment of one path on another without a search: it is composed with an
alignment of the second path on a third, it goes on behind both paths, it stays when both paths are
changed in each place, and the first component on the left and any components in front of the right
may be there or not.
-/

namespace SelectorAlgebra

/-- A list is related to one that splits in the same place. -/
theorem forall₂_append_left_iff {α β : Type} {R : α → β → Prop} {l l' : List α} {m : List β} :
    List.Forall₂ R (l ++ l') m ↔
      ∃ k k', List.Forall₂ R l k ∧ List.Forall₂ R l' k' ∧ m = k ++ k' := by
  induction l generalizing m with
  | nil => simp
  | cons a l ih =>
    simp only [List.cons_append, List.forall₂_cons_left_iff, ih]
    constructor
    · rintro ⟨b, _, hab, ⟨k, k', hk, hk', rfl⟩, rfl⟩
      exact ⟨b :: k, k', ⟨b, k, hab, hk, rfl⟩, hk', rfl⟩
    · rintro ⟨_, k', ⟨b, k, hab, hk, rfl⟩, hk', rfl⟩
      exact ⟨b, k ++ k', hab, ⟨k, k', hk, hk', rfl⟩, rfl⟩

/-- Every relation holds wherever it holds. -/
@[simp] theorem Combinator.covers_self (k : Option Combinator) : Combinator.covers k k = true := by
  simp [Combinator.covers]

/-- What holds wherever a relation holds that holds wherever a third does, holds where that does. -/
theorem Combinator.covers_trans {i j k : Option Combinator} (hij : Combinator.covers i j = true)
    (hjk : Combinator.covers j k = true) : Combinator.covers i k = true := by
  simp only [Combinator.covers, Bool.or_eq_true, Bool.and_eq_true, beq_iff_eq] at hij hjk ⊢
  rcases hij with (rfl | ⟨rfl, rfl⟩) | ⟨rfl, rfl⟩
  · exact hjk
  all_goals simp_all

namespace Alignment

variable {covers covers' covers'' : Comparison} {previous previous' : Option Combinator}
  {c d : Component} {gap p q r : Path}

/-! ### What may be passed over -/

/-- A component may be passed over where anything may be, and after `~` if a sibling follows it. -/
theorem gapAllowed_cons_iff {k : Option Combinator} : gapAllowed k (c :: gap) = true ↔
    (k = none ∨ k = some .followingSibling ∧ Combinator.covers k c.next = true) ∧
      gapAllowed k gap = true := by
  rcases k with _ | _ | _ | _ <;> simp

theorem gapAllowed_append_iff {k : Option Combinator} {gap' : Path} :
    gapAllowed k (gap ++ gap') = true ↔ gapAllowed k gap = true ∧ gapAllowed k gap' = true := by
  rcases k with _ | _ | _ | _ <;> simp

/-- What may be passed over after a combinator may be after one that covers it. -/
theorem gapAllowed_of_covers {k k' : Option Combinator} (hk : Combinator.covers k k' = true)
    (h : gapAllowed k' gap = true) : gapAllowed k gap = true := by
  simp only [Combinator.covers, Bool.or_eq_true, Bool.and_eq_true, beq_iff_eq] at hk
  rcases hk with (rfl | ⟨rfl, rfl⟩) | ⟨rfl, rfl⟩
  · exact h
  · exact gapAllowed_none gap
  · rw [gapAllowed_nextSibling, List.isEmpty_iff] at h
    rw [h, gapAllowed_nil]

/-! ### Alignments in each place -/

/-- Whether components may be passed over is told by their combinators. -/
theorem gapAllowed_map {f : Component → Component} (hf : ∀ c, (f c).next = c.next)
    (k : Option Combinator) (gap : Path) : gapAllowed k (gap.map f) = gapAllowed k gap := by
  rcases k with _ | _ | _ | _ <;> simp [hf, Function.comp_def]

/-- A change of all components that keeps the combinators, and the answers about compound selectors,
keeps the alignments. -/
theorem aligned_map_iff {f : Component → Component} (hf : ∀ c, (f c).next = c.next)
    (hc : ∀ c d gap,
      covers' (f c).compound (f d).compound (gap.map f) = covers c.compound d.compound gap) :
    Aligned covers' previous (p.map f) (q.map f) ↔ Aligned covers previous p q := by
  have hfits (k : Option Combinator) (c : Component) (gap : Path) (d : Component) :
      fits covers' k (f c) (gap.map f) (f d) = fits covers k c gap d := by
    rw [fits, fits, gapAllowed_map hf, hf, hf, hc]
  induction p generalizing previous q with
  | nil => simp [aligned_nil_iff]
  | cons c p ih =>
    rw [List.map_cons, aligned_cons_iff, aligned_cons_iff]
    constructor
    · rintro ⟨_, _, _, hq, fit, rest⟩
      obtain ⟨gap, _, rfl, rfl, hrest⟩ := List.map_eq_append_iff.1 hq
      obtain ⟨d, r, rfl, rfl, rfl⟩ := List.map_eq_cons_iff.1 hrest
      rw [hfits] at fit
      exact ⟨gap, d, r, rfl, fit, ih.1 (hf c ▸ rest)⟩
    · rintro ⟨gap, d, r, rfl, fit, rest⟩
      rw [← hfits] at fit
      exact ⟨gap.map f, f d, r.map f, by simp, fit, ih.2 ((hf c).symm ▸ rest)⟩

/-- A path is put on one of the same length place by place. -/
theorem Aligned.of_forall₂ (h : List.Forall₂ (fun c d : Component ↦
    c.next = d.next ∧ covers c.compound d.compound [] = true) p q) :
    Aligned covers previous p q := by
  induction h generalizing previous with
  | nil => exact .nil previous
  | cons hcd _ ih => exact .cons [] (fits_iff.2 ⟨⟨gapAllowed_nil _, by simp [hcd.1]⟩, hcd.2⟩) ih

/-- Both paths may be changed in each place where the combinators stay and compound selectors go on
to cover each other. -/
theorem Aligned.imp {R S : Component → Component → Prop} {p' q' : Path}
    (h : Aligned covers previous p q) (hp : List.Forall₂ R p p') (hq : List.Forall₂ S q q')
    (hR : ∀ c c', R c c' → c'.next = c.next) (hS : ∀ d d', S d d' → d'.next = d.next)
    (hc : ∀ c c', R c c' → ∀ d d', S d d' → ∀ gap gap', List.Forall₂ S gap gap' →
      covers c.compound d.compound gap = true → covers' c'.compound d'.compound gap' = true) :
    Aligned covers' previous p' q' := by
  have hgap {k : Option Combinator} {gap gap' : Path} (h : List.Forall₂ S gap gap') :
      gapAllowed k gap = true → gapAllowed k gap' = true := by
    induction h with
    | nil => exact id
    | cons hd _ ih =>
      rw [gapAllowed_cons_iff, gapAllowed_cons_iff, hS _ _ hd]
      exact And.imp_right ih
  induction h generalizing p' q' with
  | nil previous =>
    cases hp
    cases hq
    exact .nil previous
  | @cons previous c p gap d q fit rest ih =>
    obtain ⟨c', p', hcc, hpp, rfl⟩ := List.forall₂_cons_left_iff.1 hp
    obtain ⟨gap', _, hg, hdq, rfl⟩ := forall₂_append_left_iff.1 hq
    obtain ⟨d', q', hdd, hqq, rfl⟩ := List.forall₂_cons_left_iff.1 hdq
    obtain ⟨⟨hallowed, hk⟩, hcd⟩ := fits_iff.1 fit
    have hnext := hR c c' hcc
    refine .cons gap' (fits_iff.2 ⟨⟨hgap hg hallowed, ?_⟩, hc c c' hcc d d' hdd gap gap' hg hcd⟩) ?_
    · rwa [hnext, hS d d' hdd]
    · rw [hnext]
      exact ih hpp hqq

/-! ### Composition -/

/-- Where a path is put on another, its components up to one are put on the other's up to one, and
what a combinator lets be passed over in front of the first it lets be passed over in front of the
second. -/
theorem Aligned.exists_of_append_cons {k : Option Combinator}
    (h : Aligned covers previous (gap ++ d :: q) r)
    (hk : k = none ∨ Combinator.covers k previous = true) (hgap : gapAllowed k gap = true) :
    ∃ gap' e s, r = gap' ++ e :: s ∧ gapAllowed k gap' = true ∧
      Combinator.covers d.next e.next = true ∧
      (∃ g, covers d.compound e.compound g = true) ∧ Aligned covers d.next q s := by
  have hallowed {k' : Option Combinator} {g : Path} (hk : k = none ∨ Combinator.covers k k' = true)
      (hg : gapAllowed k' g = true) : gapAllowed k g = true := by
    rcases hk with rfl | hk
    · exact gapAllowed_none g
    · exact gapAllowed_of_covers hk hg
  induction gap generalizing previous r with
  | nil =>
    obtain ⟨g, e, s, rfl, fit, rest⟩ := aligned_cons_iff.1 h
    obtain ⟨⟨hg, hde⟩, hcovers⟩ := fits_iff.1 fit
    exact ⟨g, e, s, rfl, hallowed hk hg, hde, ⟨g, hcovers⟩, rest⟩
  | cons x gap ih =>
    obtain ⟨g, y, r, rfl, fit, rest⟩ := aligned_cons_iff.1 h
    obtain ⟨⟨hg, hxy⟩, -⟩ := fits_iff.1 fit
    obtain ⟨hx, hgap⟩ := gapAllowed_cons_iff.1 hgap
    obtain ⟨g', e, s, rfl, hg', hrest⟩ := ih rest (hx.imp_right And.right) hgap
    refine ⟨g ++ y :: g', e, s, by simp, gapAllowed_append_iff.2 ⟨hallowed hk hg, ?_⟩, hrest⟩
    refine gapAllowed_cons_iff.2 ⟨hx.imp_right fun hx ↦ ⟨hx.1, ?_⟩, hg'⟩
    exact Combinator.covers_trans hx.2 hxy

/-- A path that is put on another that is put on a third is put on the third. -/
theorem Aligned.trans (h : Aligned covers previous p q) (h' : Aligned covers' previous' q r)
    (hk : previous = none ∨ Combinator.covers previous previous' = true)
    (hc : ∀ c ∈ p, ∀ d ∈ q, ∀ e ∈ r, ∀ g g' g'', covers c.compound d.compound g = true →
      covers' d.compound e.compound g' = true → covers'' c.compound e.compound g'' = true) :
    Aligned covers'' previous p r := by
  induction h generalizing previous' r with
  | nil previous =>
    obtain rfl := aligned_nil_iff.1 h'
    exact .nil previous
  | @cons previous c p gap d q fit rest ih =>
    obtain ⟨⟨hgap, hcd⟩, hcovers⟩ := fits_iff.1 fit
    obtain ⟨gap', e, s, rfl, hgap', hde, ⟨g, hcovers'⟩, rest'⟩ :=
      h'.exists_of_append_cons hk hgap
    refine .cons gap' (fits_iff.2 ⟨⟨hgap', Combinator.covers_trans hcd hde⟩, ?_⟩)
      (ih rest' (.inr hcd) fun a ha b hb e' he' ↦ ?_)
    · exact hc c (.head _) d (by simp) e (by simp) gap g gap' hcovers hcovers'
    · exact hc a (.tail _ ha) b (by simp [hb]) e' (by simp [he'])

/-- Behind the last components of both paths, which may be followed by other combinators there, an
alignment goes on. -/
theorem Aligned.append {c' d' : Component} {p' q' : Path}
    (h : Aligned covers previous (p ++ [c]) (q ++ [d])) (hc : c'.compound = c.compound)
    (hd : d'.compound = d.compound) (hk : Combinator.covers c'.next d'.next = true)
    (rest : Aligned covers c'.next p' q') :
    Aligned covers previous (p ++ c' :: p') (q ++ d' :: q') := by
  induction p generalizing previous q with
  | nil =>
    obtain ⟨gap, e, s, hq, fit, hs⟩ := aligned_cons_iff.1 h
    obtain rfl := aligned_nil_iff.1 hs
    obtain ⟨rfl, hde⟩ := List.append_inj' hq rfl
    cases hde
    obtain ⟨⟨hgap, -⟩, hcovers⟩ := fits_iff.1 fit
    exact .cons q (fits_iff.2 ⟨⟨hgap, hk⟩, by rwa [hc, hd]⟩) rest
  | cons x p ih =>
    obtain ⟨gap, y, s, hq, fit, hs⟩ := aligned_cons_iff.1 h
    obtain ⟨s, e, rfl⟩ := (List.eq_nil_or_concat' s).resolve_left (hs.ne_nil (by simp))
    rw [← List.cons_append, ← List.append_assoc] at hq
    obtain ⟨rfl, hde⟩ := List.append_inj' hq rfl
    cases hde
    rw [List.append_assoc, List.cons_append]
    exact .cons gap fit (ih hs)

/-! ### Ends of the paths -/

/-- No combinator asks for less than any. -/
theorem Aligned.relax (h : Aligned covers previous p q) : Aligned covers none p q := by
  cases h with
  | nil => exact .nil none
  | cons gap fit rest =>
    have hfit := (fits_iff.1 fit)
    exact .cons gap (fits_iff.2 ⟨⟨gapAllowed_none gap, hfit.1.2⟩, hfit.2⟩) rest

/-- Components may be put in front of the second path, if compound selectors that cover each other
do so behind more. -/
theorem Aligned.behind {front : Path} (h : Aligned covers none p q) (hp : p ≠ [])
    (hc : ∀ c ∈ p, ∀ (d : Component) gap, covers c.compound d.compound gap = true →
      covers c.compound d.compound (front ++ gap) = true) :
    Aligned covers none p (front ++ q) := by
  cases h with
  | nil => exact absurd rfl hp
  | @cons _ c p gap d q fit rest =>
    obtain ⟨⟨-, hk⟩, hcd⟩ := fits_iff.1 fit
    rw [← List.append_assoc]
    exact .cons (front ++ gap) (fits_iff.2 ⟨⟨gapAllowed_none _, hk⟩, hc c (.head _) d gap hcd⟩) rest

/-- The first component of the first path may be left out, if compound selectors that cover each
other do so behind more of the second path. -/
theorem Aligned.tail (h : Aligned covers previous (c :: p) q) (hp : p ≠ [])
    (hc : ∀ front, front ⊆ q → ∀ c ∈ p, ∀ (d : Component) gap,
      covers c.compound d.compound gap = true →
      covers c.compound d.compound (front ++ gap) = true) :
    Aligned covers none p q := by
  obtain ⟨gap, d, r, rfl, -, rest⟩ := aligned_cons_iff.1 h
  rw [List.append_cons] at hc ⊢
  exact rest.relax.behind hp (hc (gap ++ [d]) (List.subset_append_left _ _))

end Alignment

end SelectorAlgebra

import Mathlib
import SelectorAlgebra.Proofs.Covering.Composition
import SelectorAlgebra.Proofs.Covering.Rules
import SelectorAlgebra.Proofs.Parser.Written

/-!
# Covering is transitive

Where no pseudo selector carries a list, a simple selector covers another by one of a few rules, and
what passed components are does not matter. Main statement: among complex selectors without nested
lists, the middle one being read from a text, covering is transitive. Alignments are composed; a
compound selector in the middle that no element can match is no gap in the chain, since the two ids
that make it so come back in the last one.
-/

namespace SelectorAlgebra

/-- The shape of selectors in which no pseudo selector carries a selector list. -/
def Shape.withoutLists : Shape where
  simple
    | .pseudo p => p.selector = none
    | _ => True

/-! ### Simple selectors -/

namespace Simple

/-- How a simple selector covers another if neither has a list. -/
inductive Generalizes : Simple → Simple → Prop
  /-- The same condition. -/
  | refl (s : Simple) : Generalizes s s
  /-- `*|*` asks for nothing. -/
  | anything (t : Simple) : Generalizes (.universal (some "*")) t
  /-- The elements of a namespace, and those of one name in it. -/
  | names (n : QualifiedName) : Generalizes (.universal n.ns) (.type n)
  /-- `*`, and a condition that names no element. -/
  | elements {t : Simple} (hu : ∀ ns, t ≠ .universal ns) (ht : ∀ n, t ≠ .type n) :
      Generalizes (.universal none) t
  /-- The elements of a name in any namespace, and those in one. -/
  | namespaces (name : String) (ns : Option String) :
      Generalizes (.type ⟨some "*", name⟩) (.type ⟨ns, name⟩)

theorem Generalizes.trans {s t u : Simple} (h : Generalizes s t) (h' : Generalizes t u) :
    Generalizes s u := by
  cases h with
  | refl => exact h'
  | anything => exact .anything u
  | names n =>
    cases h' with
    | refl => exact .names n
    | namespaces => exact .anything _
  | elements hu ht =>
    cases h' with
    | refl => exact .elements hu ht
    | anything => exact absurd rfl (hu _)
    | names n => exact absurd rfl (hu _)
    | elements => exact absurd rfl (hu _)
    | namespaces => exact absurd rfl (ht _)
  | namespaces name ns =>
    cases h' with
    | refl => exact .namespaces name ns
    | namespaces _ ns' => exact .namespaces name ns'

/-- Without lists there are no line breaks. -/
theorem eraseBreaks_of_withoutLists {s : Simple} (h : s.Everywhere .withoutLists) :
    s.eraseBreaks = s := by
  cases s with
  | pseudo p =>
    obtain ⟨_, _, _, l⟩ := p
    have hl : l = none := h.simple
    rw [hl]
    rfl
  | _ => rfl

theorem sameOrArgument_iff {r : Covering} {s t : Simple} (hs : s.Everywhere .withoutLists)
    (ht : t.Everywhere .withoutLists) : r.sameOrArgument s t = true ↔ s = t := by
  have hargument : r.coversArgument s t = false := by
    cases t with
    | pseudo p =>
      have hp : p.selector = none := ht.simple
      simp [Covering.coversArgument, hp]
    | _ => rfl
  rw [Covering.sameOrArgument, hargument, Bool.or_false, same_iff,
    eraseBreaks_of_withoutLists hs, eraseBreaks_of_withoutLists ht]

theorem covers_iff_generalizes {s t : Simple} (hs : s.Everywhere .withoutLists)
    (ht : t.Everywhere .withoutLists) : s.covers t = true ↔ Generalizes s t := by
  have hsame : Covering.whole.sameOrArgument s t = true ↔ s = t := sameOrArgument_iff hs ht
  rw [covers_eq]
  constructor
  · intro h
    cases s with
    | universal ns =>
      simp only [Covering.coversSimple, Bool.or_eq_true, beq_iff_eq] at h
      rcases h with rfl | h
      · exact .anything t
      cases t with
      | type n =>
        rw [beq_iff_eq.1 h]
        exact .names n
      | universal m =>
        rw [beq_iff_eq.1 h]
        exact .refl _
      | _ =>
        simp only [Bool.or_eq_true, Option.isNone_iff_eq_none, hsame, reduceCtorEq, or_false] at h
        rw [h]
        exact .elements (by simp) (by simp)
    | type n =>
      simp only [Covering.coversSimple, Bool.or_eq_true, hsame] at h
      rcases h with rfl | h
      · exact .refl _
      cases t with
      | type m =>
        simp only [Bool.and_eq_true, beq_iff_eq] at h
        obtain ⟨ns, name⟩ := n
        obtain ⟨rfl, rfl⟩ := h
        exact .namespaces m.name m.ns
      | _ => cases h
    | pseudo p =>
      have hp : p.selector = none := hs.simple
      simp only [Covering.coversSimple, hp, Option.any_none, Bool.or_false, hsame] at h
      exact h ▸ .refl _
    | _ => exact hsame.1 h ▸ .refl _
  · intro h
    cases h with
    | refl => exact Covering.coversSimple_of_same ((same_iff s s).2 rfl)
    | anything => rfl
    | names n => simp [Covering.coversSimple]
    | elements hu ht' => cases t <;> simp_all [Covering.coversSimple]
    | namespaces name ns => simp [Covering.coversSimple]

theorem covers_trans {s t u : Simple} (hs : s.Everywhere .withoutLists)
    (ht : t.Everywhere .withoutLists) (hu : u.Everywhere .withoutLists)
    (hst : s.covers t = true) (htu : t.covers u = true) : s.covers u = true := by
  rw [covers_iff_generalizes hs ht] at hst
  rw [covers_iff_generalizes ht hu] at htu
  exact (covers_iff_generalizes hs hu).2 (hst.trans htu)

end Simple

/-! ### Compound selectors -/

namespace Covering

variable {c d e : Compound} {parents parents' : Path}

/-- Without lists, each condition covers one of the other compound selector. -/
theorem coversConditions_iff_of_withoutLists (hc : Compound.Each .withoutLists c) :
    whole.coversConditions c d parents = true ↔
      ∀ s ∈ c, ∃ t ∈ subject d, s.covers t = true := by
  have hlist {s : Simple} (hs : s ∈ c) (p : Pseudo) (l : SelectorList) (hp : s = .pseudo p) :
      p.selector ≠ some l := by
    have hnone := (Compound.each_iff.1 hc s hs).simple
    subst hp
    have hnone : p.selector = none := hnone
    simp [hnone]
  rw [coversConditions_iff]
  refine forall₂_congr fun s hs ↦ ⟨fun h ↦ ?_, fun ⟨t, ht, h⟩ ↦ ?_⟩
  · cases h with
    | list hl => exact absurd hl (hlist hs _ _ rfl)
    | some _ ht h => exact ⟨_, ht, by rwa [Simple.covers_eq]⟩
  · exact .some (fun p l hp hl ↦ absurd hl (hlist hs p l hp)) ht (by rwa [← Simple.covers_eq])

theorem each_subject (hd : Compound.Each .withoutLists d) :
    Compound.Each .withoutLists (subject d) := by
  unfold subject
  split
  · exact ⟨trivial, trivial⟩
  · exact hd

theorem coversConditions_trans (hc : Compound.Each .withoutLists c)
    (hd : Compound.Each .withoutLists d) (he : Compound.Each .withoutLists e)
    (hcd : whole.coversConditions c d parents = true)
    (hde : whole.coversConditions d e parents' = true) (parents'' : Path) :
    whole.coversConditions c e parents'' = true := by
  rw [coversConditions_iff_of_withoutLists hc] at hcd ⊢
  rw [coversConditions_iff_of_withoutLists hd] at hde
  intro s hs
  have hsimple := Compound.each_iff.1 hc s hs
  obtain ⟨t, ht, hst⟩ := hcd s hs
  have htsimple := Compound.each_iff.1 (each_subject hd) t ht
  by_cases hnil : d = []
  · -- only `*|*` covers any element, and it covers whatever there is
    obtain ⟨u, hu⟩ := List.exists_mem_of_ne_nil _ (subject_ne_nil (d := e))
    obtain rfl : t = .universal (some "*") := by simpa [hnil, subject] using ht
    refine ⟨u, hu, (Simple.covers_iff_generalizes hsimple
      (Compound.each_iff.1 (each_subject he) u hu)).2 ?_⟩
    cases (Simple.covers_iff_generalizes hsimple htsimple).1 hst with
    | refl | anything => exact .anything u
    | elements hu => exact absurd rfl (hu _)
  · rw [subject_of_ne_nil hnil] at ht
    obtain ⟨u, hu, htu⟩ := hde t ht
    exact ⟨u, hu, Simple.covers_trans hsimple htsimple
      (Compound.each_iff.1 (each_subject he) u hu) hst htu⟩

/-- An id is covered by itself alone, so it comes back in what its compound selector covers. -/
theorem id_mem_of_coversConditions {name : String} (hd : Compound.Each .withoutLists d)
    (he : Compound.Each .withoutLists e) (h : whole.coversConditions d e parents = true)
    (hname : .id name ∈ d) : .id name ∈ e := by
  obtain ⟨t, ht, hst⟩ := (coversConditions_iff_of_withoutLists hd).1 h _ hname
  rw [Simple.covers_iff_generalizes (Compound.each_iff.1 hd _ hname)
    (Compound.each_iff.1 (each_subject he) t ht)] at hst
  cases hst
  exact (mem_subject_iff (by simp)).1 ht

theorem Compared.id_mem {name : String} (h : whole.Compared d e parents)
    (hd : Compound.Each .withoutLists d) (he : Compound.Each .withoutLists e)
    (hname : .id name ∈ d) : .id name ∈ e := by
  cases h with
  | conditions _ _ h => exact id_mem_of_coversConditions hd he h hname
  | element hds hes _ hbefore hafter =>
    obtain ⟨hdbefore, -, hdafter⟩ := each_of_atPseudoElement hds hd
    obtain ⟨hebefore, -, heafter⟩ := each_of_atPseudoElement hes he
    obtain ⟨rfl, -, hpseudo⟩ := atPseudoElement_eq_some_iff.1 hds
    obtain ⟨rfl, -, -⟩ := atPseudoElement_eq_some_iff.1 hes
    rcases List.mem_append.1 hname with hname | hname
    · exact List.mem_append_left _ (id_mem_of_coversConditions hdbefore hebefore hbefore hname)
    rcases List.mem_cons.1 hname with rfl | hname
    · cases hpseudo
    · exact List.mem_append_right _
        (.tail _ (id_mem_of_coversConditions hdafter heafter hafter hname))

theorem Compared.trans (hc : Compound.Each .withoutLists c) (hd : Compound.Each .withoutLists d)
    (he : Compound.Each .withoutLists e) (hcd : whole.Compared c d parents)
    (hde : whole.Compared d e parents') (parents'' : Path) : whole.Compared c e parents'' := by
  cases hcd with
  | conditions hcnone hdnone h =>
    cases hde with
    | conditions _ henone h' =>
      exact .conditions hcnone henone (coversConditions_trans hc hd he h h' parents'')
    | element hdsome => cases hdnone.symm.trans hdsome
  | element hcsome hdsome hpseudo hbefore hafter =>
    cases hde with
    | conditions hdnone => cases hdnone.symm.trans hdsome
    | element hdsome' hesome hpseudo' hbefore' hafter' =>
      cases hdsome.symm.trans hdsome'
      obtain ⟨hcbefore, hcpseudo, hcafter⟩ := each_of_atPseudoElement hcsome hc
      obtain ⟨hdbefore, hdpseudo, hdafter⟩ := each_of_atPseudoElement hdsome hd
      obtain ⟨hebefore, hepseudo, heafter⟩ := each_of_atPseudoElement hesome he
      refine .element hcsome hesome ?_
        (coversConditions_trans hcbefore hdbefore hebefore hbefore hbefore' parents'')
        (coversConditions_trans hcafter hdafter heafter hafter hafter' parents'')
      rw [← Simple.covers_eq] at hpseudo hpseudo' ⊢
      exact Simple.covers_trans hcpseudo hdpseudo hepseudo hpseudo hpseudo'

end Covering

/-- A compound selector covers what one covers that it covers. -/
theorem Compound.coversBehind_trans {c d e : Compound} {parents parents' : Path}
    (hc : Compound.Each .withoutLists c) (hd : Compound.Each .withoutLists d)
    (he : Compound.Each .withoutLists e) (hwritten : Compound.Written d)
    (hcd : Compound.coversBehind c d parents = true)
    (hde : Compound.coversBehind d e parents' = true) (parents'' : Path) :
    Compound.coversBehind c e parents'' = true := by
  rw [Compound.coversBehind_eq, Covering.compound_iff] at *
  rcases hde with hunsatisfiable | hde
  · exact .inl hunsatisfiable
  rcases hcd with hunsatisfiable | hcd
  · obtain ⟨m, n, hm, hn, hne⟩ :=
      (Covering.isUnsatisfiable_iff_of_written hwritten).1 hunsatisfiable
    exact .inl (Covering.isUnsatisfiable_of_ids (hde.id_mem hd he hm) (hde.id_mem hd he hn) hne)
  · exact .inr (hcd.trans hc hd he hde parents'')

/-! ### Complex selectors -/

theorem Compound.eraseBreaks_of_withoutLists {c : Compound} (h : Compound.Each .withoutLists c) :
    Compound.eraseBreaks c = c := by
  induction c with
  | nil => rfl
  | cons s c ih => rw [Compound.eraseBreaks, Simple.eraseBreaks_of_withoutLists h.1, ih h.2]

theorem Path.eraseBreaks_of_withoutLists {p : Path} (h : Path.Each .withoutLists p) :
    Path.eraseBreaks p = p := by
  induction p with
  | nil => rfl
  | cons d p ih =>
    cases d
    rw [Path.eraseBreaks, Compound.eraseBreaks_of_withoutLists h.1.2, ih h.2]

/-- Without lists, paths that are the same are equal. -/
theorem Path.eq_of_same {p q : Path} (hp : Path.Each .withoutLists p)
    (hq : Path.Each .withoutLists q) (h : Path.same p q = true) : p = q := by
  rwa [Path.same_iff, Path.eraseBreaks_of_withoutLists hp, Path.eraseBreaks_of_withoutLists hq] at h

/-- A path covers what one covers that it covers. -/
theorem Path.covers_trans {p q r : Path} (hp : Path.Each .withoutLists p)
    (hq : Path.Each .withoutLists q) (hr : Path.Each .withoutLists r)
    (hwritten : ∀ d ∈ q, Compound.Written d.compound) (hpq : Path.covers p q = true)
    (hqr : Path.covers q r = true) : Path.covers p r = true := by
  rcases Path.covers_iff_aligned.1 hpq with ⟨-, hsame⟩ | ⟨⟨hpproper, -⟩, hpq⟩
  · exact Path.eq_of_same hp hq hsame ▸ hqr
  rcases Path.covers_iff_aligned.1 hqr with ⟨-, hsame⟩ | ⟨⟨-, hrproper⟩, hqr⟩
  · rwa [← Path.eq_of_same hq hr hsame]
  refine Path.covers_iff_aligned.2 (.inr ⟨⟨hpproper, hrproper⟩, ?_⟩)
  refine hpq.trans hqr (.inl rfl) fun c hc d hd e he _ _ gap hcd hde ↦ ?_
  exact Compound.coversBehind_trans (Path.each_iff.1 hp c hc).2 (Path.each_iff.1 hq d hd).2
    (Path.each_iff.1 hr e he).2 (hwritten d hd) hcd hde gap

/-- Among complex selectors without nested lists, whatever combinators they have, one that covers a
second one, which is read from a text, covers what the second covers. -/
theorem Complex.covers_transitive {a b c : Complex} (ha : a.Everywhere .withoutLists)
    (hb : b.Everywhere .withoutLists) (hc : c.Everywhere .withoutLists) (haccepted : b.Accepted)
    (hab : a.covers b = true) (hbc : b.covers c = true) : a.covers c = true := by
  obtain ⟨⟨haleading, -⟩, hab⟩ := Complex.covers_iff.1 hab
  obtain ⟨⟨-, hcleading⟩, hbc⟩ := Complex.covers_iff.1 hbc
  exact Complex.covers_iff.2 ⟨⟨haleading, hcleading⟩, Path.covers_trans
    ha.components hb.components hc.components
    (fun d hd ↦ (haccepted.written.component hd).1) hab hbc⟩

/-- The chain of `*|* ~ .c::before`, `*|a ~ .b + .c::before` and
`x > svg|a.y ~ .b#z + .c.d::before`. -/
theorem Complex.covers_transitive_siblings :
    Complex.covers
      ⟨[], [⟨[.universal (some "*")], [.followingSibling]⟩,
        ⟨[.className "c", .pseudo ⟨"before", true, none, none⟩], []⟩], false⟩
      ⟨[], [⟨[.type ⟨none, "x"⟩], [.child]⟩,
        ⟨[.type ⟨some "svg", "a"⟩, .className "y"], [.followingSibling]⟩,
        ⟨[.className "b", .id "z"], [.nextSibling]⟩,
        ⟨[.className "c", .className "d", .pseudo ⟨"before", true, none, none⟩], []⟩], false⟩ =
        true := by
  have hread : (Complex.parse "*|a ~ .b + .c::before").result = .ok
      ⟨[], [⟨[.type ⟨some "*", "a"⟩], [.followingSibling]⟩, ⟨[.className "b"], [.nextSibling]⟩,
        ⟨[.className "c", .pseudo ⟨"before", true, none, none⟩], []⟩], false⟩ := by cbv
  refine Complex.covers_transitive ?_ ?_ ?_ (.alone hread) (by decide +kernel) (by decide +kernel)
  all_goals simp [Complex.Everywhere, Path.Each, Compound.Each, Simple.Everywhere,
    Pseudo.Everywhere, Shape.withoutLists]

end SelectorAlgebra

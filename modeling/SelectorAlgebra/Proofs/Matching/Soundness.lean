import SelectorAlgebra.Proofs.Covering.Rules
import SelectorAlgebra.Proofs.Matching.Semantics
import SelectorAlgebra.Proofs.Selector.Sameness

/-!
# Soundness of covering

Covering is about what selectors select. Each rule is shown to be sound as long as the inner
relation is, so every stage is. Main statement: among selectors whose pseudo-classes have a meaning
here, a complex selector selects every element that one covered by it selects, in every document.
Where negations occur, type selectors must not be written with a namespace.
-/

namespace SelectorAlgebra

/-- Whether a pseudo selector is a pseudo-class with a list, of a kind that is told what it means
for the list. -/
def Pseudo.IsLogical (p : Pseudo) : Prop :=
  p.isClass = true ∧ (p.selector.isSome = true →
    p.kind = .matching ∨ p.kind = .weightless ∨ p.kind = .negation)

/-- Selectors whose pseudo selectors are pseudo-classes that say nothing but whether a list selects
their own subject, if they have a list. -/
def Shape.logical : Shape where
  simple
    | .pseudo p => p.IsLogical
    | _ => True

/-- Selectors without `:not`. -/
def Shape.withoutNegation : Shape where
  simple
    | .pseudo p => p.selector.isSome = true → p.kind ≠ .negation
    | _ => True

/-- Selectors that name no type with a namespace. -/
def Shape.withoutNamespace : Shape where
  simple
    | .type n => n.ns = none
    | _ => True

/-- The selectors that are compared: negations occur, or namespaces of types do. -/
def Shape.compared (negations : Bool) : Shape where
  simple s := Shape.logical.simple s ∧
    (if negations then Shape.withoutNamespace else Shape.withoutNegation).simple s

/-- Where a complex selector selects, its last compound selector does. -/
theorem Complex.selects_last {f : Forest} {x : Place} {c : Complex} {d : Component}
    (h : c.selects f x = true) (hd : c.components.getLast? = some d) :
    Compound.selects f d.compound x = true := by
  obtain ⟨p, hp⟩ := List.getLast?_eq_some_iff.1 hd
  have := (Complex.selects_iff.1 h).2
  rw [hp, Path.selects_concat, Bool.and_eq_true] at this
  exact this.2

/-- A path of which the last compound selector is behind passed components is no bogus one if these
hold at most one combinator each. -/
theorem Complex.selects_concat {f : Forest} {x : Place} {p : Path} {c : Compound} {b : Bool}
    (hp : Path.hasMultipleCombinators p = false) :
    Complex.selects f ⟨[], p ++ [⟨c, []⟩], b⟩ x =
      (Path.reach f p (fun _ ↦ true) x && Compound.selects f c x) := by
  have hb : Complex.isBogus ⟨[], p ++ [⟨c, []⟩], b⟩ = false := by
    simp only [Path.hasMultipleCombinators] at hp
    simp [Complex.isBogus, Complex.hasMultipleCombinators, Path.hasMultipleCombinators, hp]
  simp only [Complex.selects, hb, Path.selects_concat, Bool.not_false, Bool.true_and]

/-- Only places with an element are selected. -/
theorem Simple.element_of_selects {f : Forest} {x : Place} {s : Simple}
    (h : s.selects f x = true) : (f.element? x).isSome = true := by
  have hlist {l : SelectorList} (hl : SelectorList.selects f l x = true) :
      (f.element? x).isSome = true := by
    obtain ⟨c, -, hc⟩ := SelectorList.selects_iff.1 hl
    cases hlast : c.components.getLast? with
    | none =>
      have hnil := List.getLast?_eq_none_iff.1 hlast
      simp [Complex.selects_iff, hnil, Path.selects] at hc
    | some d => exact (Compound.selects_iff.1 (Complex.selects_last hc hlast)).1
  cases s with
  | pseudo p =>
    simp only [Simple.selects] at h
    cases hl : p.selector with
    | none =>
      obtain ⟨_, _, _, _⟩ := p
      cases hl
      exact Option.isSome_iff_exists.2 ⟨_, ((Option.any_eq_true _ _).1 h).choose_spec.1⟩
    | some l =>
      rw [Pseudo.selects_of_selector hl] at h
      split at h
      · exact hlist h
      · exact hlist h
      · exact (Bool.and_eq_true_iff.1 h).1
      · cases h
  | _ => exact Option.isSome_iff_exists.2 ⟨_, ((Option.any_eq_true _ _).1 h).choose_spec.1⟩

/-- An element has one name, whatever the namespaces are. -/
theorem Simple.name_eq_of_selects {f : Forest} {x : Place} {m n : QualifiedName}
    (hm : Simple.selects f (.type m) x = true) (hn : Simple.selects f (.type n) x = true) :
    m.name = n.name := by
  obtain ⟨e, he, hem⟩ := (Option.any_eq_true _ _).1 hm
  obtain ⟨e', he', hen⟩ := (Option.any_eq_true _ _).1 hn
  cases he.symm.trans he'
  simp only [Bool.and_eq_true, beq_iff_eq] at hem hen
  exact hem.2.symm.trans hen.2

/-- An element has at most one id. -/
theorem Simple.id_eq_of_selects {f : Forest} {x : Place} {m n : String}
    (hm : Simple.selects f (.id m) x = true) (hn : Simple.selects f (.id n) x = true) : m = n := by
  obtain ⟨e, he, hem⟩ := (Option.any_eq_true _ _).1 hm
  obtain ⟨e', he', hen⟩ := (Option.any_eq_true _ _).1 hn
  cases he.symm.trans he'
  simp only [beq_iff_eq] at hem hen
  exact Option.some.inj (hem.symm.trans hen)

/-- What a combinator lets be passed over does not lead out of where the combinator leads. -/
theorem Alignment.any_sources_of_reach {f : Forest} {x : Place} {k k' : Option Combinator}
    {gap : Path} {start : Place → Bool} (hk : Combinator.covers k k' = true)
    (hg : gapAllowed k gap = true)
    (hx : Path.reach f gap (fun y ↦ (y.sources k').any start) x = true) :
    (x.sources k).any start = true := by
  refine Path.reach_induction (P := fun y ↦ (y.sources k).any start = true) (fun y hy ↦ ?_)
    (fun d hd y z hz h ↦ ?_) hx
  · obtain ⟨z, hz, h⟩ := List.any_eq_true.1 hy
    exact List.any_eq_true.2 ⟨z, Place.sources_subset hk y hz, h⟩
  · obtain ⟨w, hw, h⟩ := List.any_eq_true.1 h
    refine List.any_eq_true.2 ⟨w, ?_, h⟩
    match k with
    | none => exact Place.ancestors_of_mem_sources hz hw
    | some .followingSibling =>
      rw [gapAllowed_followingSibling, List.all_eq_true] at hg
      exact Place.earlierSiblings_of_mem_sources (hg d hd) hz hw
    | some .child =>
      rw [gapAllowed_child, List.isEmpty_iff] at hg
      exact absurd (hg ▸ hd) List.not_mem_nil
    | some .nextSibling =>
      rw [gapAllowed_nextSibling, List.isEmpty_iff] at hg
      exact absurd (hg ▸ hd) List.not_mem_nil

/-- What is put on a path selects where the path selects, if each compound selector selects where
the one that it is put on does behind the gap. -/
theorem Alignment.Aligned.selects {f : Forest} {x : Place} {covers : Comparison}
    {previous : Option Combinator} {p q : Path} (h : Aligned covers previous p q) (hp : p ≠ [])
    {start start' : Place → Bool}
    (hstart : ∀ gap y, gapAllowed previous gap = true → Path.reach f gap start y = true →
      start' y = true)
    (hc : ∀ c ∈ p, ∀ d ∈ q, ∀ gap, gap ⊆ q → covers c.compound d.compound gap = true → ∀ y,
      Path.reach f gap (fun _ ↦ true) y = true → Compound.selects f d.compound y = true →
      Compound.selects f c.compound y = true)
    (hx : Path.selects f q start x = true) : Path.selects f p start' x = true := by
  induction h generalizing start start' with
  | nil => exact absurd rfl hp
  | @cons previous c p gap d q fit rest ih =>
    rw [fits_iff] at fit
    have hcd {y : Place} (hr : Path.reach f gap start y = true)
        (hd : Compound.selects f d.compound y = true) : Compound.selects f c.compound y = true :=
      hc c (.head _) d (by simp) gap (by simp) fit.2 y (Path.reach_mono (by simp) hr) hd
    cases p with
    | nil =>
      obtain rfl := aligned_nil_iff.1 rest
      rw [Path.selects_concat, Bool.and_eq_true] at hx
      rw [← List.nil_append [c], Path.selects_concat, Bool.and_eq_true]
      exact ⟨hstart gap x fit.1.1 hx.1, hcd hx.1 hx.2⟩
    | cons c' p =>
      have hq : q ≠ [] := rest.ne_nil (List.cons_ne_nil c' p)
      rw [List.append_cons, Path.selects_append _ hq, Path.reach_append] at hx
      rw [← List.singleton_append, Path.selects_append _ (by simp)]
      refine ih (by simp) (fun gap' y hg hy ↦ ?_)
        (fun a ha b hb g hgq ↦ hc a (.tail _ ha) b (by simp [hb]) g fun e he ↦ ?_) hx
      · have hy : (y.sources c.next).any (fun z ↦ Path.reach f gap start z &&
            Compound.selects f d.compound z) = true := any_sources_of_reach fit.1.2 hg hy
        obtain ⟨z, hz, h⟩ := List.any_eq_true.1 hy
        simp only [Bool.and_eq_true] at h
        exact List.any_eq_true.2 ⟨z, hz, by simp [hstart gap z fit.1.1 h.1, hcd h.1 h.2]⟩
      · exact List.mem_append_right _ (.tail _ (hgq he))

namespace Covering

/-- A relation that tells what is selected, on the selectors that are compared. -/
structure Sound (negations : Bool) (r : Covering) : Prop where
  simple : ∀ s t : Simple, s.Everywhere (.compared negations) → t.Everywhere (.compared negations) →
    r.simple s t = true → ∀ f x, t.selects f x = true → s.selects f x = true
  complex : ∀ c d : Complex, c.Everywhere (.compared negations) →
    d.Everywhere (.compared negations) → r.complex c d = true →
    ∀ f x, d.selects f x = true → c.selects f x = true

variable {negations : Bool} {r : Covering} {f : Forest} {x : Place}

theorem Sound.list (h : Sound negations r) {k l : SelectorList}
    (hk : SelectorList.Each (.compared negations) k)
    (hl : SelectorList.Each (.compared negations) l) (hc : r.list k l = true)
    (hx : SelectorList.selects f l x = true) : SelectorList.selects f k x = true := by
  obtain ⟨d, hd, hdx⟩ := SelectorList.selects_iff.1 hx
  obtain ⟨c, hc, hcd⟩ := Covering.list_iff.1 hc d hd
  exact SelectorList.selects_iff.2 ⟨c, hc, h.complex c d (SelectorList.each_iff.1 hk c hc)
    (SelectorList.each_iff.1 hl d hd) hcd f x hdx⟩

/-- What a compared pseudo-class with a list selects. -/
private theorem selects_cases {p : Pseudo} {l : SelectorList}
    (hp : (Simple.pseudo p).Everywhere (.compared negations)) (hl : p.selector = some l) :
    ((p.kind = .matching ∨ p.kind = .weightless) ∧ p.selects f x = SelectorList.selects f l x) ∨
      (p.kind = .negation ∧
        p.selects f x = ((f.element? x).isSome && !SelectorList.selects f l x)) := by
  have hk := hp.simple.1.2 (by simp [hl])
  rw [Pseudo.selects_of_selector hl]
  rcases hk with hk | hk | hk <;> simp [hk]

theorem Sound.sameOrArgument (h : Sound negations r) {s t : Simple}
    (hs : s.Everywhere (.compared negations)) (ht : t.Everywhere (.compared negations))
    (hc : r.sameOrArgument s t = true) (hx : t.selects f x = true) : s.selects f x = true := by
  simp only [Covering.sameOrArgument, Bool.or_eq_true] at hc
  rcases hc with hc | hc
  · rw [Simple.selects_of_same hc]
    exact hx
  cases t with
  | pseudo p =>
    simp only [Covering.coversArgument, Bool.and_eq_true] at hc
    obtain ⟨⟨-, hk⟩, hl⟩ := hc
    obtain ⟨l, hl, hall⟩ := (Option.any_eq_true _ _).1 hl
    have hp : p.selects f x = SelectorList.selects f l x := by
      rcases selects_cases (f := f) (x := x) ht hl with ⟨-, h⟩ | ⟨hk', -⟩
      · exact h
      · simp [hk', PseudoKind.narrowsList] at hk
    obtain ⟨c, hc, hcx⟩ := SelectorList.selects_iff.1 (hp.symm.trans hx)
    obtain ⟨d, hd, hany⟩ := (Option.any_eq_true _ _).1 (List.all_eq_true.1 hall c hc)
    obtain ⟨u, hu, hsu⟩ := List.any_eq_true.1 hany
    have hue := (ht.member hl hc).condition (List.mem_of_getLast? hd) hu
    exact h.simple s u hs hue hsu f x
      ((Compound.selects_iff.1 (Complex.selects_last hcx hd)).2 u hu)
  | _ => cases hc

/-- What is excluded is not selected together with what excludes it. -/
theorem Sound.excludes (h : Sound negations r) {p : Pseudo} {l : SelectorList} {c : Complex}
    {last : Component} {t : Simple} (hp : (Shape.compared negations).simple (.pseudo p))
    (hl : p.selector = some l) (hk : p.kind = .negation)
    (hc : c.Everywhere (.compared negations)) (hlast : c.components.getLast? = some last)
    (ht : t.Everywhere (.compared negations))
    (hex : r.excludes p.name c last.compound t = true) (hcx : c.selects f x = true) :
    ¬ t.selects f x = true := by
  intro htx
  have hneg : negations = true := by
    by_contra hn
    have hwithout : Shape.withoutNegation.simple (.pseudo p) := by simpa [hn] using hp.2
    exact hwithout (by simp [hl]) hk
  have hns {s : Simple} (hs : s.Everywhere (.compared negations)) :
      Shape.withoutNamespace.simple s := by simpa [hneg] using hs.simple.2
  have hlx := (Compound.selects_iff.1 (Complex.selects_last hcx hlast)).2
  have hls {u : Simple} : u ∈ last.compound → u.Everywhere (.compared negations) :=
    hc.condition (List.mem_of_getLast? hlast)
  cases excludes_iff.1 hex with
  | @type m n hn hne =>
    -- both names lie in no namespace, so they differ as names
    have hmns : m.ns = none := hns ht
    have hnns : n.ns = none := hns (hls hn)
    have hname := Simple.name_eq_of_selects htx (hlx _ hn)
    cases m
    cases n
    simp_all
  | id hn hne => exact hne (Simple.id_eq_of_selects htx (hlx _ hn))
  | pseudo hname hm hmc =>
    have hmx : SelectorList.selects f _ x = true :=
      h.list (ht.list hm).2 (SelectorList.each_iff.2 (by simpa using hc)) hmc
        (SelectorList.selects_iff.2 ⟨c, .head _, hcx⟩)
    rcases selects_cases (f := f) (x := x) ht hm with ⟨hq, -⟩ | ⟨-, hqx⟩
    · simp [Pseudo.kind_eq_of_name hname, hk] at hq
    · simp [Simple.selects, hqx, hmx] at htx

/-- What a pseudo-class of the same name that stands in a compound selector lets through, a list
that covers its list selects. -/
theorem Sound.arguments (h : Sound negations r) {p : Pseudo} {l : SelectorList} {d : Compound}
    (hlist : SelectorList.Each (.compared negations) l)
    (hk : p.kind = .matching ∨ p.kind = .weightless) (hd : Compound.Each (.compared negations) d)
    (hc : (arguments d p.name true).any (r.list l) = true)
    (hx : Compound.selects f d x = true) : SelectorList.selects f l x = true := by
  obtain ⟨m, hm, hlm⟩ := List.any_eq_true.1 hc
  obtain ⟨q, hq, ⟨-, hname⟩, hm⟩ := mem_arguments_iff.1 hm
  have hqe := Compound.each_iff.1 hd _ hq
  have hkind : q.kind = p.kind := Pseudo.kind_eq_of_name hname
  have hqx : q.selects f x = SelectorList.selects f m x := by
    rcases selects_cases (f := f) (x := x) hqe hm with ⟨-, hqx⟩ | ⟨hq, -⟩
    · exact hqx
    · rw [hkind] at hq
      rcases hk with hk | hk <;> simp [hk] at hq
  exact h.list hlist (hqe.list hm).2 hlm
    (hqx.symm.trans ((Compound.selects_iff.1 hx).2 _ hq))

/-- A member that covers a compound selector together with what it stands behind selects what that
selects. -/
theorem Sound.member (h : Sound negations r) {l : SelectorList} {d : Compound} {parents : Path}
    (hlist : SelectorList.Each (.compared negations) l)
    (hd : Compound.Each (.compared negations) d)
    (hparents : Path.Each (.compared negations) parents)
    (hone : Path.hasMultipleCombinators parents = false)
    (hc : (l.any fun c ↦ c.leading.isEmpty && r.path c.components (parents ++ [⟨d, []⟩])) = true)
    (hreach : Path.reach f parents (fun _ ↦ true) x = true)
    (hx : Compound.selects f d x = true) : SelectorList.selects f l x = true := by
  obtain ⟨c, hcl, hc⟩ := List.any_eq_true.1 hc
  simp only [Bool.and_eq_true] at hc
  have hpath : Path.Each (.compared negations) (parents ++ [⟨d, []⟩]) := by
    apply Path.each_iff.2
    intro e he
    rcases List.mem_append.1 he with he | he
    · exact Path.each_iff.1 hparents e he
    · obtain rfl := List.mem_singleton.1 he
      exact ⟨trivial, hd⟩
  have heach : Complex.Everywhere (.compared negations) ⟨[], parents ++ [⟨d, []⟩], false⟩ :=
    ⟨trivial, trivial, hpath⟩
  have hcovers : r.complex c ⟨[], parents ++ [⟨d, []⟩], false⟩ = true := by
    simp [Covering.complex, hc.1, hc.2]
  have hbehind : Complex.selects f ⟨[], parents ++ [⟨d, []⟩], false⟩ x = true := by
    rw [Complex.selects_concat hone, hreach, hx]
    rfl
  exact SelectorList.selects_iff.2 ⟨c, hcl, h.complex c _ (SelectorList.each_iff.1 hlist c hcl)
    heach hcovers f x hbehind⟩

/-- No member selects what a compound selector does that excludes each of them. -/
theorem Sound.excludesAll (h : Sound negations r) {p : Pseudo} {l : SelectorList} {d : Compound}
    (hp : (Simple.pseudo p).Everywhere (.compared negations)) (hl : p.selector = some l)
    (hk : p.kind = .negation) (hd : Compound.Each (.compared negations) d)
    (hc : (l.all fun c ↦ !c.isBogus && c.components.getLast?.any fun last ↦
      d.any (r.excludes p.name c last.compound)) = true)
    (hx : Compound.selects f d x = true) : SelectorList.selects f l x = false := by
  apply Bool.eq_false_iff.2
  intro hlx
  obtain ⟨c, hcl, hcx⟩ := SelectorList.selects_iff.1 hlx
  have hc := List.all_eq_true.1 hc c hcl
  simp only [Bool.and_eq_true] at hc
  obtain ⟨last, hlast, hany⟩ := (Option.any_eq_true _ _).1 hc.2
  obtain ⟨t, ht, hex⟩ := List.any_eq_true.1 hany
  exact h.excludes hp.simple hl hk (hp.member hl hcl) hlast
    (Compound.each_iff.1 hd t ht) hex hcx ((Compound.selects_iff.1 hx).2 t ht)

theorem Sound.coversCompound (h : Sound negations r) {p : Pseudo} {l : SelectorList} {d : Compound}
    {parents : Path} (hp : (Simple.pseudo p).Everywhere (.compared negations))
    (hl : p.selector = some l) (hd : Compound.Each (.compared negations) d)
    (hparents : Path.Each (.compared negations) parents)
    (hone : Path.hasMultipleCombinators parents = false)
    (hc : r.coversCompound p l d parents = true)
    (hreach : Path.reach f parents (fun _ ↦ true) x = true)
    (hx : Compound.selects f d x = true) : p.selects f x = true := by
  have hlist := (hp.list hl).2
  rcases selects_cases (f := f) (x := x) hp hl with ⟨hk, hpx⟩ | ⟨hk, hpx⟩
  · rw [hpx]
    have hc : (Covering.arguments d p.name true).any (r.list l) = true ∨ (l.any fun c ↦
        c.leading.isEmpty && r.path c.components (parents ++ [⟨d, []⟩])) = true := by
      rcases hk with hk | hk <;>
        simpa only [Covering.coversCompound, hk, Bool.or_eq_true] using hc
    rcases hc with hc | hc
    · exact h.arguments hlist hk hd hc hx
    · exact h.member hlist hd hparents hone hc hreach hx
  · simp only [Covering.coversCompound, hk] at hc
    rw [hpx, (Compound.selects_iff.1 hx).1, h.excludesAll hp hl hk hd hc hx]
    rfl

theorem Sound.coversSimple (h : Sound negations r) {s t : Simple}
    (hs : s.Everywhere (.compared negations)) (ht : t.Everywhere (.compared negations))
    (hc : r.coversSimple s t = true) (hx : t.selects f x = true) : s.selects f x = true := by
  obtain ⟨e, he⟩ := Option.isSome_iff_exists.1 (Simple.element_of_selects hx)
  cases s with
  | universal ns =>
    simp only [Covering.coversSimple, Bool.or_eq_true, beq_iff_eq] at hc
    simp only [Simple.selects, he, Option.any_some]
    rcases hc with rfl | hc
    · simp [Element.inNamespace]
    · cases t with
      | type n =>
        simp only [Simple.selects, he, Option.any_some, Bool.and_eq_true] at hx
        exact (beq_iff_eq.1 hc) ▸ hx.1
      | universal m =>
        simp only [Simple.selects, he, Option.any_some] at hx
        exact (beq_iff_eq.1 hc) ▸ hx
      | _ =>
        simp only [Bool.or_eq_true, Option.isNone_iff_eq_none] at hc
        rcases hc with rfl | hc
        · rfl
        · simpa [Simple.selects, he] using h.sameOrArgument hs ht hc hx
  | type n =>
    simp only [Covering.coversSimple, Bool.or_eq_true] at hc
    rcases hc with hc | hc
    · exact h.sameOrArgument hs ht hc hx
    · cases t with
      | type m =>
        simp only [Bool.and_eq_true, beq_iff_eq] at hc
        simp only [Simple.selects, he, Option.any_some, Bool.and_eq_true] at hx ⊢
        exact ⟨by simp [hc.2, Element.inNamespace], hc.1 ▸ hx.2⟩
      | _ => cases hc
  | pseudo p =>
    simp only [Covering.coversSimple, Bool.or_eq_true] at hc
    rcases hc with hc | hc
    · exact h.sameOrArgument hs ht hc hx
    · obtain ⟨l, hl, hc⟩ := (Option.any_eq_true _ _).1 hc
      have hclass : p.isClass = true := hs.simple.1.1
      simp only [hclass, if_true, Bool.and_eq_true] at hc
      have hx : Compound.selects f [t] x = true :=
        Compound.selects_iff.2 ⟨by simp [he], by simpa using hx⟩
      have hd : Compound.Each (.compared negations) [t] := ⟨ht, trivial⟩
      have hnone : Path.Each (.compared negations) [] := trivial
      exact h.coversCompound hs hl hd hnone rfl hc.2 rfl hx
  | _ => exact h.sameOrArgument hs ht hc hx

theorem Sound.coversConditions (h : Sound negations r) {c d : Compound} {parents : Path}
    (hc : Compound.Each (.compared negations) c) (hd : Compound.Each (.compared negations) d)
    (hparents : Path.Each (.compared negations) parents)
    (hone : Path.hasMultipleCombinators parents = false)
    (hcd : r.coversConditions c d parents = true)
    (hreach : Path.reach f parents (fun _ ↦ true) x = true)
    (hx : Compound.selects f d x = true) : Compound.selects f c x = true := by
  -- an empty compound selector selects what `*|*` does
  obtain ⟨hde, hdx⟩ : Compound.Each (.compared negations) (subject d) ∧
      Compound.selects f (subject d) x = true := by
    cases d with
    | nil =>
      refine ⟨⟨⟨trivial, by cases negations <;> trivial⟩, trivial⟩, ?_⟩
      obtain ⟨e, he⟩ := Option.isSome_iff_exists.1 hx
      simp [subject, Compound.selects, Simple.selects, he, Element.inNamespace]
    | cons t d => exact ⟨hd, hx⟩
  refine Compound.selects_iff.2 ⟨(Compound.selects_iff.1 hx).1, fun s hs ↦ ?_⟩
  have hse := Compound.each_iff.1 hc s hs
  cases coversConditions_iff.1 hcd s hs with
  | list hl _ hcovers => exact h.coversCompound hse hl hde hparents hone hcovers hreach hdx
  | some _ ht hcovers =>
    exact h.coversSimple hse (Compound.each_iff.1 hde _ ht) hcovers
      ((Compound.selects_iff.1 hdx).2 _ ht)

/-- A compound selector that names two types of one namespace or two ids selects nothing. -/
theorem isUnsatisfiable_of_selects {d : Compound} (hx : Compound.selects f d x = true) :
    isUnsatisfiable d = false := by
  have hdx := (Compound.selects_iff.1 hx).2
  apply Bool.eq_false_iff.2
  intro h
  rcases exists_of_isUnsatisfiable h with ⟨m, n, hm, hn, hne⟩ | ⟨m, n, hm, hn, hne⟩
  · exact hne (Simple.name_eq_of_selects (hdx _ hm) (hdx _ hn))
  · exact hne (Simple.id_eq_of_selects (hdx _ hm) (hdx _ hn))

theorem Sound.compound (h : Sound negations r) {c d : Compound} {parents : Path}
    (hc : Compound.Each (.compared negations) c) (hd : Compound.Each (.compared negations) d)
    (hparents : Path.Each (.compared negations) parents)
    (hone : Path.hasMultipleCombinators parents = false)
    (hcd : r.compound c d parents = true)
    (hreach : Path.reach f parents (fun _ ↦ true) x = true)
    (hx : Compound.selects f d x = true) : Compound.selects f c x = true := by
  have hnone {c : Compound} (hc : Compound.Each (.compared negations) c) :
      atPseudoElement c = none := by
    refine atPseudoElement_eq_none_iff.2 fun s hs ↦ ?_
    have hse := (Compound.each_iff.1 hc s hs).simple
    cases s with
    | pseudo p => simp [Simple.isPseudoElement, hse.1.1]
    | _ => rfl
  rcases compound_iff.1 hcd with hunsatisfiable | hcompared
  · cases (isUnsatisfiable_of_selects hx).symm.trans hunsatisfiable
  cases hcompared with
  | conditions _ _ hcd => exact h.coversConditions hc hd hparents hone hcd hreach hx
  | element hsome => cases (hnone hc).symm.trans hsome

theorem Sound.next (h : Sound negations r) : Sound negations r.next where
  simple _ _ hs ht hst _ _ hx := h.coversSimple hs ht hst hx
  complex c d hc hd hcd f x hx := by
    change (c.leading.isEmpty && d.leading.isEmpty &&
      r.coversPath c.components d.components) = true at hcd
    simp only [Bool.and_eq_true, List.isEmpty_iff, coversPath_iff] at hcd
    obtain ⟨⟨hcl, hdl⟩, ⟨-, hsame⟩ | ⟨⟨hcproper, hdproper⟩, haligned⟩⟩ := hcd
    · rw [Complex.selects_of_same (Complex.same_iff_parts.2 ⟨hcl.trans hdl.symm, hsame⟩)]
      exact hx
    · refine Complex.selects_iff.2 ⟨Complex.isBogus_eq_false_iff.2 ⟨hcl, hcproper⟩,
        haligned.selects hcproper.ne_nil (by simp) ?_ (Complex.selects_iff.1 hx).2⟩
      intro a ha b hb gap hg hab y hreach hy
      refine h.compound (hc.component ha).2 (hd.component hb).2
        (Path.each_iff.2 fun e he ↦ hd.component (hg he)) ?_ hab hreach hy
      exact Path.hasMultipleCombinators_eq_false_iff.2 fun e he ↦ hdproper.single e (hg he)

/-- Every stage tells what is selected. -/
theorem stage_sound (negations : Bool) (n : Nat) : Sound negations (stage n) := by
  induction n with
  | zero =>
    refine ⟨fun _ _ _ _ h ↦ ?_, fun _ _ _ _ h ↦ ?_⟩
    · cases h
    · simp [Covering.complex, stage] at h
  | succ n ih => exact ih.next

end Covering

/-- A complex selector selects every element, in every document, that one covered by it selects, as
long as the two do not have both negations and types with a namespace. -/
theorem Complex.selects_of_covers {c d : Complex} (hc : c.Everywhere .logical)
    (hd : d.Everywhere .logical)
    (h : (c.Everywhere .withoutNegation ∧ d.Everywhere .withoutNegation) ∨
      (c.Everywhere .withoutNamespace ∧ d.Everywhere .withoutNamespace))
    (hcd : c.covers d = true) (f : Forest) (x : Place) (hx : d.selects f x = true) :
    c.selects f x = true := by
  obtain ⟨negations, hc, hd⟩ : ∃ negations, c.Everywhere (.compared negations) ∧
      d.Everywhere (.compared negations) := by
    rcases h with ⟨h, h'⟩ | ⟨h, h'⟩
    · have hentail : Shape.Entail .logical .withoutNegation (.compared false) :=
        { simple := fun _ ↦ And.intro }
      exact ⟨false, hc.entail hentail h, hd.entail hentail h'⟩
    · have hentail : Shape.Entail .logical .withoutNamespace (.compared true) :=
        { simple := fun _ ↦ And.intro }
      exact ⟨true, hc.entail hentail h, hd.entail hentail h'⟩
  exact (Covering.stage_sound negations _).next.complex c d hc hd hcd f x hx

/-- The list item of a list is one that `ul > :not(.a, .b)` selects, so `ul :not(.a)` does. -/
theorem Complex.selects_of_covers_not :
    Complex.selects [.node { name := "ul" } [.node { name := "li", classes := ["c"] } []]]
      ⟨[], [⟨[.type ⟨none, "ul"⟩], []⟩,
        ⟨[.pseudo ⟨"not", false, none, some [.ofCompound [.className "a"]]⟩], []⟩], false⟩
      [0, 0] = true :=
  Complex.selects_of_covers
    (d := ⟨[], [⟨[.type ⟨none, "ul"⟩], [.child]⟩,
      ⟨[.pseudo ⟨"not", false, none, some [.ofCompound [.className "a"],
        .ofCompound [.className "b"]]⟩], []⟩], false⟩)
    (by
      simp [Complex.Everywhere, Path.Each, Compound.Each, Simple.Everywhere, Pseudo.Everywhere,
        SelectorList.Each, Complex.ofCompound, Shape.logical, Pseudo.IsLogical]
      decide)
    (by
      simp [Complex.Everywhere, Path.Each, Compound.Each, Simple.Everywhere, Pseudo.Everywhere,
        SelectorList.Each, Complex.ofCompound, Shape.logical, Pseudo.IsLogical]
      decide)
    (.inr (by
      simp [Complex.Everywhere, Path.Each, Compound.Each, Simple.Everywhere, Pseudo.Everywhere,
        SelectorList.Each, Complex.ofCompound, Shape.withoutNamespace]))
    (by decide +kernel) _ _ (by decide)

end SelectorAlgebra

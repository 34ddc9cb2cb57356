import SelectorAlgebra.Proofs.Matching.Realization
import SelectorAlgebra.Proofs.Matching.Soundness

/-!
# Exclusion by negations

A negation covers a compound selector if each member of its list is excluded, which two types or two
ids are taken to do that are written differently. Two ids do, but two types only where no element
is of both. Main statement: among types, ids and classes a negation that covers a compound selector
is right to do so exactly if every member of its list that is excluded by its type contradicts the
compound selector or itself.
-/

namespace SelectorAlgebra

variable {f : Forest} {x : Place}

/-- Each component on the way to a place where a path matches is matched at some place. -/
theorem Path.exists_selects_of_mem {p : Path} {start : Place → Bool} {c : Component}
    (h : Path.selects f p start x = true) (hc : c ∈ p) :
    ∃ y, Compound.selects f c.compound y = true := by
  have hreach {q : Path} {start : Place → Bool} {x : Place} (h : Path.reach f q start x = true)
      (hc : c ∈ q) : ∃ y, Compound.selects f c.compound y = true := by
    obtain ⟨front, back, rfl⟩ := List.append_of_mem hc
    by_contra hnone
    -- a component that matches nowhere leads to no place, and neither does what follows it
    rw [Path.reach_append] at h
    change Path.reach f back (Component.lead f (Path.reach f front start) c) x = true at h
    refine Path.reach_induction (P := fun _ ↦ False) (fun y hy ↦ ?_) (fun _ _ _ _ _ ↦ id) h
    obtain ⟨z, -, hz⟩ := List.any_eq_true.1 hy
    exact hnone ⟨z, (Bool.and_eq_true_iff.1 hz).2⟩
  rcases List.eq_nil_or_concat' p with rfl | ⟨q, d, rfl⟩
  · cases hc
  rw [Path.selects_concat, Bool.and_eq_true] at h
  rcases List.mem_append.1 hc with hc | hc
  · exact hreach h.1 hc
  · obtain rfl := List.mem_singleton.1 hc
    exact ⟨x, h.2⟩

/-- No element is matched by a compound selector and by a complex selector, both of types, ids and
classes, exactly if conditions on one element contradict each other: on the subject, or on an
element that the complex selector names on the way to it. -/
theorem Complex.disjoint_iff_clashes {c : Complex} {d : Compound} {last : Component}
    (hbogus : c.isBogus = false) (hlast : c.components.getLast? = some last)
    (hc : c.Everywhere .elementary) (hd : Compound.Each .elementary d) :
    (∀ f x, Compound.selects f d x = true → c.selects f x = false) ↔
      Compound.Clashes (d ++ last.compound) ∨ ∃ b ∈ c.components, Compound.Clashes b.compound := by
  obtain ⟨front, hfront⟩ := List.getLast?_eq_some_iff.1 hlast
  constructor
  · intro hdisjoint
    by_contra hclash
    obtain ⟨hboth, hway⟩ := not_or.1 hclash
    -- an element of both, at the end of the path in a document made for it
    have helementary : Compound.Each .elementary (d ++ last.compound) := by
      simp only [Compound.each_iff, List.forall_mem_append]
      exact ⟨Compound.each_iff.1 hd, Compound.each_iff.1 (hc.component (by simp [hfront])).2⟩
    obtain ⟨e, he⟩ := Compound.exists_fits helementary hboth
    have hfits (b : Component) (hb : b ∈ front) : ∃ e, Compound.Fits b.compound e := by
      have hb : b ∈ c.components := by simp [hfront, hb]
      exact Compound.exists_fits (hc.component hb).2 fun hclash ↦ hway ⟨b, hb, hclash⟩
    obtain ⟨f, x, hx, hselects⟩ := Path.exists_selects hfits he.of_append.2
    have hcx : c.selects f x = true := Complex.selects_iff.2 ⟨hbogus, hfront ▸ hselects⟩
    exact Bool.false_ne_true ((hdisjoint f x (he.of_append.1 f x hx)).symm.trans hcx)
  · intro hclash f x hdx
    by_contra hcx
    rw [Bool.not_eq_false] at hcx
    rcases hclash with hclash | ⟨b, hb, hclash⟩
    · have := Compound.selects_append.2 ⟨hdx, Complex.selects_last hcx hlast⟩
      exact Bool.false_ne_true (hclash.not_selects.symm.trans this)
    · obtain ⟨y, hy⟩ := Path.exists_selects_of_mem (Complex.selects_iff.1 hcx).2 hb
      exact Bool.false_ne_true (hclash.not_selects.symm.trans hy)

namespace Compound

variable {p : Pseudo} {l : SelectorList} {d : Compound} {parents : Path}

theorem clashes_of_isUnsatisfiable (h : Covering.isUnsatisfiable d = true) : d.Clashes := by
  refine (Covering.exists_of_isUnsatisfiable h).imp_left ?_
  exact fun ⟨m, n, hm, hn, hne⟩ ↦ ⟨m, n, hm, hn, .inl hne⟩

/-- What the rule of negations goes by: no member of the list is bogus, and the last compound
selector of each names another type or another id. -/
theorem excludes_of_coversBehind (hclass : p.isClass = true) (hkind : p.kind = .negation)
    (hl : p.selector = some l) (hd : Compound.Each .elementary d)
    (h : Compound.coversBehind [.pseudo p] d parents = true) {c : Complex} (hc : c ∈ l) :
    d.Clashes ∨ c.isBogus = false ∧ ∃ last, c.components.getLast? = some last ∧
      ((∃ m n, .type m ∈ d ∧ .type n ∈ last.compound ∧ m ≠ n) ∨
        ∃ m n, .id m ∈ d ∧ .id n ∈ last.compound ∧ m ≠ n) := by
  rw [Compound.coversBehind_eq, Covering.compound_iff] at h
  refine h.imp clashes_of_isUnsatisfiable fun hcompared ↦ ?_
  have hnone : Covering.atPseudoElement [.pseudo p] = none :=
    Covering.atPseudoElement_eq_none_iff.2 (by simp [Simple.isPseudoElement, hclass])
  have hcovers : Covering.whole.coversCompound p l (Covering.subject d) parents = true := by
    cases hcompared with
    | conditions _ _ hcd =>
      cases Covering.coversConditions_iff.1 hcd (.pseudo p) (.head _) with
      | list hl' _ hcovers =>
        cases hl.symm.trans hl'
        exact hcovers
      | some hs => cases hclass.symm.trans (hs p l rfl hl)
    | element hsome => cases hnone.symm.trans hsome
  simp only [Covering.coversCompound, hkind, List.all_eq_true, Bool.and_eq_true,
    Bool.not_eq_true'] at hcovers
  obtain ⟨hbogus, hexcluded⟩ := hcovers c hc
  obtain ⟨last, hlast, hany⟩ := (Option.any_eq_true _ _).1 hexcluded
  obtain ⟨t, ht, hexcludes⟩ := List.any_eq_true.1 hany
  refine ⟨hbogus, last, hlast, ?_⟩
  -- `*|*`, which stands for an empty compound selector, excludes nothing
  have ht : t ∈ d := by
    refine (Covering.mem_subject_iff ?_).1 ht
    rintro rfl
    cases hexcludes
  have helementary := (Compound.each_iff.1 hd t ht).simple
  cases Covering.excludes_iff.1 hexcludes with
  | type hn hne => exact .inl ⟨_, _, ht, hn, hne⟩
  | id hn hne => exact .inr ⟨_, _, ht, hn, hne⟩
  | pseudo => cases helementary

/-- Where a negation covers a compound selector, both of types, ids and classes, its list matches no
element that the compound selector matches exactly if the types are right: for each member of which
the last compound selector names a type that is written differently, conditions on one element
contradict each other. -/
theorem disjoint_iff_of_coversBehind_negation (hclass : p.isClass = true)
    (hkind : p.kind = .negation) (hl : p.selector = some l)
    (hlist : SelectorList.Each .elementary l) (hd : Compound.Each .elementary d)
    (h : Compound.coversBehind [.pseudo p] d parents = true) :
    (∀ f x, Compound.selects f d x = true → SelectorList.selects f l x = false) ↔
      ∀ c ∈ l, ∀ last, c.components.getLast? = some last →
        ∀ m n, .type m ∈ d → .type n ∈ last.compound → m ≠ n →
          Clashes (d ++ last.compound) ∨ ∃ b ∈ c.components, Clashes b.compound := by
  have hrule {c : Complex} := excludes_of_coversBehind hclass hkind hl hd h (c := c)
  have heach := SelectorList.each_iff.1 hlist
  constructor
  · intro hdisjoint c hc last hlast m n _ _ _
    rcases hrule hc with hclash | ⟨hbogus, -⟩
    · exact .inl (hclash.mono (List.subset_append_left _ _))
    refine (Complex.disjoint_iff_clashes hbogus hlast (heach c hc) hd).1 fun f x hdx ↦ ?_
    apply Bool.eq_false_iff.2
    intro hcx
    have hlx := SelectorList.selects_iff.2 ⟨c, hc, hcx⟩
    exact Bool.false_ne_true ((hdisjoint f x hdx).symm.trans hlx)
  · intro htypes f x hdx
    apply Bool.eq_false_iff.2
    intro hlx
    obtain ⟨c, hc, hcx⟩ := SelectorList.selects_iff.1 hlx
    rcases hrule hc with hclash | ⟨hbogus, last, hlast, hpair⟩
    · exact Bool.false_ne_true (hclash.not_selects.symm.trans hdx)
    have hclash : Clashes (d ++ last.compound) ∨ ∃ b ∈ c.components, Clashes b.compound := by
      rcases hpair with ⟨m, n, hm, hn, hne⟩ | ⟨m, n, hm, hn, hne⟩
      · exact htypes c hc last hlast m n hm hn hne
      · exact .inl (.inr ⟨m, n, List.mem_append_left _ hm, List.mem_append_right _ hn, hne⟩)
    have hdisjoint := (Complex.disjoint_iff_clashes hbogus hlast (heach c hc) hd).2 hclash
    exact Bool.false_ne_true ((hdisjoint f x hdx).symm.trans hcx)

/-- The list of `:not(x|a, u > #i)` does not match the element that `y|a#j` matches. -/
theorem disjoint_of_coversBehind_negation_namespaces :
    SelectorList.selects [.node { name := "a", ns := "y", id := some "j" } []]
      [.ofCompound [.type ⟨some "x", "a"⟩],
        ⟨[], [⟨[.type ⟨none, "u"⟩], [.child]⟩, ⟨[.id "i"], []⟩], false⟩] [0] = false :=
  (@disjoint_iff_of_coversBehind_negation
    ⟨"not", false, none, some [.ofCompound [.type ⟨some "x", "a"⟩],
      ⟨[], [⟨[.type ⟨none, "u"⟩], [.child]⟩, ⟨[.id "i"], []⟩], false⟩]⟩
    _ [.type ⟨some "y", "a"⟩, .id "j"] []
    (by decide) (by decide) rfl
    (by simp [SelectorList.Each, Complex.ofCompound, Complex.Everywhere, Path.Each, Compound.Each,
      Simple.Everywhere, Shape.elementary])
    (by simp [Compound.Each, Simple.Everywhere, Shape.elementary]) (by decide +kernel)).2
    (by
      rintro c hc last hlast m n hm hn -
      obtain rfl : m = ⟨some "y", "a"⟩ := by simpa using hm
      -- only the first member names a type in its last compound selector
      rcases List.mem_pair.1 hc with rfl | rfl
      · cases hlast
        obtain rfl : n = ⟨some "x", "a"⟩ := by simpa using hn
        exact .inl (.inl ⟨_, _, List.mem_append_left _ hm, List.mem_append_right _ hn,
          .inr ⟨"y", "x", by simp⟩⟩)
      · cases hlast
        simp at hn) _ [0] (by decide)

/-- `:not(*|a)` covers `a`, which matches the elements that `*|a` matches. -/
theorem not_disjoint_of_coversBehind_negation :
    ¬ ∀ (l : SelectorList) (d : Compound), SelectorList.Each .elementary l →
      Compound.Each .elementary d →
      Compound.coversBehind [.pseudo ⟨"not", false, none, some l⟩] d [] = true →
      ∀ f x, Compound.selects f d x = true → SelectorList.selects f l x = false := by
  intro h
  have hfalse := h [.ofCompound [.type ⟨some "*", "a"⟩]] [.type ⟨none, "a"⟩]
    (by simp [SelectorList.Each, Complex.ofCompound, Complex.Everywhere, Path.Each, Compound.Each,
      Simple.Everywhere, Shape.elementary])
    (by simp [Compound.Each, Simple.Everywhere, Shape.elementary]) (by decide +kernel)
    [.node { name := "a" } []] [0] (by decide)
  exact absurd hfalse (by decide)

end Compound

end SelectorAlgebra

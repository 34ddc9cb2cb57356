import SelectorAlgebra.Proofs.Selector.Everywhere
import SelectorAlgebra.Proofs.Selector.Induction
import SelectorAlgebra.Proofs.Specificity.Hull

/-!
# Attainable weights

Which members of the lists inside a selector match an element is not known from the selector, and
with each choice of members it has some weight. Main statement: the specificity of a selector in
which no list is empty is the exact range of the weights that it attains.
-/

namespace SelectorAlgebra

mutual

/-- The weights that a simple selector has for the choices of members in the lists inside it. -/
inductive Simple.Attains : Simple → ℕ → Prop
  | universal (ns : Option String) : Simple.Attains (.universal ns) 0
  | parent (suffix : Option String) : Simple.Attains (.parent suffix) 0
  | type (n : QualifiedName) : Simple.Attains (.type n) 1
  | className (n : String) : Simple.Attains (.className n) 10
  | attribute (a : AttributeSelector) : Simple.Attains (.attribute a) 10
  | placeholder (n : String) : Simple.Attains (.placeholder n) 10
  | id (n : String) : Simple.Attains (.id n) 100
  /-- A pseudo-element weighs the same whatever list it has. -/
  | element {p : Pseudo} (hclass : p.isClass = false) : Simple.Attains (.pseudo p) 1
  | bare {p : Pseudo} (hclass : p.isClass = true) (hl : p.selector = none) :
    Simple.Attains (.pseudo p) 10
  | weightless {p : Pseudo} {l : SelectorList} (hclass : p.isClass = true)
      (hl : p.selector = some l) (hkind : p.kind = .weightless) : Simple.Attains (.pseudo p) 0
  /-- None of the members matches, so one weight of each counts and the heaviest decides. -/
  | negation {p : Pseudo} {l : SelectorList} {ns : List ℕ} (hclass : p.isClass = true)
      (hl : p.selector = some l) (hkind : p.kind = .negation)
      (hns : List.Forall₂ Complex.Attains l ns) : Simple.Attains (.pseudo p) (ns.foldr Nat.max 0)
  | counting {p : Pseudo} {l : SelectorList} {c : Complex} {n : ℕ} (hclass : p.isClass = true)
      (hl : p.selector = some l) (hkind : p.kind = .counting) (hc : c ∈ l)
      (hn : Complex.Attains c n) : Simple.Attains (.pseudo p) (10 + n)
  | member {p : Pseudo} {l : SelectorList} {c : Complex} {n : ℕ} (hclass : p.isClass = true)
      (hl : p.selector = some l) (hkind : p.kind ∉ [.weightless, .negation, .counting])
      (hc : c ∈ l) (hn : Complex.Attains c n) : Simple.Attains (.pseudo p) n

/-- The weights of a compound selector. -/
inductive Compound.Attains : Compound → ℕ → Prop
  | sum {c : Compound} {ns : List ℕ} (hns : List.Forall₂ Simple.Attains c ns) :
    Compound.Attains c ns.sum

/-- The weights of a complex selector. -/
inductive Complex.Attains : Complex → ℕ → Prop
  | sum {c : Complex} {ns : List ℕ}
      (hns : List.Forall₂ (fun d n ↦ Compound.Attains d.compound n) c.components ns) :
    Complex.Attains c ns.sum

end

/-- The weights of a selector list. -/
def SelectorList.Attains (l : SelectorList) (n : ℕ) : Prop := ∃ c ∈ l, c.Attains n

theorem Compound.attains_iff {c : Compound} {n : ℕ} :
    Compound.Attains c n ↔ ∃ ns, List.Forall₂ Simple.Attains c ns ∧ n = ns.sum := by
  constructor
  · rintro ⟨hns⟩
    exact ⟨_, hns, rfl⟩
  · rintro ⟨ns, hns, rfl⟩
    exact .sum hns

theorem Complex.attains_iff {c : Complex} {n : ℕ} : c.Attains n ↔
    ∃ ns, List.Forall₂ (fun d n ↦ Compound.Attains d.compound n) c.components ns ∧ n = ns.sum := by
  constructor
  · rintro ⟨hns⟩
    exact ⟨_, hns, rfl⟩
  · rintro ⟨ns, hns, rfl⟩
    exact .sum hns

/-! ### Weights of pseudo selectors -/

section Pseudo

variable {p : Pseudo} {l : SelectorList} {n : ℕ}

theorem Simple.attains_element_iff (hclass : p.isClass = false) :
    (Simple.pseudo p).Attains n ↔ n = 1 := by
  constructor
  · intro h
    cases h with
    | element => rfl
    | _ => simp_all
  · rintro rfl
    exact .element hclass

variable (hclass : p.isClass = true)
include hclass

theorem Simple.attains_bare_iff (hl : p.selector = none) :
    (Simple.pseudo p).Attains n ↔ n = 10 := by
  constructor
  · intro h
    cases h with
    | bare => rfl
    | _ => simp_all
  · rintro rfl
    exact .bare hclass hl

variable (hl : p.selector = some l)
include hl

theorem Simple.attains_weightless_iff (hkind : p.kind = .weightless) :
    (Simple.pseudo p).Attains n ↔ n = 0 := by
  constructor
  · intro h
    cases h with
    | weightless => rfl
    | _ => simp_all
  · rintro rfl
    exact .weightless hclass hl hkind

theorem Simple.attains_negation_iff (hkind : p.kind = .negation) : (Simple.pseudo p).Attains n ↔
    ∃ ns, List.Forall₂ Complex.Attains l ns ∧ n = ns.foldr Nat.max 0 := by
  constructor
  · intro h
    cases h with
    | negation _ hl' _ hns =>
      obtain rfl := Option.some.inj (hl'.symm.trans hl)
      exact ⟨_, hns, rfl⟩
    | _ => simp_all
  · rintro ⟨ns, hns, rfl⟩
    exact .negation hclass hl hkind hns

theorem Simple.attains_counting_iff (hkind : p.kind = .counting) :
    (Simple.pseudo p).Attains n ↔ ∃ m, (∃ c ∈ l, c.Attains m) ∧ n = 10 + m := by
  constructor
  · intro h
    cases h with
    | counting _ hl' _ hc hm =>
      obtain rfl := Option.some.inj (hl'.symm.trans hl)
      exact ⟨_, ⟨_, hc, hm⟩, rfl⟩
    | _ => simp_all
  · rintro ⟨m, ⟨c, hc, hm⟩, rfl⟩
    exact .counting hclass hl hkind hc hm

theorem Simple.attains_member_iff (hkind : p.kind ∉ [.weightless, .negation, .counting]) :
    (Simple.pseudo p).Attains n ↔ ∃ c ∈ l, c.Attains n := by
  constructor
  · intro h
    cases h with
    | member _ hl' _ hc hn =>
      obtain rfl := Option.some.inj (hl'.symm.trans hl)
      exact ⟨_, hc, hn⟩
    | _ => simp_all
  · rintro ⟨c, hc, hn⟩
    exact .member hclass hl hkind hc hn

end Pseudo

/-- The range of a pseudo selector is exact if those of the members of its list are, and the list
is not empty. -/
theorem Simple.isHull_pseudo {p : Pseudo} (h : ∀ l, p.selector = some l →
    l ≠ [] ∧ ∀ c ∈ l, c.specificity.IsHull c.Attains) :
    p.specificity.IsHull (Simple.pseudo p).Attains := by
  cases hclass : p.isClass with
  | false =>
    rw [Pseudo.specificity_of_element hclass]
    exact (Specificity.isHull_exact 1).congr fun n ↦ (attains_element_iff hclass).symm
  | true =>
    cases hl : p.selector with
    | none =>
      rw [Pseudo.specificity_of_bare hclass hl]
      exact (Specificity.isHull_exact 10).congr fun n ↦ (attains_bare_iff hclass hl).symm
    | some l =>
      obtain ⟨hne, hmembers⟩ := h l hl
      have hany := Specificity.isHull_hull hne hmembers
      rw [Pseudo.specificity_of_list hclass hl]
      cases hkind : p.kind with
      | weightless =>
        refine (Specificity.isHull_exact 0).congr fun n ↦ ?_
        exact (attains_weightless_iff hclass hl hkind).symm
      | negation =>
        refine (Specificity.isHull_heaviest hmembers).congr fun n ↦ ?_
        exact (attains_negation_iff hclass hl hkind).symm
      | counting =>
        exact (hany.exact_add 10).congr fun n ↦ (attains_counting_iff hclass hl hkind).symm
      | matching | relational | current | slotted | plain =>
        exact hany.congr fun n ↦ (attains_member_iff hclass hl (by simp [hkind])).symm

/-! ### All selectors -/

/-- The shape of selectors in which no list is empty. -/
def Shape.inhabited : Shape where
  list l := l ≠ []

/-- A range is exact that holds the only weight that a simple selector attains. -/
theorem Simple.isHull_of_unique {s : Simple} {n : ℕ} (hs : s.specificity = .exact n)
    (hn : s.Attains n) (hunique : ∀ m, s.Attains m → m = n) : s.specificity.IsHull s.Attains := by
  rw [hs]
  refine (Specificity.isHull_exact n).congr fun m ↦ ⟨?_, hunique m⟩
  rintro rfl
  exact hn

theorem Compound.isHull_of_forall {c : Compound} (h : ∀ s ∈ c, s.specificity.IsHull s.Attains) :
    (Compound.specificity c).IsHull (Compound.Attains c) := by
  rw [Compound.specificity_eq]
  exact (Specificity.isHull_sum h).congr fun n ↦ Compound.attains_iff.symm

theorem Complex.isHull_of_forall {c : Complex}
    (h : ∀ d ∈ c.components, ∀ s ∈ d.compound, s.specificity.IsHull s.Attains) :
    c.specificity.IsHull c.Attains := by
  rw [Complex.specificity_eq, Path.specificity_eq]
  refine (Specificity.isHull_sum fun d hd ↦ ?_).congr fun n ↦ Complex.attains_iff.symm
  exact Compound.isHull_of_forall (h d hd)

theorem SelectorList.isHull_of_forall {l : SelectorList} (hne : l ≠ [])
    (h : ∀ c ∈ l, c.specificity.IsHull c.Attains) :
    (SelectorList.specificity l).IsHull (SelectorList.Attains l) := by
  rw [SelectorList.specificity, SelectorList.memberSpecificities_eq_map]
  exact Specificity.isHull_hull hne h

theorem inductionStep_isHull : InductionStep
    (fun s ↦ s.Everywhere .inhabited → s.specificity.IsHull s.Attains)
    (fun c ↦ c.Everywhere .inhabited → c.specificity.IsHull c.Attains) where
  simple s ih h := by
    cases s with
    | pseudo p =>
      refine Simple.isHull_pseudo fun l hl ↦ ?_
      exact ⟨(h.list hl).1, fun c hc ↦ ih p rfl l hl c hc (h.member hl hc)⟩
    | _ => exact Simple.isHull_of_unique rfl (by constructor) (by rintro _ ⟨⟩; rfl)
  complex c ih h := by
    exact Complex.isHull_of_forall fun d hd s hs ↦ ih d hd s hs (h.condition hd hs)

/-- The specificity of a simple selector, compound selector, complex selector or list in which no
list is empty is the exact range of the weights that it attains. -/
theorem Specificity.isHull_attains :
    (∀ s : Simple, s.Everywhere .inhabited → s.specificity.IsHull s.Attains) ∧
    (∀ c : Compound, Compound.Each .inhabited c →
      (Compound.specificity c).IsHull (Compound.Attains c)) ∧
    (∀ c : Complex, c.Everywhere .inhabited → c.specificity.IsHull c.Attains) ∧
    ∀ l : SelectorList, SelectorList.Everywhere .inhabited l →
      (SelectorList.specificity l).IsHull (SelectorList.Attains l) := by
  have hsimple := Simple.induction inductionStep_isHull
  have hcomplex := Complex.induction inductionStep_isHull
  refine ⟨hsimple, fun c hc ↦ ?_, hcomplex, fun l hl ↦ ?_⟩
  · exact Compound.isHull_of_forall fun s hs ↦ hsimple s (Compound.each_iff.1 hc s hs)
  · refine SelectorList.isHull_of_forall hl.1 fun c hc ↦ ?_
    exact hcomplex c (SelectorList.each_iff.1 hl.2 c hc)

/-- The list `:not(:is(#a, b), .c) :nth-child(2n of :where(#d), e), f::slotted(#g)` weighs between 2
and 111, and both are attained. -/
theorem Specificity.isHull_attains_nested :
    let l : SelectorList :=
      [⟨[], [⟨[.pseudo ⟨"not", false, none, some
          [.ofCompound [.pseudo ⟨"is", false, none, some
            [.ofCompound [.id "a"], .ofCompound [.type ⟨none, "b"⟩]]⟩],
          .ofCompound [.className "c"]]⟩], []⟩,
        ⟨[.pseudo ⟨"nth-child", false, some "2n", some
          [.ofCompound [.pseudo ⟨"where", false, none, some [.ofCompound [.id "d"]]⟩],
          .ofCompound [.type ⟨none, "e"⟩]]⟩], []⟩], false⟩,
      .ofCompound [.type ⟨none, "f"⟩,
        .pseudo ⟨"slotted", true, none, some [.ofCompound [.id "g"]]⟩]]
    SelectorList.Everywhere .inhabited l ∧
      (⟨2, 111⟩ : Specificity).IsHull (SelectorList.Attains l) := by
  intro l
  have hl : SelectorList.Everywhere .inhabited l := by
    simp [l, SelectorList.Everywhere, SelectorList.Each, Complex.Everywhere, Path.Each,
      Compound.Each, Simple.Everywhere, Pseudo.Everywhere, Complex.ofCompound, Shape.inhabited]
  have hweight : SelectorList.specificity l = ⟨2, 111⟩ := by decide +kernel
  exact ⟨hl, hweight ▸ Specificity.isHull_attains.2.2.2 l hl⟩

end SelectorAlgebra

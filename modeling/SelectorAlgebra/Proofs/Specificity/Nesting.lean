import Mathlib
import SelectorAlgebra.Proofs.Nesting.Associativity
import SelectorAlgebra.Proofs.Nesting.Origin
import SelectorAlgebra.Proofs.Specificity.Sum

/-!
# Specificities of nested selectors

A parent takes the place of `&`, which weighs nothing, so it adds its own weight. Main statement:
where `&` has no suffix and does not occur inside pseudo selectors, a nested member weighs what the
member that it comes from and the parents that were chosen for it weigh together.
-/

namespace SelectorAlgebra

/-- Whether a simple selector is no `&` with a suffix and holds no `&` inside. -/
def Simple.IsPlain : Simple → Prop
  | .parent suffix => suffix = none
  | .pseudo p => p.hasParent = false
  | .universal _ | .type _ | .className _ | .id _ | .attribute _ | .placeholder _ => True

/-- Whether no `&` of a selector list has a suffix or occurs inside a pseudo selector. -/
def SelectorList.IsPlain (l : SelectorList) : Prop :=
  ∀ c ∈ l, ∀ d ∈ c.components, ∀ s ∈ d.compound, s.IsPlain

/-! ### Weights of what is put together -/

theorem Compound.specificity_append (c d : Compound) :
    Compound.specificity (c ++ d) = Compound.specificity c + Compound.specificity d := by
  simp only [Compound.specificity_eq, Specificity.sum_eq, List.map_append, List.sum_append]

theorem Path.specificity_cons (d : Component) (p : Path) :
    Path.specificity (d :: p) = Compound.specificity d.compound + Path.specificity p := by
  cases d
  rfl

theorem Path.specificity_concat (p : Path) (c : Compound) (ks : List Combinator) :
    Path.specificity (p ++ [⟨c, ks⟩]) = Path.specificity p + Compound.specificity c := by
  simp only [Path.specificity_eq, Specificity.sum_eq, List.map_append, List.sum_append,
    List.map_singleton, List.sum_singleton]

/-- Selectors one after the other weigh what they weigh together. -/
theorem Complex.sum_specificity_words (ms : List Complex) :
    ((ms.flatMap Complex.word).map Part.specificity).sum = (ms.map Complex.specificity).sum := by
  induction ms with
  | nil => rfl
  | cons m ms ih =>
    rw [List.flatMap_cons, List.map_append, List.sum_append, ih, ← Complex.specificity_eq_word,
      List.map_cons, List.sum_cons]

/-! ### Steps -/

variable {parent : SelectorList}

theorem Simple.resolve_of_isPlain {s : Simple} (h : s.IsPlain) : s.resolve parent = .ok s := by
  match s with
  | .parent _ => rfl
  | .pseudo p => exact Simple.resolve_of_hasParent_eq_false (s := .pseudo p) h
  | .universal _ | .type _ | .className _ | .id _ | .attribute _ | .placeholder _ => rfl

theorem Compound.resolve_of_isPlain {c : Compound} (h : ∀ s ∈ c, s.IsPlain) :
    Compound.resolve parent c = .ok c := by
  induction c with
  | nil => rfl
  | cons s c ih =>
    rw [List.forall_mem_cons] at h
    rw [Compound.resolve, Simple.resolve_of_isPlain h.1, ih h.2]
    rfl

theorem Compound.ResolvesTo.eq_of_isPlain {c d : Compound} (hc : ∀ s ∈ c, s.IsPlain)
    (h : Compound.ResolvesTo parent c d) : d = c := by
  rw [Compound.ResolvesTo, Compound.resolve_of_isPlain hc] at h
  exact (Except.ok.inj h).symm

/-- In the place of a component that starts with `&` stands its weight and that of the parent. -/
theorem Component.Placed.specificity_eq {d : Component} {p m : Complex}
    (hd : ∀ s ∈ d.compound, s.IsPlain) (h : d.Placed (Compound.ResolvesTo parent) p m) :
    m.specificity = Compound.specificity d.compound + p.specificity := by
  cases h with
  | alone ks hword _ =>
    rw [Complex.specificity_eq_word, hword, List.map_append, List.sum_append,
      ← Complex.specificity_eq_word, Part.sum_combinators, add_comm]
    rfl
  | @merged suffix conditions resolved subject lengthened front ks _ hresolved hparent hlengthened =>
    obtain ⟨rfl, hconditions⟩ := List.forall_mem_cons.1 hd
    obtain rfl := Compound.ResolvesTo.eq_of_isPlain hconditions hresolved
    cases hlengthened with
    -- without a suffix the last compound selector of the parent stays, and conditions follow it
    | same =>
      have hweight : Compound.specificity (.parent none :: resolved) =
          Compound.specificity resolved := zero_add _
      rw [Complex.specificity_eq, Complex.specificity_eq, hparent, Path.specificity_concat,
        Path.specificity_concat, Compound.specificity_append, hweight]
      ac_rfl

/-- What the components of a path become weighs what they and the parents weigh together. -/
theorem Path.Placed.sum_specificity {path : Path} {ps : SelectorList} {ms : List Complex}
    (hpath : ∀ d ∈ path, ∀ s ∈ d.compound, s.IsPlain)
    (h : path.Placed (Compound.ResolvesTo parent) ps ms) :
    (ms.map Complex.specificity).sum =
      Path.specificity path + (ps.map Complex.specificity).sum := by
  induction h with
  | nil => rfl
  | @parent d path p m ps ms h _ ih =>
    rw [List.forall_mem_cons] at hpath
    rw [List.map_cons, List.map_cons, List.sum_cons, List.sum_cons, h.specificity_eq hpath.1,
      ih hpath.2, Path.specificity_cons]
    ac_rfl
  | @other d path resolved ps ms _ hresolved _ ih =>
    rw [List.forall_mem_cons] at hpath
    obtain rfl := Compound.ResolvesTo.eq_of_isPlain hpath.1 hresolved
    have hself : Complex.specificity ⟨[], [⟨d.compound, d.combinators⟩], false⟩ =
        Compound.specificity d.compound := add_zero _
    rw [List.map_cons, List.sum_cons, hself, ih hpath.2, Path.specificity_cons,
      add_assoc]

theorem Origin.Gives.specificity_eq {o : Origin} {m : Complex}
    (ho : ∀ d ∈ o.member.components, ∀ s ∈ d.compound, s.IsPlain) (h : o.Gives parent m) :
    m.specificity = o.member.specificity + Specificity.sum (o.parents.map Complex.specificity) := by
  cases h with
  | @resolved c m ps _ h =>
    obtain ⟨ms, hpath, hword, -⟩ := h
    rw [Complex.specificity_eq_word, hword, List.map_append, List.sum_append,
      Part.sum_combinators, zero_add, Complex.sum_specificity_words, hpath.sum_specificity ho,
      Complex.specificity_eq, Specificity.sum_eq]
  | behind p _ =>
    rw [Complex.specificity_concatenate, add_comm]
    rfl

/-- Where `&` has no suffix and does not occur inside pseudo selectors, each nested member weighs
what the member that it comes from and the parents that were chosen for it weigh together. -/
theorem SelectorList.specificity_nestWithin {l r : SelectorList} (hparent : parent ≠ [])
    (hl : l.IsPlain) (h : l.nestWithin parent true false = .ok r) :
    List.Forall₂ (fun o m ↦ Origin.Gives parent o m ∧ m.specificity =
        o.member.specificity + Specificity.sum (o.parents.map Complex.specificity))
      (SelectorList.origins parent l) r := by
  have hplain : ∀ o ∈ SelectorList.origins parent l,
      ∀ d ∈ o.member.components, ∀ s ∈ d.compound, s.IsPlain :=
    fun o ho ↦ hl o.member (SelectorList.member_mem_of_mem_origins ho)
  refine ((List.forall₂_and_left _ r).2 ⟨hplain, SelectorList.gives_of_nestWithin hparent h⟩).imp ?_
  exact fun o m ⟨ho, hgives⟩ ↦ ⟨hgives, hgives.specificity_eq ho⟩

/-- The list `.c:is(#d, e) > & + &` nested in `#a, b`: each of its members weighs what the two
parents in it weigh and between 11 and 110 more. -/
theorem SelectorList.specificity_nestWithin_pairs :
    let a : Complex := .ofCompound [.id "a"]
    let b : Complex := .ofCompound [.type ⟨none, "b"⟩]
    let first : Component := ⟨[.className "c", .pseudo ⟨"is", false, none,
      some [.ofCompound [.id "d"], .ofCompound [.type ⟨none, "e"⟩]]⟩], [.child]⟩
    let c : Complex :=
      ⟨[], [first, ⟨[.parent none], [.nextSibling]⟩, ⟨[.parent none], []⟩], false⟩
    let nested (s t : Simple) : Complex :=
      ⟨[], [first, ⟨[s], [.nextSibling]⟩, ⟨[t], []⟩], false⟩
    [a, b] ≠ [] ∧ SelectorList.IsPlain [c] ∧
      SelectorList.nestWithin [c] [a, b] true false =
        .ok [nested (.id "a") (.id "a"), nested (.id "a") (.type ⟨none, "b"⟩),
          nested (.type ⟨none, "b"⟩) (.id "a"),
          nested (.type ⟨none, "b"⟩) (.type ⟨none, "b"⟩)] ∧
      SelectorList.origins [a, b] [c] = [⟨c, [a, a]⟩, ⟨c, [a, b]⟩, ⟨c, [b, a]⟩, ⟨c, [b, b]⟩] ∧
      (nested (.id "a") (.type ⟨none, "b"⟩)).specificity =
        c.specificity + Specificity.sum ([a, b].map Complex.specificity) := by
  intro a b first c nested
  have hplain : SelectorList.IsPlain [c] := by
    simp [SelectorList.IsPlain, c, first, Simple.IsPlain, Pseudo.hasParent, SelectorList.hasParent,
      Complex.ofCompound, Complex.hasParent, Path.hasParent, Compound.hasParent, Simple.hasParent]
  have hnested : SelectorList.nestWithin [c] [a, b] true false =
      .ok [nested (.id "a") (.id "a"), nested (.id "a") (.type ⟨none, "b"⟩),
        nested (.type ⟨none, "b"⟩) (.id "a"),
        nested (.type ⟨none, "b"⟩) (.type ⟨none, "b"⟩)] := by cbv
  have horigins : SelectorList.origins [a, b] [c] =
      [⟨c, [a, a]⟩, ⟨c, [a, b]⟩, ⟨c, [b, a]⟩, ⟨c, [b, b]⟩] := by cbv
  have hmembers : [a, b] ≠ [] := by simp
  have h := SelectorList.specificity_nestWithin hmembers hplain hnested
  rw [horigins] at h
  obtain ⟨-, h⟩ := List.forall₂_cons.1 h
  exact ⟨hmembers, hplain, hnested, horigins, (List.forall₂_cons.1 h).1.2⟩

end SelectorAlgebra

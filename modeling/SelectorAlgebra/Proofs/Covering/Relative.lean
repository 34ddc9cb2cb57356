import Mathlib
import SelectorAlgebra.Proofs.Covering.Reflexivity
import SelectorAlgebra.Proofs.Parser.Written

/-!
# Relative selectors and covering

The selectors in a `:has` may start with a combinator, which relates them to the subject. Such
selectors are never compared, not even with themselves. Main statement: among compound selectors in
which all other selectors stand by themselves, one covers itself exactly if it is one that no
element can match, or each `:has` with a relative member stands beside another one whose list its
own covers.
-/

namespace SelectorAlgebra

/-- Whether a complex selector is relative to another: one combinator stands in front of what is a
selector by itself. -/
def Complex.IsRelative (c : Complex) : Prop :=
  c.leading.length = 1 ∧ Complex.isBogus { c with leading := [] } = false

/-- The shape of selectors in which no complex selector is bogus, but for the relative members of
`:has`. -/
def Shape.properOrRelative : Shape where
  simple
    | .pseudo p => ∀ l, p.selector = some l → ∀ c ∈ l,
        c.isBogus = false ∨ p.normalizedName = "has" ∧ c.IsRelative
    | _ => True

/-- What a compound selector asks of the elements that it is about: what stands before its first
pseudo-element, and what stands behind. -/
def Compound.parts (c : Compound) : List Compound :=
  match Covering.atPseudoElement c with
  | none => [c]
  | some (before, _, after) => [before, after]

namespace Covering

variable {c : Compound} {parents : Path}

/-- A compound selector compares with itself if each of its parts does. -/
theorem compared_self_iff : whole.Compared c c parents ↔
    ∀ part ∈ Compound.parts c, whole.coversConditions part part parents = true := by
  unfold Compound.parts
  cases hc : atPseudoElement c with
  | none =>
    simp only [List.mem_singleton, forall_eq]
    constructor
    · intro h
      cases h with
      | conditions _ _ h => exact h
      | element hsome => cases hc.symm.trans hsome
    · exact .conditions hc hc
  | some x =>
    obtain ⟨before, e, after⟩ := x
    rw [List.forall_mem_cons, List.forall_mem_singleton]
    constructor
    · intro h
      cases h with
      | conditions hnone => cases hc.symm.trans hnone
      | element hc' hd' _ hbefore hafter =>
        cases hc.symm.trans hc'
        cases hc.symm.trans hd'
        exact ⟨hbefore, hafter⟩
    · rintro ⟨hbefore, hafter⟩
      exact .element hc hc (coversSimple_of_same ((Simple.same_iff e e).2 rfl)) hbefore hafter

/-- A pseudo selector named `has` that may carry a list is a pseudo-class. -/
theorem isClass_of_has {p : Pseudo} (hname : p.normalizedName = "has")
    (htakes : p.kind.takesSelector p.element = true) : p.isClass = true := by
  have hkind : p.kind = .relational := by rw [Pseudo.kind, hname]; rfl
  have helement : p.element = false := by
    by_contra h
    simp [hkind, PseudoKind.takesSelector, h] at htakes
  simp [Pseudo.isClass, helement, hname, Pseudo.legacyElements]

/-- A condition covers the compound selector that it stands in, but for a `:has` with a relative
member: that covers only other ones. -/
theorem coversCondition_self_iff {s : Simple} (hs : s ∈ c)
    (htakes : ∀ q, .pseudo q ∈ c → q.selector.isSome = true →
      q.kind.takesSelector q.element = true) (hproper : s.Everywhere .properOrRelative) :
    whole.CoversCondition c parents s ↔
      ∀ p l, s = .pseudo p → p.selector = some l → (∃ d ∈ l, d.leading ≠ []) →
        ∃ q k, .pseudo q ∈ c ∧ q.name = p.name ∧ q.selector = some k ∧
          SelectorList.covers l k = true := by
  have hhas {p : Pseudo} {l : SelectorList} (hp : s = .pseudo p) (hl : p.selector = some l)
      (hrelative : ∃ d ∈ l, d.leading ≠ []) : p.normalizedName = "has" := by
    subst hp
    obtain ⟨d, hd, hleading⟩ := hrelative
    have hbogus : d.isBogus ≠ false := fun h ↦ hleading (Complex.isBogus_eq_false_iff.1 h).1
    exact ((hproper.simple l hl d hd).resolve_left hbogus).1
  have hclass {q : Pseudo} {k : SelectorList} (hq : .pseudo q ∈ c) (hk : q.selector = some k)
      (hname : q.normalizedName = "has") : q.isClass = true :=
    isClass_of_has hname (htakes q hq (by simp [hk]))
  have hcovers {p : Pseudo} {l : SelectorList} (hname : p.normalizedName = "has") :
      whole.coversCompound p l c parents = true ↔
        ∃ q k, .pseudo q ∈ c ∧ q.name = p.name ∧ q.selector = some k ∧
          SelectorList.covers l k = true := by
    have hkind : p.kind = .relational := by rw [Pseudo.kind, hname]; rfl
    simp only [coversCompound, hkind, List.any_eq_true, mem_arguments_iff, list_iff_covers]
    constructor
    · rintro ⟨k, ⟨q, hq, ⟨-, hname⟩, hk⟩, h⟩
      exact ⟨q, k, hq, hname, hk, h⟩
    · rintro ⟨q, k, hq, hqname, hk, h⟩
      refine ⟨k, ⟨q, hq, ⟨hclass hq hk ?_, hqname⟩, hk⟩, h⟩
      rw [Pseudo.normalizedName, hqname]
      exact hname
  constructor
  · rintro h p l rfl hl hrelative
    have hname := hhas rfl hl hrelative
    cases h with
    | list hl' _ h =>
      cases hl.symm.trans hl'
      exact (hcovers hname).1 h
    | some hother => cases (hclass hs hl hname).symm.trans (hother p l rfl hl)
  · intro h
    by_cases hrelative : ∃ p l, s = .pseudo p ∧ p.selector = some l ∧ ∃ d ∈ l, d.leading ≠ []
    · obtain ⟨p, l, rfl, hl, hrelative⟩ := hrelative
      have hname := hhas rfl hl hrelative
      exact .list hl (hclass hs hl hname) ((hcovers hname).2 (h p l rfl hl hrelative))
    · apply coversCondition_of_same _ hs ((Simple.same_iff s s).2 rfl)
      rintro p l rfl hl
      refine ⟨htakes p hs (by simp [hl]), fun d hd ↦ ?_⟩
      apply (hproper.simple l hl d hd).resolve_right
      rintro ⟨-, hone, -⟩
      refine hrelative ⟨p, l, rfl, hl, d, hd, ?_⟩
      intro hnil
      simp [hnil] at hone

end Covering

namespace Compound

theorem subset_of_mem_parts {c part : Compound} (h : part ∈ parts c) : part ⊆ c := by
  unfold parts at h
  split at h
  · rw [List.mem_singleton.1 h]
    exact List.Subset.refl c
  · next before e after hsplit =>
    obtain ⟨rfl, -, -⟩ := Covering.atPseudoElement_eq_some_iff.1 hsplit
    rcases List.mem_pair.1 h with rfl | rfl
    · exact List.subset_append_left _ _
    · exact List.subset_append_of_subset_right _ (List.subset_cons_self _ _)

/-- A compound selector that is read, and in which no complex selector is bogus but for relative
members of `:has`, covers itself exactly if it has two different ids, or the list of each `:has`
with a relative member covers the list of one of the same name on the same side of the
pseudo-element. -/
theorem covers_self_iff {text : String} {options : ParseOptions} {c : Compound}
    (hread : (Compound.parse text options).result = .ok c)
    (hproper : Compound.Each .properOrRelative c) :
    Compound.covers c c = true ↔ (∃ m n, .id m ∈ c ∧ .id n ∈ c ∧ m ≠ n) ∨
      ∀ part ∈ parts c, ∀ p l, .pseudo p ∈ part → p.selector = some l →
        (∃ d ∈ l, d.leading ≠ []) → ∃ q k, .pseudo q ∈ part ∧ q.name = p.name ∧
          q.selector = some k ∧ SelectorList.covers l k = true := by
  obtain ⟨hwritten, heach⟩ :=
    Compound.written_of_parse (K := fun _ ↦ True) (fun _ _ ↦ trivial) hread
  rw [Compound.covers, Compound.coversBehind_eq, Covering.compound_iff, Covering.compared_self_iff,
    Covering.isUnsatisfiable_iff_of_written hwritten]
  refine or_congr_right (forall₂_congr fun part hpart ↦ ?_)
  have hsub := subset_of_mem_parts hpart
  have htakes (q : Pseudo) (hq : .pseudo q ∈ part) (hl : q.selector.isSome = true) :
      q.kind.takesSelector q.element = true := by
    have hq := (Compound.each_iff.1 heach (.pseudo q) (hsub hq)).simple
    exact hq.2.takesSelector hl
  have hcondition (s : Simple) (hs : s ∈ part) :=
    @Covering.coversCondition_self_iff part [] s hs htakes (Compound.each_iff.1 hproper s (hsub hs))
  rw [Covering.coversConditions_iff]
  constructor
  · intro h p l hp hl hrelative
    have hcovers := h _ hp
    rw [Covering.subject_of_ne_nil (List.ne_nil_of_mem hp)] at hcovers
    exact (hcondition _ hp).1 hcovers p l rfl hl hrelative
  · intro h s hs
    rw [Covering.subject_of_ne_nil (List.ne_nil_of_mem hs), hcondition s hs]
    rintro p l rfl hl hrelative
    exact h p l hs hl hrelative

/-- The first `:has` of `a:has(> .b, .c):has(.c.d)` covers the second. -/
theorem covers_self_siblings :
    let c : Compound := [.type ⟨none, "a"⟩,
      .pseudo ⟨"has", false, none, some [⟨[.child], [⟨[.className "b"], []⟩], false⟩,
        .ofCompound [.className "c"]]⟩,
      .pseudo ⟨"has", false, none, some [.ofCompound [.className "c", .className "d"]]⟩]
    (Compound.parse "a:has(> .b, .c):has(.c.d)").result = .ok c ∧ Compound.covers c c = true := by
  intro c
  have hread : (Compound.parse "a:has(> .b, .c):has(.c.d)").result = .ok c := by cbv
  have hproper : Compound.Each .properOrRelative c := by
    simp [c, Compound.Each, Simple.Everywhere, Pseudo.Everywhere, SelectorList.Each,
      Complex.Everywhere, Path.Each, Shape.properOrRelative, Complex.ofCompound, Complex.IsRelative]
    decide
  refine ⟨hread, (covers_self_iff hread hproper).2 (.inr ?_)⟩
  have hparts : parts c = [c] := rfl
  rw [hparts, List.forall_mem_singleton]
  rintro p l hp hl -
  let second : Pseudo :=
    ⟨"has", false, none, some [.ofCompound [.className "c", .className "d"]]⟩
  have hsecond : .pseudo second ∈ c := by simp [c, second]
  rcases (by simpa [c] using hp : p = _ ∨ p = second) with rfl | rfl
  · cases hl
    exact ⟨second, _, hsecond, rfl, rfl, by decide +kernel⟩
  · cases hl
    exact ⟨second, _, hsecond, rfl, rfl, by decide +kernel⟩

/-- `:has(> .a)` does not cover itself. -/
theorem not_covers_self : ¬ ∀ (text : String) (c : Compound),
    (Compound.parse text).result = .ok c → Compound.Each .properOrRelative c →
      Compound.covers c c = true := by
  intro h
  have hread : (Compound.parse ":has(> .a)").result = .ok [.pseudo ⟨"has", false, none,
      some [⟨[.child], [⟨[.className "a"], []⟩], false⟩]⟩] := by cbv
  have hcovers := h _ _ hread (by
    simp [Compound.Each, Simple.Everywhere, Pseudo.Everywhere, SelectorList.Each,
      Complex.Everywhere, Path.Each, Shape.properOrRelative, Complex.IsRelative]
    decide)
  exact absurd hcovers (by decide +kernel)

end Compound

end SelectorAlgebra

import Mathlib
import SelectorAlgebra.Proofs.Covering.Erasure
import SelectorAlgebra.Proofs.Covering.Reflexivity
import SelectorAlgebra.Proofs.Selector.Induction

/-!
# Covering in any order

The conditions of a compound selector all say something about one element, so their order tells
nothing. The rules ask for one condition after another on the left, and on the right for some
condition. Only `:is` and its relatives compare whole compound selectors, and there what is the same
as the right side in one order covers it in any other. Main statement: whether a compound selector
covers another that is read from a text and has no pseudo-element does not depend on the order of
the conditions on either side.
-/

namespace SelectorAlgebra

/-- A compound selector whose conditions may be put in any order: there are some, none is a
pseudo-element, all types are one, and each can be compared with itself. -/
structure Compound.Unordered (d : Compound) : Prop where
  ne_nil : d ≠ []
  element : ∀ s ∈ d, s.isPseudoElement = false
  type : ∀ m n, .type m ∈ d → .type n ∈ d → m = n
  comparable : ∀ s ∈ d, s.Comparable

/-- Selectors by themselves that are read from a text have no order if they have no
pseudo-element. -/
theorem Compound.unordered_of_parse {text : String} {options : ParseOptions} {d : Compound}
    (hread : (Compound.parse text options).result = .ok d)
    (helement : ∀ s ∈ d, s.isPseudoElement = false) (hproper : Compound.Each .proper d) :
    d.Unordered := by
  obtain ⟨hwritten, heach⟩ :=
    Compound.written_of_parse (K := fun _ ↦ True) (fun _ _ ↦ trivial) hread
  have hcomparable := heach.entail Shape.entail_comparable hproper
  obtain ⟨s, c, rfl, -⟩ := id hwritten
  exact ⟨List.cons_ne_nil s c, helement, fun _ _ ↦ Covering.eq_of_type_mem_of_written hwritten,
    fun t ht ↦ (Compound.each_iff.1 hcomparable t ht).comparable⟩

variable {c d d' : Compound}

theorem Compound.Unordered.perm (h : d.Unordered) (hp : d.Perm d') : d'.Unordered where
  ne_nil := by
    rintro rfl
    exact h.ne_nil hp.eq_nil
  element s hs := h.element s (hp.mem_iff.2 hs)
  type m n hm hn := h.type m n (hp.mem_iff.2 hm) (hp.mem_iff.2 hn)
  comparable s hs := h.comparable s (hp.mem_iff.2 hs)

/-! ### One side of a comparison -/

theorem Compound.Unordered.isUnsatisfiable_eq (h : d.Unordered) (hp : d.Perm d') :
    Covering.isUnsatisfiable d = Covering.isUnsatisfiable d' := by
  rw [Bool.eq_iff_iff, Covering.isUnsatisfiable_iff_of_types h.type,
    Covering.isUnsatisfiable_iff_of_types (h.perm hp).type]
  simp only [hp.mem_iff]

/-- Where the right side has no order, each condition of the left side is asked by itself. -/
theorem Compound.Unordered.covers_iff (h : d.Unordered) : Compound.covers c d = true ↔
    Covering.isUnsatisfiable d = true ∨
      ∀ s ∈ c, s.isPseudoElement = false ∧ Covering.whole.CoversCondition d [] s := by
  have hnone := Covering.atPseudoElement_eq_none_iff.2 h.element
  have hsubject := Covering.subject_of_ne_nil h.ne_nil
  rw [Compound.covers, Compound.coversBehind_eq, Covering.compound_iff]
  apply or_congr_right
  constructor
  · rintro (⟨hc, -, hconditions⟩ | ⟨-, hsome⟩)
    · rw [Covering.coversConditions_iff, hsubject] at hconditions
      exact fun s hs ↦ ⟨Covering.atPseudoElement_eq_none_iff.1 hc s hs, hconditions s hs⟩
    · cases hnone.symm.trans hsome
  · intro hc
    refine .conditions (Covering.atPseudoElement_eq_none_iff.2 fun s hs ↦ (hc s hs).1) hnone ?_
    rw [Covering.coversConditions_iff, hsubject]
    exact fun s hs ↦ (hc s hs).2

/-- A compound selector covers its conditions in another order. -/
theorem Compound.Unordered.covers_perm (h : d.Unordered) (hp : d.Perm d') :
    Compound.covers d d' = true :=
  (h.perm hp).covers_iff.2 <| .inr fun s hs ↦ ⟨h.element s hs,
    Covering.coversCondition_of_same (h.comparable s hs) (hp.mem_iff.1 hs) ((s.same_iff s).2 rfl)⟩

/-- What is the same as a compound selector covers its conditions in another order. -/
theorem Compound.Unordered.covers_perm_of_same (h : d.Unordered) (hp : d.Perm d')
    (hc : Compound.same c d = true) : Compound.covers c d' = true := by
  have herase := (Compound.same_iff c d).1 hc
  rw [Compound.covers, ← Compound.coversBehind_eraseBreaks, herase,
    Compound.coversBehind_eraseBreaks]
  exact h.covers_perm hp

/-! ### Lists of pseudo selectors -/

namespace Covering

variable {r : Covering}

/-- A rule looks for conditions of the right side in any order, but for the paths that it puts on
the right side as a whole. -/
theorem coversCompound_of_perm {p : Pseudo} {l : SelectorList} (hp : d.Perm d')
    (hpath : ∀ c ∈ l, r.path c.components [⟨d, []⟩] = true → r.path c.components [⟨d', []⟩] = true)
    (h : r.coversCompound p l d [] = true) : r.coversCompound p l d' [] = true := by
  have harguments (isClass : Bool) :
      (arguments d p.name isClass).Perm (arguments d' p.name isClass) := hp.filterMap _
  unfold coversCompound at h ⊢
  cases hk : p.kind with
  | matching | weightless =>
    simp only [hk, (harguments true).any_eq, Bool.or_eq_true, List.nil_append] at h ⊢
    refine h.imp_right fun hany ↦ ?_
    obtain ⟨c, hc, hcovers⟩ := List.any_eq_true.1 hany
    rw [Bool.and_eq_true] at hcovers
    exact List.any_eq_true.2 ⟨c, hc, Bool.and_eq_true_iff.2 ⟨hcovers.1, hpath c hc hcovers.2⟩⟩
  | relational | slotted | current =>
    simp only [hk] at h ⊢
    rwa [← (harguments _).any_eq]
  | negation =>
    simp only [hk] at h ⊢
    simpa only [hp.any_eq] using h
  | counting =>
    simp only [hk] at h ⊢
    rwa [← hp.any_eq]
  | plain => simp [hk] at h

/-- The induction on the left side: a simple selector covers a compound selector in every order, and
a path is put on it in every order. -/
theorem inductionStep_perm (h : d.Unordered) (hp : d.Perm d') : InductionStep
    (fun s ↦ whole.CoversCondition d [] s → whole.CoversCondition d' [] s)
    (fun c ↦ Path.covers c.components [⟨d, []⟩] = true →
      Path.covers c.components [⟨d', []⟩] = true) where
  simple s ih hs := by
    cases hs with
    | list hl hclass hcovers =>
      exact .list hl hclass (coversCompound_of_perm hp (ih _ rfl _ hl) hcovers)
    | some hlist ht hcovers => exact .some hlist (hp.mem_iff.1 ht) hcovers
  complex c ih hc := by
    obtain ⟨b, hb, hcovers⟩ := Path.covers_single_iff.1 hc
    refine Path.covers_single_iff.2 ⟨b, hb, .inr ?_⟩
    rcases hcovers with hsame | hcovers
    · exact h.covers_perm_of_same hp hsame
    · rw [(h.perm hp).covers_iff, ← h.isUnsatisfiable_eq hp]
      refine (h.covers_iff.1 hcovers).imp_right fun hall s hs ↦ ⟨(hall s hs).1, ?_⟩
      exact ih _ (hb ▸ List.mem_singleton_self _) s hs (hall s hs).2

end Covering

namespace Compound

/-- What covers a compound selector without an order covers it in every order, itself in any
order. -/
theorem Unordered.covers_of_perm {c' : Compound} (h : d.Unordered) (hc : c.Perm c')
    (hd : d.Perm d') (hcovers : Compound.covers c d = true) : Compound.covers c' d' = true := by
  rw [(h.perm hd).covers_iff, ← h.isUnsatisfiable_eq hd]
  refine (h.covers_iff.1 hcovers).imp_right fun hall s hs ↦ ?_
  obtain ⟨helement, hcondition⟩ := hall s (hc.mem_iff.2 hs)
  exact ⟨helement, s.induction (Covering.inductionStep_perm h hd) hcondition⟩

/-- The order of the conditions does not matter to covering: whatever the left side is, if the right
side is some reordering of a compound selector that is read, contains no pseudo-element and has
selectors by themselves inside, then the conditions of both sides may be put in any order. -/
theorem covers_eq_of_perm {text : String} {options : ParseOptions} {q c' : Compound}
    (hread : (Compound.parse text options).result = .ok q)
    (helement : ∀ s ∈ q, s.isPseudoElement = false) (hproper : Compound.Each .proper q)
    (hq : q.Perm d) (hc : c.Perm c') (hd : d.Perm d') :
    Compound.covers c d = Compound.covers c' d' := by
  have h := (unordered_of_parse hread helement hproper).perm hq
  rw [Bool.eq_iff_iff]
  exact ⟨h.covers_of_perm hc hd, (h.perm hd).covers_of_perm hc.symm hd.symm⟩

/-- `.a:is(.a:not(.b))` covers `.a:not(.b)`, so it does when both are written the other way round. -/
theorem covers_eq_of_perm_reverse :
    let q : Compound :=
      [.className "a", .pseudo ⟨"not", false, none, some [.ofCompound [.className "b"]]⟩]
    let c : Compound := [.className "a", .pseudo ⟨"is", false, none, some [.ofCompound q]⟩]
    (Compound.parse ".a:not(.b)").result = .ok q ∧
      Compound.covers c q = true ∧ Compound.covers c.reverse q.reverse = true := by
  intro q c
  have hread : (Compound.parse ".a:not(.b)").result = .ok q := by cbv
  have helement : ∀ s ∈ q, s.isPseudoElement = false := by decide +kernel
  have hproper : Compound.Each .proper q := by
    simp [q, Compound.Each, Simple.Everywhere, Pseudo.Everywhere, SelectorList.Each,
      Complex.Everywhere, Path.Each, Shape.proper, Complex.ofCompound]
    decide
  have hcovers : Compound.covers c q = true := by decide +kernel
  have hreverse := covers_eq_of_perm hread helement hproper (.refl q) (List.reverse_perm c).symm
    (List.reverse_perm q).symm
  exact ⟨hread, hcovers, hreverse.symm.trans hcovers⟩

end Compound

end SelectorAlgebra

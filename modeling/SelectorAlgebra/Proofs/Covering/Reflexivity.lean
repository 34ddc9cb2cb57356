import SelectorAlgebra.Proofs.Covering.Composition
import SelectorAlgebra.Proofs.Covering.Rules
import SelectorAlgebra.Proofs.Nesting.Attempt
import SelectorAlgebra.Proofs.Parser.Written
import SelectorAlgebra.Proofs.Selector.Sameness

/-!
# What is the same is covered

Paths that are the same cover each other without a search. Main statement: the search finds them
too, since each compound selector covers one that is the same by the rules for its conditions,
whatever the nested lists are, as long as they hold selectors by themselves. So an alignment can
stand in for sameness wherever one of two same selectors is changed.
-/

namespace SelectorAlgebra

/-- The shape of selectors that the rules can compare with themselves: a pseudo selector has a list
only if its kind takes one, and no complex selector is bogus. -/
def Shape.comparable : Shape where
  simple
    | .pseudo p => p.selector.isSome = true → p.kind.takesSelector p.element = true
    | _ => True
  complex c := c.isBogus = false

/-- Selectors by themselves that are read from a text can be compared with themselves. -/
theorem Shape.entail_comparable {K : List Char → Prop} :
    Shape.Entail (.written K) .proper .comparable where
  simple s hs _ := by
    cases s with
    | pseudo p => exact hs.2.takesSelector
    | _ => trivial
  complex _ _ hc := hc.complex

/-- Whether the rules can compare a simple selector with itself: it has a list only if its kind
takes one, and no member of the list is bogus. -/
def Simple.Comparable (s : Simple) : Prop :=
  ∀ p l, s = .pseudo p → p.selector = some l →
    p.kind.takesSelector p.element = true ∧ ∀ c ∈ l, c.isBogus = false

theorem Simple.Everywhere.comparable {s : Simple} (h : s.Everywhere .comparable) :
    s.Comparable := by
  rintro p l rfl hl
  exact ⟨h.simple (by simp [hl]), fun c hc ↦ (h.member hl hc).complex⟩

/-! ### Lists -/

/-- Whether a path is one of a selector by itself is told by its combinators. -/
theorem Path.IsProper.of_forall₂ {p q : Path} (hp : p.IsProper)
    (h : List.Forall₂ (fun c d : Component ↦ c.combinators = d.combinators) p q) : q.IsProper := by
  constructor
  · obtain ⟨front, c, rfl⟩ := hp.ends
    obtain ⟨front', _, -, hlast, rfl⟩ := forall₂_append_left_iff.1 h
    obtain ⟨⟨d, _⟩, _, rfl, hnil, rfl⟩ := List.forall₂_cons_left_iff.1 hlast
    obtain rfl := List.forall₂_nil_left_iff.1 hnil
    exact ⟨front', d, rfl⟩
  · intro d hd
    obtain ⟨c, hc, heq⟩ := exists_of_forall₂ h d hd
    exact heq ▸ hp.single c hc

theorem Path.IsProper.of_same {p q : Path} (hp : p.IsProper) (h : Path.same p q = true) :
    q.IsProper :=
  hp.of_forall₂ ((Path.same_iff_forall₂.1 h).imp fun _ _ ↦ And.right)

theorem Complex.isBogus_of_same {c d : Complex} (hc : c.isBogus = false) (h : c.same d = true) :
    d.isBogus = false := by
  obtain ⟨hleading, hproper⟩ := Complex.isBogus_eq_false_iff.1 hc
  obtain ⟨heq, hsame⟩ := Complex.same_iff_parts.1 h
  exact Complex.isBogus_eq_false_iff.2 ⟨heq ▸ hleading, hproper.of_same hsame⟩

theorem Complex.covers_of_same {c d : Complex} (hc : c.isBogus = false) (h : c.same d = true) :
    c.covers d = true := by
  obtain ⟨hleading, hproper⟩ := Complex.isBogus_eq_false_iff.1 hc
  obtain ⟨heq, hsame⟩ := Complex.same_iff_parts.1 h
  exact Complex.covers_iff.2 ⟨⟨hleading, heq ▸ hleading⟩,
    Path.covers_iff_aligned.2 (.inl ⟨hproper.ne_nil, hsame⟩)⟩

theorem Complex.same_symm {c d : Complex} (h : c.same d = true) : d.same c = true :=
  (Complex.same_iff d c).2 ((Complex.same_iff c d).1 h).symm

namespace Covering

/-- A list of selectors by themselves covers one that is the same, and this one covers each of its
members. -/
theorem list_of_same {l m : SelectorList} (hl : ∀ c ∈ l, c.isBogus = false)
    (h : SelectorList.same l m = true) :
    whole.list l m = true ∧ ∀ c ∈ l, whole.list m [c] = true := by
  have hforall := SelectorList.same_iff_forall₂.1 h
  simp only [list_iff, ← Complex.covers_eq, List.mem_singleton, forall_eq]
  constructor
  · intro d hd
    obtain ⟨c, hc, hcd⟩ := exists_of_forall₂ hforall d hd
    exact ⟨c, hc, Complex.covers_of_same (hl c hc) hcd⟩
  · intro c hc
    obtain ⟨d, hd, hcd⟩ := exists_of_forall₂ hforall.flip c hc
    exact ⟨d, hd, Complex.covers_of_same (Complex.isBogus_of_same (hl c hc) hcd)
      (Complex.same_symm hcd)⟩

variable {c d : Compound} {parents : Path}

/-- A pseudo-class with a list covers a compound selector that has the same pseudo-class among its
conditions, by the rule of its kind. -/
theorem coversCompound_of_same {p : Pseudo} {l : SelectorList} {t : Simple}
    (hp : (Simple.pseudo p).Comparable) (hl : p.selector = some l)
    (hclass : p.isClass = true) (ht : t ∈ d) (h : (Simple.pseudo p).same t = true) :
    whole.coversCompound p l d parents = true := by
  obtain ⟨q, rfl, ⟨hname, helement, hargument⟩, hrel⟩ := Simple.same_pseudo_iff.1 h
  obtain ⟨m, hm, hsame⟩ : ∃ m, q.selector = some m ∧ SelectorList.same l m = true := by
    rw [hl] at hrel
    cases hm : q.selector with
    | none => simp [hm] at hrel
    | some m =>
      rw [hm, Option.rel_some_some] at hrel
      exact ⟨m, rfl, hrel⟩
  obtain ⟨htakes, hproper⟩ := hp p l rfl hl
  obtain ⟨hlist, hback⟩ := list_of_same hproper hsame
  have hqclass : q.isClass = true := Pseudo.isClass_eq_of_name hname helement ▸ hclass
  have harguments : m ∈ arguments d p.name true :=
    mem_arguments_iff.2 ⟨q, ht, ⟨hqclass, hname.symm⟩, hm⟩
  have hkind : p.kind.takesSelector false = true := Pseudo.element_of_isClass hclass ▸ htakes
  unfold coversCompound
  cases hk : p.kind with
  | matching | weightless =>
    rw [Bool.or_eq_true]
    exact .inl (List.any_eq_true.2 ⟨m, harguments, hlist⟩)
  | relational => exact List.any_eq_true.2 ⟨m, harguments, hlist⟩
  | current => exact List.any_eq_true.2 ⟨m, harguments, hsame⟩
  | slotted | plain => simp [hk, PseudoKind.takesSelector] at hkind
  | negation =>
    refine List.all_eq_true.2 fun c hc ↦ ?_
    obtain ⟨front, e, he⟩ := (Complex.isBogus_eq_false_iff.1 (hproper c hc)).2.ends
    rw [hproper c hc, he, List.getLast?_concat]
    exact List.any_eq_true.2
      ⟨.pseudo q, ht, excludes_iff.2 (.pseudo hname.symm hm (hback c hc))⟩
  | counting =>
    refine List.any_eq_true.2 ⟨.pseudo q, ht, ?_⟩
    simp only [hname, hargument, hm, beq_self_eq_true, Option.any_some, Bool.true_and]
    exact hlist

/-- A condition covers a compound selector that has the same condition. -/
theorem coversCondition_of_same {s t : Simple} (hs : s.Comparable) (ht : t ∈ d)
    (h : s.same t = true) : whole.CoversCondition d parents s := by
  by_cases hlist : ∃ p l, s = .pseudo p ∧ p.selector = some l ∧ p.isClass = true
  · obtain ⟨p, l, rfl, hl, hclass⟩ := hlist
    exact .list hl hclass (coversCompound_of_same hs hl hclass ht h)
  · refine .some (fun p l hp hl ↦ Bool.eq_false_iff.2 fun hclass ↦ ?_) ht (coversSimple_of_same h)
    exact hlist ⟨p, l, hp, hl, hclass⟩

theorem coversConditions_of_same (hc : Compound.Each .comparable c)
    (h : List.Forall₂ (fun s t : Simple ↦ s.same t = true) c d) :
    whole.coversConditions c d parents = true := by
  refine coversConditions_iff.2 fun s hs ↦ ?_
  obtain ⟨t, ht, hst⟩ := exists_of_forall₂ h.flip s hs
  rw [subject_of_ne_nil (List.ne_nil_of_mem ht)]
  exact coversCondition_of_same (Compound.each_iff.1 hc s hs).comparable ht hst

theorem compared_of_same (hc : Compound.Each .comparable c) (h : Compound.same c d = true) :
    whole.Compared c d parents := by
  have hforall := Compound.same_iff_forall₂.1 h
  cases hsplit : atPseudoElement c with
  | none =>
    refine .conditions hsplit (atPseudoElement_eq_none_iff.2 fun t ht ↦ ?_)
      (coversConditions_of_same hc hforall)
    obtain ⟨s, hs, hst⟩ := exists_of_forall₂ hforall t ht
    exact Simple.isPseudoElement_of_same hst ▸ atPseudoElement_eq_none_iff.1 hsplit s hs
  | some x =>
    obtain ⟨before, e, after⟩ := x
    obtain ⟨hbefore, -, hafter⟩ := each_of_atPseudoElement hsplit hc
    obtain ⟨rfl, hnone, he⟩ := atPseudoElement_eq_some_iff.1 hsplit
    obtain ⟨before', _, hbefore', hrest, rfl⟩ := forall₂_append_left_iff.1 hforall
    obtain ⟨e', after', he', hafter', rfl⟩ := List.forall₂_cons_left_iff.1 hrest
    refine .element hsplit (atPseudoElement_eq_some_iff.2 ⟨rfl, fun t ht ↦ ?_, ?_⟩)
      (coversSimple_of_same he') (coversConditions_of_same hbefore hbefore')
      (coversConditions_of_same hafter hafter')
    · obtain ⟨s, hs, hst⟩ := exists_of_forall₂ hbefore' t ht
      exact Simple.isPseudoElement_of_same hst ▸ hnone s hs
    · exact Simple.isPseudoElement_of_same he' ▸ he

end Covering

/-- A compound selector covers one that is the same, whatever it stands behind. -/
theorem Compound.coversBehind_of_same {c d : Compound} {parents : Path}
    (hc : Compound.Each .comparable c) (h : Compound.same c d = true) :
    Compound.coversBehind c d parents = true := by
  rw [Compound.coversBehind_eq, Covering.compound_iff]
  exact .inr (Covering.compared_of_same hc h)

/-- A path is put on one that is the same, component by component. -/
theorem Path.aligned_of_same {p q : Path} {previous : Option Combinator}
    (hp : Path.Each .comparable p) (h : Path.same p q = true) :
    Alignment.Aligned Compound.coversBehind previous p q := by
  have hforall := (List.forall₂_and_left p q).2 ⟨Path.each_iff.1 hp, Path.same_iff_forall₂.1 h⟩
  refine .of_forall₂ (hforall.imp fun c d hcd ↦ ⟨?_, ?_⟩)
  · rw [Component.next, Component.next, hcd.2.2]
  · exact Compound.coversBehind_of_same hcd.1.2 hcd.2.1

/-- Where a path of a selector by itself covers another, the search puts it on the other. -/
theorem Path.aligned_of_covers {p q : Path} (hp : Path.Each .comparable p) (hproper : p.IsProper)
    (h : Path.covers p q = true) :
    q.IsProper ∧ Alignment.Aligned Compound.coversBehind none p q := by
  rcases Path.covers_iff_aligned.1 h with ⟨-, hsame⟩ | ⟨⟨-, hq⟩, haligned⟩
  · exact ⟨hproper.of_same hsame, Path.aligned_of_same hp hsame⟩
  · exact ⟨hq, haligned⟩

/-! ### Selectors by themselves that are read from texts -/

namespace Complex

variable {a b : Complex}

theorem Accepted.comparable (h : a.Accepted) (ha : Path.Each .proper a.components) :
    Path.Each .comparable a.components :=
  .entail Shape.entail_comparable h.written.components ha

/-- Both are selectors by themselves, the first can be compared with itself, and its path is put on
the path of the second. -/
structure IsAligned (a b : Complex) : Prop where
  left : a.isBogus = false
  right : b.isBogus = false
  comparable : Path.Each .comparable a.components
  aligned : Alignment.Aligned Compound.coversBehind none a.components b.components

theorem IsAligned.covers (h : a.IsAligned b) : a.covers b = true := by
  obtain ⟨haleading, ha⟩ := isBogus_eq_false_iff.1 h.left
  obtain ⟨hbleading, hb⟩ := isBogus_eq_false_iff.1 h.right
  exact covers_iff.2
    ⟨⟨haleading, hbleading⟩, Path.covers_iff_aligned.2 (.inr ⟨⟨ha, hb⟩, h.aligned⟩)⟩

/-- A selector that is read from a text and has selectors by themselves inside is put on whatever it
covers. -/
theorem Accepted.isAligned (haccepted : a.Accepted) (ha : a.Everywhere .proper)
    (h : a.covers b = true) : a.IsAligned b := by
  obtain ⟨⟨-, hbleading⟩, hcovers⟩ := covers_iff.1 h
  have hcomparable := haccepted.comparable ha.components
  obtain ⟨hb, haligned⟩ :=
    Path.aligned_of_covers hcomparable (isBogus_eq_false_iff.1 ha.complex).2 hcovers
  exact ⟨ha.complex, isBogus_eq_false_iff.2 ⟨hbleading, hb⟩, hcomparable, haligned⟩

end Complex

end SelectorAlgebra

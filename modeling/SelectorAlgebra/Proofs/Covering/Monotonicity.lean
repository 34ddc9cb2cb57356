import Mathlib
import SelectorAlgebra.Proofs.Covering.Reflexivity

/-!
# Covering is monotone

A selector gets narrower when conditions are added to it or components are put in front of it, and
wider when conditions or its first component are left out. Main statement: among selectors by
themselves, one goes on to cover another while it gets wider and the other narrower. What is passed
in front of a compound selector counts as the front of the paths in its pseudo selectors, so a
narrower selector is narrower there too, and the statement is carried from the paths inside pseudo
selectors to those around them.
-/

namespace SelectorAlgebra

/-! ### Narrower compound selectors -/

/-- Conditions that are no pseudo-elements are added to a compound selector, or take the place of
`*|*`, which an empty compound selector is compared as. -/
inductive Compound.Narrowed : Compound → Compound → Prop
  | append (d : Compound) {ts : Compound} (hts : ∀ t ∈ ts, t.isPseudoElement = false) :
      Narrowed d (d ++ ts)
  | anything {ts : Compound} (hne : ts ≠ []) (hts : ∀ t ∈ ts, t.isPseudoElement = false) :
      Narrowed [.universal (some "*")] ts

namespace Compound.Narrowed

variable {d d' : Compound} {s : Simple}

theorem refl (d : Compound) : Narrowed d d := by
  simpa using @append d [] (by simp)

/-- No condition is lost but that there is some element. -/
theorem mem (h : Narrowed d d') (hs : s ∈ d) : s ∈ d' ∨ s = .universal (some "*") := by
  cases h with
  | append => exact .inl (List.mem_append_left _ hs)
  | anything => exact .inr (List.mem_singleton.1 hs)

theorem any {f : Simple → Bool} (h : Narrowed d d') (hf : f (.universal (some "*")) = false)
    (hd : d.any f = true) : d'.any f = true := by
  obtain ⟨s, hs, hfs⟩ := List.any_eq_true.1 hd
  refine List.any_eq_true.2 ⟨s, (h.mem hs).resolve_right ?_, hfs⟩
  rintro rfl
  cases hf.symm.trans hfs

theorem subject (h : Narrowed d d') : Narrowed (Covering.subject d) (Covering.subject d') := by
  cases h with
  | anything hne hts =>
    rw [Covering.subject_of_ne_nil hne]
    exact .anything hne hts
  | @append _ ts hts =>
    by_cases hd : d = []
    · subst hd
      by_cases hne : ts = []
      · subst hne
        exact .refl _
      · rw [List.nil_append, Covering.subject_of_ne_nil hne]
        exact .anything hne hts
    · rw [Covering.subject_of_ne_nil hd, Covering.subject_of_ne_nil (by simp [hd])]
      exact .append d hts

theorem isUnsatisfiable (h : Narrowed d d') (hd : Covering.isUnsatisfiable d = true) :
    Covering.isUnsatisfiable d' = true := by
  have hhead {α : Type} {f : α → α → Bool} {l l' : List α}
      (hl : l.head?.any (fun m ↦ l.any (f m)) = true) :
      (l ++ l').head?.any (fun m ↦ (l ++ l').any (f m)) = true := by
    cases l with
    | nil => cases hl
    | cons m l =>
      simp only [List.head?_cons, Option.any_some, List.cons_append, List.any_cons,
        List.any_append, Bool.or_eq_true] at hl ⊢
      exact hl.imp_right .inl
  cases h with
  | anything => cases hd
  | append _ =>
    simp only [Covering.isUnsatisfiable, List.filterMap_append, Bool.or_eq_true] at hd ⊢
    exact hd.imp hhead hhead

end Compound.Narrowed

/-! ### Narrower paths -/

/-- A component gets a narrower compound selector. -/
structure Component.Narrowed (d d' : Component) : Prop where
  combinators : d.combinators = d'.combinators
  compound : Compound.Narrowed d.compound d'.compound

theorem Component.Narrowed.forall₂_refl (p : Path) : List.Forall₂ Component.Narrowed p p :=
  List.forall₂_same.2 fun d _ ↦ ⟨rfl, .refl d.compound⟩

/-- Components get narrower compound selectors and others are put in front of them. -/
inductive Path.Narrowed (q : Path) : Path → Prop
  | intro {front r : Path} (hfront : ∀ d ∈ front, d.combinators.length ≤ 1)
      (hr : List.Forall₂ Component.Narrowed q r) : Narrowed q (front ++ r)

namespace Path.Narrowed

variable {q q' : Path}

theorem of_forall₂ (h : List.Forall₂ Component.Narrowed q q') : Path.Narrowed q q' :=
  @Path.Narrowed.intro q [] q' (by simp) h

theorem behind {front : Path} (hfront : ∀ d ∈ front, d.combinators.length ≤ 1) (q : Path) :
    Path.Narrowed q (front ++ q) :=
  .intro hfront (Component.Narrowed.forall₂_refl q)

theorem concat {d d' : Compound} (h : Path.Narrowed q q') (hd : Compound.Narrowed d d') :
    Path.Narrowed (q ++ [⟨d, []⟩]) (q' ++ [⟨d', []⟩]) := by
  obtain ⟨hfront, hr⟩ := h
  rw [List.append_assoc]
  exact .intro hfront (List.rel_append hr (.cons ⟨rfl, hd⟩ .nil))

theorem isProper (h : Path.Narrowed q q') (hq : q.IsProper) : q'.IsProper := by
  obtain ⟨hfront, hr⟩ := h
  exact .append hfront (hq.of_forall₂ (hr.imp fun _ _ ↦ Component.Narrowed.combinators))

end Path.Narrowed

/-- Paths less deep than this go on to cover what they cover while it gets narrower. -/
def Path.StableBelow (n : Nat) : Prop :=
  ∀ p : Path, Path.depth p < n → Path.Each .comparable p → p.IsProper →
    ∀ q q', Path.covers p q = true → Path.Narrowed q q' → Path.covers p q' = true

namespace Covering

variable {n : Nat} {c d d' : Compound} {parents parents' : Path} {s : Simple}

theorem coversCompound_of_narrowed (hn : Path.StableBelow n) {p : Pseudo} {l : SelectorList}
    (hl : SelectorList.Each .comparable l) (hdepth : SelectorList.depth l < n)
    (hd : Compound.Narrowed d d') (hparents : Path.Narrowed parents parents')
    (h : whole.coversCompound p l d parents = true) :
    whole.coversCompound p l d' parents' = true := by
  have harguments {isClass : Bool} {f : SelectorList → Bool}
      (h : (arguments d p.name isClass).any f = true) :
      (arguments d' p.name isClass).any f = true := by
    obtain ⟨m, hm, hf⟩ := List.any_eq_true.1 h
    obtain ⟨q, hq, hname, hm⟩ := mem_arguments_iff.1 hm
    have hq' := (hd.mem hq).resolve_right (by simp)
    exact List.any_eq_true.2 ⟨m, mem_arguments_iff.2 ⟨q, hq', hname, hm⟩, hf⟩
  unfold coversCompound at h ⊢
  cases hk : p.kind with
  | matching | weightless =>
    simp only [hk, Bool.or_eq_true] at h ⊢
    refine h.imp harguments fun h ↦ ?_
    obtain ⟨c, hc, hcovers⟩ := List.any_eq_true.1 h
    rw [Bool.and_eq_true] at hcovers
    refine List.any_eq_true.2 ⟨c, hc, Bool.and_eq_true_iff.2 ⟨hcovers.1, ?_⟩⟩
    have hcomparable := SelectorList.each_iff.1 hl c hc
    have hcdepth : Path.depth c.components < n := by
      rw [Complex.depth_components]
      exact (SelectorList.depth_of_mem hc).trans_lt hdepth
    exact hn _ hcdepth hcomparable.components
      (Complex.isBogus_eq_false_iff.1 hcomparable.complex).2 _ _ hcovers.2 (hparents.concat hd)
  | relational | slotted | current =>
    simp only [hk] at h ⊢
    exact harguments h
  | negation =>
    simp only [hk, List.all_eq_true, Bool.and_eq_true, Option.any_eq_true] at h ⊢
    intro c hc
    obtain ⟨hbogus, last, hlast, hexcludes⟩ := h c hc
    exact ⟨hbogus, last, hlast, hd.any rfl hexcludes⟩
  | counting =>
    simp only [hk] at h ⊢
    exact hd.any rfl h
  | plain => simp [hk] at h

theorem coversCondition_of_narrowed (hn : Path.StableBelow n) (hs : s.Everywhere .comparable)
    (hdepth : s.depth ≤ n) (hd : Compound.Narrowed d d') (hne : d' ≠ [])
    (hparents : Path.Narrowed parents parents') (h : whole.CoversCondition d parents s) :
    whole.CoversCondition d' parents' s := by
  cases h with
  | @list p l hl hclass h =>
    refine .list hl hclass (coversCompound_of_narrowed hn ?_ ?_ hd hparents h)
    · exact (hs.list hl).2
    · rw [Simple.depth_of_selector hl] at hdepth
      exact hdepth
  | @some s t hclass ht h =>
    rcases hd.mem ht with ht' | rfl
    · exact .some hclass ht' h
    · obtain rfl := eq_of_coversSimple_anything hclass h
      obtain ⟨u, hu⟩ := List.exists_mem_of_ne_nil _ hne
      exact .some hclass hu rfl

theorem coversConditions_of_narrowed (hn : Path.StableBelow n)
    (hc : ∀ s ∈ c, s.Everywhere .comparable ∧ s.depth ≤ n) (hd : Compound.Narrowed d d')
    (hparents : Path.Narrowed parents parents') (h : whole.coversConditions c d parents = true) :
    whole.coversConditions c d' parents' = true := by
  rw [coversConditions_iff] at h ⊢
  exact fun s hs ↦ coversCondition_of_narrowed hn (hc s hs).1 (hc s hs).2 hd.subject
    subject_ne_nil hparents (h s hs)

theorem compared_of_narrowed (hn : Path.StableBelow n)
    (hc : ∀ s ∈ c, s.Everywhere .comparable ∧ s.depth ≤ n) (hd : Compound.Narrowed d d')
    (hparents : Path.Narrowed parents parents') (h : whole.Compared c d parents) :
    whole.Compared c d' parents' := by
  cases h with
  | conditions hcnone hdnone h =>
    refine .conditions hcnone ?_ (coversConditions_of_narrowed hn hc hd hparents h)
    rw [atPseudoElement_eq_none_iff] at hdnone ⊢
    cases hd with
    | append _ hts => exact List.forall_mem_append.2 ⟨hdnone, hts⟩
    | anything _ hts => exact hts
  | @element before after before' after' e e' hcsome hdsome he hbefore hafter =>
    obtain ⟨rfl, -, -⟩ := atPseudoElement_eq_some_iff.1 hcsome
    obtain ⟨heq, hnone, hpseudo⟩ := atPseudoElement_eq_some_iff.1 hdsome
    rw [List.forall_mem_append, List.forall_mem_cons] at hc
    -- `*|*` has no pseudo-element, so conditions are added, and they stand behind it.
    cases hd with
    | anything =>
      have hmem : e' ∈ [Simple.universal (some "*")] := by simp [heq]
      rw [List.mem_singleton.1 hmem] at hpseudo
      cases hpseudo
    | @append _ ts hts =>
      have hsplit : d ++ ts = before' ++ e' :: (after' ++ ts) := by simp [heq]
      exact .element hcsome (atPseudoElement_eq_some_iff.2 ⟨hsplit, hnone, hpseudo⟩) he
        (coversConditions_of_narrowed hn hc.1 (.refl _) hparents hbefore)
        (coversConditions_of_narrowed hn hc.2.2 (.append _ hts) hparents hafter)

end Covering

theorem Compound.coversBehind_of_narrowed {n : Nat} (hn : Path.StableBelow n) {c d d' : Compound}
    {parents parents' : Path} (hc : Compound.Each .comparable c) (hdepth : Compound.depth c ≤ n)
    (hd : Compound.Narrowed d d') (hparents : Path.Narrowed parents parents')
    (h : Compound.coversBehind c d parents = true) :
    Compound.coversBehind c d' parents' = true := by
  rw [Compound.coversBehind_eq, Covering.compound_iff] at h ⊢
  refine h.imp hd.isUnsatisfiable (Covering.compared_of_narrowed hn (fun s hs ↦ ?_) hd hparents)
  exact ⟨Compound.each_iff.1 hc s hs, Compound.depth_le_iff.1 hdepth s hs⟩

/-- A path that is put on another is put on what gets narrower. -/
theorem Path.aligned_of_narrowed {n : Nat} (hn : Path.StableBelow n) {p q q' : Path}
    (hp : Path.Each .comparable p) (hdepth : Path.depth p ≤ n) (hne : p ≠ [])
    (hq : Path.Narrowed q q') (h : Alignment.Aligned Compound.coversBehind none p q) :
    Alignment.Aligned Compound.coversBehind none p q' := by
  have hcovers {c : Component} (hc : c ∈ p) {d d' : Compound} {gap gap' : Path}
      (hd : Compound.Narrowed d d') (hgap : Path.Narrowed gap gap') :
      Compound.coversBehind c.compound d gap = true →
        Compound.coversBehind c.compound d' gap' = true :=
    Compound.coversBehind_of_narrowed hn (Path.each_iff.1 hp c hc).2
      (Path.depth_le_iff.1 hdepth c hc) hd hgap
  obtain ⟨hfront, hr⟩ := hq
  refine Alignment.Aligned.behind (h.imp (R := fun c c' ↦ c' = c ∧ c ∈ p)
    (List.forall₂_same.2 fun c hc ↦ ⟨rfl, hc⟩) hr ?_ ?_ ?_) hne fun c hc d gap ↦ ?_
  · rintro c _ ⟨rfl, -⟩
    rfl
  · intro d d' hd
    rw [Component.next, Component.next, hd.combinators]
  · rintro c _ ⟨rfl, hc⟩ d d' hd gap gap' hgap
    exact hcovers hc hd.compound (.of_forall₂ hgap)
  · exact hcovers hc (.refl _) (.behind hfront gap)

/-- Paths go on to cover what gets narrower, however deep they are. -/
theorem Path.stableBelow (n : Nat) : Path.StableBelow n := by
  induction n with
  | zero => exact fun p hp ↦ absurd hp (Nat.not_lt_zero _)
  | succ n ih =>
    intro p hdepth hp hproper q q' h hq
    obtain ⟨hqproper, haligned⟩ := Path.aligned_of_covers hp hproper h
    exact Path.covers_iff_aligned.2 (.inr ⟨⟨hproper, hq.isProper hqproper⟩,
      Path.aligned_of_narrowed ih hp (Nat.lt_succ_iff.1 hdepth) hproper.ne_nil hq haligned⟩)

/-! ### Wider compound selectors -/

namespace Covering

variable {r : Covering} {c c' d : Compound} {parents : Path} {s : Simple}

theorem coversConditions_of_subset (hc : c' ⊆ c) (h : r.coversConditions c d parents = true) :
    r.coversConditions c' d parents = true :=
  coversConditions_iff.2 fun _ hs ↦ coversConditions_iff.1 h _ (hc hs)

/-- A compound selector is split at the same pseudo-element when a condition is left out. -/
theorem atPseudoElement_of_remove {before after : Compound} {e : Simple}
    (hs : s.isPseudoElement = false)
    (h : atPseudoElement (c ++ s :: c') = some (before, e, after)) :
    ∃ before' after', atPseudoElement (c ++ c') = some (before', e, after') ∧
      before' ⊆ before ∧ after' ⊆ after := by
  obtain ⟨heq, hnone, he⟩ := atPseudoElement_eq_some_iff.1 h
  simp only [atPseudoElement_eq_some_iff]
  have hne : s ≠ e := by
    rintro rfl
    cases hs.symm.trans he
  rcases List.append_eq_append_iff.1 heq with ⟨front, rfl, hc⟩ | ⟨back, rfl, hc⟩
  · -- it stands before the pseudo-element
    cases front with
    | nil => exact absurd (List.cons.inj hc).1 hne
    | cons t front =>
      obtain ⟨rfl, rfl⟩ := List.cons.inj hc
      have hsub : c ++ front ⊆ c ++ s :: front := by simp
      exact ⟨c ++ front, after, ⟨by simp, fun t ht ↦ hnone t (hsub ht), he⟩, hsub,
        List.Subset.refl _⟩
  · -- it stands after the pseudo-element
    cases back with
    | nil => exact absurd (List.cons.inj hc).1.symm hne
    | cons t back =>
      obtain ⟨rfl, rfl⟩ := List.cons.inj hc
      exact ⟨before, back ++ c', ⟨by simp, hnone, he⟩, List.Subset.refl _, by simp⟩

theorem compared_of_remove (hs : s.isPseudoElement = false)
    (h : r.Compared (c ++ s :: c') d parents) : r.Compared (c ++ c') d parents := by
  have hsub : c ++ c' ⊆ c ++ s :: c' := by simp
  cases h with
  | conditions hcnone hdnone h =>
    rw [atPseudoElement_eq_none_iff] at hcnone
    exact .conditions (atPseudoElement_eq_none_iff.2 fun t ht ↦ hcnone t (hsub ht)) hdnone
      (coversConditions_of_subset hsub h)
  | element hcsome hdsome he hbefore hafter =>
    obtain ⟨before, after, hsplit, hbefore', hafter'⟩ := atPseudoElement_of_remove hs hcsome
    exact .element hsplit hdsome he (coversConditions_of_subset hbefore' hbefore)
      (coversConditions_of_subset hafter' hafter)

end Covering

theorem Compound.coversBehind_of_remove {c c' d : Compound} {parents : Path} {s : Simple}
    (hs : s.isPseudoElement = false) (h : Compound.coversBehind (c ++ s :: c') d parents = true) :
    Compound.coversBehind (c ++ c') d parents = true := by
  rw [Compound.coversBehind_eq, Covering.compound_iff] at h ⊢
  exact h.imp_right (Covering.compared_of_remove hs)

/-- A component gets a compound selector with fewer conditions that covers no less. -/
structure Component.Widened (c c' : Component) : Prop where
  combinators : c.combinators = c'.combinators
  subset : c'.compound ⊆ c.compound
  covers : ∀ d parents, Compound.coversBehind c.compound d parents = true →
    Compound.coversBehind c'.compound d parents = true

theorem Component.Widened.forall₂_refl (p : Path) : List.Forall₂ Component.Widened p p :=
  List.forall₂_same.2 fun _ _ ↦ ⟨rfl, List.Subset.refl _, fun _ _ ↦ id⟩

/-! ### Steps -/

namespace Complex

/-- A step that makes a selector narrower. -/
inductive NarrowsTo : Complex → Complex → Prop
  /-- A condition that is no pseudo-element is added to a compound selector. -/
  | condition {leading : List Combinator} {front back : Path} {c : Compound} {s : Simple}
      {ks : List Combinator} {lineBreak : Bool} (hs : s.isPseudoElement = false) :
      NarrowsTo ⟨leading, front ++ ⟨c, ks⟩ :: back, lineBreak⟩
        ⟨leading, front ++ ⟨c ++ [s], ks⟩ :: back, lineBreak⟩
  /-- A component is put in front, with at most one combinator after it. -/
  | component {leading : List Combinator} {d : Component} {p : Path} {lineBreak : Bool}
      (hd : d.combinators.length ≤ 1) :
      NarrowsTo ⟨leading, p, lineBreak⟩ ⟨leading, d :: p, lineBreak⟩

/-- A step that makes a selector wider. -/
inductive WidensTo : Complex → Complex → Prop
  /-- A condition that is no pseudo-element is left out of a compound selector that has others. -/
  | condition {leading : List Combinator} {front back : Path} {c c' : Compound} {s : Simple}
      {ks : List Combinator} {lineBreak : Bool} (hs : s.isPseudoElement = false)
      (hne : c ++ c' ≠ []) :
      WidensTo ⟨leading, front ++ ⟨c ++ s :: c', ks⟩ :: back, lineBreak⟩
        ⟨leading, front ++ ⟨c ++ c', ks⟩ :: back, lineBreak⟩
  /-- The first of several components is left out. -/
  | component {leading : List Combinator} {d : Component} {p : Path} {lineBreak : Bool}
      (hp : p ≠ []) : WidensTo ⟨leading, d :: p, lineBreak⟩ ⟨leading, p, lineBreak⟩

variable {a a' b b' : Complex}

theorem NarrowsTo.narrowed (h : b.NarrowsTo b') :
    b'.leading = b.leading ∧ Path.Narrowed b.components b'.components := by
  cases h with
  | @condition _ front back c s ks _ hs =>
    have hc : Compound.Narrowed c (c ++ [s]) := .append c (by simpa using hs)
    exact ⟨rfl, .of_forall₂ (List.rel_append (Component.Narrowed.forall₂_refl front)
      (.cons ⟨rfl, hc⟩ (Component.Narrowed.forall₂_refl back)))⟩
  | @component _ d p _ hd => exact ⟨rfl, @Path.Narrowed.behind [d] (by simpa using hd) p⟩

/-- One selector stays put on another that gets narrower. -/
theorem IsAligned.narrow (h : a.IsAligned b) (hb : b.NarrowsTo b') : a.IsAligned b' where
  left := h.left
  right := by
    obtain ⟨hleading, hpath⟩ := hb.narrowed
    obtain ⟨hnil, hproper⟩ := isBogus_eq_false_iff.1 h.right
    exact isBogus_eq_false_iff.2 ⟨hleading.trans hnil, hpath.isProper hproper⟩
  comparable := h.comparable
  aligned := Path.aligned_of_narrowed (Path.stableBelow _) h.comparable (Nat.le_refl _)
    (isBogus_eq_false_iff.1 h.left).2.ne_nil hb.narrowed.2 h.aligned

/-- A selector that gets wider stays put on another. -/
theorem IsAligned.widen (h : a.IsAligned b) (ha : a.WidensTo a') : a'.IsAligned b := by
  obtain ⟨hleft, hright, hcomparable, haligned⟩ := h
  obtain ⟨hnil, hproper⟩ := isBogus_eq_false_iff.1 hleft
  rw [Path.each_iff] at hcomparable
  cases ha with
  | @condition leading front back c c' s ks lineBreak hs =>
    have hwidened : List.Forall₂ Component.Widened (front ++ ⟨c ++ s :: c', ks⟩ :: back)
        (front ++ ⟨c ++ c', ks⟩ :: back) :=
      List.rel_append (Component.Widened.forall₂_refl front)
        (.cons ⟨rfl, by simp, fun _ _ ↦ Compound.coversBehind_of_remove hs⟩
          (Component.Widened.forall₂_refl back))
    refine ⟨isBogus_eq_false_iff.2 ⟨hnil, ?_⟩, hright, Path.each_iff.2 fun e' he' ↦ ?_, ?_⟩
    · exact hproper.of_forall₂ (hwidened.imp fun _ _ ↦ Component.Widened.combinators)
    · obtain ⟨e, he, hee⟩ := exists_of_forall₂ hwidened e' he'
      exact ⟨trivial, Compound.each_iff.2 fun t ht ↦
        Compound.each_iff.1 (hcomparable e he).2 t (hee.subset ht)⟩
    · refine haligned.imp hwidened (List.forall₂_eq_eq_eq ▸ rfl) (fun e e' hee ↦ ?_) ?_ ?_
      · rw [Component.next, Component.next, hee.combinators]
      · rintro d _ rfl
        rfl
      · rintro e e' hee d _ rfl gap gap' hgap
        rw [List.forall₂_eq_eq_eq] at hgap
        subst hgap
        exact hee.covers d.compound gap
  | @component leading d p lineBreak hp =>
    obtain ⟨-, hback⟩ := List.forall_mem_cons.1 hcomparable
    refine ⟨isBogus_eq_false_iff.2 ⟨hnil, hproper.tail hp⟩, hright, Path.each_iff.2 hback, ?_⟩
    refine haligned.tail hp fun front hfront c hc d gap ↦ ?_
    have hsingle : ∀ e ∈ front, e.combinators.length ≤ 1 :=
      fun e he ↦ (isBogus_eq_false_iff.1 hright).2.single e (hfront he)
    exact Compound.coversBehind_of_narrowed (Path.stableBelow _) (hback c hc).2 (Nat.le_refl _)
      (.refl _) (.behind hsingle gap)

/-- Among selectors by themselves, one that covers another goes on to cover it while steps make the
first wider and the other narrower. -/
theorem covers_of_widensTo_of_narrowsTo (ha : a.Accepted) (hproper : a.Everywhere .proper)
    (h : a.covers b = true) (hwiden : Relation.ReflTransGen WidensTo a a')
    (hnarrow : Relation.ReflTransGen NarrowsTo b b') : a'.covers b' = true := by
  have hwide : a'.IsAligned b := by
    induction hwiden with
    | refl => exact ha.isAligned hproper h
    | tail _ hstep ih => exact ih.widen hstep
  have hnarrowed : a'.IsAligned b' := by
    induction hnarrow with
    | refl => exact hwide
    | tail _ hstep ih => exact ih.narrow hstep
  exact hnarrowed.covers

/-- From `x .y:is(.a .b)` and `x .a .b.y` to `:is(.a .b)` and `z ~ x .a.n .b.y`. -/
theorem covers_of_widensTo_of_narrowsTo_nested :
    Complex.covers
      ⟨[], [⟨[.pseudo ⟨"is", false, none, some [⟨[], [⟨[.className "a"], []⟩,
        ⟨[.className "b"], []⟩], false⟩]⟩], []⟩], false⟩
      ⟨[], [⟨[.type ⟨none, "z"⟩], [.followingSibling]⟩, ⟨[.type ⟨none, "x"⟩], []⟩,
        ⟨[.className "a", .className "n"], []⟩, ⟨[.className "b", .className "y"], []⟩], false⟩ =
        true := by
  have hread : (Complex.parse "x .y:is(.a .b)").result = .ok
      ⟨[], [⟨[.type ⟨none, "x"⟩], []⟩, ⟨[.className "y", .pseudo ⟨"is", false, none,
        some [⟨[], [⟨[.className "a"], []⟩, ⟨[.className "b"], []⟩], false⟩]⟩], []⟩],
        false⟩ := by cbv
  refine covers_of_widensTo_of_narrowsTo (.alone hread) ?_
    (b := ⟨[], [⟨[.type ⟨none, "x"⟩], []⟩, ⟨[.className "a"], []⟩,
      ⟨[.className "b", .className "y"], []⟩], false⟩) (by decide +kernel)
    (.tail (.single (.component (List.cons_ne_nil _ _)))
      (@WidensTo.condition _ [] _ [] _ _ _ _ rfl (List.cons_ne_nil _ _)))
    (.tail (.single (.component (d := ⟨[.type ⟨none, "z"⟩], [.followingSibling]⟩) (by simp)))
      (@NarrowsTo.condition _ [_, _] _ _ _ _ _ rfl))
  simp [Complex.Everywhere, Path.Each, Compound.Each, Simple.Everywhere, Pseudo.Everywhere,
    SelectorList.Each, Shape.proper, isBogus, hasMultipleCombinators, Path.hasMultipleCombinators]

end Complex

end SelectorAlgebra

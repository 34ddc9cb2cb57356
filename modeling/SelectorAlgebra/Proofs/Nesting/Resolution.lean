import SelectorAlgebra.Proofs.Nesting.Block
import SelectorAlgebra.Proofs.Selector.Everywhere

/-!
# Induction along nesting

What holds between a selector and the members that it becomes, proved from the places where a step
is taken. Main statement: a relation that each step keeps holds between a member and all members of
its block.
-/

namespace SelectorAlgebra

/-- Relations between simple selectors and between complex selectors that are kept by each step of
nesting selectors of a shape in a parent. -/
structure ResolutionLaw (parent : SelectorList) (σ : Shape) (S : Simple → Simple → Prop)
    (M : Complex → Complex → Prop) : Prop where
  /-- The parent has members. -/
  nonempty : parent ≠ []
  /-- A simple selector stays unless the list inside it contains `&`. -/
  same : ∀ s, (∀ q, s = .pseudo q → q.hasParent = false) → S s s
  /-- In a pseudo selector the blocks of the members are interleaved. -/
  list : ∀ name element argument l blocks, SelectorList.Each σ l →
    List.Forall₂ (fun c block ↦ c.Owns parent false block ∧ ∀ m ∈ block, M c m) l blocks →
    S (.pseudo ⟨name, element, argument, some l⟩)
      (.pseudo ⟨name, element, argument, some (interleave blocks)⟩)
  /-- A member without `&` stays where the parent is not implied. -/
  kept : ∀ c, c.Everywhere σ → c.hasParent = false → M c c
  /-- A member with `&` is put together from parents and from what its conditions become. -/
  resolved : ∀ c ps m, c.Everywhere σ → (∀ p ∈ ps, p ∈ parent) →
    c.Resolved (List.Forall₂ S) ps m → M c m

/-- Another relation may tell what the conditions behind `&` become, where it holds of all that the
first one relates. -/
theorem Component.Placed.imp {R R' : Compound → Compound → Prop} {d : Component} {p m : Complex}
    (h : d.Placed R p m) (himp : ∀ suffix conditions resolved,
      d.compound = .parent suffix :: conditions → R conditions resolved →
        R' conditions resolved) : d.Placed R' p m := by
  cases h with
  | alone ks hword hbreak => exact .alone ks hword hbreak
  | merged ks hmerge hresolved hparent hlengthened =>
    exact .merged ks hmerge (himp _ _ _ rfl hresolved) hparent hlengthened

namespace ResolutionLaw

variable {parent : SelectorList} {σ : Shape} {S : Simple → Simple → Prop}
  {M : Complex → Complex → Prop}

mutual

theorem simple (law : ResolutionLaw parent σ S M) {s t : Simple} (hs : s.Everywhere σ)
    (h : s.resolve parent = .ok t) : S s t := by
  match s with
  | .pseudo q =>
    obtain ⟨r, hr, h⟩ := bind_eq_ok_iff.1 h
    cases h
    exact law.pseudo hs.2 hr
  | .universal _ | .type _ | .className _ | .id _ | .attribute _ | .placeholder _ | .parent _ =>
    cases h
    exact law.same _ fun _ hq ↦ by cases hq

theorem pseudo (law : ResolutionLaw parent σ S M) {q r : Pseudo} (hq : q.Everywhere σ)
    (h : q.resolve parent = .ok r) : S (.pseudo q) (.pseudo r) := by
  match q with
  | ⟨_, _, _, none⟩ =>
    cases h
    exact law.same _ fun _ hq ↦ by cases hq; rfl
  | ⟨_, _, _, some l⟩ =>
    unfold Pseudo.resolve at h
    split at h
    · obtain ⟨blocks, hblocks, h⟩ := bind_eq_ok_iff.1 h
      cases h
      exact law.list _ _ _ l blocks hq.2 (law.blocks hq.2 hblocks)
    · next hnone =>
      cases h
      exact law.same _ fun _ hq ↦ by cases hq; exact Bool.eq_false_iff.2 hnone

theorem blocks (law : ResolutionLaw parent σ S M) {l : SelectorList} {blocks : List SelectorList}
    (hl : SelectorList.Each σ l) (h : SelectorList.blocks parent false l = .ok blocks) :
    List.Forall₂ (fun c block ↦ c.Owns parent false block ∧ ∀ m ∈ block, M c m) l blocks := by
  match l with
  | [] =>
    cases h
    exact .nil
  | c :: l =>
    obtain ⟨block, hblock, h⟩ := bind_eq_ok_iff.1 h
    obtain ⟨more, hmore, h⟩ := bind_eq_ok_iff.1 h
    cases h
    exact .cons ⟨Complex.owns_of_block law.nonempty hblock, law.block hl.1 (.inr rfl) hblock⟩
      (law.blocks hl.2 hmore)

/-- A relation that each step keeps holds between a member and all members of its block, but for the
parent in front of a member without `&`. -/
theorem block (law : ResolutionLaw parent σ S M) {c : Complex} {implied : Bool}
    {block : SelectorList} (hc : c.Everywhere σ) (hcase : c.hasParent = true ∨ implied = false)
    (h : c.block parent implied = .ok block) : ∀ m ∈ block, M c m := by
  match c with
  | ⟨leading, path, lineBreak⟩ =>
    intro m hm
    have howns := Complex.owns_of_block law.nonempty h
    cases hparent : Complex.hasParent ⟨leading, path, lineBreak⟩ with
    | false =>
      obtain rfl : implied = false := hcase.resolve_left (by simp [hparent])
      obtain rfl := howns.unresolved hparent
      obtain rfl := List.mem_singleton.1 hm
      exact law.kept _ hc hparent
    | true =>
      obtain ⟨ps, hps, ms, hpath, hword, hbreak⟩ := howns.exists_resolved hparent hm
      exact law.resolved _ ps m hc hps ⟨ms, law.path hc.2.2 hpath, hword, hbreak⟩

theorem path (law : ResolutionLaw parent σ S M) {path : Path} {ps : SelectorList}
    {ms : List Complex} (hpath : Path.Each σ path)
    (h : Path.Placed (Compound.ResolvesTo parent) path ps ms) :
    Path.Placed (List.Forall₂ S) path ps ms := by
  match path with
  | [] =>
    cases h
    exact .nil
  | ⟨c, ks⟩ :: path =>
    have hcompound {d : Compound} (h : Compound.ResolvesTo parent c d) :=
      law.compound hpath.1.2 h
    have hrest {ps : SelectorList} {ms : List Complex}
      (h : Path.Placed (Compound.ResolvesTo parent) path ps ms) := law.path hpath.2 h
    cases h with
    | parent h htail =>
      refine .parent (h.imp fun suffix conditions resolved hc hresolved ↦ ?_) (hrest htail)
      obtain rfl := hc
      -- The recursion goes down the whole compound selector, so `&` is put back in front.
      have hwhole := hcompound (Compound.resolve_parent_cons_iff.2 ⟨resolved, hresolved, rfl⟩)
      exact (List.forall₂_cons.1 hwhole).2
    | other hother hresolved htail => exact .other hother (hcompound hresolved) (hrest htail)

theorem compound (law : ResolutionLaw parent σ S M) {c d : Compound} (hc : Compound.Each σ c)
    (h : Compound.ResolvesTo parent c d) : List.Forall₂ S c d := by
  match c with
  | [] =>
    cases h
    exact .nil
  | s :: c =>
    obtain ⟨t, ht, h⟩ := bind_eq_ok_iff.1 h
    obtain ⟨more, hmore, h⟩ := bind_eq_ok_iff.1 h
    cases h
    exact .cons (law.simple hc.1 ht) (law.compound hc.2 hmore)

end

end ResolutionLaw

end SelectorAlgebra

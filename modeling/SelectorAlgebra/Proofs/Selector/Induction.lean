import SelectorAlgebra.Selector.Basic

/-!
# Induction on selectors

A property of simple selectors and one of complex selectors are proved together: that of a simple
selector from the members of the list that it carries, that of a complex selector from the simple
selectors that it is made of.
-/

namespace SelectorAlgebra

/-- The step of an induction on selectors. -/
structure InductionStep (P : Simple → Prop) (Q : Complex → Prop) : Prop where
  simple : ∀ s : Simple, (∀ p, s = .pseudo p → ∀ l, p.selector = some l → ∀ c ∈ l, Q c) → P s
  complex : ∀ c : Complex, (∀ d ∈ c.components, ∀ s ∈ d.compound, P s) → Q c

variable {P : Simple → Prop} {Q : Complex → Prop}

mutual

theorem Simple.induction (h : InductionStep P Q) (s : Simple) : P s := by
  match s with
  | .pseudo ⟨_, _, _, some l⟩ =>
    refine h.simple _ ?_
    rintro _ ⟨⟩ _ ⟨⟩
    exact SelectorList.induction h l
  | .pseudo ⟨_, _, _, none⟩ =>
    refine h.simple _ ?_
    rintro _ ⟨⟩ _ ⟨⟩
  | .universal _ | .type _ | .className _ | .id _ | .attribute _ | .placeholder _ | .parent _ =>
    refine h.simple _ ?_
    rintro _ ⟨⟩

theorem SelectorList.induction (h : InductionStep P Q) (l : SelectorList) : ∀ c ∈ l, Q c := by
  match l with
  | [] => exact List.forall_mem_nil Q
  | c :: l => exact List.forall_mem_cons.2 ⟨Complex.induction h c, SelectorList.induction h l⟩

theorem Complex.induction (h : InductionStep P Q) (c : Complex) : Q c := by
  match c with
  | ⟨_, p, _⟩ => exact h.complex _ (Path.induction h p)

theorem Path.induction (h : InductionStep P Q) (p : Path) :
    ∀ d ∈ p, ∀ s ∈ d.compound, P s := by
  match p with
  | [] => exact List.forall_mem_nil _
  | ⟨c, _⟩ :: p => exact List.forall_mem_cons.2 ⟨Compound.induction h c, Path.induction h p⟩

theorem Compound.induction (h : InductionStep P Q) (c : Compound) : ∀ s ∈ c, P s := by
  match c with
  | [] => exact List.forall_mem_nil P
  | s :: c => exact List.forall_mem_cons.2 ⟨Simple.induction h s, Compound.induction h c⟩

end

end SelectorAlgebra

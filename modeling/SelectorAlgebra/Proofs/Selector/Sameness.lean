import Mathlib.Data.List.Forall2
import SelectorAlgebra.Selector.Equality
import SelectorAlgebra.Selector.PseudoName

/-!
# Sameness part by part

Selectors that are the same have the same parts in the same places: lists are the same member by
member, paths component by component and compound selectors condition by condition.
-/

namespace SelectorAlgebra

variable {c d : Compound} {p q : Path} {k l : SelectorList}

theorem Compound.same_iff_forall₂ : Compound.same c d = true ↔
    List.Forall₂ (fun s t : Simple ↦ s.same t = true) c d := by
  induction c generalizing d with
  | nil => cases d <;> simp [Compound.same]
  | cons s c ih => cases d <;> simp [Compound.same, ih]

theorem Path.same_iff_forall₂ : Path.same p q = true ↔ List.Forall₂ (fun c d : Component ↦
    Compound.same c.compound d.compound = true ∧ c.combinators = d.combinators) p q := by
  induction p generalizing q with
  | nil => cases q <;> simp [Path.same]
  | cons c p ih =>
    obtain ⟨_, _⟩ := c
    cases q with
    | nil => simp [Path.same]
    | cons d q =>
      obtain ⟨_, _⟩ := d
      simp [Path.same, ih]

theorem SelectorList.same_iff_forall₂ : SelectorList.same k l = true ↔
    List.Forall₂ (fun c d : Complex ↦ c.same d = true) k l := by
  induction k generalizing l with
  | nil => cases l <;> simp [SelectorList.same]
  | cons c k ih => cases l <;> simp [SelectorList.same, ih]

theorem Complex.same_iff_parts {c d : Complex} :
    c.same d = true ↔ c.leading = d.leading ∧ Path.same c.components d.components = true := by
  obtain ⟨_, _, _⟩ := c
  obtain ⟨_, _, _⟩ := d
  simp [Complex.same]

theorem Pseudo.element_of_isClass {p : Pseudo} (h : p.isClass = true) : p.element = false := by
  simp only [Pseudo.isClass, Bool.and_eq_true, Bool.not_eq_true'] at h
  exact h.1

theorem Pseudo.kind_eq_of_name {p q : Pseudo} (h : p.name = q.name) : p.kind = q.kind := by
  simp only [kind, normalizedName, h]

theorem Pseudo.isClass_eq_of_name {p q : Pseudo} (hname : p.name = q.name)
    (helement : p.element = q.element) : p.isClass = q.isClass := by
  simp only [isClass, normalizedName, hname, helement]

/-- What is the same as a pseudo selector has its name, argument and list. -/
theorem Simple.same_pseudo_iff {p : Pseudo} {t : Simple} : (Simple.pseudo p).same t = true ↔
    ∃ q, t = .pseudo q ∧ (p.name = q.name ∧ p.element = q.element ∧ p.argument = q.argument) ∧
      Option.Rel (fun k l ↦ SelectorList.same k l = true) p.selector q.selector := by
  cases t with
  | pseudo q =>
    obtain ⟨m, e, a, k⟩ := p
    obtain ⟨n, f, b, l⟩ := q
    cases k <;> cases l <;> simp [Simple.same, Pseudo.same, and_assoc]
  | _ => simp [Simple.same]

theorem Simple.isPseudoElement_of_same {s t : Simple} (h : s.same t = true) :
    s.isPseudoElement = t.isPseudoElement := by
  cases s with
  | pseudo p =>
    obtain ⟨q, rfl, ⟨hname, helement, -⟩, -⟩ := Simple.same_pseudo_iff.1 h
    rw [isPseudoElement, isPseudoElement, Pseudo.isClass_eq_of_name hname helement]
  | _ =>
    cases t with
    | pseudo q => simp [Simple.same] at h
    | _ => rfl

end SelectorAlgebra

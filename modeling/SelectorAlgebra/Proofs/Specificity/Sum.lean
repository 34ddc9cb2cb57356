import Mathlib.Algebra.BigOperators.Group.List.Basic
import SelectorAlgebra.Selector.Specificity
import SelectorAlgebra.Proofs.Selector.Word

/-!
# Specificities as sums

Ranges of weights are added end by end, which makes them a commutative monoid. A selector weighs
what its parts weigh together, so what is put behind a selector adds its own weight.
-/

namespace SelectorAlgebra

attribute [ext] Specificity

namespace Specificity

instance : Zero Specificity := ⟨zero⟩

instance : AddCommMonoid Specificity where
  nsmul := nsmulRec
  add_assoc s t u := Specificity.ext (Nat.add_assoc _ _ _) (Nat.add_assoc _ _ _)
  zero_add s := Specificity.ext (Nat.zero_add _) (Nat.zero_add _)
  add_zero s := Specificity.ext (Nat.add_zero _) (Nat.add_zero _)
  add_comm s t := Specificity.ext (Nat.add_comm _ _) (Nat.add_comm _ _)

/-- The sum of ranges is the sum in the monoid. -/
theorem sum_eq (l : List Specificity) : sum l = l.sum := rfl

end Specificity

/-! ### Weights of parts -/

theorem Pseudo.specificity_of_element {p : Pseudo} (h : p.isClass = false) :
    p.specificity = .ofType := by
  obtain ⟨name, element, argument, _ | l⟩ := p
  · exact if_neg (Bool.eq_false_iff.1 h)
  · exact if_neg (Bool.eq_false_iff.1 h)

theorem Pseudo.specificity_of_bare {p : Pseudo} (h : p.isClass = true) (hl : p.selector = none) :
    p.specificity = .ofClass := by
  obtain ⟨name, element, argument, selector⟩ := p
  obtain rfl := hl
  exact if_pos h

/-- A pseudo-class with a list weighs what its kind makes of the members. -/
theorem Pseudo.specificity_of_list {p : Pseudo} {l : SelectorList} (h : p.isClass = true)
    (hl : p.selector = some l) : p.specificity = p.kind.weigh (l.map Complex.specificity) := by
  obtain ⟨name, element, argument, selector⟩ := p
  obtain rfl := hl
  rw [← SelectorList.memberSpecificities_eq_map]
  exact if_pos h

/-- A compound selector weighs what its simple selectors weigh together. -/
theorem Compound.specificity_eq (c : Compound) :
    Compound.specificity c = Specificity.sum (c.map Simple.specificity) := by
  induction c with
  | nil => rfl
  | cons s c ih => rw [Compound.specificity, ih]; rfl

/-- A path weighs what its compound selectors weigh together. -/
theorem Path.specificity_eq (p : Path) : Path.specificity p =
    Specificity.sum (p.map fun d ↦ Compound.specificity d.compound) := by
  induction p with
  | nil => rfl
  | cons d p ih =>
    cases d
    rw [Path.specificity, ih]
    rfl

theorem Complex.specificity_eq (c : Complex) : c.specificity = Path.specificity c.components := by
  cases c
  rfl

/-! ### Weights of words -/

/-- The weight of a part; a combinator has none. -/
def Part.specificity : Part → Specificity
  | .combinator _ => .zero
  | .compound c => Compound.specificity c

theorem Part.sum_combinators (ks : List Combinator) :
    ((ks.map Part.combinator).map Part.specificity).sum = 0 := by
  rw [List.map_map]
  exact List.sum_eq_zero fun s hs ↦ by
    obtain ⟨k, -, rfl⟩ := List.mem_map.1 hs
    rfl

/-- A complex selector weighs what the parts of its word weigh together. -/
theorem Complex.specificity_eq_word (c : Complex) :
    c.specificity = (c.word.map Part.specificity).sum := by
  obtain ⟨leading, components, lineBreak⟩ := c
  rw [Complex.word, List.map_append, List.sum_append, Part.sum_combinators, zero_add,
    Complex.specificity_eq, Path.specificity_eq, Specificity.sum_eq]
  induction components with
  | nil => rfl
  | cons d p ih =>
    rw [List.flatMap_cons, List.map_append, List.sum_append, ← ih, List.map_cons, List.map_cons,
      List.sum_cons, List.sum_cons, Part.sum_combinators, add_zero]
    rfl

/-- One selector after another weighs what the two weigh together. -/
theorem Complex.specificity_concatenate (c d : Complex) (force : Bool) :
    (c.concatenate d force).specificity = c.specificity + d.specificity := by
  simp only [Complex.specificity_eq_word, Complex.word_concatenate, List.map_append,
    List.sum_append]

end SelectorAlgebra

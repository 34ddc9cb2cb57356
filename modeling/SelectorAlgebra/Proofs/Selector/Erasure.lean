import SelectorAlgebra.Selector.Equality
import SelectorAlgebra.Selector.Parent
import SelectorAlgebra.Selector.Specificity

/-!
# Selectors without line breaks

Line breaks are erased part by part, and nothing else is changed. Main statements: erasing them once
more does nothing, so what is the same stays so, and neither the weight of a selector nor whether
there is a parent selector in it depends on them.
-/

namespace SelectorAlgebra

/-! ### Parts -/

/-- A component without line breaks. -/
def Component.eraseBreaks (d : Component) : Component :=
  { d with compound := Compound.eraseBreaks d.compound }

@[simp] theorem Component.compound_eraseBreaks (d : Component) :
    d.eraseBreaks.compound = Compound.eraseBreaks d.compound := rfl

theorem Compound.eraseBreaks_eq_map (c : Compound) :
    Compound.eraseBreaks c = c.map Simple.eraseBreaks := by
  induction c with
  | nil => rfl
  | cons s c ih => rw [Compound.eraseBreaks, ih, List.map_cons]

/-- Conditions are looked for in the same way where what is asked of each does not depend on line
breaks. -/
theorem Compound.any_eraseBreaks {f g : Simple → Bool} (h : ∀ s, f s.eraseBreaks = g s)
    (c : Compound) : (Compound.eraseBreaks c).any f = c.any g := by
  rw [eraseBreaks_eq_map, List.any_map, ← funext h]
  rfl

theorem Compound.filterMap_eraseBreaks {α : Type} {f g : Simple → Option α}
    (h : ∀ s, f s.eraseBreaks = g s) (c : Compound) :
    (Compound.eraseBreaks c).filterMap f = c.filterMap g := by
  rw [eraseBreaks_eq_map, List.filterMap_map, ← funext h]
  rfl

theorem Path.eraseBreaks_eq_map (p : Path) :
    Path.eraseBreaks p = p.map Component.eraseBreaks := by
  induction p with
  | nil => rfl
  | cons d p ih =>
    cases d
    rw [Path.eraseBreaks, ih, List.map_cons]
    rfl

theorem SelectorList.eraseBreaks_eq_map (l : SelectorList) :
    SelectorList.eraseBreaks l = l.map Complex.eraseBreaks := by
  induction l with
  | nil => rfl
  | cons c l ih => rw [SelectorList.eraseBreaks, ih, List.map_cons]

section Complex

variable (c : Complex)

@[simp] theorem Complex.leading_eraseBreaks : c.eraseBreaks.leading = c.leading := by
  cases c
  rfl

@[simp] theorem Complex.components_eraseBreaks :
    c.eraseBreaks.components = Path.eraseBreaks c.components := by
  cases c
  rfl

@[simp] theorem Complex.lineBreak_eraseBreaks : c.eraseBreaks.lineBreak = false := by
  cases c
  rfl

end Complex

section Pseudo

variable (p : Pseudo)

@[simp] theorem Pseudo.name_eraseBreaks : p.eraseBreaks.name = p.name := by
  obtain ⟨_, _, _, _ | _⟩ := p <;> rfl

@[simp] theorem Pseudo.element_eraseBreaks : p.eraseBreaks.element = p.element := by
  obtain ⟨_, _, _, _ | _⟩ := p <;> rfl

@[simp] theorem Pseudo.argument_eraseBreaks : p.eraseBreaks.argument = p.argument := by
  obtain ⟨_, _, _, _ | _⟩ := p <;> rfl

@[simp] theorem Pseudo.selector_eraseBreaks :
    p.eraseBreaks.selector = p.selector.map SelectorList.eraseBreaks := by
  obtain ⟨_, _, _, _ | _⟩ := p <;> rfl

@[simp] theorem Pseudo.kind_eraseBreaks : p.eraseBreaks.kind = p.kind := by
  simp only [Pseudo.kind, Pseudo.normalizedName, name_eraseBreaks]

@[simp] theorem Pseudo.isClass_eraseBreaks : p.eraseBreaks.isClass = p.isClass := by
  simp only [Pseudo.isClass, Pseudo.normalizedName, name_eraseBreaks, element_eraseBreaks]

end Pseudo

@[simp] theorem Simple.isPseudoElement_eraseBreaks (s : Simple) :
    s.eraseBreaks.isPseudoElement = s.isPseudoElement := by
  cases s with
  | pseudo p => simp only [Simple.eraseBreaks, isPseudoElement, Pseudo.isClass_eraseBreaks]
  | _ => rfl

/-! ### Bogus selectors -/

theorem Path.hasMultipleCombinators_eraseBreaks (p : Path) :
    Path.hasMultipleCombinators (Path.eraseBreaks p) = Path.hasMultipleCombinators p := by
  rw [Path.hasMultipleCombinators, Path.eraseBreaks_eq_map, List.any_map]
  rfl

theorem Complex.isBogus_eraseBreaks (c : Complex) : c.eraseBreaks.isBogus = c.isBogus := by
  have h : (Path.eraseBreaks c.components).getLast?.all (fun l ↦ !l.combinators.isEmpty) =
      c.components.getLast?.all fun l ↦ !l.combinators.isEmpty := by
    rw [Path.eraseBreaks_eq_map, List.getLast?_map, Option.all_map]
    rfl
  simp only [isBogus, hasMultipleCombinators, leading_eraseBreaks, components_eraseBreaks,
    Path.hasMultipleCombinators_eraseBreaks, h]

/-! ### Erasing once more -/

mutual

theorem Simple.eraseBreaks_eraseBreaks (s : Simple) :
    s.eraseBreaks.eraseBreaks = s.eraseBreaks := by
  match s with
  | .pseudo p => simp only [Simple.eraseBreaks, Pseudo.eraseBreaks_eraseBreaks p]
  | .universal _ | .type _ | .className _ | .id _ | .attribute _ | .placeholder _ | .parent _ => rfl

theorem Pseudo.eraseBreaks_eraseBreaks (p : Pseudo) :
    p.eraseBreaks.eraseBreaks = p.eraseBreaks := by
  match p with
  | ⟨_, _, _, none⟩ => rfl
  | ⟨_, _, _, some l⟩ => simp only [Pseudo.eraseBreaks, SelectorList.eraseBreaks_eraseBreaks l]

theorem SelectorList.eraseBreaks_eraseBreaks (l : SelectorList) :
    SelectorList.eraseBreaks (SelectorList.eraseBreaks l) = SelectorList.eraseBreaks l := by
  match l with
  | [] => rfl
  | c :: l =>
    simp only [SelectorList.eraseBreaks, Complex.eraseBreaks_eraseBreaks c,
      SelectorList.eraseBreaks_eraseBreaks l]

theorem Complex.eraseBreaks_eraseBreaks (c : Complex) :
    c.eraseBreaks.eraseBreaks = c.eraseBreaks := by
  match c with
  | ⟨_, p, _⟩ => simp only [Complex.eraseBreaks, Path.eraseBreaks_eraseBreaks p]

theorem Path.eraseBreaks_eraseBreaks (p : Path) :
    Path.eraseBreaks (Path.eraseBreaks p) = Path.eraseBreaks p := by
  match p with
  | [] => rfl
  | ⟨c, _⟩ :: p =>
    simp only [Path.eraseBreaks, Compound.eraseBreaks_eraseBreaks c, Path.eraseBreaks_eraseBreaks p]

theorem Compound.eraseBreaks_eraseBreaks (c : Compound) :
    Compound.eraseBreaks (Compound.eraseBreaks c) = Compound.eraseBreaks c := by
  match c with
  | [] => rfl
  | s :: c =>
    simp only [Compound.eraseBreaks, Simple.eraseBreaks_eraseBreaks s,
      Compound.eraseBreaks_eraseBreaks c]

end

theorem Simple.same_eraseBreaks (s t : Simple) : s.eraseBreaks.same t.eraseBreaks = s.same t := by
  rw [Bool.eq_iff_iff, same_iff, same_iff, eraseBreaks_eraseBreaks, eraseBreaks_eraseBreaks]

theorem SelectorList.same_eraseBreaks (k l : SelectorList) :
    SelectorList.same (SelectorList.eraseBreaks k) (SelectorList.eraseBreaks l) =
      SelectorList.same k l := by
  rw [Bool.eq_iff_iff, same_iff, same_iff, eraseBreaks_eraseBreaks, eraseBreaks_eraseBreaks]

theorem Path.same_eraseBreaks (p q : Path) :
    Path.same (Path.eraseBreaks p) (Path.eraseBreaks q) = Path.same p q := by
  rw [Bool.eq_iff_iff, same_iff, same_iff, eraseBreaks_eraseBreaks, eraseBreaks_eraseBreaks]

/-! ### Parent selectors and weights -/

mutual

theorem Simple.hasParent_eraseBreaks (s : Simple) : s.eraseBreaks.hasParent = s.hasParent := by
  match s with
  | .pseudo p => exact p.hasParent_eraseBreaks
  | .universal _ | .type _ | .className _ | .id _ | .attribute _ | .placeholder _ | .parent _ => rfl

theorem Pseudo.hasParent_eraseBreaks (p : Pseudo) : p.eraseBreaks.hasParent = p.hasParent := by
  match p with
  | ⟨_, _, _, none⟩ => rfl
  | ⟨_, _, _, some l⟩ => exact SelectorList.hasParent_eraseBreaks l

theorem SelectorList.hasParent_eraseBreaks (l : SelectorList) :
    SelectorList.hasParent (SelectorList.eraseBreaks l) = SelectorList.hasParent l := by
  match l with
  | [] => rfl
  | c :: l =>
    simp only [SelectorList.eraseBreaks, SelectorList.hasParent, c.hasParent_eraseBreaks,
      SelectorList.hasParent_eraseBreaks l]

theorem Complex.hasParent_eraseBreaks (c : Complex) : c.eraseBreaks.hasParent = c.hasParent := by
  match c with
  | ⟨_, p, _⟩ => exact Path.hasParent_eraseBreaks p

theorem Path.hasParent_eraseBreaks (p : Path) :
    Path.hasParent (Path.eraseBreaks p) = Path.hasParent p := by
  match p with
  | [] => rfl
  | ⟨c, _⟩ :: p =>
    simp only [Path.eraseBreaks, Path.hasParent, Compound.hasParent_eraseBreaks c,
      Path.hasParent_eraseBreaks p]

theorem Compound.hasParent_eraseBreaks (c : Compound) :
    Compound.hasParent (Compound.eraseBreaks c) = Compound.hasParent c := by
  match c with
  | [] => rfl
  | s :: c =>
    simp only [Compound.eraseBreaks, Compound.hasParent, s.hasParent_eraseBreaks,
      Compound.hasParent_eraseBreaks c]

end

mutual

theorem Simple.specificity_eraseBreaks (s : Simple) :
    s.eraseBreaks.specificity = s.specificity := by
  match s with
  | .pseudo p => exact p.specificity_eraseBreaks
  | .universal _ | .type _ | .className _ | .id _ | .attribute _ | .placeholder _ | .parent _ => rfl

theorem Pseudo.specificity_eraseBreaks (p : Pseudo) :
    p.eraseBreaks.specificity = p.specificity := by
  match p with
  | ⟨_, _, _, none⟩ => rfl
  | ⟨_, _, _, some l⟩ =>
    simp only [Pseudo.eraseBreaks, Pseudo.specificity,
      SelectorList.memberSpecificities_eraseBreaks l]

theorem SelectorList.memberSpecificities_eraseBreaks (l : SelectorList) :
    SelectorList.memberSpecificities (SelectorList.eraseBreaks l) =
      SelectorList.memberSpecificities l := by
  match l with
  | [] => rfl
  | c :: l =>
    simp only [SelectorList.eraseBreaks, SelectorList.memberSpecificities,
      c.specificity_eraseBreaks, SelectorList.memberSpecificities_eraseBreaks l]

theorem Complex.specificity_eraseBreaks (c : Complex) :
    c.eraseBreaks.specificity = c.specificity := by
  match c with
  | ⟨_, p, _⟩ => exact Path.specificity_eraseBreaks p

theorem Path.specificity_eraseBreaks (p : Path) :
    Path.specificity (Path.eraseBreaks p) = Path.specificity p := by
  match p with
  | [] => rfl
  | ⟨c, _⟩ :: p =>
    simp only [Path.eraseBreaks, Path.specificity, Compound.specificity_eraseBreaks c,
      Path.specificity_eraseBreaks p]

theorem Compound.specificity_eraseBreaks (c : Compound) :
    Compound.specificity (Compound.eraseBreaks c) = Compound.specificity c := by
  match c with
  | [] => rfl
  | s :: c =>
    simp only [Compound.eraseBreaks, Compound.specificity, s.specificity_eraseBreaks,
      Compound.specificity_eraseBreaks c]

end

theorem SelectorList.specificity_eraseBreaks (l : SelectorList) :
    SelectorList.specificity (SelectorList.eraseBreaks l) = SelectorList.specificity l := by
  rw [specificity, specificity, memberSpecificities_eraseBreaks]

end SelectorAlgebra

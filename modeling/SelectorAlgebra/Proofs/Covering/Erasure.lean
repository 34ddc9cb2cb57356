import SelectorAlgebra.Proofs.Covering.Composition
import SelectorAlgebra.Proofs.Covering.Rules
import SelectorAlgebra.Proofs.Selector.Erasure

/-!
# Covering without line breaks

No rule of covering looks at a line break: each of them gives the same answer when the line breaks
of both sides are erased, as long as the relation that it asks about nested selectors does. Main
statement: line breaks do not matter to the covering relation, whatever the selectors are.
-/

namespace SelectorAlgebra

namespace Covering

/-- A relation to which line breaks do not matter. -/
structure IgnoresBreaks (r : Covering) : Prop where
  simple : ∀ s t : Simple, r.simple s.eraseBreaks t.eraseBreaks = r.simple s t
  path : ∀ p q : Path, r.path (Path.eraseBreaks p) (Path.eraseBreaks q) = r.path p q

/-! ### What does not ask the inner relation -/

theorem arguments_eraseBreaks (c : Compound) (name : String) (isClass : Bool) :
    arguments (Compound.eraseBreaks c) name isClass =
      (arguments c name isClass).map SelectorList.eraseBreaks := by
  rw [arguments, arguments, List.map_filterMap]
  refine Compound.filterMap_eraseBreaks (fun s ↦ ?_) c
  cases s with
  | pseudo p =>
    simp only [Simple.eraseBreaks, Pseudo.isClass_eraseBreaks, Pseudo.name_eraseBreaks,
      Pseudo.selector_eraseBreaks]
    split <;> rfl
  | _ => rfl

theorem typeNames_eraseBreaks (c : Compound) :
    Compound.typeNames (Compound.eraseBreaks c) = Compound.typeNames c :=
  Compound.filterMap_eraseBreaks (fun s ↦ by cases s <;> rfl) c

theorem idNames_eraseBreaks (c : Compound) :
    Compound.idNames (Compound.eraseBreaks c) = Compound.idNames c :=
  Compound.filterMap_eraseBreaks (fun s ↦ by cases s <;> rfl) c

theorem isUnsatisfiable_eraseBreaks (c : Compound) :
    isUnsatisfiable (Compound.eraseBreaks c) = isUnsatisfiable c := by
  rw [isUnsatisfiable_eq, isUnsatisfiable_eq, typeNames_eraseBreaks, idNames_eraseBreaks]

theorem subject_eraseBreaks (d : Compound) :
    subject (Compound.eraseBreaks d) = Compound.eraseBreaks (subject d) := by
  cases d <;> rfl

/-- A compound selector is split at the same pseudo-element. -/
theorem atPseudoElement_eraseBreaks (c : Compound) : atPseudoElement (Compound.eraseBreaks c) =
    (atPseudoElement c).map fun x ↦
      (Compound.eraseBreaks x.1, x.2.1.eraseBreaks, Compound.eraseBreaks x.2.2) := by
  have hclass : (fun s : Simple ↦ !s.isPseudoElement) ∘ Simple.eraseBreaks =
      fun s ↦ !s.isPseudoElement := by
    funext s
    simp
  simp only [atPseudoElement, Compound.eraseBreaks_eq_map, List.dropWhile_map, List.takeWhile_map,
    hclass]
  cases c.dropWhile fun s ↦ !s.isPseudoElement <;> rfl

/-! ### Rules -/

namespace IgnoresBreaks

variable {r : Covering} (h : r.IgnoresBreaks)
include h

theorem complex (c d : Complex) : r.complex c.eraseBreaks d.eraseBreaks = r.complex c d := by
  simp only [Covering.complex, Complex.leading_eraseBreaks, Complex.components_eraseBreaks, h.path]

theorem list (k l : SelectorList) :
    r.list (SelectorList.eraseBreaks k) (SelectorList.eraseBreaks l) = r.list k l := by
  simp only [Covering.list, SelectorList.eraseBreaks_eq_map, List.all_map, List.any_map,
    Function.comp_def, h.complex]

/-- A simple selector covers the same ones among the conditions of a subject. -/
theorem any_simple (s : Simple) (c : Compound) :
    (Compound.eraseBreaks c).any (r.simple s.eraseBreaks) = c.any (r.simple s) :=
  Compound.any_eraseBreaks (h.simple s) c

/-- A list covers the same lists of the pseudo selectors of a name. -/
theorem any_arguments (l : SelectorList) (c : Compound) (name : String) (isClass : Bool) :
    (arguments (Compound.eraseBreaks c) name isClass).any (r.list (SelectorList.eraseBreaks l)) =
      (arguments c name isClass).any (r.list l) := by
  simp only [arguments_eraseBreaks, List.any_map, Function.comp_def, h.list]

theorem coversArgument (s t : Simple) :
    r.coversArgument s.eraseBreaks t.eraseBreaks = r.coversArgument s t := by
  cases t with
  | pseudo p =>
    simp only [Simple.eraseBreaks, Covering.coversArgument, Pseudo.isClass_eraseBreaks,
      Pseudo.kind_eraseBreaks, Pseudo.selector_eraseBreaks, Option.any_map,
      SelectorList.eraseBreaks_eq_map, List.all_map, Function.comp_def,
      Complex.components_eraseBreaks, Path.eraseBreaks_eq_map, List.getLast?_map,
      Component.compound_eraseBreaks, h.any_simple]
  | _ => rfl

theorem excludes (name : String) (c : Complex) (subject : Compound) (t : Simple) :
    r.excludes name c.eraseBreaks (Compound.eraseBreaks subject) t.eraseBreaks =
      r.excludes name c subject t := by
  cases t with
  | type m | id m => exact Compound.any_eraseBreaks (fun s ↦ by cases s <;> rfl) subject
  | pseudo q =>
    have hlist (l : SelectorList) :
        r.list (SelectorList.eraseBreaks l) [c.eraseBreaks] = r.list l [c] := h.list l [c]
    simp only [Simple.eraseBreaks, Covering.excludes, Pseudo.name_eraseBreaks,
      Pseudo.selector_eraseBreaks, Option.any_map, hlist]
  | _ => rfl

theorem coversCompound (p : Pseudo) (l : SelectorList) (d : Compound) (parents : Path) :
    r.coversCompound p.eraseBreaks (SelectorList.eraseBreaks l) (Compound.eraseBreaks d)
      (Path.eraseBreaks parents) = r.coversCompound p l d parents := by
  rw [Covering.coversCompound, Covering.coversCompound, Pseudo.kind_eraseBreaks,
    Pseudo.name_eraseBreaks]
  cases p.kind with
  | matching | weightless =>
    have hpath (c : Complex) : r.path (Path.eraseBreaks c.components)
        (Path.eraseBreaks parents ++ [⟨Compound.eraseBreaks d, []⟩]) =
          r.path c.components (parents ++ [⟨d, []⟩]) := by
      rw [← h.path c.components, Path.eraseBreaks_eq_map (parents ++ _), List.map_append,
        ← Path.eraseBreaks_eq_map]
      rfl
    simp only [h.any_arguments]
    simp only [SelectorList.eraseBreaks_eq_map, List.any_map, Function.comp_def,
      Complex.leading_eraseBreaks, Complex.components_eraseBreaks, hpath]
  | relational | slotted => exact h.any_arguments l d p.name _
  | negation =>
    have hexcludes (c : Complex) (subject : Compound) :
        (Compound.eraseBreaks d).any
          (r.excludes p.name c.eraseBreaks (Compound.eraseBreaks subject)) =
          d.any (r.excludes p.name c subject) :=
      Compound.any_eraseBreaks (h.excludes p.name c subject) d
    simp only [SelectorList.eraseBreaks_eq_map, List.all_map, Function.comp_def,
      Complex.isBogus_eraseBreaks, Complex.components_eraseBreaks, Path.eraseBreaks_eq_map,
      List.getLast?_map, Option.any_map, Component.compound_eraseBreaks, hexcludes]
  | current =>
    simp only [arguments_eraseBreaks, List.any_map, Function.comp_def,
      SelectorList.same_eraseBreaks]
  | counting =>
    refine Compound.any_eraseBreaks (fun s ↦ ?_) d
    cases s with
    | pseudo q =>
      simp only [Simple.eraseBreaks, Pseudo.name_eraseBreaks, Pseudo.argument_eraseBreaks,
        Pseudo.selector_eraseBreaks, Option.any_map, h.list]
    | _ => rfl
  | plain => rfl

theorem sameOrArgument (s t : Simple) :
    r.sameOrArgument s.eraseBreaks t.eraseBreaks = r.sameOrArgument s t := by
  rw [Covering.sameOrArgument, Covering.sameOrArgument, Simple.same_eraseBreaks, h.coversArgument]

theorem coversSimple (s t : Simple) :
    r.coversSimple s.eraseBreaks t.eraseBreaks = r.coversSimple s t := by
  have hsame := h.sameOrArgument s t
  cases s with
  | pseudo p =>
    have hlist (l : SelectorList) : r.coversCompound p.eraseBreaks (SelectorList.eraseBreaks l)
        [t.eraseBreaks] [] = r.coversCompound p l [t] [] := h.coversCompound p l [t] []
    simp only [Simple.eraseBreaks] at hsame ⊢
    simp only [Covering.coversSimple, hsame, Pseudo.selector_eraseBreaks, Option.any_map,
      Pseudo.isClass_eraseBreaks, Simple.isPseudoElement_eraseBreaks, hlist]
    cases t with
    | pseudo q =>
      simp only [Simple.eraseBreaks, Pseudo.isClass_eraseBreaks, Pseudo.kind_eraseBreaks,
        Pseudo.name_eraseBreaks, Pseudo.selector_eraseBreaks, Option.any_map, h.list]
    | _ => rfl
  | universal _ | type _ =>
    simp only [Simple.eraseBreaks] at hsame ⊢
    simp only [Covering.coversSimple, hsame]
    cases t <;> rfl
  | _ => exact hsame

/-- A simple selector covers the same ones among the conditions of a compound selector. -/
theorem any_coversSimple (s : Simple) (d : Compound) :
    (Compound.eraseBreaks d).any (r.coversSimple s.eraseBreaks) = d.any (r.coversSimple s) :=
  Compound.any_eraseBreaks (h.coversSimple s) d

theorem coversConditions (c d : Compound) (parents : Path) :
    r.coversConditions (Compound.eraseBreaks c) (Compound.eraseBreaks d)
      (Path.eraseBreaks parents) = r.coversConditions c d parents := by
  have hsubject := subject_eraseBreaks d
  simp only [subject] at hsubject
  rw [Covering.coversConditions, Covering.coversConditions, hsubject,
    Compound.eraseBreaks_eq_map c, List.all_map]
  congr 1
  funext s
  cases s with
  | pseudo p =>
    have hsome := h.any_coversSimple (.pseudo p)
    simp only [Simple.eraseBreaks] at hsome
    cases hl : p.selector <;>
      simp only [Function.comp_apply, Simple.eraseBreaks, Pseudo.selector_eraseBreaks, hl,
        Option.map_none, Option.map_some, Pseudo.isClass_eraseBreaks, h.coversCompound, hsome]
  | _ => exact h.any_coversSimple _ _

theorem compound (c d : Compound) (parents : Path) :
    r.compound (Compound.eraseBreaks c) (Compound.eraseBreaks d) (Path.eraseBreaks parents) =
      r.compound c d parents := by
  rw [Covering.compound, Covering.compound, isUnsatisfiable_eraseBreaks,
    atPseudoElement_eraseBreaks, atPseudoElement_eraseBreaks]
  cases atPseudoElement c with
  | none =>
    cases atPseudoElement d with
    | none => simp only [Option.map_none, h.coversConditions]
    | some y => rfl
  | some x =>
    cases atPseudoElement d with
    | none => rfl
    | some y => simp only [Option.map_some, h.coversSimple, h.coversConditions]

theorem coversPath (p q : Path) :
    r.coversPath (Path.eraseBreaks p) (Path.eraseBreaks q) = r.coversPath p q := by
  have haligned : Alignment.Aligned r.compound none (Path.eraseBreaks p) (Path.eraseBreaks q) ↔
      Alignment.Aligned r.compound none p q := by
    rw [Path.eraseBreaks_eq_map, Path.eraseBreaks_eq_map]
    refine Alignment.aligned_map_iff (fun _ ↦ rfl) fun c d gap ↦ ?_
    rw [← Path.eraseBreaks_eq_map]
    exact h.compound c.compound d.compound gap
  have hproper (p : Path) : (Path.eraseBreaks p).IsProper ↔ p.IsProper := by
    rw [Path.isProper_iff, Path.isProper_iff, Path.hasMultipleCombinators_eraseBreaks,
      Path.eraseBreaks_eq_map, List.getLast?_map, Option.any_map]
    rfl
  have hempty : Path.eraseBreaks p = [] ↔ p = [] := by
    rw [Path.eraseBreaks_eq_map, List.map_eq_nil_iff]
  rw [Bool.eq_iff_iff, Covering.coversPath_iff, Covering.coversPath_iff, haligned, hproper, hproper,
    ne_eq, hempty, Path.same_eraseBreaks]

theorem next : r.next.IgnoresBreaks := ⟨h.coversSimple, h.coversPath⟩

end IgnoresBreaks

/-! ### The relation itself -/

theorem stage_ignoresBreaks (n : Nat) : (stage n).IgnoresBreaks := by
  induction n with
  | zero => exact ⟨fun _ _ ↦ rfl, fun _ _ ↦ rfl⟩
  | succ n ih => exact ih.next

/-- Line breaks do not matter to the relation: a stage past the depth of a pair, with line breaks or
without, answers for both. -/
theorem whole_ignoresBreaks : whole.IgnoresBreaks where
  simple s t := by
    let n := max (s.depth + t.depth) (s.eraseBreaks.depth + t.eraseBreaks.depth) + 1
    have hstage := whole_agreeBelow_stage n
    rw [hstage.simple s t (by omega), hstage.simple s.eraseBreaks t.eraseBreaks (by omega),
      (stage_ignoresBreaks n).simple]
  path p q := by
    let n := max (Path.depth p + Path.depth q)
      (Path.depth (Path.eraseBreaks p) + Path.depth (Path.eraseBreaks q)) + 1
    have hstage := whole_agreeBelow_stage n
    rw [hstage.path p q (by omega), hstage.path _ _ (by omega), (stage_ignoresBreaks n).path]

end Covering

/-- A compound selector covers another behind some components if it does without line breaks. -/
theorem Compound.coversBehind_eraseBreaks (c d : Compound) (parents : Path) :
    Compound.coversBehind (Compound.eraseBreaks c) (Compound.eraseBreaks d)
      (Path.eraseBreaks parents) = Compound.coversBehind c d parents := by
  rw [Compound.coversBehind_eq, Compound.coversBehind_eq, Covering.whole_ignoresBreaks.compound]

theorem Complex.covers_eraseBreaks (c d : Complex) :
    c.eraseBreaks.covers d.eraseBreaks = c.covers d := by
  rw [Complex.covers_eq, Complex.covers_eq, Covering.whole_ignoresBreaks.complex]

/-- A list covers another exactly if it does without line breaks. -/
theorem SelectorList.covers_eraseBreaks (k l : SelectorList) :
    SelectorList.covers (SelectorList.eraseBreaks k) (SelectorList.eraseBreaks l) =
      SelectorList.covers k l := by
  simp only [SelectorList.covers_eq, SelectorList.eraseBreaks_eq_map, List.all_map, List.any_map,
    Function.comp_def, Complex.covers_eraseBreaks]

end SelectorAlgebra

import Mathlib
import SelectorAlgebra.Proofs.Covering.Rules
import SelectorAlgebra.Proofs.Parser.Written

/-!
# Covering and pseudo-elements

A pseudo-element changes what a compound selector is about. Main statement: where one compound
selector covers another, their first pseudo-elements cover each other. Those that stand after the
first are compared as conditions are, so the second side may have more of them, and the two sides
correspond throughout exactly if they do after the first.
-/

namespace SelectorAlgebra

/-- The pseudo-elements of a compound selector, in order. -/
def Compound.pseudoElements (c : Compound) : Compound :=
  c.filter Simple.isPseudoElement

namespace Covering

variable {c d : Compound} {parents : Path}

theorem pseudoElements_of_atPseudoElement_none (h : atPseudoElement c = none) :
    Compound.pseudoElements c = [] :=
  List.filter_eq_nil_iff.2 fun s hs ↦ by simp [atPseudoElement_eq_none_iff.1 h s hs]

theorem pseudoElements_of_atPseudoElement_some {before after : Compound} {e : Simple}
    (h : atPseudoElement c = some (before, e, after)) :
    Compound.pseudoElements c = e :: Compound.pseudoElements after := by
  obtain ⟨rfl, hnone, he⟩ := atPseudoElement_eq_some_iff.1 h
  have hbefore : before.filter Simple.isPseudoElement = [] :=
    List.filter_eq_nil_iff.2 fun s hs ↦ by simp [hnone s hs]
  rw [Compound.pseudoElements, List.filter_append, hbefore, List.nil_append,
    List.filter_cons_of_pos he]
  rfl

/-- A pseudo-element covers some condition that is there; that there is an element is not enough. -/
theorem exists_covers_of_coversConditions {e : Simple} (he : e.isPseudoElement = true) (hc : e ∈ c)
    (h : whole.coversConditions c d parents = true) : ∃ t ∈ d, e.covers t = true := by
  simp only [Simple.covers_eq]
  cases coversConditions_iff.1 h e hc with
  | list hl hclass => simp [Simple.isPseudoElement, hclass] at he
  | @some _ t hs ht hcovers =>
    refine ⟨t, (mem_subject_iff ?_).1 ht, hcovers⟩
    rintro rfl
    rw [eq_of_coversSimple_anything hs hcovers] at he
    cases he

end Covering

namespace Compound

open Covering

variable {c d : Compound} {parents : Path}

/-- Where a compound selector covers another that is read from a text and does not contain two ids,
the first pseudo-elements cover each other, and each further one of the first side covers some
condition behind the first one of the second side. So the pseudo-elements correspond in number and
in order exactly if those after the first do. -/
theorem forall₂_pseudoElements_iff {text : String} {options : ParseOptions}
    (hread : (Compound.parse text options).result = .ok d)
    (hids : ∀ m n, Simple.id m ∈ d → Simple.id n ∈ d → m = n)
    (h : Compound.coversBehind c d parents = true) :
    Option.Rel (fun e f ↦ e.covers f = true) (pseudoElements c).head? (pseudoElements d).head? ∧
    (∀ e ∈ (pseudoElements c).tail, ∃ before f after,
      atPseudoElement d = some (before, f, after) ∧ ∃ t ∈ after, e.covers t = true) ∧
    (List.Forall₂ (fun e f ↦ e.covers f = true) (pseudoElements c) (pseudoElements d) ↔
      List.Forall₂ (fun e f ↦ e.covers f = true) (pseudoElements c).tail
        (pseudoElements d).tail) := by
  have hsatisfiable : isUnsatisfiable d ≠ true := by
    rw [Ne, isUnsatisfiable_iff_of_written (Compound.written_of_parse (fun _ _ ↦ trivial) hread).1]
    rintro ⟨m, n, hm, hn, hne⟩
    exact hne (hids m n hm hn)
  rw [Compound.coversBehind_eq, compound_iff] at h
  cases h.resolve_left hsatisfiable with
  | conditions hc hd =>
    rw [pseudoElements_of_atPseudoElement_none hc, pseudoElements_of_atPseudoElement_none hd]
    simp
  | @element before after before' after' e f hc hd he _ hafter =>
    rw [← Simple.covers_eq] at he
    rw [pseudoElements_of_atPseudoElement_some hc, pseudoElements_of_atPseudoElement_some hd]
    refine ⟨.some he, fun s hs ↦ ⟨before', f, after', hd, ?_⟩, ?_⟩
    · obtain ⟨hmem, hpseudo⟩ := List.mem_filter.1 hs
      exact exists_covers_of_coversConditions hpseudo hmem hafter
    · rw [List.forall₂_cons]
      exact and_iff_right he

/-- The pseudo-elements of `::slotted(.a)::before` and `x::slotted(.a.b)::before` correspond. -/
theorem forall₂_pseudoElements_slotted :
    List.Forall₂ (fun e f : Simple ↦ e.covers f = true)
      [.pseudo ⟨"slotted", true, none, some [.ofCompound [.className "a"]]⟩,
        .pseudo ⟨"before", true, none, none⟩]
      [.pseudo ⟨"slotted", true, none, some [.ofCompound [.className "a", .className "b"]]⟩,
        .pseudo ⟨"before", true, none, none⟩] := by
  have hread : (Compound.parse "x::slotted(.a.b)::before").result = .ok [.type ⟨none, "x"⟩,
      .pseudo ⟨"slotted", true, none, some [.ofCompound [.className "a", .className "b"]]⟩,
      .pseudo ⟨"before", true, none, none⟩] := by cbv
  have h := @forall₂_pseudoElements_iff
    [.pseudo ⟨"slotted", true, none, some [.ofCompound [.className "a"]]⟩,
      .pseudo ⟨"before", true, none, none⟩] _ [] _ _ hread (by simp) (by decide +kernel)
  exact h.2.2.2 (.cons (by decide +kernel) .nil)

/-- `::before` covers `::before::marker`, which has a pseudo-element more. -/
theorem not_forall₂_pseudoElements :
    ¬ ∀ (k l : String) (c d : Compound) (parents : Path), (Compound.parse k).result = .ok c →
      (Compound.parse l).result = .ok d → (∀ m n, Simple.id m ∈ d → Simple.id n ∈ d → m = n) →
      Compound.coversBehind c d parents = true →
      List.Forall₂ (fun e f ↦ e.covers f = true) (pseudoElements c) (pseudoElements d) := by
  intro h
  have hbefore : (Compound.parse "::before").result =
      .ok [.pseudo ⟨"before", true, none, none⟩] := by cbv
  have hmarker : (Compound.parse "::before::marker").result =
      .ok [.pseudo ⟨"before", true, none, none⟩, .pseudo ⟨"marker", true, none, none⟩] := by cbv
  have hboth : List.Forall₂ (fun e f : Simple ↦ e.covers f = true)
      [.pseudo ⟨"before", true, none, none⟩]
      [.pseudo ⟨"before", true, none, none⟩, .pseudo ⟨"marker", true, none, none⟩] :=
    h _ _ _ _ [] hbefore hmarker (by simp) (by decide +kernel)
  cases hboth with
  | cons _ hrest => cases hrest

end Compound

end SelectorAlgebra

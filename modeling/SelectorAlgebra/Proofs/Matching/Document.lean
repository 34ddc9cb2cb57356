import SelectorAlgebra.Selector.Basic
import Mathlib.Data.List.Infix

/-!
# Documents

What selectors select from: a finite ordered forest of elements. A place in it is told by the index
of an element among its siblings, and then those of its ancestors, the parent's first. For each
combinator the places that it leads from are listed.
-/

namespace SelectorAlgebra

/-- An element, as far as a selector looks at one. What a selector cannot look into is a condition
that holds or does not. -/
structure Element where
  name : String
  ns : String := ""
  id : Option String := none
  classes : List String := []
  attributes : AttributeSelector → Bool := fun _ ↦ false
  placeholders : String → Bool := fun _ ↦ false
  parents : Option String → Bool := fun _ ↦ false
  /-- The pseudo-classes without a selector list, by name and argument. -/
  pseudoClasses : String → Option String → Bool := fun _ _ ↦ false

/-- Whether an element is in a namespace: any where none is written and for `*`. -/
def Element.inNamespace (e : Element) : Option String → Bool
  | none => true
  | some ns => ns == "*" || e.ns == ns

/-- An element and what it contains. -/
inductive Tree where
  | node (element : Element) (children : List Tree)

/-- The element at the root of a tree. -/
def Tree.element : Tree → Element
  | node element _ => element

/-- The trees right below the root of a tree. -/
def Tree.children : Tree → List Tree
  | node _ children => children

/-- Trees in order. -/
abbrev Forest := List Tree

/-- The index of an element among its siblings, then that of its parent, and so on. -/
abbrev Place := List Nat

namespace Forest

/-- The trees below a place, where the empty place stands for the whole forest. -/
def below (f : Forest) : Place → Forest
  | [] => f
  | i :: up => ((below f up)[i]?.map Tree.children).getD []

/-- The element at a place. -/
def element? (f : Forest) : Place → Option Element
  | [] => none
  | i :: up => (below f up)[i]?.map Tree.element

end Forest

namespace Place

/-- The places above a place, the parent first. -/
def ancestors : Place → List Place
  | [] => []
  | _ :: up => up :: ancestors up

/-- The places in front of a place, under the same parent. -/
def earlierSiblings : Place → List Place
  | [] => []
  | i :: up => (List.range i).map (· :: up)

/-- The places from which a combinator leads to a place. -/
def sources (x : Place) : Option Combinator → List Place
  | none => ancestors x
  | some .child => (ancestors x).take 1
  | some .followingSibling => earlierSiblings x
  | some .nextSibling =>
    match x with
    | (i + 1) :: up => [i :: up]
    | _ => []

theorem mem_earlierSiblings {i : Nat} {up z : Place} :
    z ∈ earlierSiblings (i :: up) ↔ ∃ j < i, j :: up = z := by
  simp only [earlierSiblings, List.mem_map, List.mem_range]

/-- What a combinator leads from, put by cases. -/
theorem mem_sources_iff {k : Option Combinator} {x y : Place} :
    y ∈ sources x k ↔ match k with
      | none => y ∈ ancestors x
      | some .child => ∃ i, x = i :: y
      | some .nextSibling => ∃ i up, x = (i + 1) :: up ∧ y = i :: up
      | some .followingSibling => y ∈ earlierSiblings x := by
  match k with
  | none | some .followingSibling => rfl
  | some .child => cases x <;> simp [sources, ancestors, eq_comm]
  | some .nextSibling => rcases x with _ | ⟨_ | i, up⟩ <;> simp [sources]

/-- A combinator leads from all places from which one that it covers leads. -/
theorem sources_subset {k k' : Option Combinator} (h : Combinator.covers k k' = true)
    (x : Place) : sources x k' ⊆ sources x k := by
  intro y hy
  simp only [Combinator.covers, Bool.or_eq_true, Bool.and_eq_true, beq_iff_eq] at h
  rcases h with (rfl | ⟨rfl, rfl⟩) | ⟨rfl, rfl⟩
  · exact hy
  · obtain ⟨i, rfl⟩ := mem_sources_iff.1 hy
    exact .head _
  · obtain ⟨i, up, rfl, rfl⟩ := mem_sources_iff.1 hy
    exact mem_earlierSiblings.2 ⟨i, Nat.lt_succ_self i, rfl⟩

theorem ancestors_of_mem_ancestors {x y : Place} (h : y ∈ ancestors x) :
    ancestors y ⊆ ancestors x := by
  induction x with
  | nil => cases h
  | cons i up ih =>
    rcases List.mem_cons.1 h with rfl | h
    · exact List.subset_cons_self _ _
    · exact List.Subset.trans (ih h) (List.subset_cons_self _ _)

/-- Whatever combinator leads to a place leads from one whose ancestors are its own. -/
theorem ancestors_of_mem_sources {k : Option Combinator} {x y : Place} (h : y ∈ sources x k) :
    ancestors y ⊆ ancestors x := by
  match k with
  | none => exact ancestors_of_mem_ancestors h
  | some .child =>
    obtain ⟨i, rfl⟩ := mem_sources_iff.1 h
    exact List.subset_cons_self _ _
  | some .nextSibling =>
    obtain ⟨i, up, rfl, rfl⟩ := mem_sources_iff.1 h
    exact List.Subset.refl _
  | some .followingSibling =>
    cases x with
    | nil => cases h
    | cons i up =>
      obtain ⟨j, -, rfl⟩ := mem_earlierSiblings.1 h
      exact List.Subset.refl _

/-- What stands in front of a sibling in front stands in front. -/
theorem earlierSiblings_of_mem_sources {k : Option Combinator} {x y : Place}
    (hk : Combinator.covers (some .followingSibling) k = true) (h : y ∈ sources x k) :
    earlierSiblings y ⊆ earlierSiblings x := by
  have hy : y ∈ earlierSiblings x := sources_subset hk x h
  cases x with
  | nil => cases hy
  | cons i up =>
    obtain ⟨j, hj, rfl⟩ := mem_earlierSiblings.1 hy
    intro z hz
    obtain ⟨n, hn, rfl⟩ := mem_earlierSiblings.1 hz
    exact mem_earlierSiblings.2 ⟨n, hn.trans hj, rfl⟩

end Place

end SelectorAlgebra

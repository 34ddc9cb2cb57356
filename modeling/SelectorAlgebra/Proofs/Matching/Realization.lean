import Mathlib
import SelectorAlgebra.Proofs.Matching.Semantics
import SelectorAlgebra.Proofs.Selector.Everywhere

/-!
# Documents for elementary selectors

What types, ids and classes ask of an element can be asked of it at once, unless two types or two
ids contradict each other. Main statements: a compound selector of these sorts matches some element
exactly if it does not contradict itself, and a path of such compound selectors matches somewhere in
a document that is made for it.
-/

namespace SelectorAlgebra

/-- Selectors of types, ids and classes only. -/
def Shape.elementary : Shape where
  simple
    | .type _ | .id _ | .className _ => True
    | _ => False

/-- Whether no element is of both types: the names differ, or both ask for a namespace and these
differ. -/
def QualifiedName.Excludes (m n : QualifiedName) : Prop :=
  m.name ≠ n.name ∨ ∃ v w, (m.ns = some v ∧ v ≠ "*") ∧ (n.ns = some w ∧ w ≠ "*") ∧ v ≠ w

namespace Compound

/-- Whether two types of a compound selector exclude each other, or it names two ids. -/
def Clashes (c : Compound) : Prop :=
  (∃ m n, .type m ∈ c ∧ .type n ∈ c ∧ m.Excludes n) ∨ ∃ m n, .id m ∈ c ∧ .id n ∈ c ∧ m ≠ n

/-- The classes that a compound selector names. -/
def classNames (c : Compound) : List String :=
  c.filterMap fun | .className n => some n | _ => none

/-- Whether a compound selector matches an element wherever it stands. -/
def Fits (c : Compound) (e : Element) : Prop :=
  ∀ f x, Forest.element? f x = some e → Compound.selects f c x = true

variable {c d : Compound} {f : Forest} {x : Place}

theorem Clashes.mono (h : c.Clashes) (hcd : c ⊆ d) : d.Clashes := by
  refine h.imp ?_ ?_
  · exact fun ⟨m, n, hm, hn, hmn⟩ ↦ ⟨m, n, hcd hm, hcd hn, hmn⟩
  · exact fun ⟨m, n, hm, hn, hmn⟩ ↦ ⟨m, n, hcd hm, hcd hn, hmn⟩

theorem selects_append : Compound.selects f (c ++ d) x = true ↔
    Compound.selects f c x = true ∧ Compound.selects f d x = true := by
  simp only [Compound.selects_iff, List.forall_mem_append]
  exact and_and_left

theorem Fits.of_append {e : Element} (h : Fits (c ++ d) e) : Fits c e ∧ Fits d e :=
  ⟨fun f x he ↦ (selects_append.1 (h f x he)).1, fun f x he ↦ (selects_append.1 (h f x he)).2⟩

/-- No element satisfies two conditions that contradict each other. -/
theorem Clashes.not_selects (h : c.Clashes) : Compound.selects f c x = false := by
  apply Bool.eq_false_iff.2
  intro hx
  obtain ⟨he, hall⟩ := Compound.selects_iff.1 hx
  obtain ⟨e, he⟩ := Option.isSome_iff_exists.1 he
  rcases h with ⟨m, n, hm, hn, hmn⟩ | ⟨m, n, hm, hn, hmn⟩
  · have hm := hall _ hm
    have hn := hall _ hn
    simp only [Simple.selects, he, Option.any_some, Bool.and_eq_true, beq_iff_eq] at hm hn
    rcases hmn with hname | ⟨v, w, ⟨hv, hv'⟩, ⟨hw, hw'⟩, hvw⟩
    · exact hname (hm.2.symm.trans hn.2)
    · simp only [hv, hw, Element.inNamespace, Bool.or_eq_true, beq_iff_eq] at hm hn
      exact hvw ((hm.1.resolve_left hv').symm.trans (hn.1.resolve_left hw'))
  · have hm := hall _ hm
    have hn := hall _ hn
    simp only [Simple.selects, he, Option.any_some, beq_iff_eq] at hm hn
    exact hmn (Option.some.inj (hm.symm.trans hn))

theorem fits_of_elementary {e : Element} (hc : Compound.Each .elementary c)
    (htype : ∀ m, .type m ∈ c → e.name = m.name ∧ e.inNamespace m.ns = true)
    (hid : ∀ n, .id n ∈ c → e.id = some n) (hclass : ∀ n, .className n ∈ c → n ∈ e.classes) :
    c.Fits e := by
  intro f x hx
  refine Compound.selects_iff.2 ⟨by rw [hx]; rfl, fun s hs ↦ ?_⟩
  have helementary := (Compound.each_iff.1 hc s hs).simple
  cases s with
  | type m => simp [Simple.selects, hx, htype m hs]
  | id n => simp [Simple.selects, hx, hid n hs]
  | className n => simp [Simple.selects, hx, hclass n hs]
  | _ => cases helementary

/-- Values that are all equal are one value, which may as well be asked for where there is none. -/
private theorem exists_forall_eq {P : String → Prop} (h : ∀ a b, P a → P b → a = b) :
    ∃ v, ∀ a, P a → a = v := by
  by_cases hP : ∃ a, P a
  · obtain ⟨v, hv⟩ := hP
    exact ⟨v, fun a ha ↦ h a v ha hv⟩
  · exact ⟨"", fun a ha ↦ absurd ⟨a, ha⟩ hP⟩

/-- Conditions that do not contradict each other are those of some element. -/
theorem exists_fits (hc : Compound.Each .elementary c) (h : ¬ c.Clashes) : ∃ e, c.Fits e := by
  simp only [Clashes, QualifiedName.Excludes, not_or, not_exists, not_and, not_not] at h
  obtain ⟨htypes, hids⟩ := h
  obtain ⟨name, hname⟩ : ∃ name, ∀ a, (∃ m, .type m ∈ c ∧ m.name = a) → a = name := by
    apply exists_forall_eq
    rintro _ _ ⟨m, hm, rfl⟩ ⟨n, hn, rfl⟩
    exact (htypes m n hm hn).1
  obtain ⟨ns, hns⟩ : ∃ ns, ∀ a, (∃ m, .type m ∈ c ∧ m.ns = some a ∧ a ≠ "*") → a = ns := by
    apply exists_forall_eq
    rintro v w ⟨m, hm, hv⟩ ⟨n, hn, hw⟩
    exact (htypes m n hm hn).2 v w hv hw
  obtain ⟨id, hid⟩ := exists_forall_eq (P := fun a ↦ .id a ∈ c) fun m n hm hn ↦ hids m n hm hn
  refine ⟨{ name, ns, id := some id, classes := c.classNames },
    fits_of_elementary hc (fun m hm ↦ ⟨(hname _ ⟨m, hm, rfl⟩).symm, ?_⟩)
      (fun n hn ↦ congrArg some (hid n hn).symm) fun n hn ↦ List.mem_filterMap.2 ⟨_, hn, rfl⟩⟩
  cases hmns : m.ns with
  | none => rfl
  | some v =>
    simp only [Element.inNamespace, Bool.or_eq_true, beq_iff_eq]
    exact or_iff_not_imp_left.2 fun hv ↦ (hns v ⟨m, hm, hmns, hv⟩).symm

end Compound

/-! ### Documents with elements at given places -/

namespace Forest

/-- The trees below a place in the document that has an element at each place, so many levels down
and so many siblings wide. -/
def grid (element : Place → Element) (width : Nat) : Nat → Place → Forest
  | 0, _ => []
  | depth + 1, up =>
    (List.range width).map fun i ↦ .node (element (i :: up)) (grid element width depth (i :: up))

variable {element : Place → Element} {width depth : Nat} {x : Place}

theorem below_grid (hlength : x.length ≤ depth) (hwidth : ∀ i ∈ x, i < width) :
    below (grid element width depth []) x = grid element width (depth - x.length) x := by
  induction x with
  | nil => rfl
  | cons i up ih =>
    simp only [List.length_cons] at hlength ⊢
    rw [below, ih (by omega) fun j hj ↦ hwidth j (.tail i hj)]
    obtain ⟨n, hn⟩ : ∃ n, depth - up.length = n + 1 := ⟨depth - up.length - 1, by omega⟩
    have hi := hwidth i (.head _)
    rw [hn, show depth - (up.length + 1) = n by omega]
    simp [grid, hi, Tree.children]

theorem element?_grid (hx : x ≠ []) (hlength : x.length ≤ depth) (hwidth : ∀ i ∈ x, i < width) :
    element? (grid element width depth []) x = some (element x) := by
  obtain ⟨i, up, rfl⟩ := List.exists_cons_of_ne_nil hx
  rw [List.length_cons] at hlength
  have hi := hwidth i (.head _)
  rw [element?, below_grid (by omega) fun j hj ↦ hwidth j (.tail i hj)]
  obtain ⟨n, hn⟩ : ∃ n, depth - up.length = n + 1 := ⟨depth - up.length - 1, by omega⟩
  simp [hn, grid, hi, Tree.element]

end Forest

namespace Place

/-- How many steps lead from the first place to a place, each to a first child or to the next
sibling. -/
def steps (x : Place) : Nat :=
  x.tail.length + x.sum

/-- From every place each combinator leads one step further. -/
theorem exists_mem_sources (k : Option Combinator) {x : Place} (hx : x ≠ []) :
    ∃ y, y ≠ [] ∧ x ∈ sources y k ∧ Place.steps y = Place.steps x + 1 := by
  obtain ⟨i, up, rfl⟩ := List.exists_cons_of_ne_nil hx
  match k with
  | none | some .child =>
    refine ⟨0 :: i :: up, by simp, by simp [sources, ancestors], ?_⟩
    simp only [steps, List.tail_cons, List.length_cons, List.sum_cons]
    omega
  | some .nextSibling | some .followingSibling =>
    refine ⟨(i + 1) :: up, by simp, by simp [sources, earlierSiblings], ?_⟩
    simp only [steps, List.tail_cons, List.sum_cons]
    omega

theorem le_steps (x : Place) : x.length ≤ steps x + 1 ∧ ∀ i ∈ x, i ≤ steps x := by
  constructor
  · have := List.length_tail (l := x)
    rw [steps]
    omega
  · intro i hi
    exact (List.le_sum_of_mem hi).trans (Nat.le_add_left _ _)

end Place

/-- A path leads on from a place where each of its compound selectors matches the elements as many
steps away as there are components in front of it. -/
theorem Path.exists_reach {f : Forest} {p : Path} {start : Place → Bool} {x : Place}
    (hx : x ≠ []) (hstart : start x = true)
    (hp : ∀ i (hi : i < p.length), ∀ y, y ≠ [] → Place.steps y = Place.steps x + i →
      Compound.selects f p[i].compound y = true) :
    ∃ y, y ≠ [] ∧ Place.steps y = Place.steps x + p.length ∧ Path.reach f p start y = true := by
  induction p generalizing start x with
  | nil => exact ⟨x, hx, rfl, hstart⟩
  | cons c p ih =>
    obtain ⟨y, hy, hxy, hsteps⟩ := Place.exists_mem_sources c.next hx
    have hlead : Component.lead f start c y = true := by
      refine List.any_eq_true.2 ⟨x, hxy, ?_⟩
      have hc : Compound.selects f c.compound x = true := hp 0 (by simp) x hx rfl
      rw [hstart, hc]
      rfl
    have hrest (i : Nat) (hi : i < p.length) (z : Place) (hz : z ≠ [])
        (hzi : Place.steps z = Place.steps y + i) : Compound.selects f p[i].compound z = true :=
      hp (i + 1) (by simpa using hi) z hz (by omega)
    obtain ⟨z, hz, hzsteps, hreach⟩ := ih hy hlead hrest
    refine ⟨z, hz, ?_, hreach⟩
    rw [List.length_cons]
    omega

/-- A path whose compound selectors each match some element matches in some document, and the
element that it matches there can be chosen. -/
theorem Path.exists_selects {p : Path} {d : Component} {e : Element}
    (hp : ∀ c ∈ p, ∃ e, Compound.Fits c.compound e) (hd : Compound.Fits d.compound e) :
    ∃ f x, Forest.element? f x = some e ∧ Path.selects f (p ++ [d]) (fun _ ↦ true) x = true := by
  have hp (i : Fin p.length) : ∃ e, Compound.Fits p[i].compound e := hp _ (List.getElem_mem i.2)
  choose elements helements using hp
  let element (x : Place) : Element :=
    if h : Place.steps x < p.length then elements ⟨Place.steps x, h⟩ else e
  let f := Forest.grid element (p.length + 1) (p.length + 1) []
  have helement {x : Place} (hx : x ≠ []) (hsteps : Place.steps x ≤ p.length) :
      Forest.element? f x = some (element x) := by
    obtain ⟨hlength, hwidth⟩ := Place.le_steps x
    exact Forest.element?_grid hx (by omega) fun i hi ↦ by have := hwidth i hi; omega
  obtain ⟨x, hx, hsteps, hreach⟩ :=
    @Path.exists_reach f p (fun _ ↦ true) [0] (by simp) rfl fun i hi y hy hyi ↦ by
      rw [show Place.steps [0] = 0 from rfl, Nat.zero_add] at hyi
      refine helements ⟨i, hi⟩ f y ?_
      rw [helement hy (by omega)]
      simp only [element, hyi, hi, dif_pos]
  rw [show Place.steps [0] = 0 from rfl, Nat.zero_add] at hsteps
  have hxe : Forest.element? f x = some e := by
    rw [helement hx hsteps.le]
    simp [element, hsteps]
  refine ⟨f, x, hxe, ?_⟩
  rw [Path.selects_concat, hreach, hd f x hxe]
  rfl

end SelectorAlgebra

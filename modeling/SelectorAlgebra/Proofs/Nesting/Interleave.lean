import Mathlib.Data.List.Forall2
import Mathlib.Data.List.MinMax
import Mathlib.Data.Prod.Lex
import Mathlib.Order.Nat
import SelectorAlgebra.Nesting.Interleave

/-!
# Laws of interleaving

A round takes the first item of every list, so the rounds take the items by their places: each of
them once, an earlier place before a later one. Main statement: interleaved lists are their items in
the order of the pairs of place and list.
-/

namespace SelectorAlgebra

variable {α β γ : Type} {lists : List (List α)}

/-! ### Rounds -/

/-- A round takes the first item of each list. -/
theorem takeTurns_fst (lists : List (List α)) :
    (takeTurns lists).1 = lists.filterMap (·[0]?) := by
  induction lists using takeTurns.induct with
  | case1 => rfl
  | case2 lists ih => simpa [takeTurns] using ih
  | case3 a l lists items left hrest ih => simpa [takeTurns, hrest] using ih

/-- What is left after a round has each item one place earlier. -/
theorem filterMap_takeTurns_snd (lists : List (List α)) (j : ℕ) :
    (takeTurns lists).2.filterMap (·[j]?) = lists.filterMap (·[j + 1]?) := by
  induction lists using takeTurns.induct with
  | case1 => rfl
  | case2 lists ih => simpa [takeTurns] using ih
  | case3 a l lists items left hrest ih =>
    rw [hrest] at ih
    cases l with
    | nil => simpa [takeTurns, hrest] using ih
    | cons b l => simp [takeTurns, hrest, List.filterMap_cons, ih]

theorem length_takeTurns_snd {n : ℕ} (h : ∀ l ∈ lists, l.length ≤ n + 1) :
    ∀ l ∈ (takeTurns lists).2, l.length ≤ n := by
  induction lists using takeTurns.induct with
  | case1 => simp [takeTurns]
  | case2 lists ih => exact ih fun l hl ↦ h l (.tail _ hl)
  | case3 a l lists items left hrest ih =>
    rw [List.forall_mem_cons] at h
    have hl : l.length ≤ n := by simpa using h.1
    have ih := ih h.2
    rw [hrest] at ih
    simp only [takeTurns, hrest]
    split
    · exact ih
    · exact List.forall_mem_cons.2 ⟨hl, ih⟩

theorem takeTurns_of_forall_nil (h : ∀ l ∈ lists, l.length ≤ 0) : takeTurns lists = ([], []) := by
  induction lists using takeTurns.induct with
  | case1 => rfl
  | case2 lists ih => exact ih fun l hl ↦ h l (.tail _ hl)
  | case3 a l => simp at h

/-- The items of the lists by their place, those of one place in the order of the lists; places past
the end of the longest list add nothing. -/
theorem interleave_eq_of_le {n : ℕ} (h : ∀ l ∈ lists, l.length ≤ n) :
    interleave lists = (List.range n).flatMap fun j ↦ lists.filterMap (·[j]?) := by
  induction n generalizing lists with
  | zero =>
    cases lists with
    | nil => simp [interleave]
    | cons l lists => simp [interleave, takeTurns_of_forall_nil h]
  | succ n ih =>
    cases lists with
    | nil => simp [interleave]
    | cons l lists =>
      rw [interleave, ih (length_takeTurns_snd h), takeTurns_fst, List.range_succ_eq_map,
        List.flatMap_cons, List.flatMap_map]
      simp only [filterMap_takeTurns_snd, Nat.succ_eq_add_one]

theorem length_le_foldr_max {l : List α} (h : l ∈ lists) :
    l.length ≤ (lists.map List.length).foldr max 0 :=
  List.le_max_of_le' 0 (List.mem_map_of_mem h) le_rfl

/-- As many rounds are made as the longest list has items. -/
theorem interleave_eq (lists : List (List α)) : interleave lists =
    (List.range ((lists.map List.length).foldr max 0)).flatMap fun j ↦
      lists.filterMap (·[j]?) :=
  interleave_eq_of_le fun _ ↦ length_le_foldr_max

/-- The items of interleaved lists are those of the lists. -/
theorem mem_interleave_iff {a : α} : a ∈ interleave lists ↔ ∃ l ∈ lists, a ∈ l := by
  simp only [interleave_eq, List.mem_flatMap, List.mem_range, List.mem_filterMap]
  constructor
  · rintro ⟨j, -, l, hl, ha⟩
    exact ⟨l, hl, List.mem_of_getElem? ha⟩
  · rintro ⟨l, hl, ha⟩
    obtain ⟨j, hj, rfl⟩ := List.mem_iff_getElem.1 ha
    exact ⟨j, hj.trans_le (length_le_foldr_max hl), l, hl, List.getElem?_eq_getElem hj⟩

/-- The first item of the first list comes first. -/
theorem interleave_cons (a : α) (l : List α) (lists : List (List α)) :
    ∃ m, interleave ((a :: l) :: lists) = a :: m := by
  rw [interleave, takeTurns]
  exact ⟨_, rfl⟩

/-- Items may be changed before or after interleaving. -/
theorem map_interleave (f : α → β) (lists : List (List α)) :
    (interleave lists).map f = interleave (lists.map (List.map f)) := by
  have hmap : ∀ l ∈ lists.map (List.map f), l.length ≤ (lists.map List.length).foldr max 0 := by
    intro k hk
    obtain ⟨l, hl, rfl⟩ := List.mem_map.1 hk
    simpa using length_le_foldr_max hl
  rw [interleave_eq_of_le hmap, interleave_eq, List.map_flatMap]
  refine List.flatMap_congr fun j _ ↦ ?_
  rw [List.map_filterMap, List.filterMap_map]
  simp

@[simp] theorem interleave_singleton (l : List α) : interleave [l] = l := by
  rw [interleave_eq_of_le (n := l.length) (by simp)]
  induction l with
  | nil => rfl
  | cons a l ih =>
    rw [List.length_cons, List.range_succ_eq_map, List.flatMap_cons, List.flatMap_map]
    exact congrArg (a :: ·) ih

/-- Where each list is replaced by one for every value of some kind, the values follow each other
at each item. -/
theorem interleave_flatMap_map (f : γ → α → β) (lists : List (List α)) (m : List γ) :
    interleave (lists.flatMap fun l ↦ m.map fun c ↦ l.map (f c)) =
      (interleave lists).flatMap fun a ↦ m.map fun c ↦ f c a := by
  have hflat : ∀ k ∈ lists.flatMap fun l ↦ m.map fun c ↦ l.map (f c),
      k.length ≤ (lists.map List.length).foldr max 0 := by
    intro k hk
    obtain ⟨l, hl, hk⟩ := List.mem_flatMap.1 hk
    obtain ⟨c, -, rfl⟩ := List.mem_map.1 hk
    simpa using length_le_foldr_max hl
  rw [interleave_eq_of_le hflat, interleave_eq, List.flatMap_assoc]
  refine List.flatMap_congr fun j _ ↦ ?_
  rw [List.filterMap_flatMap, List.filterMap_eq_flatMap_toList, List.flatMap_assoc]
  refine List.flatMap_congr fun l _ ↦ ?_
  rw [List.filterMap_map]
  cases h : l[j]? <;> simp [h]

/-- One list for every value, all made from the same list. -/
theorem interleave_map_map (f : γ → α → β) (l : List α) (m : List γ) :
    interleave (m.map fun c ↦ l.map (f c)) = l.flatMap fun a ↦ m.map fun c ↦ f c a := by
  have h := interleave_flatMap_map f [l] m
  rwa [List.flatMap_singleton, interleave_singleton] at h

/-- Lists of one item each. -/
theorem interleave_map_singleton (l : List α) : interleave (l.map fun a ↦ [a]) = l := by
  have h := interleave_map_map (fun a (_ : Unit) ↦ a) [()] l
  rw [List.flatMap_singleton] at h
  simpa using h

/-! ### Related lists -/

/-- Related lists have related items at each place. -/
theorem rel_getElem?_of_forall₂ {R : α → β → Prop} {k : List α} {l : List β}
    (h : List.Forall₂ R k l) (j : ℕ) : Option.Rel R k[j]? l[j]? := by
  induction h generalizing j with
  | nil => exact .none
  | cons hab _ ih =>
    cases j with
    | zero => exact .some hab
    | succ j => simpa using ih j

/-- Lists that are related one by one are related when they are interleaved. -/
theorem forall₂_interleave {R : α → β → Prop} {k : List (List α)} {l : List (List β)}
    (h : List.Forall₂ (List.Forall₂ R) k l) : List.Forall₂ R (interleave k) (interleave l) := by
  have hlengths : k.map List.length = l.map List.length := by
    rw [← List.forall₂_eq_eq_eq, List.forall₂_map_left_iff, List.forall₂_map_right_iff]
    exact h.imp fun _ _ hrows ↦ hrows.length_eq
  rw [interleave_eq, interleave_eq, hlengths]
  refine List.rel_flatMap (List.forall₂_same.2 fun j _ ↦ (rfl : j = j)) ?_
  rintro j _ rfl
  exact List.rel_filterMap (fun _ _ hrows ↦ rel_getElem?_of_forall₂ hrows j) h

/-! ### Places -/

/-- Whether a list consists of the items of some lists, each of them once, those at an earlier place
first, and of those at one place the one of an earlier list first. -/
def IsRoundRobin (lists : List (List α)) (r : List α) : Prop :=
  ∃ places : List (ℕ × ℕ),
    places.Pairwise (Prod.Lex (· < ·) (· < ·)) ∧
    (∀ j i, (j, i) ∈ places ↔ ∃ l, lists[i]? = some l ∧ j < l.length) ∧
    r.map some = places.map fun x ↦ lists[x.2]?.bind (·[x.1]?)

/-- The places of one round. -/
def roundPlaces (lists : List (List α)) (j : ℕ) : List (ℕ × ℕ) :=
  (lists.zipIdx.filter fun x ↦ x.1[j]?.isSome).map fun x ↦ (j, x.2)

theorem mem_roundPlaces_iff {j : ℕ} {x : ℕ × ℕ} :
    x ∈ roundPlaces lists j ↔ x.1 = j ∧ ∃ l, lists[x.2]? = some l ∧ j < l.length := by
  obtain ⟨k, i⟩ := x
  simp only [roundPlaces, List.mem_map, List.mem_filter, List.mem_zipIdx_iff_getElem?,
    isSome_getElem?, Prod.mk.injEq, Prod.exists]
  constructor
  · rintro ⟨l, _, ⟨hl, hj⟩, rfl, rfl⟩
    exact ⟨rfl, l, hl, hj⟩
  · rintro ⟨rfl, l, hl, hj⟩
    exact ⟨l, i, ⟨hl, hj⟩, rfl, rfl⟩

/-- Within a round the lists take their turns in order. -/
theorem pairwise_roundPlaces (lists : List (List α)) (j : ℕ) :
    (roundPlaces lists j).Pairwise (Prod.Lex (· < ·) (· < ·)) := by
  have hindices : (lists.zipIdx.map Prod.snd).Pairwise (· < ·) := by
    rw [List.zipIdx_map_snd]
    exact List.pairwise_lt_range'
  rw [List.pairwise_map] at hindices
  rw [roundPlaces, List.pairwise_map]
  exact (hindices.sublist List.filter_sublist).imp (.right j)

theorem map_some_filterMap (f : α → Option β) (l : List α) :
    (l.filterMap f).map some = (l.filter fun a ↦ (f a).isSome).map f := by
  induction l with
  | nil => rfl
  | cons a l ih => cases h : f a <;> simp [h, ih]

theorem map_roundPlaces (lists : List (List α)) (j : ℕ) :
    (lists.filterMap (·[j]?)).map some =
      (roundPlaces lists j).map fun x ↦ lists[x.2]?.bind (·[x.1]?) := by
  have hzip : lists.filterMap (·[j]?) = lists.zipIdx.filterMap (·.1[j]?) := by
    conv_lhs => rw [← List.zipIdx_map_fst 0 lists, List.filterMap_map]
    rfl
  rw [hzip, map_some_filterMap, roundPlaces, List.map_map]
  refine List.map_congr_left fun x hx ↦ ?_
  have hget := List.mem_zipIdx_iff_getElem?.1 (List.mem_filter.1 hx).1
  simp [hget]

/-- Interleaved lists lose and repeat nothing, and stand in the order of the rounds. -/
theorem interleave_isRoundRobin (lists : List (List α)) :
    IsRoundRobin lists (interleave lists) := by
  refine ⟨(List.range ((lists.map List.length).foldr max 0)).flatMap (roundPlaces lists),
    List.pairwise_flatMap.2 ⟨fun j _ ↦ pairwise_roundPlaces lists j, ?_⟩, fun j i ↦ ?_, ?_⟩
  · refine List.pairwise_lt_range.imp fun {j k} hjk x hx y hy ↦ ?_
    obtain ⟨rfl, -⟩ := mem_roundPlaces_iff.1 hx
    obtain ⟨rfl, -⟩ := mem_roundPlaces_iff.1 hy
    exact Prod.lex_iff.2 (.inl hjk)
  · simp only [List.mem_flatMap, List.mem_range, mem_roundPlaces_iff]
    constructor
    · rintro ⟨_, -, rfl, h⟩
      exact h
    · rintro ⟨l, hl, hj⟩
      exact ⟨j, hj.trans_le (length_le_foldr_max (List.mem_of_getElem? hl)), rfl, l, hl, hj⟩
  · rw [interleave_eq, List.map_flatMap, List.map_flatMap]
    exact List.flatMap_congr fun j _ ↦ map_roundPlaces lists j

end SelectorAlgebra

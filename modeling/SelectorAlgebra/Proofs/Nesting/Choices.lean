import Mathlib.Algebra.Order.Ring.Nat
import Mathlib.Data.List.Basic

/-!
# Choices

All ways to take one item from each of some lists, in the order in which the last choice changes
fastest. Where the lists have one length, the choices are counted by the digits of their number.
-/

namespace SelectorAlgebra

variable {α β : Type}

/-- All ways to take one item from each of some lists; the choice from the last list changes
fastest. -/
def choices : List (List α) → List (List α)
  | [] => [[]]
  | l :: lists => l.flatMap fun a ↦ (choices lists).map (a :: ·)

/-- The last `k` digits of a number to a base, the most significant first. -/
def digits (base k j : ℕ) : List ℕ :=
  (List.range k).reverse.map fun i ↦ j / base ^ i % base

/-- Items of lists of one length, put one after the other. -/
theorem getElem?_flatMap_of_length {f : α → List β} {n : ℕ} {l : List α}
    (h : ∀ a ∈ l, (f a).length = n) (j : ℕ) :
    (l.flatMap f)[j]? = l[j / n]?.bind fun a ↦ (f a)[j % n]? := by
  rcases Nat.eq_zero_or_pos n with rfl | hn
  · have hnil : ∀ a ∈ l, f a = [] := fun a ha ↦ List.length_eq_zero_iff.1 (h a ha)
    rw [List.flatMap_eq_nil_iff.2 hnil, List.getElem?_nil, eq_comm, Option.bind_eq_none_iff]
    intro a ha
    rw [hnil a (List.mem_of_getElem? ha), List.getElem?_nil]
  induction l generalizing j with
  | nil => simp
  | cons a l ih =>
    rw [List.forall_mem_cons] at h
    rw [List.flatMap_cons, List.getElem?_append, h.1]
    split
    · next hj => simp [Nat.div_eq_of_lt hj, Nat.mod_eq_of_lt hj]
    · next hj =>
      obtain ⟨d, rfl⟩ := Nat.exists_eq_add_of_le (not_lt.1 hj)
      rw [Nat.add_sub_cancel_left, ih h.2, Nat.add_div_left d hn, Nat.add_mod_left]
      rfl

theorem length_choices_cons (l : List α) (lists : List (List α)) :
    (choices (l :: lists)).length = l.length * (choices lists).length := by
  simp [choices, List.length_flatMap]

/-- The number of a choice tells the first item by its quotient and the others by its remainder. -/
theorem getElem?_choices_cons (l : List α) (lists : List (List α)) (j : ℕ) :
    (choices (l :: lists))[j]? = l[j / (choices lists).length]?.bind fun a ↦
      (choices lists)[j % (choices lists).length]?.map (a :: ·) := by
  rw [choices, getElem?_flatMap_of_length (n := (choices lists).length) (by simp)]
  simp

/-- A list of one item leaves no choice. -/
@[simp] theorem choices_singleton_cons (a : α) (lists : List (List α)) :
    choices ([a] :: lists) = (choices lists).map (a :: ·) := by
  simp [choices]

theorem digits_succ (base k j : ℕ) :
    digits base (k + 1) j = j / base ^ k % base :: digits base k j := by
  simp [digits, List.range_succ]

/-- The last digits are those of the remainder. -/
theorem digits_mod (base k j : ℕ) : digits base k (j % base ^ k) = digits base k j := by
  refine List.map_congr_left fun i hi ↦ ?_
  have hi : i < k := by simpa using hi
  obtain ⟨d, rfl⟩ := Nat.exists_eq_add_of_lt hi
  rw [Nat.add_assoc, pow_add, Nat.mod_mul_right_div_self, pow_succ', Nat.mod_mul_right_mod]

/-! ### Choices from one list -/

theorem length_choices_replicate (k : ℕ) (l : List α) :
    (choices (List.replicate k l)).length = l.length ^ k := by
  induction k with
  | zero => rfl
  | succ k ih => rw [List.replicate_succ, length_choices_cons, ih, pow_succ']

/-- The digits of the number of a choice tell the items in it. -/
theorem map_some_of_getElem?_choices {l as : List α} {k j : ℕ}
    (h : (choices (List.replicate k l))[j]? = some as) :
    as.map some = (digits l.length k j).map (l[·]?) := by
  induction k generalizing j as with
  | zero =>
    obtain rfl := List.mem_singleton.1 (List.mem_of_getElem? h)
    rfl
  | succ k ih =>
    rw [List.replicate_succ, getElem?_choices_cons, length_choices_replicate,
      Option.bind_eq_some_iff] at h
    obtain ⟨a, ha, h⟩ := h
    obtain ⟨as, has, rfl⟩ := Option.map_eq_some_iff.1 h
    have hlt := (List.getElem?_eq_some_iff.1 ha).1
    rw [List.map_cons, ih has, digits_mod, digits_succ, List.map_cons, Nat.mod_eq_of_lt hlt, ha]

end SelectorAlgebra

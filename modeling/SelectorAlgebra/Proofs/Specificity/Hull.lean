import Mathlib.Algebra.Order.Ring.Nat
import Mathlib.Data.List.Fold
import Mathlib.Data.List.Forall2
import Mathlib.Order.MinMax
import SelectorAlgebra.Proofs.Specificity.Sum

/-!
# Exact ranges

A range is exact for the weights that something can have if both ends are such weights and no other
weight lies outside. The ways in which ranges are put together keep them exact: where one weight is
taken of each part and an operation that respects the order puts them together, and where the weight
is that of any one part.
-/

namespace SelectorAlgebra.Specificity

/-- Whether a range is the least one around all weights that have a property, both of its ends
among them. -/
structure IsHull (s : Specificity) (P : ℕ → Prop) : Prop where
  min : P s.min
  max : P s.max
  between : ∀ n, P n → s.min ≤ n ∧ n ≤ s.max
  ordered : s.min ≤ s.max := (between _ max).1

variable {s t : Specificity} {P Q : ℕ → Prop}

theorem IsHull.congr (h : s.IsHull P) (hPQ : ∀ n, P n ↔ Q n) : s.IsHull Q where
  min := (hPQ _).1 h.min
  max := (hPQ _).1 h.max
  between n hn := h.between n ((hPQ n).2 hn)

theorem isHull_exact (n : ℕ) : (exact n).IsHull (· = n) where
  min := rfl
  max := rfl
  between := by
    rintro _ rfl
    exact ⟨Nat.le_refl _, Nat.le_refl _⟩

/-! ### One weight of each part -/

/-- An operation on weights, applied to both ends of two ranges. -/
def endwise (op : ℕ → ℕ → ℕ) (s t : Specificity) : Specificity :=
  ⟨op s.min t.min, op s.max t.max⟩

instance (op : ℕ → ℕ → ℕ) [h : Std.Commutative op] : Std.Commutative (endwise op) where
  comm _ _ := Specificity.ext (h.comm _ _) (h.comm _ _)

instance (op : ℕ → ℕ → ℕ) [h : Std.Associative op] : Std.Associative (endwise op) where
  assoc _ _ _ := Specificity.ext (h.assoc _ _ _) (h.assoc _ _ _)

/-- The heaviest choice may be found from either end of a list. -/
theorem heaviest_eq (l : List Specificity) : heaviest l = l.foldr (endwise Nat.max) zero := by
  change l.foldl (endwise Nat.max) zero = _
  exact List.foldl_eq_foldr

variable {ι : Type} {w : ι → Specificity} {R : ι → ℕ → Prop} {l : List ι}

/-- If one weight is taken of each part and they are put together by an operation that respects the
order, the range is exact that is put together from the ranges of the parts. -/
theorem isHull_foldr {op : ℕ → ℕ → ℕ} (hop : ∀ {a b m n}, a ≤ b → m ≤ n → op a m ≤ op b n)
    (e : ℕ) (h : ∀ i ∈ l, (w i).IsHull (R i)) :
    ((l.map w).foldr (endwise op) (exact e)).IsHull
      fun n ↦ ∃ ns, List.Forall₂ R l ns ∧ n = ns.foldr op e := by
  induction l with
  | nil => simpa using isHull_exact e
  | cons i l ih =>
    have hi := h i (List.mem_cons_self ..)
    specialize ih fun j hj ↦ h j (List.mem_cons_of_mem i hj)
    refine { min := ?_, max := ?_, between := ?_ }
    · obtain ⟨ns, hns, hmin⟩ := ih.min
      exact ⟨(w i).min :: ns, .cons hi.min hns, congrArg (op _) hmin⟩
    · obtain ⟨ns, hns, hmax⟩ := ih.max
      exact ⟨(w i).max :: ns, .cons hi.max hns, congrArg (op _) hmax⟩
    · rintro _ ⟨_, hcons, rfl⟩
      obtain ⟨m, ns, hm, hns, rfl⟩ := List.forall₂_cons_left_iff.1 hcons
      obtain ⟨himin, himax⟩ := hi.between _ hm
      obtain ⟨hmin, hmax⟩ := ih.between _ ⟨_, hns, rfl⟩
      exact ⟨hop himin hmin, hop himax hmax⟩

theorem isHull_sum (h : ∀ i ∈ l, (w i).IsHull (R i)) :
    (sum (l.map w)).IsHull fun n ↦ ∃ ns, List.Forall₂ R l ns ∧ n = ns.sum :=
  isHull_foldr Nat.add_le_add 0 h

theorem isHull_heaviest (h : ∀ i ∈ l, (w i).IsHull (R i)) :
    (heaviest (l.map w)).IsHull fun n ↦ ∃ ns, List.Forall₂ R l ns ∧ n = ns.foldr Nat.max 0 := by
  rw [heaviest_eq]
  exact isHull_foldr max_le_max 0 h

/-- A weight that is added to all others moves the range. -/
theorem IsHull.exact_add (h : s.IsHull P) (m : ℕ) :
    (exact m + s).IsHull fun n ↦ ∃ k, P k ∧ n = m + k where
  min := ⟨s.min, h.min, rfl⟩
  max := ⟨s.max, h.max, rfl⟩
  between := by
    rintro _ ⟨k, hk, rfl⟩
    obtain ⟨hmin, hmax⟩ := h.between k hk
    exact ⟨Nat.add_le_add_left hmin m, Nat.add_le_add_left hmax m⟩

/-! ### The weight of any part -/

/-- The least range around two ranges. -/
def join (s t : Specificity) : Specificity :=
  ⟨Nat.min s.min t.min, Nat.max s.max t.max⟩

theorem IsHull.join (hs : s.IsHull P) (ht : t.IsHull Q) : (s.join t).IsHull fun n ↦ P n ∨ Q n where
  min := by
    rcases Nat.le_total s.min t.min with h | h
    · exact .inl (by simpa [Specificity.join, h] using hs.min)
    · exact .inr (by simpa [Specificity.join, h] using ht.min)
  max := by
    rcases Nat.le_total t.max s.max with h | h
    · exact .inl (by simpa [Specificity.join, h] using hs.max)
    · exact .inr (by simpa [Specificity.join, h] using ht.max)
  between := by
    rintro n (hn | hn)
    · obtain ⟨hmin, hmax⟩ := hs.between n hn
      exact ⟨Nat.le_trans (Nat.min_le_left _ _) hmin, Nat.le_trans hmax (Nat.le_max_left _ _)⟩
    · obtain ⟨hmin, hmax⟩ := ht.between n hn
      exact ⟨Nat.le_trans (Nat.min_le_right _ _) hmin, Nat.le_trans hmax (Nat.le_max_right _ _)⟩

theorem isHull_foldl_join (hs : s.IsHull P) (h : ∀ i ∈ l, (w i).IsHull (R i)) :
    ((l.map w).foldl join s).IsHull fun n ↦ P n ∨ ∃ i ∈ l, R i n := by
  induction l generalizing s P with
  | nil => simpa using hs
  | cons i l ih =>
    rw [List.forall_mem_cons] at h
    refine (ih (hs.join h.1) h.2).congr fun n ↦ ?_
    rw [or_assoc, List.exists_mem_cons_iff]

/-- The range around all parts is exact for the weights of any of them, if there is one. -/
theorem isHull_hull (hne : l ≠ []) (h : ∀ i ∈ l, (w i).IsHull (R i)) :
    (hull (l.map w)).IsHull fun n ↦ ∃ i ∈ l, R i n := by
  obtain ⟨i, k, rfl⟩ := List.exists_cons_of_ne_nil hne
  rw [List.forall_mem_cons] at h
  refine (isHull_foldl_join h.1 h.2).congr fun n ↦ ?_
  rw [List.exists_mem_cons_iff]

end SelectorAlgebra.Specificity

import SelectorAlgebra.Proofs.Covering.Rules

/-!
# Compound selectors that everything covers

A compound selector that no element can match is covered by all. Two different ids are seen to
contradict each other wherever they stand. Types are compared with the first one only, so two of one
namespace with different names are passed over behind a first type of another namespace. Main
statement: a compound selector is covered by all, whatever these are compared behind, exactly if two
of its ids differ or one of its types contradicts the first.
-/

namespace SelectorAlgebra

namespace Compound

variable {d : Compound}

/-- A compound selector that may match some element is not covered by all: one that has a
pseudo-element is not covered by one that has none, and the other way round. -/
theorem exists_not_coversBehind (h : Covering.isUnsatisfiable d = false) (parents : Path) :
    ∃ c, Compound.coversBehind c d parents = false := by
  have hcompared {c : Compound} (hc : ¬ Covering.whole.Compared c d parents) :
      Compound.coversBehind c d parents = false := by
    rw [Compound.coversBehind_eq]
    apply Bool.eq_false_iff.2
    intro hcovers
    rcases Covering.compound_iff.1 hcovers with hd | hd
    · cases h.symm.trans hd
    · exact hc hd
  cases hd : Covering.atPseudoElement d with
  | none =>
    refine ⟨[.pseudo ⟨"before", true, none, none⟩], hcompared fun hcd ↦ ?_⟩
    cases hcd with
    | conditions hc => cases hc
    | element _ hsome => cases hd.symm.trans hsome
  | some x =>
    refine ⟨[], hcompared fun hcd ↦ ?_⟩
    cases hcd with
    | conditions _ hnone => cases hd.symm.trans hnone
    | element hc => cases hc

/-- Every compound selector covers another, whatever they stand behind, exactly if two ids of the
other differ, or one of its types has the namespace of the first and another name. -/
theorem forall_coversBehind_iff :
    (∀ c parents, Compound.coversBehind c d parents = true) ↔
      (∃ m n, .id m ∈ d ∧ .id n ∈ d ∧ m ≠ n) ∨
        ∃ m n, (typeNames d).head? = some m ∧ .type n ∈ d ∧ m.ns = n.ns ∧ m.name ≠ n.name := by
  rw [← Covering.isUnsatisfiable_iff]
  constructor
  · intro hall
    by_contra hsatisfiable
    obtain ⟨c, hc⟩ := exists_not_coversBehind (Bool.eq_false_iff.2 hsatisfiable) []
    cases (hall c []).symm.trans hc
  · intro h c parents
    rw [Compound.coversBehind_eq, Covering.compound_iff]
    exact .inl h

/-- The types of `x|a`, `b` and `c` on one element contradict each other, but `.d` does not cover
them, since neither of the last two has the namespace of the first. -/
theorem not_forall_coversBehind :
    ¬ ∀ d : Compound, ((∃ m n, .type m ∈ d ∧ .type n ∈ d ∧ m.ns = n.ns ∧ m.name ≠ n.name) ∨
        ∃ m n, .id m ∈ d ∧ .id n ∈ d ∧ m ≠ n) →
      ∀ c parents, Compound.coversBehind c d parents = true := by
  intro h
  have hcovers := h [.type ⟨some "x", "a"⟩, .type ⟨none, "b"⟩, .type ⟨none, "c"⟩]
    (.inl ⟨⟨none, "b"⟩, ⟨none, "c"⟩, by simp, by simp, rfl, by simp⟩) [.className "d"] []
  exact absurd hcovers (by decide +kernel)

end Compound

end SelectorAlgebra

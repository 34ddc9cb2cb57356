import Mathlib
import SelectorAlgebra.Proofs.Nesting.Associativity

/-!
# The parent written out

A member without `&` means the same as with `&` in front of it, which then takes its leading
combinators. Main statement: both are nested alike in every parent.
-/

namespace SelectorAlgebra

/-- A complex selector with `&` alone in front, behind which its leading combinators stand. -/
def Complex.explicit (c : Complex) (lineBreak : Bool) : Complex :=
  ⟨[], ⟨[.parent none], c.leading⟩ :: c.components, lineBreak⟩

variable {parent : SelectorList}

/-- Nesting a list of one member gives the block of the member. -/
theorem SelectorList.nestWithin_singleton (c : Complex) :
    SelectorList.nestWithin [c] parent true false = c.block parent true := by
  rw [SelectorList.nestWithin_eq, SelectorList.blocks_eq_mapM, List.mapM_cons, List.mapM_nil]
  cases c.block parent true with
  | error e => rfl
  | ok block => exact congrArg Except.ok (interleave_singleton block)

/-- In the place of `&` alone stands each parent, with the combinators behind it. -/
theorem Component.wordsWithin_parent (ks : List Combinator) :
    Component.wordsWithin parent ⟨[.parent none], ks⟩ =
      pure (parent.map fun p ↦ p.word ++ ks.map .combinator) := by
  have hresolve : Compound.resolve parent [.parent none] = pure [.parent none] := rfl
  rw [wordsWithin, hresolve, pure_bind]
  exact congrArg Except.ok (by simp [SelectorList.withCombinators])

/-- Behind each parent stands the word of the member, whether `&` is written or not. -/
theorem Complex.words_block_explicit (hmembers : parent ≠ []) {c : Complex}
    (hc : c.hasParent = false) (lineBreak : Bool) :
    List.map Complex.word <$> (c.explicit lineBreak).block parent true =
      pure (parent.map fun p ↦ p.word ++ c.word) := by
  have hparent : (c.explicit lineBreak).hasParent = true := rfl
  rw [Complex.hasParent_eq] at hc
  rw [Complex.words_block hmembers, if_pos hparent, explicit, ← List.singleton_append,
    Path.wordsWithin_append_of_hasParent_eq_false _ hc, Path.wordsWithin_singleton,
    Component.wordsWithin_parent]
  exact congrArg Except.ok (by simp [Complex.word])

/-- A member without `&` is nested like the one with `&` in front: both give the same members in the
same order. -/
theorem SelectorList.nestWithin_explicit {parent : SelectorList} (hparent : parent ≠ [])
    {c : Complex} (hc : c.hasParent = false) (lineBreak : Bool) :
    ∃ r s, SelectorList.nestWithin [c] parent true false = .ok r ∧
      SelectorList.nestWithin [c.explicit lineBreak] parent true false = .ok s ∧
      SelectorList.same r s = true := by
  have himplicit : SelectorList.nestWithin [c] parent true false =
      .ok (parent.map fun p ↦ p.concatenate c false) := by
    rw [SelectorList.nestWithin_singleton, Complex.block_of_hasParent_eq_false hc]
    rfl
  have hwords : List.map Complex.word <$> (c.explicit lineBreak).block parent true =
      .ok (parent.map fun p ↦ p.word ++ c.word) :=
    Complex.words_block_explicit hparent hc lineBreak
  rw [← SelectorList.nestWithin_singleton] at hwords
  generalize SelectorList.nestWithin [c.explicit lineBreak] parent true false = x at hwords ⊢
  cases x with
  | error e => cases hwords
  | ok s =>
    -- line breaks aside, a selector is its word
    refine ⟨_, s, himplicit, rfl, SelectorList.same_of_words ?_⟩
    rw [Except.ok.inj hwords]
    simp

/-- The selectors `+ .c` and `& + .c` nested in a parent that ends with a combinator and in one that
is a combinator. -/
theorem SelectorList.nestWithin_explicit_siblings :
    let a : Complex := ⟨[], [⟨[.className "a"], [.child]⟩], false⟩
    let b : Complex := ⟨[.followingSibling], [], true⟩
    let c : Complex := ⟨[.nextSibling], [⟨[.className "c"], []⟩], false⟩
    [a, b] ≠ [] ∧ c.hasParent = false ∧
      ∃ s, SelectorList.nestWithin
          [⟨[], [⟨[.parent none], [.nextSibling]⟩, ⟨[.className "c"], []⟩], false⟩] [a, b] true
          false = .ok s ∧
        SelectorList.same
          [⟨[], [⟨[.className "a"], [.child, .nextSibling]⟩, ⟨[.className "c"], []⟩], false⟩,
            ⟨[.followingSibling, .nextSibling], [⟨[.className "c"], []⟩], true⟩] s = true := by
  intro a b c
  have himplicit : SelectorList.nestWithin [c] [a, b] true false =
      .ok [⟨[], [⟨[.className "a"], [.child, .nextSibling]⟩, ⟨[.className "c"], []⟩], false⟩,
        ⟨[.followingSibling, .nextSibling], [⟨[.className "c"], []⟩], true⟩] := by cbv
  have hne : [a, b] ≠ [] := by simp
  have hnone : c.hasParent = false := rfl
  obtain ⟨r, s, hr, hs, hsame⟩ := SelectorList.nestWithin_explicit hne hnone false
  obtain rfl := Except.ok.inj (himplicit.symm.trans hr)
  exact ⟨hne, hnone, s, hs, hsame⟩

end SelectorAlgebra

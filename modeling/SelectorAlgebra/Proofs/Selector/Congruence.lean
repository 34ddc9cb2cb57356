import SelectorAlgebra.Proofs.Covering.Erasure
import SelectorAlgebra.Proofs.Nesting.Erasure

/-!
# Sameness as a congruence

Selectors that are the same can stand for each other. Main statement: lists that are the same, with
line breaks wherever they like, are covered by the same lists and cover the same lists, weigh the
same, have parent selectors or not alike, and give the same when they are nested in one another.
-/

namespace SelectorAlgebra

/-- Errors of one kind, about selectors that are the same. -/
inductive SelectorError.Same : SelectorError → SelectorError → Prop
  | emptyComplex : Same .emptyComplex .emptyComplex
  | noComponents {c d : Complex} (h : c.same d = true) : Same (.noComponents c) (.noComponents d)
  | malformed (e : SyntaxError) : Same (.malformed e) (.malformed e)
  | topLevelParent : Same .topLevelParent .topLevelParent
  | invalidParent {p q : Complex} (h : p.same q = true) : Same (.invalidParent p) (.invalidParent q)
  | invalidSuffix {s t : Simple} (h : s.same t = true) (suffix : String) :
    Same (.invalidSuffix s suffix) (.invalidSuffix t suffix)

/-- Errors that are equal without line breaks are of one kind. -/
theorem SelectorError.same_of_eraseBreaks {e f : SelectorError}
    (h : e.eraseBreaks = f.eraseBreaks) : e.Same f := by
  cases e <;> cases f <;> simp only [eraseBreaks, reduceCtorEq, noComponents.injEq,
    malformed.injEq, invalidParent.injEq, invalidSuffix.injEq] at h
  case emptyComplex => exact .emptyComplex
  case noComponents => exact .noComponents ((Complex.same_iff _ _).2 h)
  case malformed => exact h ▸ .malformed _
  case topLevelParent => exact .topLevelParent
  case invalidParent => exact .invalidParent ((Complex.same_iff _ _).2 h)
  case invalidSuffix =>
    obtain ⟨hsimple, rfl⟩ := h
    exact .invalidSuffix ((Simple.same_iff _ _).2 hsimple) _

namespace SelectorList

/-- Two operations come to the same: both give lists that are the same, or both fail with an error
of one kind. -/
inductive SameOutcome :
    Except SelectorError SelectorList → Except SelectorError SelectorList → Prop
  | ok {k l : SelectorList} (h : SelectorList.same k l = true) : SameOutcome (.ok k) (.ok l)
  | error {e f : SelectorError} (h : e.Same f) : SameOutcome (.error e) (.error f)

theorem sameOutcome_of_bimap {x y : Except SelectorError SelectorList}
    (h : bimap SelectorError.eraseBreaks SelectorList.eraseBreaks x =
      bimap SelectorError.eraseBreaks SelectorList.eraseBreaks y) : SameOutcome x y := by
  cases x <;> cases y <;> simp only [bimap, reduceCtorEq, Except.ok.injEq, Except.error.injEq] at h
  case ok => exact .ok ((SelectorList.same_iff _ _).2 h)
  case error => exact .error (SelectorError.same_of_eraseBreaks h)

/-- Lists that are the same can stand for each other: in covering, in what they weigh and whether
there is a parent selector in them, and in nesting, which fails for both or for neither. -/
theorem congr_of_same {k k' l l' : SelectorList} (hk : SelectorList.same k k' = true)
    (hl : SelectorList.same l l' = true) :
    SelectorList.covers k l = SelectorList.covers k' l' ∧
    SelectorList.specificity k = SelectorList.specificity k' ∧
    SelectorList.hasParent k = SelectorList.hasParent k' ∧
    ∀ implied keep,
      SameOutcome (k.nestWithin l implied keep) (k'.nestWithin l' implied keep) := by
  have hk' := (SelectorList.same_iff k k').1 hk
  have hl' := (SelectorList.same_iff l l').1 hl
  refine ⟨?_, ?_, ?_, fun implied keep ↦ sameOutcome_of_bimap ?_⟩
  · rw [← covers_eraseBreaks k, ← covers_eraseBreaks k', hk', hl']
  · rw [← specificity_eraseBreaks k, ← specificity_eraseBreaks k', hk']
  · rw [← hasParent_eraseBreaks k, ← hasParent_eraseBreaks k', hk']
  · rw [← nestWithin_eraseBreaks, ← nestWithin_eraseBreaks, hk', hl']

/-- `:is(.a, &)` can be nested in `.b` with and without line breaks in front of its members. -/
theorem congr_of_same_is :
    let list (lineBreak : Bool) : SelectorList :=
      [⟨[], [⟨[.pseudo ⟨"is", false, none, some [⟨[], [⟨[.className "a"], []⟩], lineBreak⟩,
        ⟨[], [⟨[.parent none], []⟩], lineBreak⟩]⟩], []⟩], lineBreak⟩]
    let parent (lineBreak : Bool) : SelectorList := [⟨[], [⟨[.className "b"], []⟩], lineBreak⟩]
    SelectorList.same (list false) (list true) = true ∧
      SelectorList.same (parent false) (parent true) = true ∧
      SameOutcome ((list false).nestWithin (parent false) true false)
        ((list true).nestWithin (parent true) true false) := by
  intro list parent
  have hlist : SelectorList.same (list false) (list true) = true := (same_iff _ _).2 rfl
  have hparent : SelectorList.same (parent false) (parent true) = true := (same_iff _ _).2 rfl
  exact ⟨hlist, hparent, (congr_of_same hlist hparent).2.2.2 true false⟩

end SelectorList

end SelectorAlgebra

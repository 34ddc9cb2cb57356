import Mathlib
import SelectorAlgebra.Proofs.Parser.Allowance

/-!
# Restrictions filter

Whether parent selectors may occur and whether placeholders may occur are checked in the middle of
reading, at any depth. Main statement: what is read under a setting of the two is what is read where
both may occur, if it holds no parent selector or they may occur, and no placeholder or they may
occur. So a restriction never changes how a text is read.
-/

namespace SelectorAlgebra

/-- The shape of selectors without placeholders. -/
def Shape.withoutPlaceholder : Shape where
  simple s := ∀ name, s ≠ .placeholder name

theorem Shape.permitted_simple_iff {allow : Allowance} {s : Simple} :
    (permitted allow).simple s ↔ (allow.parent = true ∨ withoutParent.simple s) ∧
      (allow.placeholder = true ∨ withoutPlaceholder.simple s) := by
  cases s <;> simp [permitted, withoutParent, withoutPlaceholder, Simple.IsOther]

namespace EntryPoint

variable {e : EntryPoint} {x : e.Tree}

/-- Nothing forbidden occurs in a selector if there is no parent selector in it or they are allowed,
and no placeholder or they are allowed. -/
theorem everywhere_permitted_iff {allow : Allowance} : e.Everywhere (.permitted allow) x ↔
    (allow.parent = true ∨ e.Everywhere .withoutParent x) ∧
      (allow.placeholder = true ∨ e.Everywhere .withoutPlaceholder x) := by
  constructor
  · intro h
    constructor
    · refine or_iff_not_imp_left.2 fun hparent ↦ ?_
      refine h.entail { simple := fun s hs _ ↦ ?_ } h
      exact (Shape.permitted_simple_iff.1 hs).1.resolve_left hparent
    · refine or_iff_not_imp_left.2 fun hplaceholder ↦ ?_
      refine h.entail { simple := fun s hs _ ↦ ?_ } h
      exact (Shape.permitted_simple_iff.1 hs).2.resolve_left hplaceholder
  · -- a sort that may occur asks nothing of the selector, which the default shape stands for
    have hall := e.everywhere_default x
    rintro ⟨hparent | hparent, hplaceholder | hplaceholder⟩
    · exact hall.entail
        { simple := fun s _ _ ↦ Shape.permitted_simple_iff.2 ⟨.inl hparent, .inl hplaceholder⟩ }
        hall
    · exact hall.entail
        { simple := fun s _ hs ↦ Shape.permitted_simple_iff.2 ⟨.inl hparent, .inr hs⟩ }
        hplaceholder
    · exact hparent.entail
        { simple := fun s hs _ ↦ Shape.permitted_simple_iff.2 ⟨.inr hs, .inl hplaceholder⟩ }
        hall
    · exact hparent.entail
        { simple := fun s hs ht ↦ Shape.permitted_simple_iff.2 ⟨.inr hs, .inr ht⟩ }
        hplaceholder

/-- A text is read as a selector under a setting of what may occur exactly if it is read as the same
selector where all may occur, and the selector holds nothing that the setting forbids, at any
depth. -/
theorem parse_restricted_iff (e : EntryPoint) (text : String) (options : ParseOptions)
    (x : e.Tree) : (e.parse text options).result = .ok x ↔
      (e.parse text { url := options.url }).result = .ok x ∧
        (options.parent = true ∨ e.Everywhere .withoutParent x) ∧
        (options.placeholder = true ∨ e.Everywhere .withoutPlaceholder x) := by
  have hurl : (e.parse text { url := options.url }).result = .ok x ↔
      (e.parse text).result = .ok x := by
    rw [parse_eq_ok_iff, parse_eq_ok_iff]
  rw [hurl, parse_permitted_iff, everywhere_permitted_iff]

/-- The marks of what is forbidden may stand in a string. -/
example : (simple.parse "[a=\"&%\"]" ⟨⟨false, false⟩, none⟩).result =
    .ok (.attribute ⟨⟨none, "a"⟩, some .equals, some "&%", none⟩) := by
  cbv

end EntryPoint

end SelectorAlgebra

import SelectorAlgebra.Proofs.Nesting.Block
import SelectorAlgebra.Proofs.Selector.Composition

/-!
# Nesting without line breaks

Nesting asks no line break for anything but the line breaks of what it makes. So each step of it
comes to the same when line breaks are erased before or after it, and where it fails, it fails with
the same error about the same selector. Main statement: this holds of nesting as a whole.
-/

namespace SelectorAlgebra

/-- An error about a selector without line breaks. -/
def SelectorError.eraseBreaks : SelectorError → SelectorError
  | .noComponents c => .noComponents c.eraseBreaks
  | .invalidParent p => .invalidParent p.eraseBreaks
  | .invalidSuffix s suffix => .invalidSuffix s.eraseBreaks suffix
  | e => e

/-! ### Composition -/

namespace Complex

theorem eraseBreaks_concatenate (c d : Complex) :
    (c.concatenate d false).eraseBreaks = c.eraseBreaks.concatenate d.eraseBreaks false := by
  apply ext_word
  · simp [word_eraseBreaks]
  · simp

theorem eraseBreaks_withCombinators (c : Complex) (ks : List Combinator) :
    (c.withCombinators ks false).eraseBreaks = c.eraseBreaks.withCombinators ks false := by
  apply ext_word
  · simp [word_eraseBreaks, Part.eraseBreaks]
  · simp

theorem eraseBreaks_unresolved (parent : SelectorList) (implied : Bool) (c : Complex) :
    SelectorList.eraseBreaks (c.unresolved parent implied) =
      c.eraseBreaks.unresolved (SelectorList.eraseBreaks parent) implied := by
  cases implied with
  | false => rfl
  | true =>
    simp only [unresolved, if_true, SelectorList.eraseBreaks_eq_map, List.map_map,
      Function.comp_def, eraseBreaks_concatenate]

end Complex

theorem SelectorList.eraseBreaks_advance (leading : List Combinator) (heads : SelectorList)
    (d : Component) (o : Option SelectorList) :
    SelectorList.eraseBreaks (SelectorList.advance leading heads d o) =
      SelectorList.advance leading (SelectorList.eraseBreaks heads) d.eraseBreaks
        (o.map SelectorList.eraseBreaks) := by
  have hextend (heads placements : SelectorList) :
      SelectorList.eraseBreaks (SelectorList.extend heads placements) =
        SelectorList.extend (SelectorList.eraseBreaks heads)
          (SelectorList.eraseBreaks placements) := by
    simp only [SelectorList.extend, SelectorList.eraseBreaks_eq_map, List.map_flatMap,
      List.flatMap_map, List.map_map, Function.comp_def, Complex.eraseBreaks_concatenate]
  have hdefault : SelectorList.eraseBreaks (o.getD [⟨[], [d], false⟩]) =
      (o.map SelectorList.eraseBreaks).getD [⟨[], [d.eraseBreaks], false⟩] := by
    cases d
    cases o <;> rfl
  cases heads with
  | nil =>
    rw [SelectorList.advance_nil, hextend, hdefault]
    exact (SelectorList.advance_nil leading d.eraseBreaks _).symm
  | cons c heads =>
    rw [SelectorList.advance_of_ne_nil (List.cons_ne_nil c heads), hextend, hdefault]
    exact (SelectorList.advance_of_ne_nil (by simp [SelectorList.eraseBreaks]) d.eraseBreaks _).symm

theorem SelectorList.eraseBreaks_interleave (lists : List SelectorList) :
    SelectorList.eraseBreaks (interleave lists) =
      interleave (lists.map SelectorList.eraseBreaks) := by
  rw [SelectorList.eraseBreaks_eq_map, map_interleave]
  simp only [funext SelectorList.eraseBreaks_eq_map]

/-! ### Lengthening the subject -/

theorem Pseudo.eraseBreaks_withName (p : Pseudo) (name : String) :
    (p.withName name).eraseBreaks = p.eraseBreaks.withName name := by
  obtain ⟨_, _, _, _ | _⟩ := p <;> rfl

theorem Simple.withSuffix_eraseBreaks (s : Simple) (suffix : String) :
    s.eraseBreaks.withSuffix suffix =
      bimap SelectorError.eraseBreaks Simple.eraseBreaks (s.withSuffix suffix) := by
  cases s with
  | pseudo p =>
    simp only [Simple.eraseBreaks, withSuffix, Pseudo.argument_eraseBreaks,
      Pseudo.selector_eraseBreaks, Option.isNone_map, Pseudo.name_eraseBreaks,
      ← Pseudo.eraseBreaks_withName]
    split <;> rfl
  | _ => rfl

theorem Compound.withSuffix_eraseBreaks (c : Compound) (suffix : String) :
    Compound.withSuffix (Compound.eraseBreaks c) suffix =
      bimap SelectorError.eraseBreaks Compound.eraseBreaks (Compound.withSuffix c suffix) := by
  rcases List.eq_nil_or_concat' c with rfl | ⟨front, s, rfl⟩
  · rfl
  · simp only [Compound.eraseBreaks_eq_map, List.map_append, List.map_cons, List.map_nil,
      Compound.withSuffix_concat, Simple.withSuffix_eraseBreaks]
    refine map_bimap (fun t ↦ ?_) _
    simp [Compound.eraseBreaks_eq_map]

/-! ### Placements -/

theorem Complex.merge_eraseBreaks (p : Complex) (suffix : Option String) (conditions : Compound)
    (ks : List Combinator) :
    p.eraseBreaks.merge suffix (Compound.eraseBreaks conditions) ks =
      bimap SelectorError.eraseBreaks Complex.eraseBreaks (p.merge suffix conditions ks) := by
  obtain ⟨leading, components, lineBreak⟩ := p
  rcases List.eq_nil_or_concat' components with rfl | ⟨front, ⟨subject, js⟩, rfl⟩
  · rfl
  · have hpath : Path.eraseBreaks (front ++ [⟨subject, js⟩]) =
        Path.eraseBreaks front ++ [⟨Compound.eraseBreaks subject, js⟩] := by
      simp [Path.eraseBreaks_eq_map, Component.eraseBreaks]
    have hparent : (⟨leading, Path.eraseBreaks front ++ [⟨Compound.eraseBreaks subject, js⟩],
        false⟩ : Complex) = Complex.eraseBreaks ⟨leading, front ++ [⟨subject, js⟩], lineBreak⟩ := by
      rw [Complex.eraseBreaks, hpath]
    have hresult (lengthened : Compound) :
        (⟨leading, Path.eraseBreaks front ++
          [⟨Compound.eraseBreaks lengthened ++ Compound.eraseBreaks conditions, ks⟩], false⟩ :
          Complex) =
        Complex.eraseBreaks ⟨leading, front ++ [⟨lengthened ++ conditions, ks⟩], lineBreak⟩ := by
      simp [Complex.eraseBreaks, Path.eraseBreaks_eq_map, Component.eraseBreaks,
        Compound.eraseBreaks_eq_map]
    simp only [merge, Complex.eraseBreaks, hpath, List.getLast?_concat, List.dropLast_concat]
    split
    · cases suffix with
      | none => exact congrArg Except.ok (hresult subject)
      | some suffix =>
        have hempty : (Compound.eraseBreaks subject).isEmpty = subject.isEmpty := by
          cases subject <;> rfl
        simp only [hempty]
        split
        · exact congrArg (fun p ↦ Except.error (SelectorError.invalidParent p)) hparent
        · rw [Compound.withSuffix_eraseBreaks]
          exact bind_bimap (fun lengthened ↦ congrArg Except.ok (hresult lengthened)) _
    · exact congrArg (fun p ↦ Except.error (SelectorError.invalidParent p)) hparent

theorem Compound.startsWithParent_eraseBreaks (c : Compound) :
    Compound.startsWithParent (Compound.eraseBreaks c) = Compound.startsWithParent c := by
  cases c with
  | nil => rfl
  | cons s c => cases s <;> rfl

theorem SelectorList.eraseBreaks_withCombinators (l : SelectorList) (ks : List Combinator) :
    SelectorList.eraseBreaks (SelectorList.withCombinators l ks) =
      SelectorList.withCombinators (SelectorList.eraseBreaks l) ks := by
  simp only [SelectorList.withCombinators, SelectorList.eraseBreaks_eq_map, List.map_map,
    Function.comp_def, Complex.eraseBreaks_withCombinators]

theorem Compound.placements_eraseBreaks (parent : SelectorList) (c resolved : Compound)
    (ks : List Combinator) :
    Compound.placements (SelectorList.eraseBreaks parent) (Compound.eraseBreaks c)
      (Compound.eraseBreaks resolved) ks =
      bimap SelectorError.eraseBreaks SelectorList.eraseBreaks
        (Compound.placements parent c resolved ks) := by
  have hmerge (suffix : Option String) :
      (SelectorList.eraseBreaks parent).mapM
        (fun p ↦ p.merge suffix (Compound.eraseBreaks resolved).tail ks) =
        bimap SelectorError.eraseBreaks SelectorList.eraseBreaks
          (parent.mapM fun p ↦ p.merge suffix resolved.tail ks) := by
    have htail : (Compound.eraseBreaks resolved).tail = Compound.eraseBreaks resolved.tail := by
      cases resolved <;> rfl
    rw [htail, SelectorList.eraseBreaks_eq_map, funext SelectorList.eraseBreaks_eq_map]
    exact mapM_bimap fun p _ ↦ p.merge_eraseBreaks suffix resolved.tail ks
  cases hc : Compound.startsWithParent c with
  | false =>
    rw [Compound.placements_of_other hc,
      Compound.placements_of_other ((Compound.startsWithParent_eraseBreaks c).trans hc)]
    rfl
  | true =>
    obtain ⟨suffix, conditions, rfl⟩ := Compound.startsWithParent_iff.1 hc
    -- `&` alone is the parent itself, and otherwise each parent is merged
    match suffix, conditions with
    | none, [] => exact congrArg Except.ok (SelectorList.eraseBreaks_withCombinators parent ks).symm
    | some suffix, _ => exact hmerge (some suffix)
    | none, _ :: _ => exact hmerge none

/-! ### Nested lists -/

theorem Compound.hasNestedParent_eraseBreaks (c : Compound) :
    Compound.hasNestedParent (Compound.eraseBreaks c) = Compound.hasNestedParent c := by
  rw [hasNestedParent, Compound.eraseBreaks_eq_map, List.any_map, hasNestedParent]
  congr 1
  funext s
  cases s with
  | pseudo p => exact Pseudo.hasParent_eraseBreaks p
  | _ => rfl

section Resolve

variable (parent : SelectorList)

mutual

theorem Simple.resolve_eraseBreaks (s : Simple) :
    s.eraseBreaks.resolve (SelectorList.eraseBreaks parent) =
      bimap SelectorError.eraseBreaks Simple.eraseBreaks (s.resolve parent) := by
  match s with
  | .pseudo p =>
    simp only [Simple.eraseBreaks, Simple.resolve, p.resolve_eraseBreaks, ← map_eq_pure_bind]
    apply map_bimap
    intro q
    rw [Simple.eraseBreaks]
  | .universal _ | .type _ | .className _ | .id _ | .attribute _ | .placeholder _ | .parent _ => rfl

theorem Pseudo.resolve_eraseBreaks (p : Pseudo) :
    p.eraseBreaks.resolve (SelectorList.eraseBreaks parent) =
      bimap SelectorError.eraseBreaks Pseudo.eraseBreaks (p.resolve parent) := by
  match p with
  | ⟨_, _, _, none⟩ => rfl
  | ⟨name, element, argument, some l⟩ =>
    simp only [Pseudo.eraseBreaks, Pseudo.resolve, SelectorList.hasParent_eraseBreaks,
      SelectorList.blocks_eraseBreaks false l]
    split
    · apply bind_bimap
      intro blocks
      rw [← SelectorList.eraseBreaks_interleave]
      rfl
    · rfl

theorem SelectorList.blocks_eraseBreaks (implied : Bool) (l : SelectorList) :
    SelectorList.blocks (SelectorList.eraseBreaks parent) implied (SelectorList.eraseBreaks l) =
      bimap SelectorError.eraseBreaks (List.map SelectorList.eraseBreaks)
        (SelectorList.blocks parent implied l) := by
  match l with
  | [] => rfl
  | c :: l =>
    simp only [SelectorList.eraseBreaks, SelectorList.blocks, c.block_eraseBreaks implied,
      SelectorList.blocks_eraseBreaks implied l]
    exact bind₂_bimap (fun _ _ ↦ List.map_cons.symm) _ _

theorem Complex.block_eraseBreaks (implied : Bool) (c : Complex) :
    c.eraseBreaks.block (SelectorList.eraseBreaks parent) implied =
      bimap SelectorError.eraseBreaks SelectorList.eraseBreaks (c.block parent implied) := by
  match c with
  | ⟨leading, p, lineBreak⟩ =>
    simp only [Complex.eraseBreaks, Complex.block, Path.hasParent_eraseBreaks]
    split
    · exact Path.resolve_eraseBreaks leading p []
    · exact congrArg Except.ok
        (Complex.eraseBreaks_unresolved parent implied ⟨leading, p, lineBreak⟩).symm

theorem Path.resolve_eraseBreaks (leading : List Combinator) (p : Path) (heads : SelectorList) :
    Path.resolve (SelectorList.eraseBreaks parent) leading (Path.eraseBreaks p)
        (SelectorList.eraseBreaks heads) =
      bimap SelectorError.eraseBreaks SelectorList.eraseBreaks
        (Path.resolve parent leading p heads) := by
  match p with
  | [] => rfl
  | ⟨c, ks⟩ :: p =>
    have hd := Component.resolve_eraseBreaks ⟨c, ks⟩
    have hp := Path.resolve_eraseBreaks leading p
    rw [Path.eraseBreaks, Path.resolve, Path.resolve]
    rw [Component.eraseBreaks] at hd
    rw [hd]
    apply bind_bimap
    intro o
    rw [← hp, SelectorList.eraseBreaks_advance]
    rfl

theorem Component.resolve_eraseBreaks (d : Component) :
    d.eraseBreaks.resolve (SelectorList.eraseBreaks parent) =
      bimap SelectorError.eraseBreaks (Option.map SelectorList.eraseBreaks)
        (d.resolve parent) := by
  match d with
  | ⟨c, ks⟩ =>
    simp only [Component.eraseBreaks, Component.resolve, Compound.hasNestedParent_eraseBreaks,
      Compound.startsWithParent_eraseBreaks, Compound.resolve_eraseBreaks c]
    split
    · apply bind_bimap
      intro resolved
      rw [Compound.placements_eraseBreaks]
      cases Compound.placements parent c resolved ks <;> rfl
    · rfl

theorem Compound.resolve_eraseBreaks (c : Compound) :
    Compound.resolve (SelectorList.eraseBreaks parent) (Compound.eraseBreaks c) =
      bimap SelectorError.eraseBreaks Compound.eraseBreaks (Compound.resolve parent c) := by
  match c with
  | [] => rfl
  | s :: c =>
    simp only [Compound.eraseBreaks, Compound.resolve, s.resolve_eraseBreaks,
      Compound.resolve_eraseBreaks c]
    apply bind₂_bimap
    intro t d
    rw [Compound.eraseBreaks]

end

end Resolve

/-- Line breaks may be erased before nesting or after it. -/
theorem SelectorList.nestWithin_eraseBreaks (l parent : SelectorList) (implied keep : Bool) :
    (SelectorList.eraseBreaks l).nestWithin (SelectorList.eraseBreaks parent) implied keep =
      bimap SelectorError.eraseBreaks SelectorList.eraseBreaks
        (l.nestWithin parent implied keep) := by
  cases keep with
  | true =>
    refine congrArg Except.ok ?_
    rw [SelectorList.eraseBreaks_interleave, SelectorList.eraseBreaks_eq_map l, List.map_map,
      List.map_map]
    simp only [Function.comp_def, Complex.eraseBreaks_unresolved]
  | false =>
    rw [SelectorList.nestWithin_eq, SelectorList.nestWithin_eq, SelectorList.blocks_eraseBreaks]
    exact map_bimap (fun blocks ↦ (SelectorList.eraseBreaks_interleave blocks).symm) _

end SelectorAlgebra

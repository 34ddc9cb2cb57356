import Mathlib
import SelectorAlgebra.Proofs.Nesting.Block

/-!
# Nesting in steps

A rule in a rule in a rule can be nested from either end. Main statement: where the innermost
selectors have no parent selector, both ways give the same members in the same order, or the same
error.
-/

namespace SelectorAlgebra

variable {parent : SelectorList}

/-! ### Words of placements -/

/-- The words that take the place of a component, one for each member of the parent. -/
def Component.wordsWithin (parent : SelectorList) (d : Component) :
    Except SelectorError (List (List Part)) := do
  let resolved ← Compound.resolve parent d.compound
  let placements ← Compound.placements parent d.compound resolved d.combinators
  return placements.map Complex.word

/-- The words that take the place of a path, one for each choice of parents. -/
def Path.wordsWithin (parent : SelectorList) : Path → Except SelectorError (List (List Part))
  | [] => return [[]]
  | d :: p => do
    let words ← d.wordsWithin parent
    let more ← Path.wordsWithin parent p
    return words.flatMap fun u ↦ more.map (u ++ ·)

/-- The words of the choices of placements. -/
theorem Path.wordsWithin_eq (p : Path) : Path.wordsWithin parent p =
    (fun placements ↦ (choices placements).map (List.flatMap Complex.word)) <$>
      Path.placements parent p := by
  induction p with
  | nil => rfl
  | cons d p ih =>
    obtain ⟨c, ks⟩ := d
    rw [Path.wordsWithin, ih, Path.placements, Component.wordsWithin]
    simp only [bind_assoc, pure_bind, map_bind, bind_map_left, map_pure]
    simp [choices, List.flatMap_map, List.map_flatMap, Function.comp_def]

theorem Path.wordsWithin_singleton (d : Component) :
    Path.wordsWithin parent [d] = d.wordsWithin parent := by
  simp [Path.wordsWithin]

/-- The words of one path after another: each of the first followed by each of the second. -/
theorem Path.wordsWithin_append (p q : Path) : Path.wordsWithin parent (p ++ q) = do
    let words ← Path.wordsWithin parent p
    let more ← Path.wordsWithin parent q
    return words.flatMap fun u ↦ more.map (u ++ ·) := by
  induction p with
  | nil => simp [Path.wordsWithin]
  | cons d p ih =>
    rw [List.cons_append, Path.wordsWithin, Path.wordsWithin, ih]
    simp only [bind_assoc, pure_bind]
    simp [List.flatMap_assoc, List.flatMap_map, List.map_flatMap, Function.comp_def]

/-! ### Combinators behind a component -/

/-- Whether a parent can be merged does not depend on the combinators behind it. -/
theorem Complex.merge_append (p : Complex) (suffix : Option String) (conditions : Compound)
    (ks js : List Combinator) : p.merge suffix conditions (ks ++ js) =
      (fun m ↦ m.trail js) <$> p.merge suffix conditions ks := by
  unfold merge
  split
  · rfl
  · split
    · cases suffix with
      | none => simp only [map_bind, map_pure, trail_concat]
      | some suffix =>
        dsimp only
        split
        · rfl
        · simp only [map_bind, map_pure, trail_concat]
    · rfl

/-- Combinators behind a component stand at the end of what takes its place. -/
theorem Component.wordsWithin_append (c : Compound) (ks js : List Combinator) :
    Component.wordsWithin parent ⟨c, ks ++ js⟩ =
      List.map (· ++ js.map .combinator) <$> Component.wordsWithin parent ⟨c, ks⟩ := by
  simp only [wordsWithin, map_bind, map_pure]
  refine bind_congr fun resolved ↦ ?_
  unfold Compound.placements
  split
  · exact congrArg Except.ok (by simp [SelectorList.withCombinators])
  · simp only [Complex.merge_append, mapM_map_result, bind_map_left, List.map_map,
      Function.comp_def, Complex.word_trail]
  · exact congrArg Except.ok (by simp [Complex.word])

/-! ### Selectors without `&` -/

theorem Compound.resolve_of_hasParent_eq_false {c : Compound} (h : Compound.hasParent c = false) :
    Compound.resolve parent c = .ok c := by
  refine Compound.resolve_of_hasNestedParent_eq_false (List.any_eq_false.2 fun s hs ↦ ?_)
  have hs : s.hasParent = false := by
    rw [← Bool.not_eq_true] at h ⊢
    exact fun h' ↦ h (Compound.hasParent_iff.2 ⟨s, hs, h'⟩)
  match s with
  | .pseudo p => exact ne_true_of_eq_false hs
  | .universal _ | .type _ | .className _ | .id _ | .attribute _ | .placeholder _ | .parent _ => simp

theorem Component.wordsWithin_of_hasParent_eq_false {d : Component}
    (h : Compound.hasParent d.compound = false) :
    d.wordsWithin parent = pure [Complex.word ⟨[], [d], false⟩] := by
  have hother : Compound.startsWithParent d.compound = false := by
    rw [← Bool.not_eq_true, Compound.startsWithParent_iff]
    rintro ⟨suffix, conditions, hd⟩
    simp [hd, Compound.hasParent, Simple.hasParent] at h
  rw [Component.wordsWithin, Compound.resolve_of_hasParent_eq_false h]
  change (Compound.placements parent d.compound d.compound d.combinators >>= fun l ↦
    pure (l.map Complex.word)) = _
  rw [Compound.placements_of_other hother]
  rfl

/-- A path without `&` stays. -/
theorem Path.wordsWithin_of_hasParent_eq_false {p : Path} (h : Path.hasParent p = false) :
    Path.wordsWithin parent p = pure [Complex.word ⟨[], p, false⟩] := by
  induction p with
  | nil => rfl
  | cons d p ih =>
    obtain ⟨c, ks⟩ := d
    rw [Path.hasParent, Bool.or_eq_false_iff] at h
    rw [Path.wordsWithin, Component.wordsWithin_of_hasParent_eq_false h.1, ih h.2]
    exact congrArg Except.ok (by simp [Complex.word])

/-! ### One selector after another -/

/-- Combinators behind a path stand at the end of what takes its place. -/
theorem Path.wordsWithin_concat_append (p : Path) (c : Compound) (ks js : List Combinator) :
    Path.wordsWithin parent (p ++ [⟨c, ks ++ js⟩]) =
      List.map (· ++ js.map .combinator) <$> Path.wordsWithin parent (p ++ [⟨c, ks⟩]) := by
  rw [Path.wordsWithin_append, Path.wordsWithin_append, Path.wordsWithin_singleton,
    Path.wordsWithin_singleton, Component.wordsWithin_append]
  simp only [map_bind, bind_map_left, map_pure]
  simp [List.map_flatMap, Function.comp_def]

theorem Path.wordsWithin_append_of_hasParent_eq_false (p : Path) {q : Path}
    (h : Path.hasParent q = false) : Path.wordsWithin parent (p ++ q) =
      List.map (· ++ Complex.word ⟨[], q, false⟩) <$> Path.wordsWithin parent p := by
  rw [Path.wordsWithin_append, Path.wordsWithin_of_hasParent_eq_false h, map_eq_pure_bind]
  simp only [pure_bind, List.map_singleton, ← List.map_eq_flatMap]

/-- What a path becomes does not depend on a selector without `&` behind it. -/
theorem Path.wordsWithin_concatenate (p : Path) (d : Compound) (ks : List Combinator) {c : Complex}
    (hc : c.hasParent = false) :
    Path.wordsWithin parent ((p ++ [⟨d, ks ++ c.leading⟩]) ++ c.components) =
      List.map (· ++ c.word) <$> Path.wordsWithin parent (p ++ [⟨d, ks⟩]) := by
  have hword : c.word = c.leading.map .combinator ++ Complex.word ⟨[], c.components, false⟩ := rfl
  rw [Complex.hasParent_eq] at hc
  rw [Path.wordsWithin_append_of_hasParent_eq_false _ hc, Path.wordsWithin_concat_append, hword]
  simp [Function.comp_def]

/-- The words of the members that a member gives. -/
theorem Complex.words_block (hparent : parent ≠ []) (c : Complex) : List.map Complex.word <$> c.block parent true =
    if c.hasParent then
      List.map (c.leading.map .combinator ++ ·) <$> Path.wordsWithin parent c.components
    else pure (parent.map fun p ↦ p.word ++ c.word) := by
  rw [Complex.block_eq hparent]
  split
  · rw [Path.wordsWithin_eq]
    simp [Complex.word_join, Function.comp_def]
  · exact congrArg Except.ok (by simp [Complex.unresolved, Function.comp_def])

/-- What a member becomes does not depend on a selector without `&` behind it. -/
theorem Complex.words_block_concatenate (hparent : parent ≠ []) (b : Complex) {c : Complex}
    (hc : c.hasParent = false) :
    List.map Complex.word <$> (b.concatenate c false).block parent true =
      List.map (fun m ↦ m.word ++ c.word) <$> b.block parent true := by
  have hsplit : List.map (fun m : Complex ↦ m.word ++ c.word) <$> b.block parent true =
      List.map (· ++ c.word) <$> (List.map Complex.word <$> b.block parent true) := by
    simp [Function.comp_def]
  rw [hsplit, Complex.words_block hparent, Complex.words_block hparent,
    Complex.hasParent_concatenate, hc, Bool.or_false]
  split
  · next hb =>
    -- A member with `&` has a last component, and what is put behind it attaches to that.
    obtain ⟨leading, p, lineBreak⟩ := b
    have hp : p ≠ [] := by
      rintro rfl
      cases hb
    obtain ⟨front, ⟨d, ks⟩, rfl⟩ := (List.eq_nil_or_concat' p).resolve_left hp
    rw [Complex.concatenate_concat, Path.wordsWithin_concatenate front d ks hc]
    simp [Function.comp_def]
  · simp [Function.comp_def]

/-! ### Lists -/

/-- Where a list without `&` is nested, each member of the parent stands in front of each of its
members. -/
theorem SelectorList.nestWithin_of_hasParent_eq_false {l : SelectorList}
    (h : SelectorList.hasParent l = false) : l.nestWithin parent true false =
      pure (parent.flatMap fun p ↦ l.map fun c ↦ p.concatenate c false) := by
  refine SelectorList.nestWithin_eq_ok_iff.2 ?_
  refine ⟨l.map fun c ↦ parent.map fun p ↦ p.concatenate c false, ?_, ?_⟩
  · rw [SelectorList.blocks_eq_mapM, mapM_eq_ok_iff, List.forall₂_map_right_iff, List.forall₂_same]
    intro c hc
    exact Complex.block_of_hasParent_eq_false (SelectorList.hasParent_eq_false_iff.1 h c hc)
  · exact (interleave_map_map (fun c p ↦ Complex.concatenate p c false) parent l).symm

/-- The blocks of the members of a list each of which stands in front of each member of another, if
`&` does not occur in that. It has a member: with none, no error would be met. -/
theorem SelectorList.words_blocks_concatenate (hparent : parent ≠ []) (k : SelectorList)
    {l : SelectorList} (hl : SelectorList.hasParent l = false) (hne : l ≠ []) :
    List.map (List.map Complex.word) <$> SelectorList.blocks parent true
        (k.flatMap fun b ↦ l.map fun c ↦ b.concatenate c false) =
      (List.flatMap fun block ↦ l.map fun c ↦ block.map fun m ↦ m.word ++ c.word) <$>
        SelectorList.blocks parent true k := by
  have hmember (b : Complex) : l.mapM (fun c ↦ List.map Complex.word <$>
      (b.concatenate c false).block parent true) =
      (fun block ↦ l.map fun c ↦ block.map fun m ↦ m.word ++ c.word) <$> b.block parent true := by
    rw [mapM_congr_left fun c hc ↦
      b.words_block_concatenate hparent (SelectorList.hasParent_eq_false_iff.1 hl c hc)]
    exact mapM_const_map hne _ _
  rw [SelectorList.blocks_eq_mapM, SelectorList.blocks_eq_mapM, ← mapM_map_result, mapM_flatMap]
  simp only [List.mapM_map, Function.comp_def, hmember, mapM_map_result, Functor.map_map]
  rfl

/-- Nesting from either end gives the same words. -/
theorem SelectorList.words_nestWithin_nestWithin {a : SelectorList} (ha : a ≠ [])
    (b : SelectorList) {c : SelectorList} (hc : SelectorList.hasParent c = false) (hne : c ≠ []) :
    List.map Complex.word <$> (b.nestWithin a true false >>= fun r ↦ c.nestWithin r true false) =
      List.map Complex.word <$> (c.nestWithin b true false >>= fun r ↦ r.nestWithin a true false) := by
  have hleft (blocks : List SelectorList) : List.map Complex.word
      ((interleave blocks).flatMap fun p ↦ c.map fun m ↦ p.concatenate m false) =
      interleave (blocks.flatMap fun block ↦ c.map fun m ↦ block.map fun p ↦ p.word ++ m.word) := by
    rw [interleave_flatMap_map (fun (m p : Complex) ↦ p.word ++ m.word)]
    simp [List.map_flatMap, Function.comp_def]
  calc List.map Complex.word <$> (b.nestWithin a true false >>= fun r ↦ c.nestWithin r true false)
      = (fun blocks ↦ interleave (blocks.flatMap fun block ↦
          c.map fun m ↦ block.map fun p ↦ p.word ++ m.word)) <$> SelectorList.blocks a true b := by
        simp only [SelectorList.nestWithin_of_hasParent_eq_false hc, SelectorList.nestWithin_eq,
          bind_map_left, map_bind, map_pure, hleft]
        exact (map_eq_pure_bind _ _).symm
    _ = interleave <$> (List.map (List.map Complex.word) <$> SelectorList.blocks a true
          (b.flatMap fun p ↦ c.map fun m ↦ p.concatenate m false)) := by
        rw [SelectorList.words_blocks_concatenate ha b hc hne, Functor.map_map]
    _ = List.map Complex.word <$>
          (c.nestWithin b true false >>= fun r ↦ r.nestWithin a true false) := by
        rw [SelectorList.nestWithin_of_hasParent_eq_false hc, pure_bind, SelectorList.nestWithin_eq]
        simp only [Functor.map_map, map_interleave]

/-- Nesting in steps may begin at either end where the innermost list has no parent selector: both
ways give the same members in the same order, or the same error. -/
theorem SelectorList.nestWithin_nestWithin {a : SelectorList} (ha : a ≠ []) (b : SelectorList)
    {c : SelectorList} (hc : SelectorList.hasParent c = false) (hne : c ≠ []) :
    (∃ r s, (b.nestWithin a true false >>= fun l ↦ c.nestWithin l true false) = .ok r ∧
        (c.nestWithin b true false >>= fun l ↦ l.nestWithin a true false) = .ok s ∧
        SelectorList.same r s = true) ∨
      ∃ e, (b.nestWithin a true false >>= fun l ↦ c.nestWithin l true false) = .error e ∧
        (c.nestWithin b true false >>= fun l ↦ l.nestWithin a true false) = .error e := by
  have hwords := SelectorList.words_nestWithin_nestWithin ha b hc hne
  generalize (b.nestWithin a true false >>= fun l ↦ c.nestWithin l true false) = x at hwords ⊢
  generalize (c.nestWithin b true false >>= fun l ↦ l.nestWithin a true false) = y at hwords ⊢
  cases x with
  | error e =>
    cases y with
    | error e' =>
      cases hwords
      exact .inr ⟨e, rfl, rfl⟩
    | ok s => cases hwords
  | ok r =>
    cases y with
    | error e => cases hwords
    | ok s => exact .inl ⟨r, s, rfl, rfl, SelectorList.same_of_words (Except.ok.inj hwords)⟩

/-- The list `+ .c` nested in `&-x > &, .b` in `.a, .d`. -/
theorem SelectorList.nestWithin_nestWithin_siblings :
    let a : SelectorList := [.ofCompound [.className "a"], .ofCompound [.className "d"]]
    let b : SelectorList := [⟨[], [⟨[.parent (some "-x")], [.child]⟩, ⟨[.parent none], []⟩], false⟩,
      .ofCompound [.className "b"]]
    let c : SelectorList := [⟨[.nextSibling], [⟨[.className "c"], []⟩], false⟩]
    let before (k : List Combinator) (p q : String) : Complex :=
      ⟨[], [⟨[.className p], k⟩, ⟨[.className q], [.nextSibling]⟩, ⟨[.className "c"], []⟩], false⟩
    a ≠ [] ∧ SelectorList.hasParent c = false ∧ c ≠ [] ∧
      ∃ r, (c.nestWithin b true false >>= fun l ↦ l.nestWithin a true false) = .ok r ∧
        SelectorList.same [before [.child] "a-x" "a", before [] "a" "b", before [.child] "a-x" "d",
          before [] "d" "b", before [.child] "d-x" "a", before [.child] "d-x" "d"] r = true := by
  intro a b c before
  have hr : (b.nestWithin a true false >>= fun l ↦ c.nestWithin l true false) =
      .ok [before [.child] "a-x" "a", before [] "a" "b", before [.child] "a-x" "d",
        before [] "d" "b", before [.child] "d-x" "a", before [.child] "d-x" "d"] := by cbv
  refine ⟨by simp [a], rfl, by simp [c], ?_⟩
  rcases SelectorList.nestWithin_nestWithin (a := a) (by simp [a]) b (c := c) rfl (by simp [c]) with
    ⟨r, s, hr', hs, hsame⟩ | ⟨e, he, -⟩
  · obtain rfl := Except.ok.inj (hr.symm.trans hr')
    exact ⟨s, hs, hsame⟩
  · cases hr.symm.trans he

end SelectorAlgebra

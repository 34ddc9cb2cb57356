import Mathlib.Tactic.Push
import SelectorAlgebra.Proofs.Nesting.Block
import SelectorAlgebra.Proofs.Selector.Everywhere

/-!
# When nesting fails

A compound selector that goes on behind its `&`, with a suffix or with conditions, is merged with
the last compound selector of every member of the parent. Main statement: nesting fails exactly if
there is such a compound selector, at any depth, and a member of the parent that cannot be merged
with it. The error names that a parent or a suffix does not fit, and never that there is no parent.
-/

namespace SelectorAlgebra

/-- Whether a simple selector does not end with a name that a suffix could lengthen. -/
def Simple.RefusesSuffix : Simple → Prop
  | .universal _ | .attribute _ | .parent _ => True
  | .pseudo p => p.argument ≠ none ∨ p.selector ≠ none
  | .type _ | .className _ | .id _ | .placeholder _ => False

/-- Whether a complex selector cannot stand for `&` where a compound selector goes on behind it: it
has no components, combinators follow the last one, or that one ends with nothing that the suffix
could lengthen. -/
def Complex.RefusesMerge (p : Complex) (suffix : Option String) : Prop :=
  p.components = [] ∨ ∃ last, p.components.getLast? = some last ∧
    (last.combinators ≠ [] ∨ suffix ≠ none ∧ ∀ s ∈ last.compound.getLast?, s.RefusesSuffix)

/-- Whether each member of a parent can stand for the `&` of a compound selector. -/
def Compound.Mergeable (parent : SelectorList) (c : Compound) : Prop :=
  ∀ suffix conditions, c = .parent suffix :: conditions → (suffix ≠ none ∨ conditions ≠ []) →
    ∀ p ∈ parent, ¬ p.RefusesMerge suffix

/-- The shape of selectors in which each member of a parent can stand for every `&`. -/
def Shape.mergeable (parent : SelectorList) : Shape where
  compound := Compound.Mergeable parent

/-- Whether an error names a member of the parent, or a suffix that fits no name. -/
def SelectorError.IsMergeError (parent : SelectorList) (e : SelectorError) : Prop :=
  (∃ p ∈ parent, e = .invalidParent p) ∨ ∃ s suffix, e = .invalidSuffix s suffix

variable {parent : SelectorList} {F : SelectorError → Prop}

/-! ### Merging with one member of the parent -/

theorem Simple.settles_withSuffix (hF : ∀ s suffix, F (.invalidSuffix s suffix)) (s : Simple)
    (suffix : String) : Settles F (¬ s.RefusesSuffix) (s.withSuffix suffix) := by
  match s with
  | .universal _ | .attribute _ | .parent _ => exact ⟨not_not_intro trivial, hF _ _⟩
  | .type _ | .className _ | .id _ | .placeholder _ => exact not_false
  | .pseudo ⟨_, _, none, none⟩ => exact not_or_intro (absurd rfl) (absurd rfl)
  | .pseudo ⟨_, _, some _, _⟩ => exact ⟨not_not_intro (.inl nofun), hF _ _⟩
  | .pseudo ⟨_, _, none, some _⟩ => exact ⟨not_not_intro (.inr nofun), hF _ _⟩

theorem Compound.settles_withSuffix (hF : ∀ s suffix, F (.invalidSuffix s suffix)) {c : Compound}
    (hc : c ≠ []) (suffix : String) :
    Settles F (¬ ∀ s ∈ c.getLast?, s.RefusesSuffix) (Compound.withSuffix c suffix) := by
  obtain ⟨front, s, rfl⟩ := (List.eq_nil_or_concat' c).resolve_left hc
  rw [Compound.withSuffix_concat]
  apply (s.settles_withSuffix hF suffix).map.congr
  simp

theorem Complex.settles_merge {p : Complex} (hp : p ∈ parent) (suffix : Option String)
    (conditions : Compound) (ks : List Combinator) :
    Settles (SelectorError.IsMergeError parent) (¬ p.RefusesMerge suffix)
      (p.merge suffix conditions ks) := by
  have hinvalid : SelectorError.IsMergeError parent (.invalidParent p) := .inl ⟨p, hp, rfl⟩
  unfold merge
  split
  · next hnone =>
    exact ⟨not_not_intro (.inl (List.getLast?_eq_none_iff.1 hnone)), hinvalid⟩
  · next last hlast =>
    have hrefuses : p.RefusesMerge suffix ↔ last.combinators ≠ [] ∨
        suffix ≠ none ∧ ∀ s ∈ last.compound.getLast?, s.RefusesSuffix := by
      have hne : p.components ≠ [] := by
        intro hnil
        simp [hnil] at hlast
      simp only [RefusesMerge, hne, hlast, false_or, Option.some.injEq, exists_eq_left']
    rw [hrefuses]
    by_cases hks : last.combinators = []
    · simp only [hks, List.isEmpty_nil, if_true]
      cases suffix with
      | none => exact not_or_intro (absurd rfl) fun h ↦ h.1 rfl
      | some suffix =>
        by_cases hsubject : last.compound = []
        · simp only [hsubject, List.isEmpty_nil, if_true]
          exact ⟨not_not_intro (.inr ⟨nofun, by simp⟩), hinvalid⟩
        · simp only [List.isEmpty_iff, hsubject, if_false, ← map_eq_pure_bind]
          have hsuffix := Compound.settles_withSuffix (F := SelectorError.IsMergeError parent)
            (fun s suffix ↦ .inr ⟨s, suffix, rfl⟩) hsubject suffix
          apply hsuffix.map.congr
          simp
    · simp only [List.isEmpty_iff, hks, if_false]
      exact ⟨not_not_intro (.inl hks), hinvalid⟩

/-! ### Placements -/

theorem Compound.settles_placements (c resolved : Compound) (ks : List Combinator) :
    Settles (SelectorError.IsMergeError parent) (c.Mergeable parent)
      (Compound.placements parent c resolved ks) := by
  unfold placements
  split
  · rintro suffix conditions ⟨⟩ (h | h)
    · exact absurd rfl h
    · exact absurd rfl h
  · next suffix conditions halone =>
    have hmore : suffix ≠ none ∨ conditions ≠ [] := by
      by_contra hnone
      obtain ⟨hsuffix, hconditions⟩ := not_or.1 hnone
      exact halone (not_not.1 hconditions) (not_not.1 hsuffix)
    apply (Settles.mapM fun p hp ↦ Complex.settles_merge hp suffix resolved.tail ks).congr
    constructor
    · rintro h _ _ ⟨⟩ _ p hp
      exact h p hp
    · intro h
      exact h suffix conditions rfl hmore
  · next hother =>
    rintro suffix conditions rfl
    exact absurd rfl (hother suffix conditions)

theorem Compound.settles_resolve {P : Simple → Prop} {c : Compound}
    (h : ∀ s ∈ c, Settles F (P s) (s.resolve parent)) :
    Settles F (∀ s ∈ c, P s) (Compound.resolve parent c) := by
  induction c with
  | nil => exact List.forall_mem_nil P
  | cons s c ih =>
    rw [List.forall_mem_cons] at h ⊢
    apply h.1.bind
    intro t _
    rw [← map_eq_pure_bind]
    exact (ih h.2).map

theorem Component.settles_resolve {P : Prop} {d : Component}
    (h : Settles (SelectorError.IsMergeError parent) P (Compound.resolve parent d.compound)) :
    Settles (SelectorError.IsMergeError parent) (Compound.Mergeable parent d.compound ∧ P)
      (d.resolve parent) := by
  obtain ⟨c, ks⟩ := d
  -- what takes the place of a component fails where resolving it does
  rw [← Settles.map_iff, ← Component.placements_eq, and_comm]
  exact h.bind fun resolved _ ↦ Compound.settles_placements c resolved ks

theorem Path.settles_resolve {P : Compound → Prop} {p : Path}
    (h : ∀ d ∈ p, Settles (SelectorError.IsMergeError parent) (P d.compound)
      (Compound.resolve parent d.compound)) (leading : List Combinator) (heads : SelectorList) :
    Settles (SelectorError.IsMergeError parent)
      (∀ d ∈ p, Compound.Mergeable parent d.compound ∧ P d.compound)
      (Path.resolve parent leading p heads) := by
  induction p generalizing heads with
  | nil => exact List.forall_mem_nil _
  | cons d p ih =>
    rw [List.forall_mem_cons] at h ⊢
    exact (Component.settles_resolve h.1).bind fun o _ ↦ ih h.2 _

/-! ### Selectors without `&` -/

theorem SelectorList.hasParent_of_holds {l : SelectorList} {b : Compound} (h : l.Holds b)
    (hb : Compound.hasParent b = true) : SelectorList.hasParent l = true := by
  induction h with
  | @component _ c d hc hd =>
    refine SelectorList.hasParent_iff.2 ⟨c, hc, ?_⟩
    rw [Complex.hasParent_eq]
    exact Path.hasParent_iff.2 ⟨d, hd, hb⟩
  | @nested _ _ c d p _ hc hd hp hk _ ih =>
    refine SelectorList.hasParent_iff.2 ⟨c, hc, ?_⟩
    rw [Complex.hasParent_eq]
    refine Path.hasParent_iff.2 ⟨d, hd, Compound.hasParent_iff.2 ⟨_, hp, ?_⟩⟩
    obtain ⟨_, _, _, _⟩ := p
    cases hk
    exact ih hb

/-- Where there is no `&`, none has to be merged. -/
theorem SelectorList.each_mergeable_of_hasParent_eq_false {l : SelectorList}
    (h : SelectorList.hasParent l = false) : SelectorList.Each (.mergeable parent) l := by
  refine SelectorList.each_iff_forall_holds.2 fun c hc ↦ ?_
  rintro suffix conditions rfl
  cases h.symm.trans (SelectorList.hasParent_of_holds hc rfl)

/-! ### Nesting -/

theorem SelectorList.settles_blocks {implied : Bool} {l : SelectorList}
    (h : ∀ c ∈ l, Settles F (c.Everywhere (.mergeable parent)) (c.block parent implied)) :
    Settles F (SelectorList.Each (.mergeable parent) l) (SelectorList.blocks parent implied l) := by
  rw [SelectorList.blocks_eq_mapM, SelectorList.each_iff]
  exact Settles.mapM h

theorem inductionStep_settles : InductionStep
    (fun s ↦ Settles (SelectorError.IsMergeError parent) (s.Everywhere (.mergeable parent))
      (s.resolve parent))
    (fun c ↦ ∀ implied, Settles (SelectorError.IsMergeError parent)
      (c.Everywhere (.mergeable parent)) (c.block parent implied)) where
  simple s ih := by
    match s with
    | .universal _ | .type _ | .className _ | .id _ | .attribute _ | .placeholder _ | .parent _ =>
      trivial
    | .pseudo ⟨_, _, _, none⟩ => exact ⟨trivial, trivial⟩
    | .pseudo ⟨name, element, argument, some l⟩ =>
      have heach : (Simple.pseudo ⟨name, element, argument, some l⟩).Everywhere
          (.mergeable parent) ↔ SelectorList.Each (.mergeable parent) l := by
        simp [Simple.everywhere_pseudo_iff, Shape.mergeable]
      rw [heach]
      unfold Simple.resolve Pseudo.resolve
      split
      · rw [← map_eq_pure_bind, ← map_eq_pure_bind]
        exact (SelectorList.settles_blocks fun c hc ↦ ih _ rfl l rfl c hc false).map.map
      · next hnone =>
        exact SelectorList.each_mergeable_of_hasParent_eq_false (Bool.eq_false_iff.2 hnone)
  complex c ih := by
    intro implied
    cases hc : c.hasParent with
    | false =>
      rw [Complex.block_of_hasParent_eq_false hc]
      have hlist : SelectorList.hasParent [c] = false := by simp [SelectorList.hasParent, hc]
      exact (SelectorList.each_mergeable_of_hasParent_eq_false hlist).1
    | true =>
      have hresolve : ∀ d ∈ c.components, Settles (SelectorError.IsMergeError parent)
          (Compound.Each (.mergeable parent) d.compound) (Compound.resolve parent d.compound) := by
        intro d hd
        rw [Compound.each_iff]
        exact Compound.settles_resolve (ih d hd)
      obtain ⟨leading, p, lineBreak⟩ := c
      have hp : Path.hasParent p = true := hc
      rw [Complex.block, if_pos hp]
      apply (Path.settles_resolve hresolve leading []).congr
      simp [Complex.everywhere_iff, Path.each_iff, Shape.mergeable]

/-- Nesting fails exactly if a compound selector of the list, at any depth, starts with `&` and goes
on with a suffix or conditions, and some member of the parent cannot be merged with it. The error
names that member of the parent, or the suffix and what it does not fit. -/
theorem SelectorList.nestWithin_error_iff (l parent : SelectorList) (implied : Bool) :
    ((∃ e, l.nestWithin parent implied false = .error e) ↔
      ∃ c, l.Holds c ∧ ∃ suffix conditions, c = .parent suffix :: conditions ∧
        (suffix ≠ none ∨ conditions ≠ []) ∧ ∃ p ∈ parent, p.RefusesMerge suffix) ∧
    ∀ e, l.nestWithin parent implied false = .error e →
      (∃ p ∈ parent, e = .invalidParent p) ∨ ∃ s suffix, e = .invalidSuffix s suffix := by
  have hblocks : Settles (SelectorError.IsMergeError parent)
      (SelectorList.Each (.mergeable parent) l) (SelectorList.blocks parent implied l) :=
    SelectorList.settles_blocks fun c _ ↦ Complex.induction inductionStep_settles c implied
  obtain ⟨herror, hsort⟩ := hblocks.map (f := interleave).error_iff
  rw [← SelectorList.nestWithin_eq] at herror hsort
  refine ⟨?_, hsort⟩
  rw [herror, Shape.mergeable, SelectorList.each_iff_forall_holds]
  simp only [Compound.Mergeable]
  push Not
  rfl

/-- The `&` of `:is(&-x)` can stand for no parent that ends with `*`. -/
example : SelectorList.nestWithin
    [.ofCompound [.pseudo ⟨"is", false, none, some [.ofCompound [.parent (some "-x")]]⟩]]
    [.ofCompound [.className "a"], .ofCompound [.universal none]] true false =
      .error (.invalidSuffix (.universal none) "-x") := rfl

end SelectorAlgebra

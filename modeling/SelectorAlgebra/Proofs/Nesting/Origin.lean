import Mathlib
import SelectorAlgebra.Parse
import SelectorAlgebra.Proofs.Nesting.Block

/-!
# Where nested members come from

Each member that nesting gives comes from one member of the nested list and from the members of the
parent that were chosen for it: one for each component that starts with `&`, or the one that was put
in front. Main statement: the line breaks that a nested member is written with are those of the
chosen parents, and its own where a parent was put in front.
-/

namespace SelectorAlgebra

/-- What a member of a nested selector list comes from. -/
structure Origin where
  /-- The member of the list that is nested. -/
  member : Complex
  /-- The members of the parent that were chosen for it, from left to right. -/
  parents : SelectorList

/-- A member comes from another with `&` if that is resolved with the chosen parents, and from one
without if that stands behind the chosen parent. -/
inductive Origin.Gives (parent : SelectorList) : Origin → Complex → Prop
  | resolved {c m : Complex} {ps : SelectorList} (hparent : c.hasParent = true)
    (h : c.Resolved (Compound.ResolvesTo parent) ps m) : Gives parent ⟨c, ps⟩ m
  | behind {c : Complex} (p : Complex) (hnone : c.hasParent = false) :
    Gives parent ⟨c, [p]⟩ (p.concatenate c false)

/-- The origins of the members of a block: all choices of parents. -/
def Complex.origins (parent : SelectorList) (c : Complex) : List Origin :=
  if c.hasParent then
    (choices (List.replicate (Path.parentCount c.components) parent)).map fun ps ↦ ⟨c, ps⟩
  else parent.map fun p ↦ ⟨c, [p]⟩

/-- The origins of the members that nesting a list in a parent gives. -/
def SelectorList.origins (parent l : SelectorList) : List Origin :=
  interleave (l.map (Complex.origins parent))

variable {parent : SelectorList}

theorem Complex.gives_of_block (hmembers : parent ≠ []) {c : Complex} {block : SelectorList}
    (h : c.block parent true = .ok block) :
    List.Forall₂ (Origin.Gives parent) (c.origins parent) block := by
  rw [Complex.block_eq hmembers] at h
  rw [Complex.origins]
  split at h
  · next hparent =>
    obtain ⟨placements, hplacements, h⟩ := bind_eq_ok_iff.1 h
    cases h
    -- the choices of parents and of what takes their places come in the same order
    rw [if_pos hparent, List.forall₂_map_left_iff, List.forall₂_map_right_iff]
    refine (Path.forall₂_placed hplacements).imp fun ps ms hpath ↦ .resolved hparent ?_
    exact ⟨ms, hpath, word_join _ ms, lineBreak_join _ ms⟩
  · next hnone =>
    cases h
    rw [if_neg hnone, Complex.unresolved, if_pos rfl, List.forall₂_map_left_iff,
      List.forall₂_map_right_iff, List.forall₂_same]
    exact fun p _ ↦ .behind p (Bool.eq_false_iff.2 hnone)

/-- The members that nesting gives come from the origins, in order. -/
theorem SelectorList.gives_of_nestWithin {l r : SelectorList} (hparent : parent ≠ [])
    (h : l.nestWithin parent true false = .ok r) :
    List.Forall₂ (Origin.Gives parent) (SelectorList.origins parent l) r := by
  obtain ⟨blocks, hblocks, rfl⟩ := SelectorList.nestWithin_eq_ok_iff.1 h
  rw [SelectorList.blocks_eq_mapM] at hblocks
  refine forall₂_interleave (List.forall₂_map_left_iff.2 ?_)
  exact (mapM_eq_ok_iff.1 hblocks).imp fun _ _ ↦ Complex.gives_of_block hparent

theorem SelectorList.member_mem_of_mem_origins {l : SelectorList} {o : Origin}
    (h : o ∈ SelectorList.origins parent l) : o.member ∈ l := by
  obtain ⟨os, hos, ho⟩ := mem_interleave_iff.1 h
  obtain ⟨c, hc, rfl⟩ := List.mem_map.1 hos
  suffices o.member = c from this ▸ hc
  unfold Complex.origins at ho
  split at ho
  · obtain ⟨ps, -, rfl⟩ := List.mem_map.1 ho
    rfl
  · obtain ⟨p, -, rfl⟩ := List.mem_map.1 ho
    rfl

/-! ### Line breaks -/

/-- A nested member keeps its own line break only behind a parent that is put in front. -/
theorem Origin.Gives.lineBreak_eq {o : Origin} {m : Complex} (h : o.Gives parent m) :
    m.lineBreak =
      (!o.member.hasParent && o.member.lineBreak || o.parents.any Complex.lineBreak) := by
  cases h with
  | resolved hparent h => simp [hparent, h.lineBreak_eq]
  | behind p hnone => simp [hnone, Bool.or_comm]

/-- Whether a nested member has a line break exactly if the member that it comes from or one of the
parents that were chosen for it has one. -/
def Origin.KeepsLineBreaks (o : Origin) (m : Complex) : Prop :=
  m.lineBreak = (o.member.lineBreak || o.parents.any Complex.lineBreak)

/-- Nesting keeps the line breaks of each member, unless it has `&` and a line break and none of the
parents that were chosen for it has one. -/
theorem SelectorList.keepsLineBreaks_nestWithin_iff {l r : SelectorList} (hparent : parent ≠ [])
    (h : l.nestWithin parent true false = .ok r) :
    List.Forall₂ (fun o m ↦ Origin.Gives parent o m ∧ (o.KeepsLineBreaks m ↔
        ¬ (o.member.hasParent = true ∧ o.member.lineBreak = true ∧
          ∀ p ∈ o.parents, p.lineBreak = false)))
      (SelectorList.origins parent l) r := by
  refine (SelectorList.gives_of_nestWithin hparent h).imp fun o m hgives ↦ ⟨hgives, ?_⟩
  have hnone : (∀ p ∈ o.parents, p.lineBreak = false) ↔
      o.parents.any Complex.lineBreak = false := by
    simp
  rw [Origin.KeepsLineBreaks, hgives.lineBreak_eq, hnone]
  cases o.member.hasParent <;> cases o.member.lineBreak <;> simp

/-- The list `.c,` line break `&.d` nested in `.a,` line break `.b`: what comes from `&.d` has a line
break only in `.b`. -/
theorem SelectorList.keepsLineBreaks_nestWithin_lines :
    let a : Complex := .ofCompound [.className "a"]
    let b : Complex := ⟨[], [⟨[.className "b"], []⟩], true⟩
    let c : Complex := .ofCompound [.className "c"]
    let d : Complex := ⟨[], [⟨[.parent none, .className "d"], []⟩], true⟩
    SelectorList.origins [a, b] [c, d] = [⟨c, [a]⟩, ⟨d, [a]⟩, ⟨c, [b]⟩, ⟨d, [b]⟩] ∧
      ¬ Origin.KeepsLineBreaks ⟨d, [a]⟩
        ⟨[], [⟨[.className "a", .className "d"], []⟩], false⟩ ∧
      Origin.KeepsLineBreaks ⟨d, [b]⟩ ⟨[], [⟨[.className "b", .className "d"], []⟩], true⟩ := by
  intro a b c d
  have hnested : SelectorList.nestWithin [c, d] [a, b] true false =
      .ok [⟨[], [⟨[.className "a"], []⟩, ⟨[.className "c"], []⟩], false⟩,
        ⟨[], [⟨[.className "a", .className "d"], []⟩], false⟩,
        ⟨[], [⟨[.className "b"], []⟩, ⟨[.className "c"], []⟩], true⟩,
        ⟨[], [⟨[.className "b", .className "d"], []⟩], true⟩] := by cbv
  have horigins : SelectorList.origins [a, b] [c, d] =
      [⟨c, [a]⟩, ⟨d, [a]⟩, ⟨c, [b]⟩, ⟨d, [b]⟩] := by cbv
  have h := SelectorList.keepsLineBreaks_nestWithin_iff (by simp) hnested
  rw [horigins] at h
  obtain ⟨-, h⟩ := List.forall₂_cons.1 h
  obtain ⟨hlost, h⟩ := List.forall₂_cons.1 h
  obtain ⟨-, h⟩ := List.forall₂_cons.1 h
  obtain ⟨hkept, -⟩ := List.forall₂_cons.1 h
  refine ⟨horigins, fun hkeeps ↦ hlost.2.1 hkeeps ⟨rfl, rfl, by simp [a, Complex.ofCompound]⟩, ?_⟩
  exact hkept.2.2 (by simp [b])

/-- The line break of a member with `&` is lost. -/
theorem SelectorList.not_keepsLineBreaks_nestWithin :
    ¬ ∀ (text : String) (l parent r : SelectorList), (SelectorList.parse text).result = .ok l →
      parent ≠ [] → l.nestWithin parent true false = .ok r →
      List.Forall₂ Origin.KeepsLineBreaks (SelectorList.origins parent l) r := by
  intro h
  have hread : (SelectorList.parse ".a,\n&.b").result =
      .ok [.ofCompound [.className "a"], ⟨[], [⟨[.parent none, .className "b"], []⟩], true⟩] := by
    cbv
  have hall := h _ _ [.ofCompound [.className "p"]]
    [⟨[], [⟨[.className "p"], []⟩, ⟨[.className "a"], []⟩], false⟩,
      ⟨[], [⟨[.className "p", .className "b"], []⟩], false⟩] hread (by simp) (by cbv)
  have horigins : SelectorList.origins [.ofCompound [.className "p"]]
      [.ofCompound [.className "a"], ⟨[], [⟨[.parent none, .className "b"], []⟩], true⟩] =
      [⟨.ofCompound [.className "a"], [.ofCompound [.className "p"]]⟩,
        ⟨⟨[], [⟨[.parent none, .className "b"], []⟩], true⟩, [.ofCompound [.className "p"]]⟩] := by
    cbv
  rw [horigins] at hall
  have hsecond := (List.forall₂_cons.1 (List.forall₂_cons.1 hall).2).1
  cases hsecond

end SelectorAlgebra

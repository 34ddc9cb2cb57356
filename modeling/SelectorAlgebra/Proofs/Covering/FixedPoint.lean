import SelectorAlgebra.Covering.Relation
import SelectorAlgebra.Proofs.Covering.Alignment

/-!
# Covering as a fixed point of its rules

A rule asks the inner relation about selectors that are nested less deep, so all stages past the
depth of a pair give the same answer. Main statement: the covering relation is unchanged when the
rules are applied to it once more, so every later argument can use the rules and forget the stages.
-/

namespace SelectorAlgebra

/-! ### Depth of parts -/

theorem Compound.depth_le_iff {c : Compound} {n : Nat} :
    Compound.depth c ≤ n ↔ ∀ s ∈ c, s.depth ≤ n := by
  induction c with
  | nil => simp [Compound.depth]
  | cons s c ih => simp only [Compound.depth, Nat.max_le, ih, List.forall_mem_cons]

theorem Path.depth_le_iff {p : Path} {n : Nat} :
    Path.depth p ≤ n ↔ ∀ d ∈ p, Compound.depth d.compound ≤ n := by
  induction p with
  | nil => simp [Path.depth]
  | cons d p ih =>
    cases d
    simp only [Path.depth, Nat.max_le, ih, List.forall_mem_cons]

@[simp] theorem Complex.depth_components (c : Complex) : Path.depth c.components = c.depth := by
  cases c
  rfl

theorem SelectorList.depth_le_iff {l : SelectorList} {n : Nat} :
    SelectorList.depth l ≤ n ↔ ∀ c ∈ l, c.depth ≤ n := by
  induction l with
  | nil => simp [SelectorList.depth]
  | cons c l ih => simp only [SelectorList.depth, Nat.max_le, ih, List.forall_mem_cons]

theorem Compound.depth_of_mem {c : Compound} {s : Simple} (h : s ∈ c) :
    s.depth ≤ Compound.depth c :=
  Compound.depth_le_iff.1 (Nat.le_refl _) s h

theorem Path.depth_of_mem {p : Path} {d : Component} (h : d ∈ p) :
    Compound.depth d.compound ≤ Path.depth p :=
  Path.depth_le_iff.1 (Nat.le_refl _) d h

theorem SelectorList.depth_of_mem {l : SelectorList} {c : Complex} (h : c ∈ l) :
    c.depth ≤ SelectorList.depth l :=
  SelectorList.depth_le_iff.1 (Nat.le_refl _) c h

theorem Path.depth_append_single (p : Path) (c : Compound) (k : List Combinator) :
    Path.depth (p ++ [⟨c, k⟩]) = max (Path.depth p) (Compound.depth c) := by
  induction p with
  | nil => simp [Path.depth]
  | cons d p ih =>
    cases d
    simp [Path.depth, ih, Nat.max_assoc]

theorem Simple.depth_of_selector {p : Pseudo} {l : SelectorList} (h : p.selector = some l) :
    (Simple.pseudo p).depth = SelectorList.depth l + 1 := by
  obtain ⟨_, _, _, _⟩ := p
  cases h
  rfl

namespace Covering

/-! ### Rules on relations that agree on what is nested less deep -/

/-- Two relations give the same answer wherever both sides together are less than `k` deep. -/
structure AgreeBelow (k : Nat) (r r' : Covering) : Prop where
  simple : ∀ s t : Simple, s.depth + t.depth < k → r.simple s t = r'.simple s t
  path : ∀ p q, Path.depth p + Path.depth q < k → r.path p q = r'.path p q

variable {k : Nat} {r r' : Covering}

private theorem any_congr {α : Type} {l : List α} {f g : α → Bool} (h : ∀ a ∈ l, f a = g a) :
    l.any f = l.any g := by
  rw [Bool.eq_iff_iff, List.any_eq_true, List.any_eq_true]
  exact exists_congr fun a ↦ and_congr_right fun ha ↦ by rw [h a ha]

private theorem all_congr {α : Type} {l : List α} {f g : α → Bool} (h : ∀ a ∈ l, f a = g a) :
    l.all f = l.all g := by
  rw [Bool.eq_iff_iff, List.all_eq_true, List.all_eq_true]
  exact forall₂_congr fun a ha ↦ by rw [h a ha]

theorem AgreeBelow.complex (h : AgreeBelow k r r') {c d : Complex} (hk : c.depth + d.depth < k) :
    r.complex c d = r'.complex c d := by
  rw [Covering.complex, Covering.complex, h.path c.components d.components (by simpa using hk)]

theorem AgreeBelow.list (h : AgreeBelow k r r') {l m : SelectorList}
    (hk : SelectorList.depth l + SelectorList.depth m < k) : r.list l m = r'.list l m := by
  refine all_congr fun d hd ↦ any_congr fun c hc ↦ h.complex ?_
  have := SelectorList.depth_of_mem hc
  have := SelectorList.depth_of_mem hd
  omega

private theorem AgreeBelow.selector_any (h : AgreeBelow k r r') {l : SelectorList} {q : Pseudo}
    (hk : SelectorList.depth l + (Simple.pseudo q).depth ≤ k) :
    q.selector.any (r.list l) = q.selector.any (r'.list l) := by
  cases hm : q.selector with
  | none => rfl
  | some m =>
    have h1 := Simple.depth_of_selector hm
    exact h.list (by omega)

theorem AgreeBelow.coversArgument (h : AgreeBelow k r r') {s t : Simple}
    (hk : s.depth + t.depth ≤ k) : r.coversArgument s t = r'.coversArgument s t := by
  cases t with
  | pseudo p =>
    simp only [Covering.coversArgument]
    cases hl : p.selector with
    | none => rfl
    | some l =>
      simp only [Option.any_some]
      congr 1
      apply all_congr
      intro c hc
      cases hlast : c.components.getLast? with
      | none => rfl
      | some last =>
        refine any_congr fun u hu ↦ h.simple s u ?_
        have h1 := Compound.depth_of_mem hu
        have h2 := Path.depth_of_mem (List.mem_of_getLast? hlast)
        have h3 := SelectorList.depth_of_mem hc
        have h4 := Simple.depth_of_selector hl
        rw [Complex.depth_components] at h2
        omega
  | _ => rfl

theorem AgreeBelow.excludes (h : AgreeBelow k r r') {name : String} {c : Complex}
    {subject : Compound} {t : Simple} (hk : c.depth + t.depth ≤ k) :
    r.excludes name c subject t = r'.excludes name c subject t := by
  cases t with
  | pseudo q =>
    simp only [Covering.excludes]
    cases hl : q.selector with
    | none => rfl
    | some l =>
      have h4 := Simple.depth_of_selector hl
      have h5 : SelectorList.depth [c] = c.depth := by simp [SelectorList.depth]
      rw [Option.any_some, Option.any_some, h.list (by omega)]
  | _ => rfl

theorem AgreeBelow.coversCompound (h : AgreeBelow k r r') {p : Pseudo} {l : SelectorList}
    {d : Compound} {parents : Path}
    (hk : SelectorList.depth l + 1 + max (Compound.depth d) (Path.depth parents) ≤ k) :
    r.coversCompound p l d parents = r'.coversCompound p l d parents := by
  have harg (name : String) (b : Bool) :
      (arguments d name b).any (r.list l) = (arguments d name b).any (r'.list l) := by
    refine any_congr fun m hm ↦ h.list ?_
    obtain ⟨t, ht, hm⟩ := List.mem_filterMap.1 hm
    have h1 := Compound.depth_of_mem ht
    cases t with
    | pseudo q =>
      simp only [Option.ite_none_right_eq_some] at hm
      have h2 := Simple.depth_of_selector hm.2
      omega
    | _ => cases hm
  have hpath : (l.any fun c ↦ c.leading.isEmpty && r.path c.components (parents ++ [⟨d, []⟩])) =
      l.any fun c ↦ c.leading.isEmpty && r'.path c.components (parents ++ [⟨d, []⟩]) := by
    apply any_congr
    intro c hc
    have h1 := SelectorList.depth_of_mem hc
    rw [h.path]
    rw [Path.depth_append_single, Complex.depth_components]
    omega
  have hnot : (l.all fun c ↦ !c.isBogus && c.components.getLast?.any fun last ↦
      d.any (r.excludes p.name c last.compound)) = l.all fun c ↦ !c.isBogus &&
        c.components.getLast?.any fun last ↦ d.any (r'.excludes p.name c last.compound) := by
    apply all_congr
    intro c hc
    have h1 := SelectorList.depth_of_mem hc
    congr 2
    funext last
    refine any_congr fun t ht ↦ h.excludes ?_
    have h2 := Compound.depth_of_mem ht
    omega
  simp only [Covering.coversCompound]
  cases p.kind with
  | matching | weightless => simp only [harg, hpath]
  | relational | slotted => simp only [harg]
  | negation => exact hnot
  | current | plain => rfl
  | counting =>
    apply any_congr
    intro t ht
    cases t with
    | pseudo q =>
      have h1 := Compound.depth_of_mem ht
      simp only [h.selector_any (l := l) (q := q) (by omega)]
    | _ => rfl

theorem AgreeBelow.sameOrArgument (h : AgreeBelow k r r') {s t : Simple}
    (hk : s.depth + t.depth ≤ k) : r.sameOrArgument s t = r'.sameOrArgument s t := by
  rw [Covering.sameOrArgument, Covering.sameOrArgument, h.coversArgument hk]

theorem AgreeBelow.coversSimple (h : AgreeBelow k r r') {s t : Simple}
    (hk : s.depth + t.depth ≤ k) : r.coversSimple s t = r'.coversSimple s t := by
  have hsame := h.sameOrArgument hk
  cases s with
  | pseudo p =>
    simp only [Covering.coversSimple, hsame]
    cases hl : p.selector with
    | none => rfl
    | some l =>
      have h1 := Simple.depth_of_selector hl
      simp only [Option.any_some]
      congr 1
      split
      · rw [h.coversCompound]
        simp only [Compound.depth, Path.depth]
        omega
      · cases t with
        | pseudo q => simp only [h.selector_any (l := l) (q := q) (by omega)]
        | _ => rfl
  | _ => simp only [Covering.coversSimple, hsame]

theorem AgreeBelow.coversConditions (h : AgreeBelow k r r') {c d : Compound} {parents : Path}
    (hk : Compound.depth c + max (Compound.depth d) (Path.depth parents) ≤ k) :
    r.coversConditions c d parents = r'.coversConditions c d parents := by
  have hd : Compound.depth (if d.isEmpty then [.universal (some "*")] else d) = Compound.depth d := by
    cases d <;> rfl
  simp only [Covering.coversConditions]
  apply all_congr
  intro s hs
  have h1 := Compound.depth_of_mem hs
  have hsome : (if d.isEmpty then [.universal (some "*")] else d).any (r.coversSimple s) =
      (if d.isEmpty then [.universal (some "*")] else d).any (r'.coversSimple s) := by
    refine any_congr fun t ht ↦ h.coversSimple ?_
    have h2 := Compound.depth_of_mem ht
    omega
  cases s with
  | pseudo p =>
    cases hl : p.selector with
    | none => simpa only [hl] using hsome
    | some l =>
      have h2 := Simple.depth_of_selector hl
      simp only [hl, hsome]
      rw [h.coversCompound (by omega)]
  | _ => exact hsome

private theorem depth_of_atPseudoElement {c before after : Compound} {e : Simple}
    (h : atPseudoElement c = some (before, e, after)) :
    Compound.depth before ≤ Compound.depth c ∧ e.depth ≤ Compound.depth c ∧
      Compound.depth after ≤ Compound.depth c := by
  unfold atPseudoElement at h
  split at h
  · cases h
  · next heq =>
    cases h
    have hsub : e :: after ⊆ c := heq ▸ (List.dropWhile_sublist _).subset
    refine ⟨Compound.depth_le_iff.2 fun s hs ↦ ?_, Compound.depth_of_mem (hsub (.head _)),
      Compound.depth_le_iff.2 fun s hs ↦ Compound.depth_of_mem (hsub (.tail _ hs))⟩
    exact Compound.depth_of_mem ((List.takeWhile_sublist _).subset hs)

theorem AgreeBelow.compound (h : AgreeBelow k r r') {c d : Compound} {parents : Path}
    (hk : Compound.depth c + max (Compound.depth d) (Path.depth parents) ≤ k) :
    r.compound c d parents = r'.compound c d parents := by
  rw [Covering.compound, Covering.compound]
  congr 1
  cases hc : atPseudoElement c with
  | none =>
    cases hd : atPseudoElement d with
    | none => exact h.coversConditions hk
    | some y => rfl
  | some x =>
    cases hd : atPseudoElement d with
    | none => rfl
    | some y =>
      obtain ⟨hx1, hx2, hx3⟩ := depth_of_atPseudoElement hc
      obtain ⟨hy1, hy2, hy3⟩ := depth_of_atPseudoElement hd
      simp only
      rw [h.coversSimple (by omega), h.coversConditions (by omega), h.coversConditions (by omega)]

theorem AgreeBelow.coversPath (h : AgreeBelow k r r') {p q : Path}
    (hk : Path.depth p + Path.depth q ≤ k) : r.coversPath p q = r'.coversPath p q := by
  have halign : Alignment.aligned r.compound p q = Alignment.aligned r'.compound p q := by
    refine Alignment.aligned_congr fun c hc d hd gap hg ↦ h.compound ?_
    have h1 := Path.depth_of_mem hc
    have h2 := Path.depth_of_mem hd
    have h3 : Path.depth gap ≤ Path.depth q :=
      Path.depth_le_iff.2 fun e he ↦ Path.depth_of_mem (hg he)
    omega
  rw [Covering.coversPath, Covering.coversPath, halign]

/-- The rules carry agreement one level further out. -/
theorem AgreeBelow.next (h : AgreeBelow k r r') : AgreeBelow (k + 1) r.next r'.next :=
  ⟨fun _ _ hk ↦ h.coversSimple (by omega), fun _ _ hk ↦ h.coversPath (by omega)⟩

/-- Stages agree below the depth that both have reached. -/
theorem stage_agreeBelow {k m n : Nat} (hm : k ≤ m) (hn : k ≤ n) :
    AgreeBelow k (stage m) (stage n) := by
  induction k generalizing m n with
  | zero => exact ⟨fun _ _ h ↦ by omega, fun _ _ h ↦ by omega⟩
  | succ k ih =>
    obtain ⟨m, rfl⟩ : ∃ m', m = m' + 1 := ⟨m - 1, by omega⟩
    obtain ⟨n, rfl⟩ : ∃ n', n = n' + 1 := ⟨n - 1, by omega⟩
    exact (ih (by omega) (by omega)).next

/-! ### The relation itself -/

/-- The covering relation as what the rules may ask. -/
def whole : Covering := ⟨Simple.covers, Path.covers⟩

/-- Below its depth a stage is the relation itself. -/
theorem whole_agreeBelow_stage (n : Nat) : AgreeBelow n whole (stage n) where
  simple s t hk := (stage_agreeBelow (m := s.depth + t.depth + 1) (Nat.le_refl _) hk).simple s t
    (Nat.lt_succ_self _)
  path p q hk := (stage_agreeBelow (m := Path.depth p + Path.depth q + 1) (Nat.le_refl _) hk).path
    p q (Nat.lt_succ_self _)

/-- The rules leave the covering relation as it is. -/
theorem whole_next : whole.next = whole := by
  have hs (s t : Simple) : whole.coversSimple s t = s.covers t :=
    (whole_agreeBelow_stage _).coversSimple (Nat.le_refl _)
  have hp (p q : Path) : whole.coversPath p q = Path.covers p q :=
    (whole_agreeBelow_stage _).coversPath (Nat.le_refl _)
  rw [next, funext₂ hs, funext₂ hp, whole]

end Covering

/-- A simple selector covers another as the rules say. -/
theorem Simple.covers_eq (s t : Simple) : s.covers t = Covering.whole.coversSimple s t :=
  congrFun₂ (congrArg Covering.simple Covering.whole_next.symm) s t

/-- A path covers another as the rules say. -/
theorem Path.covers_eq (p q : Path) : Path.covers p q = Covering.whole.coversPath p q :=
  congrFun₂ (congrArg Covering.path Covering.whole_next.symm) p q

/-- A compound selector covers another behind passed components as the rules say. -/
theorem Compound.coversBehind_eq (c d : Compound) (parents : Path) :
    Compound.coversBehind c d parents = Covering.whole.compound c d parents :=
  ((Covering.whole_agreeBelow_stage _).compound (Nat.le_refl _)).symm

/-- Complex selectors without leading combinators cover each other as their paths do. -/
theorem Complex.covers_eq (c d : Complex) : c.covers d = Covering.whole.complex c d :=
  ((Covering.whole_agreeBelow_stage _).next.complex (Nat.lt_succ_self _)).symm.trans
    (by rw [Covering.whole_next])

/-- A list covers another if each member of the other is covered by some member. -/
theorem SelectorList.covers_eq (k l : SelectorList) :
    SelectorList.covers k l = l.all fun d ↦ k.any fun c ↦ c.covers d := by
  have h : Covering.whole.next.list k l = SelectorList.covers k l :=
    (Covering.whole_agreeBelow_stage _).next.list (Nat.lt_succ_self _)
  rw [← h, Covering.whole_next, Covering.list]
  simp only [Complex.covers_eq]

end SelectorAlgebra

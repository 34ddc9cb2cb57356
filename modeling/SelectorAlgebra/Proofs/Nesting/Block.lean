import Mathlib
import SelectorAlgebra.Nesting.Resolve
import SelectorAlgebra.Proofs.Nesting.Attempt
import SelectorAlgebra.Proofs.Nesting.Choices
import SelectorAlgebra.Proofs.Nesting.Interleave
import SelectorAlgebra.Proofs.Selector.Word

/-!
# Blocks

Each member of a nested selector list gives a block of members, one for every choice of parents for
its components that start with `&`: taking its components one after the other amounts to the product
of what takes their places. Main statement: nesting succeeds with the blocks of the members, taken in
rounds.
-/

namespace SelectorAlgebra

variable {parent : SelectorList} {implied : Bool}

/-! ### The product of placements -/

/-- For each component of a path, what takes its place for each member of the parent. -/
def Path.placements (parent : SelectorList) : Path → Except SelectorError (List SelectorList)
  | [] => .ok []
  | ⟨compound, combinators⟩ :: p => do
    let resolved ← Compound.resolve parent compound
    let placements ← Compound.placements parent compound resolved combinators
    return placements :: (← Path.placements parent p)

/-- Each selector so far followed by each placement of the next component. -/
def SelectorList.extend (heads placements : SelectorList) : SelectorList :=
  heads.flatMap fun h ↦ placements.map fun p ↦ h.concatenate p false

theorem Simple.resolve_of_hasParent_eq_false {s : Simple} (h : s.hasParent = false) :
    s.resolve parent = .ok s := by
  match s with
  | .pseudo ⟨_, _, _, none⟩ => rfl
  | .pseudo ⟨_, _, _, some l⟩ =>
    have hl : SelectorList.hasParent l = false := h
    rw [Simple.resolve, Pseudo.resolve, if_neg (by simp [hl])]
    rfl
  | .universal _ | .type _ | .className _ | .id _ | .attribute _ | .placeholder _ | .parent _ => rfl

/-- A compound selector stays if `&` occurs in no selector list inside it. -/
theorem Compound.resolve_of_hasNestedParent_eq_false {c : Compound}
    (h : Compound.hasNestedParent c = false) : Compound.resolve parent c = .ok c := by
  induction c with
  | nil => rfl
  | cons s c ih =>
    rw [hasNestedParent, List.any_cons, Bool.or_eq_false_iff] at h
    have hs : s.resolve parent = .ok s := by
      match s with
      | .pseudo p => exact Simple.resolve_of_hasParent_eq_false h.1
      | .universal _ | .type _ | .className _ | .id _ | .attribute _ | .placeholder _ |
        .parent _ => rfl
    rw [Compound.resolve, hs, ih h.2]
    rfl

/-- A component without `&` in front stays. -/
theorem Compound.placements_of_other {c resolved : Compound} {ks : List Combinator}
    (hc : Compound.startsWithParent c = false) :
    Compound.placements parent c resolved ks = .ok [⟨[], [⟨resolved, ks⟩], false⟩] := by
  unfold Compound.placements
  split
  · cases hc
  · cases hc
  · rfl

/-- What takes the place of a component is the component itself where no `&` is replaced. -/
theorem Component.placements_eq (parent : SelectorList) (c : Compound) (ks : List Combinator) :
    (Compound.resolve parent c >>= fun resolved ↦ Compound.placements parent c resolved ks) =
      (fun o ↦ o.getD [⟨[], [⟨c, ks⟩], false⟩]) <$> Component.resolve parent ⟨c, ks⟩ := by
  rw [Component.resolve]
  split
  · simp
  · next hnone =>
    rw [Bool.or_eq_true, not_or, Bool.not_eq_true, Bool.not_eq_true] at hnone
    rw [Compound.resolve_of_hasNestedParent_eq_false hnone.1]
    exact Compound.placements_of_other hnone.2

/-- Behind selectors that there are, what a component becomes is put by concatenation. -/
theorem SelectorList.advance_of_ne_nil {leading : List Combinator} {heads : SelectorList}
    (hheads : heads ≠ []) (d : Component) (o : Option SelectorList) :
    SelectorList.advance leading heads d o =
      SelectorList.extend heads (o.getD [⟨[], [d], false⟩]) := by
  have hempty : heads.isEmpty = false := List.isEmpty_eq_false_iff.2 hheads
  cases o with
  | none => simp [advance, extend, hempty, Complex.withComponent_eq, ← List.map_eq_flatMap]
  | some l => simp [advance, extend, hempty]

/-- The first component stands behind the leading combinators. -/
theorem SelectorList.advance_nil (leading : List Combinator) (d : Component)
    (o : Option SelectorList) : SelectorList.advance leading [] d o =
      SelectorList.extend [⟨leading, [], false⟩] (o.getD [⟨[], [d], false⟩]) := by
  cases o with
  | none => simp [advance, extend, Complex.concatenate, Complex.trail]
  | some l =>
    have hfront (p : Complex) : Complex.concatenate ⟨leading, [], false⟩ p false =
        { p with leading := leading ++ p.leading } := by
      simp [Complex.concatenate, Complex.trail]
    cases leading with
    | nil =>
      have hsame (p : Complex) : Complex.concatenate ⟨[], [], false⟩ p false = p := by
        rw [hfront]
        cases p
        rfl
      simp [advance, extend, hsame]
    | cons k ks => simp [advance, extend, hfront]

/-- Each member of the parent gives a placement. -/
theorem Compound.placements_ne_nil (hparent : parent ≠ []) {c resolved : Compound}
    {ks : List Combinator} {l : SelectorList}
    (h : Compound.placements parent c resolved ks = .ok l) : l ≠ [] := by
  unfold placements at h
  split at h
  · cases h
    simpa [SelectorList.withCombinators] using hparent
  · rw [ne_eq, ← List.length_eq_zero_iff, ← (mapM_eq_ok_iff.1 h).length_eq, List.length_eq_zero_iff]
    exact hparent
  · cases h
    simp

theorem Component.resolve_ne_nil (hparent : parent ≠ []) {d : Component} {o : Option SelectorList}
    (h : d.resolve parent = .ok o) : o.getD [⟨[], [d], false⟩] ≠ [] := by
  obtain ⟨c, ks⟩ := d
  rw [Component.resolve] at h
  split at h
  · obtain ⟨resolved, -, h⟩ := bind_eq_ok_iff.1 h
    obtain ⟨l, hl, h⟩ := bind_eq_ok_iff.1 h
    cases h
    exact Compound.placements_ne_nil hparent hl
  · cases h
    simp

theorem SelectorList.extend_ne_nil {heads placements : SelectorList} (hheads : heads ≠ [])
    (h : placements ≠ []) : SelectorList.extend heads placements ≠ [] := by
  obtain ⟨c, m, rfl⟩ := List.exists_cons_of_ne_nil hheads
  obtain ⟨d, n, rfl⟩ := List.exists_cons_of_ne_nil h
  simp [extend]

/-- What takes the place of the first component of a path comes first. -/
theorem Path.placements_cons (d : Component) (p : Path) : Path.placements parent (d :: p) = do
    let o ← d.resolve parent
    return o.getD [⟨[], [d], false⟩] :: (← Path.placements parent p) := by
  obtain ⟨c, ks⟩ := d
  have h := congrArg (· >>= fun l ↦ (l :: ·) <$> Path.placements parent p)
    (Component.placements_eq parent c ks)
  simpa only [Path.placements, bind_assoc, map_eq_pure_bind, pure_bind] using h

/-- Taking the components one after the other gives the product of what takes their places, since
no placement is missing where the parent has members. -/
theorem Path.resolve_of_ne_nil (hparent : parent ≠ []) {leading : List Combinator}
    {heads : SelectorList} (hheads : heads ≠ []) (p : Path) :
    Path.resolve parent leading p heads =
      (·.foldl SelectorList.extend heads) <$> Path.placements parent p := by
  induction p generalizing heads with
  | nil => rfl
  | cons d p ih =>
    rw [Path.resolve, Path.placements_cons]
    cases ho : d.resolve parent with
    | error e => rfl
    | ok o =>
      have hnext := SelectorList.extend_ne_nil hheads (Component.resolve_ne_nil hparent ho)
      change Path.resolve parent leading p (SelectorList.advance leading heads d o) = _
      rw [SelectorList.advance_of_ne_nil hheads, ih hnext]
      cases Path.placements parent p <;> rfl

theorem Path.resolve_nil (hparent : parent ≠ []) {leading : List Combinator} {p : Path}
    (hp : p ≠ []) : Path.resolve parent leading p [] =
      (·.foldl SelectorList.extend [⟨leading, [], false⟩]) <$> Path.placements parent p := by
  obtain ⟨d, p, rfl⟩ := List.exists_cons_of_ne_nil hp
  rw [Path.resolve, Path.placements_cons]
  cases ho : d.resolve parent with
  | error e => rfl
  | ok o =>
    have hnext := SelectorList.extend_ne_nil (List.cons_ne_nil (⟨leading, [], false⟩ : Complex) [])
      (Component.resolve_ne_nil hparent ho)
    change Path.resolve parent leading p (SelectorList.advance leading [] d o) = _
    rw [SelectorList.advance_nil, Path.resolve_of_ne_nil hparent hnext]
    cases Path.placements parent p <;> rfl

/-- Where the parent has members, the members that a member with `&` gives are the product of what
takes the places of its components, behind its leading combinators. -/
theorem Complex.block_eq_foldl (hparent : parent ≠ []) (c : Complex) : c.block parent implied =
    if c.hasParent then
      (·.foldl SelectorList.extend [⟨c.leading, [], false⟩]) <$> Path.placements parent c.components
    else .ok (c.unresolved parent implied) := by
  obtain ⟨leading, p, lineBreak⟩ := c
  rw [Complex.block, Complex.hasParent]
  split
  · next hhas =>
    refine Path.resolve_nil hparent ?_
    rintro rfl
    cases hhas
  · rfl

/-! ### What takes the place of a component -/

/-- A compound selector with an optional suffix on its last simple selector. -/
inductive Compound.Lengthened : Option String → Compound → Compound → Prop
  | same (c : Compound) : Lengthened none c c
  | last {suffix : String} {s t : Simple} (c : Compound) (h : s.withSuffix suffix = .ok t) :
    Lengthened (some suffix) (c ++ [s]) (c ++ [t])

/-- Whether replacing `&` in the selector lists inside a compound selector succeeds with another. -/
abbrev Compound.ResolvesTo (parent : SelectorList) (c d : Compound) : Prop :=
  Compound.resolve parent c = .ok d

section Placed

variable (R : Compound → Compound → Prop)

/-- What a component that starts with `&` becomes where a member `p` of the parent takes its place:
`&` alone is the parent itself, and otherwise the conditions behind `&`, changed as a relation
tells, go to the last compound selector of the parent, which no combinator may follow. -/
inductive Component.Placed (p : Complex) : Component → Complex → Prop
  | alone {m : Complex} (ks : List Combinator) (hword : m.word = p.word ++ ks.map .combinator)
    (hbreak : m.lineBreak = p.lineBreak) : Placed p ⟨[.parent none], ks⟩ m
  | merged {suffix : Option String} {conditions resolved subject lengthened : Compound}
    {front : Path} (ks : List Combinator) (hmerge : suffix = none → conditions ≠ [])
    (hresolved : R conditions resolved) (hparent : p.components = front ++ [⟨subject, []⟩])
    (hlengthened : Compound.Lengthened suffix subject lengthened) :
    Placed p ⟨.parent suffix :: conditions, ks⟩
      ⟨p.leading, front ++ [⟨lengthened ++ resolved, ks⟩], p.lineBreak⟩

/-- What the components of a path become where the given parents take the places of those that start
with `&`, from left to right. -/
inductive Path.Placed : Path → SelectorList → List Complex → Prop
  | nil : Placed [] [] []
  | parent {d : Component} {path : Path} {p m : Complex} {ps : SelectorList} {ms : List Complex}
    (h : d.Placed R p m) (hpath : Placed path ps ms) : Placed (d :: path) (p :: ps) (m :: ms)
  | other {d : Component} {path : Path} {resolved : Compound} {ps : SelectorList}
    {ms : List Complex} (h : Compound.startsWithParent d.compound = false)
    (hresolved : R d.compound resolved) (hpath : Placed path ps ms) :
    Placed (d :: path) ps (⟨[], [⟨resolved, d.combinators⟩], false⟩ :: ms)

/-- What a member becomes where the given parents take the places of its components that start with
`&`: one after the other, what its components become. -/
def Complex.Resolved (c : Complex) (ps : SelectorList) (r : Complex) : Prop :=
  ∃ ms, Path.Placed R c.components ps ms ∧
    r.word = c.leading.map .combinator ++ ms.flatMap Complex.word ∧
    r.lineBreak = ms.any Complex.lineBreak

variable {R}

theorem Component.Placed.lineBreak_eq {d : Component} {p m : Complex} (h : d.Placed R p m) :
    m.lineBreak = p.lineBreak := by
  cases h with
  | alone _ _ hbreak => exact hbreak
  | merged => rfl

/-- The line breaks of what the components of a path become are those of the parents. -/
theorem Path.Placed.any_lineBreak {path : Path} {ps : SelectorList} {ms : List Complex}
    (h : path.Placed R ps ms) : ms.any Complex.lineBreak = ps.any Complex.lineBreak := by
  induction h with
  | nil => rfl
  | parent h _ ih => rw [List.any_cons, List.any_cons, h.lineBreak_eq, ih]
  | other _ _ _ ih => rw [List.any_cons, ih, Bool.false_or]

theorem Complex.Resolved.lineBreak_eq {c r : Complex} {ps : SelectorList}
    (h : c.Resolved R ps r) : r.lineBreak = ps.any Complex.lineBreak := by
  obtain ⟨ms, hpath, -, hbreak⟩ := h
  exact hbreak.trans hpath.any_lineBreak

end Placed

/-- The number of components that start with `&`. -/
def Path.parentCount (p : Path) : ℕ :=
  p.countP fun d ↦ Compound.startsWithParent d.compound

/-- The block of a member. -/
structure Complex.Owns (parent : SelectorList) (implied : Bool) (c : Complex)
    (block : SelectorList) : Prop where
  /-- With `&`, there is one member for every choice of parents. -/
  length_eq : c.hasParent = true → block.length = parent.length ^ Path.parentCount c.components
  /-- With `&`, the digits of the place of a member in the block tell the parents in it. -/
  resolved : c.hasParent = true → ∀ j r, block[j]? = some r → ∃ ps : SelectorList,
    ps.map some = (digits parent.length (Path.parentCount c.components) j).map (parent[·]?) ∧
      c.Resolved (Compound.ResolvesTo parent) ps r
  /-- Without `&`, each parent is put in front if it is implied. -/
  unresolved : c.hasParent = false →
    block = if implied then parent.map fun p ↦ p.concatenate c false else [c]

/-! ### Steps -/

theorem Compound.withSuffix_concat {suffix : String} {s : Simple} (c : Compound) :
    Compound.withSuffix (c ++ [s]) suffix = (s.withSuffix suffix).map fun t ↦ c ++ [t] := by
  simp only [withSuffix, List.getLast?_concat, List.dropLast_concat]
  cases s.withSuffix suffix <;> rfl

theorem Compound.lengthened_of_withSuffix {suffix : String} {c d : Compound} (hc : c ≠ [])
    (h : Compound.withSuffix c suffix = .ok d) : Compound.Lengthened (some suffix) c d := by
  obtain ⟨front, s, rfl⟩ := (List.eq_nil_or_concat' c).resolve_left hc
  rw [Compound.withSuffix_concat] at h
  cases hs : s.withSuffix suffix with
  | error e =>
    rw [hs] at h
    cases h
  | ok t =>
    rw [hs] at h
    cases h
    exact .last front hs

/-- A parent is merged with the conditions behind `&` exactly if it ends with a compound selector
that can take the suffix. -/
theorem Complex.merge_eq_ok_iff {p r : Complex} {suffix : Option String} {conditions : Compound}
    {ks : List Combinator} : p.merge suffix conditions ks = .ok r ↔
      ∃ front subject lengthened, p.components = front ++ [⟨subject, []⟩] ∧
        Compound.Lengthened suffix subject lengthened ∧
        r = ⟨p.leading, front ++ [⟨lengthened ++ conditions, ks⟩], p.lineBreak⟩ := by
  constructor
  · intro h
    unfold merge at h
    split at h
    · cases h
    · next last hlast =>
      obtain ⟨front, hfront⟩ := List.getLast?_eq_some_iff.1 hlast
      obtain ⟨subject, combinators⟩ := last
      split at h
      · next hnone =>
        obtain rfl := List.isEmpty_iff.1 hnone
        dsimp only at h
        split at h
        · cases h
          exact ⟨front, subject, subject, hfront, .same subject, by simp [hfront]⟩
        · split at h
          · cases h
          · next hsubject =>
            obtain ⟨lengthened, hlengthened, h⟩ := bind_eq_ok_iff.1 h
            cases h
            have hne : subject ≠ [] := by simpa using hsubject
            exact ⟨front, subject, lengthened, hfront,
              Compound.lengthened_of_withSuffix hne hlengthened, by simp [hfront]⟩
      · cases h
  · rintro ⟨front, subject, lengthened, hp, hlengthened, rfl⟩
    simp only [merge, hp, List.getLast?_concat, List.dropLast_concat, List.isEmpty_nil, if_true]
    cases hlengthened with
    | same => rfl
    | last c hs =>
      simp [Compound.withSuffix_concat, hs, Except.map, bind, Except.bind, pure, Except.pure]

theorem Compound.startsWithParent_iff {c : Compound} :
    Compound.startsWithParent c = true ↔ ∃ suffix conditions, c = .parent suffix :: conditions := by
  unfold startsWithParent
  split
  · simp
  · next hother => simpa using hother

/-- The conditions behind `&` are resolved apart from it. -/
theorem Compound.resolve_parent_cons_iff {suffix : Option String} {conditions resolved : Compound} :
    Compound.resolve parent (.parent suffix :: conditions) = .ok resolved ↔
      ∃ c, Compound.resolve parent conditions = .ok c ∧ resolved = .parent suffix :: c := by
  have hself : Simple.resolve parent (.parent suffix) = .ok (.parent suffix) := by
    simp [Simple.resolve]
  simp only [Compound.resolve, hself, bind_eq_ok_iff]
  constructor
  · rintro ⟨_, hs, c, hc, h⟩
    cases hs
    cases h
    exact ⟨c, hc, rfl⟩
  · rintro ⟨c, hc, rfl⟩
    exact ⟨_, rfl, c, hc, rfl⟩

/-- A component that starts with `&` has one placement for each member of the parent. -/
theorem Component.placed_of_placements {c resolved : Compound} {ks : List Combinator}
    {l : SelectorList} (hc : Compound.startsWithParent c = true)
    (hresolved : Compound.resolve parent c = .ok resolved)
    (h : Compound.placements parent c resolved ks = .ok l) :
    List.Forall₂ (fun p m ↦ Component.Placed (Compound.ResolvesTo parent) p ⟨c, ks⟩ m)
      parent l := by
  unfold Compound.placements at h
  split at h
  · cases h
    rw [SelectorList.withCombinators, List.forall₂_map_right_iff, List.forall₂_same]
    exact fun p _ ↦ .alone ks (Complex.word_withCombinators p ks false) (by simp)
  · next suffix conditions hmerge =>
    obtain ⟨resolved, hconditions, rfl⟩ := Compound.resolve_parent_cons_iff.1 hresolved
    refine (mapM_eq_ok_iff.1 h).imp fun p m hm ↦ ?_
    obtain ⟨front, subject, lengthened, hp, hlengthened, rfl⟩ := Complex.merge_eq_ok_iff.1 hm
    refine .merged ks ?_ hconditions hp hlengthened
    rintro rfl rfl
    exact hmerge rfl rfl
  · next hother =>
    obtain ⟨suffix, conditions, rfl⟩ := Compound.startsWithParent_iff.1 hc
    exact absurd rfl (hother suffix conditions)

/-! ### Choices of parents -/

theorem Path.parentCount_cons (d : Component) (p : Path) :
    Path.parentCount (d :: p) =
      Path.parentCount p + if Compound.startsWithParent d.compound then 1 else 0 :=
  List.countP_cons

/-- Each choice of parents for a path goes with the choice among its placements that it makes. -/
theorem Path.forall₂_placed {p : Path} {placements : List SelectorList}
    (h : Path.placements parent p = .ok placements) :
    List.Forall₂ (fun ps ms ↦ p.Placed (Compound.ResolvesTo parent) ps ms)
      (choices (List.replicate p.parentCount parent)) (choices placements) := by
  induction p generalizing placements with
  | nil =>
    cases h
    exact .cons .nil .nil
  | cons d p ih =>
    obtain ⟨c, ks⟩ := d
    obtain ⟨resolved, hresolved, h⟩ := bind_eq_ok_iff.1 h
    obtain ⟨l, hl, h⟩ := bind_eq_ok_iff.1 h
    obtain ⟨more, hmore, h⟩ := bind_eq_ok_iff.1 h
    cases h
    have hrest := ih hmore
    cases hc : Compound.startsWithParent c with
    | false =>
      rw [Compound.placements_of_other hc] at hl
      cases hl
      rw [Path.parentCount_cons, hc, choices_singleton_cons, List.forall₂_map_right_iff]
      exact hrest.imp fun ps ms hpath ↦ .other hc hresolved hpath
    | true =>
      have hall := Component.placed_of_placements hc hresolved hl
      rw [Path.parentCount_cons, hc, if_pos rfl, List.replicate_succ, choices, choices]
      refine List.rel_flatMap hall fun p' m hm ↦ ?_
      rw [List.forall₂_map_left_iff, List.forall₂_map_right_iff]
      exact hrest.imp fun ps ms hpath ↦ .parent hm hpath

/-! ### The block of a member -/

/-- What the components of a member become, one after the other. -/
def Complex.join (leading : List Combinator) (ms : List Complex) : Complex :=
  ms.foldl (fun c d ↦ c.concatenate d false) ⟨leading, [], false⟩

theorem Complex.word_join (leading : List Combinator) (ms : List Complex) :
    (join leading ms).word = leading.map .combinator ++ ms.flatMap Complex.word := by
  have hfold (c : Complex) : (ms.foldl (fun c d ↦ c.concatenate d false) c).word =
      c.word ++ ms.flatMap Complex.word := by
    induction ms generalizing c with
    | nil => simp
    | cons m ms ih => simp [ih]
  rw [join, hfold]
  simp [word]

theorem Complex.lineBreak_join (leading : List Combinator) (ms : List Complex) :
    (join leading ms).lineBreak = ms.any Complex.lineBreak := by
  have hfold (c : Complex) : (ms.foldl (fun c d ↦ c.concatenate d false) c).lineBreak =
      (c.lineBreak || ms.any Complex.lineBreak) := by
    induction ms generalizing c with
    | nil => simp
    | cons m ms ih => simp [ih, Bool.or_assoc]
  rw [join, hfold, Bool.false_or]

/-- Extending selectors by lists of placements one list at a time goes through the choices. -/
theorem SelectorList.foldl_extend (heads : SelectorList) (placements : List SelectorList) :
    placements.foldl SelectorList.extend heads = heads.flatMap fun h ↦
      (choices placements).map fun ms ↦ ms.foldl (fun c d ↦ c.concatenate d false) h := by
  induction placements generalizing heads with
  | nil => simp [choices]
  | cons l placements ih =>
    rw [List.foldl_cons, ih, SelectorList.extend, List.flatMap_assoc]
    refine List.flatMap_congr fun h _ ↦ ?_
    rw [choices, List.flatMap_map, List.map_flatMap]
    simp [Function.comp_def]

/-- A member with `&` gives one member for each choice of placements. -/
theorem Complex.block_eq (hparent : parent ≠ []) (c : Complex) : c.block parent implied =
    if c.hasParent then do
      return (choices (← Path.placements parent c.components)).map (join c.leading)
    else .ok (c.unresolved parent implied) := by
  rw [Complex.block_eq_foldl hparent]
  simp only [SelectorList.foldl_extend, List.flatMap_singleton, map_eq_pure_bind]
  rfl

/-- A member without `&` has the parent in front if it is implied, and else stays. -/
theorem Complex.block_of_hasParent_eq_false {c : Complex} (h : c.hasParent = false) :
    c.block parent implied = .ok (c.unresolved parent implied) := by
  obtain ⟨leading, p, lineBreak⟩ := c
  have hp : Path.hasParent p = false := h
  rw [Complex.block, if_neg (by simp [hp])]

theorem Complex.owns_of_block (hmembers : parent ≠ []) {c : Complex} {block : SelectorList}
    (h : c.block parent implied = .ok block) : c.Owns parent implied block := by
  rw [Complex.block_eq hmembers] at h
  split at h
  · next hparent =>
    obtain ⟨placements, hplacements, h⟩ := bind_eq_ok_iff.1 h
    cases h
    have hplaced := Path.forall₂_placed hplacements
    refine ⟨fun _ ↦ ?_, fun _ j r hr ↦ ?_, fun hnot ↦ ?_⟩
    · rw [List.length_map, ← hplaced.length_eq, length_choices_replicate]
    · rw [List.getElem?_map, Option.map_eq_some_iff] at hr
      obtain ⟨ms, hms, rfl⟩ := hr
      have hrow := rel_getElem?_of_forall₂ hplaced j
      rw [hms] at hrow
      generalize hps : (choices _)[j]? = ps at hrow
      cases hrow with
      | some hpath =>
        exact ⟨_, map_some_of_getElem?_choices hps, ms, hpath, word_join _ ms, lineBreak_join _ ms⟩
    · rw [hparent] at hnot
      cases hnot
  · next hnone =>
    cases h
    exact ⟨fun hparent ↦ absurd hparent hnone, fun hparent ↦ absurd hparent hnone, fun _ ↦ rfl⟩

/-- Each member of the block of a member with `&` comes from some choice of parents. -/
theorem Complex.Owns.exists_resolved {c r : Complex} {block : SelectorList}
    (h : c.Owns parent implied block) (hparent : c.hasParent = true) (hr : r ∈ block) :
    ∃ ps : SelectorList, (∀ p ∈ ps, p ∈ parent) ∧ c.Resolved (Compound.ResolvesTo parent) ps r := by
  obtain ⟨j, hj⟩ := List.getElem?_of_mem hr
  obtain ⟨ps, hps, hresolved⟩ := h.resolved hparent j r hj
  refine ⟨ps, fun p hp ↦ ?_, hresolved⟩
  have hmem := List.mem_map_of_mem (f := some) hp
  rw [hps] at hmem
  obtain ⟨i, -, hi⟩ := List.mem_map.1 hmem
  exact List.mem_of_getElem? hi

theorem SelectorList.blocks_eq_mapM (l : SelectorList) :
    SelectorList.blocks parent implied l = l.mapM (Complex.block parent implied) := by
  induction l with
  | nil => rfl
  | cons c l ih => rw [SelectorList.blocks, List.mapM_cons, ih]

theorem SelectorList.owns_of_blocks (hparent : parent ≠ []) {l : SelectorList}
    {blocks : List SelectorList} (h : SelectorList.blocks parent implied l = .ok blocks) :
    List.Forall₂ (Complex.Owns parent implied) l blocks := by
  rw [SelectorList.blocks_eq_mapM] at h
  exact (mapM_eq_ok_iff.1 h).imp fun _ _ ↦ Complex.owns_of_block hparent

theorem SelectorList.nestWithin_eq (l : SelectorList) (implied : Bool) :
    l.nestWithin parent implied false = interleave <$> SelectorList.blocks parent implied l := by
  rw [SelectorList.nestWithin, if_neg Bool.false_ne_true, map_eq_pure_bind]

theorem SelectorList.nestWithin_eq_ok_iff {l r : SelectorList} :
    l.nestWithin parent implied false = .ok r ↔
      ∃ blocks, SelectorList.blocks parent implied l = .ok blocks ∧ r = interleave blocks := by
  rw [SelectorList.nestWithin_eq]
  cases SelectorList.blocks parent implied l <;> simp [Functor.map, Except.map, eq_comm]

/-- Nesting takes the blocks of the members in turns: what it gives are all the members of all the
blocks, each of them once, those at an earlier place first, and of those at one place the one of an
earlier block first. -/
theorem SelectorList.nestWithin_isRoundRobin {l r : SelectorList} (hparent : parent ≠ [])
    (h : l.nestWithin parent implied false = .ok r) :
    ∃ blocks, List.Forall₂ (Complex.Owns parent implied) l blocks ∧ IsRoundRobin blocks r := by
  obtain ⟨blocks, hblocks, rfl⟩ := SelectorList.nestWithin_eq_ok_iff.1 h
  exact ⟨blocks, SelectorList.owns_of_blocks hparent hblocks, interleave_isRoundRobin blocks⟩

/-- The members of `& + &, .c` in `.a, .b`: four and two, in turns. -/
theorem SelectorList.nestWithin_isRoundRobin_pairs :
    ∃ blocks, List.Forall₂ (Complex.Owns
        [.ofCompound [.className "a"], .ofCompound [.className "b"]] true)
      [⟨[], [⟨[.parent none], [.nextSibling]⟩, ⟨[.parent none], []⟩], false⟩,
        .ofCompound [.className "c"]] blocks ∧
      IsRoundRobin blocks
        [⟨[], [⟨[.className "a"], [.nextSibling]⟩, ⟨[.className "a"], []⟩], false⟩,
          ⟨[], [⟨[.className "a"], []⟩, ⟨[.className "c"], []⟩], false⟩,
          ⟨[], [⟨[.className "a"], [.nextSibling]⟩, ⟨[.className "b"], []⟩], false⟩,
          ⟨[], [⟨[.className "b"], []⟩, ⟨[.className "c"], []⟩], false⟩,
          ⟨[], [⟨[.className "b"], [.nextSibling]⟩, ⟨[.className "a"], []⟩], false⟩,
          ⟨[], [⟨[.className "b"], [.nextSibling]⟩, ⟨[.className "b"], []⟩], false⟩] := by
  apply SelectorList.nestWithin_isRoundRobin
  · simp
  · cbv

end SelectorAlgebra

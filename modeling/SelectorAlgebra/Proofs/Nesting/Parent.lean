import Mathlib
import SelectorAlgebra.Proofs.Nesting.Resolution
import SelectorAlgebra.Proofs.Parser.Restriction
import SelectorAlgebra.Proofs.Parser.Written

/-!
# Parent selectors and nesting

Main statement: nesting in a parent without parent selectors leaves none, at any depth.
-/

namespace SelectorAlgebra

/-! ### What is put together -/

theorem Compound.hasParent_append (c d : Compound) :
    Compound.hasParent (c ++ d) = (Compound.hasParent c || Compound.hasParent d) := by
  rw [Bool.eq_iff_iff, Bool.or_eq_true]
  simp only [Compound.hasParent_iff, List.mem_append, or_and_right, exists_or]

theorem Path.hasParent_concat (p : Path) (c : Compound) (ks : List Combinator) :
    Path.hasParent (p ++ [⟨c, ks⟩]) = (Path.hasParent p || Compound.hasParent c) := by
  rw [Bool.eq_iff_iff, Bool.or_eq_true]
  simp [Path.hasParent_iff, or_and_right, exists_or]

/-- A suffix neither brings nor takes a parent selector. -/
theorem Simple.hasParent_withSuffix {s t : Simple} {suffix : String}
    (h : s.withSuffix suffix = .ok t) : t.hasParent = s.hasParent := by
  match s with
  | .universal _ | .attribute _ | .parent _ => cases h
  | .pseudo ⟨_, _, some _, _⟩ | .pseudo ⟨_, _, none, some _⟩ => cases h
  | .type n | .className n | .id n | .placeholder n | .pseudo ⟨n, _, none, none⟩ =>
    cases h
    rfl

theorem Compound.hasParent_of_lengthened {suffix : Option String} {c d : Compound}
    (h : Compound.Lengthened suffix c d) : Compound.hasParent d = Compound.hasParent c := by
  cases h with
  | same => rfl
  | last front hs =>
    simp [Compound.hasParent_append, Compound.hasParent, Simple.hasParent_withSuffix hs]

/-! ### Steps -/

/-- Simple selectors none of which is a parent selector become some without parent selectors. -/
theorem Compound.hasParent_of_forall₂ {c d : Compound}
    (h : List.Forall₂ (fun s t ↦ s.IsOther → t.hasParent = false) c d)
    (hc : ∀ s ∈ c, s.IsOther) : Compound.hasParent d = false := by
  induction h with
  | nil => rfl
  | cons hst _ ih =>
    rw [List.forall_mem_cons] at hc
    rw [Compound.hasParent, hst hc.1, ih hc.2]
    rfl

/-- In the place of a component that starts with `&` stands no parent selector. -/
theorem Component.hasParent_of_placed {p m : Complex} {d : Component} (hp : p.hasParent = false)
    (hd : Compound.Written d.compound)
    (h : d.Placed (List.Forall₂ fun s t ↦ s.IsOther → t.hasParent = false) p m) :
    m.hasParent = false := by
  cases h with
  | alone ks hword _ =>
    rw [Complex.hasParent_eq_false_iff] at hp ⊢
    simpa [hword] using hp
  | merged ks _ hresolved hparent hlengthened =>
    obtain ⟨leading, components, lineBreak⟩ := p
    obtain rfl := hparent
    rw [Complex.hasParent, Path.hasParent_concat, Bool.or_eq_false_iff] at hp ⊢
    rw [Compound.hasParent_append, Compound.hasParent_of_lengthened hlengthened, hp.2,
      Compound.hasParent_of_forall₂ hresolved hd.isOther]
    exact ⟨hp.1, rfl⟩

theorem Path.hasParent_of_placed {path : Path} {ps : SelectorList} {ms : List Complex}
    (hpath : ∀ d ∈ path, Compound.Written d.compound) (hps : ∀ p ∈ ps, p.hasParent = false)
    (h : path.Placed (List.Forall₂ fun s t ↦ s.IsOther → t.hasParent = false) ps ms) :
    ∀ m ∈ ms, m.hasParent = false := by
  induction h with
  | nil => simp
  | parent h _ ih =>
    rw [List.forall_mem_cons] at hpath hps ⊢
    exact ⟨Component.hasParent_of_placed hps.1 hpath.1 h, ih hpath.2 hps.2⟩
  | other hother hresolved _ ih =>
    rw [List.forall_mem_cons] at hpath ⊢
    refine ⟨?_, ih hpath.2 hps⟩
    have hcompound := Compound.hasParent_of_forall₂ hresolved (hpath.1.isOther_of_other hother)
    simp [Complex.hasParent, Path.hasParent, hcompound]

/-- Nesting in a parent without parent selectors leaves none. -/
theorem resolutionLaw_hasParent {parent : SelectorList} {K : List Char → Prop}
    (hmembers : parent ≠ []) (hparent : SelectorList.hasParent parent = false) :
    ResolutionLaw parent (.written K) (fun s t ↦ s.IsOther → t.hasParent = false)
      (fun _ m ↦ m.hasParent = false) where
  nonempty := hmembers
  same s hs hother := by
    match s with
    | .parent suffix => exact absurd rfl (hother suffix)
    | .pseudo q => exact hs q rfl
    | .universal _ | .type _ | .className _ | .id _ | .attribute _ | .placeholder _ => rfl
  list name element argument l blocks _ hblocks _ := by
    refine SelectorList.hasParent_eq_false_iff.2 fun m hm ↦ ?_
    obtain ⟨block, hblock, hm⟩ := mem_interleave_iff.1 hm
    obtain ⟨c, -, hc⟩ := exists_of_forall₂ hblocks block hblock
    exact hc.2 m hm
  kept c _ hnone := hnone
  resolved c ps m hc hps hm := by
    obtain ⟨ms, hplaced, hword, -⟩ := hm
    have hms := Path.hasParent_of_placed (fun d hd ↦ (hc.component hd).1)
      (fun p hp ↦ SelectorList.hasParent_eq_false_iff.1 hparent p (hps p hp)) hplaced
    rw [Complex.hasParent_eq_false_iff, hword]
    intro d hd
    obtain ⟨m, hm, hd⟩ : ∃ m ∈ ms, Part.compound d ∈ m.word := by simpa using hd
    exact Complex.hasParent_eq_false_iff.1 (hms m hm) d hd

theorem Complex.hasParent_of_block {parent : SelectorList} {K : List Char → Prop} {implied : Bool}
    {c : Complex} {block : SelectorList} (hmembers : parent ≠ [])
    (hparent : SelectorList.hasParent parent = false) (hc : c.Everywhere (.written K))
    (h : c.block parent implied = .ok block) : ∀ m ∈ block, m.hasParent = false := by
  cases hnone : c.hasParent with
  | true => exact (resolutionLaw_hasParent hmembers hparent).block hc (.inl hnone) h
  | false =>
    have hblock := (Complex.owns_of_block hmembers h).unresolved hnone
    cases implied with
    | false => simpa [hblock] using hnone
    | true =>
      rw [SelectorList.hasParent_eq_false_iff] at hparent
      simpa [hblock, Complex.hasParent_concatenate, hnone] using hparent

/-- A selector list that is read where parent selectors are forbidden has none. -/
theorem SelectorList.hasParent_of_parse {text : String} {options : ParseOptions} {l : SelectorList}
    (h : (SelectorList.parse text options).result = .ok l) (hforbidden : options.parent = false) :
    SelectorList.hasParent l = false := by
  have hpermitted := ((EntryPoint.parse_permitted_iff (e := .list)).1 h).2
  have hl := (EntryPoint.everywhere_permitted_iff.1 hpermitted).1.resolve_left (by simp [hforbidden])
  exact SelectorList.each_withoutParent_iff.1 hl.2

/-- No parent selector is found, at any depth, after nesting a list that was read from a text in one
that was read where they are forbidden, whether the parent is implied or not. -/
theorem SelectorList.hasParent_nestWithin {text parentText : String}
    {options parentOptions : ParseOptions} {l parent r : SelectorList} {implied : Bool}
    (hl : (SelectorList.parse text options).result = .ok l)
    (hparent : (SelectorList.parse parentText parentOptions).result = .ok parent)
    (hforbidden : parentOptions.parent = false) (h : l.nestWithin parent implied false = .ok r) :
    SelectorList.hasParent r = false ∧ SelectorList.Everywhere .withoutParent r := by
  suffices hr : SelectorList.hasParent r = false from
    ⟨hr, trivial, SelectorList.each_withoutParent_iff.2 hr⟩
  have hwritten := SelectorList.written_of_parse (K := fun _ ↦ True) (fun _ _ ↦ trivial) hl
  obtain ⟨p, ps, rfl, -⟩ :=
    (SelectorList.written_of_parse (K := fun _ ↦ True) (fun _ _ ↦ trivial) hparent).1
  have hnone := SelectorList.hasParent_of_parse hparent hforbidden
  obtain ⟨blocks, hblocks, rfl⟩ := SelectorList.nestWithin_eq_ok_iff.1 h
  rw [SelectorList.blocks_eq_mapM] at hblocks
  refine SelectorList.hasParent_eq_false_iff.2 fun m hm ↦ ?_
  obtain ⟨block, hblock, hm⟩ := mem_interleave_iff.1 hm
  obtain ⟨c, hc, hblock⟩ := exists_of_mapM hblocks block hblock
  exact Complex.hasParent_of_block (List.cons_ne_nil p ps) hnone
    (SelectorList.each_iff.1 hwritten.2 c hc) hblock m hm

/-- The list `:is(:not(&-x)) &, b` nested in `.a, .c`. -/
theorem SelectorList.hasParent_nestWithin_inside : ∃ l parent r,
    (SelectorList.parse ":is(:not(&-x)) &, b").result = .ok l ∧
      (SelectorList.parse ".a, .c" ⟨⟨false, true⟩, none⟩).result = .ok parent ∧
      l.nestWithin parent true false = .ok r ∧
      SelectorList.hasParent r = false ∧ SelectorList.Everywhere .withoutParent r := by
  have hparent : (SelectorList.parse ".a, .c" ⟨⟨false, true⟩, none⟩).result = .ok
      [.ofCompound [.className "a"], .ofCompound [.className "c"]] := by cbv
  have hl : (SelectorList.parse ":is(:not(&-x)) &, b").result = .ok
      [⟨[], [⟨[.pseudo ⟨"is", false, none, some [.ofCompound [.pseudo ⟨"not", false, none,
          some [.ofCompound [.parent (some "-x")]]⟩]]⟩], []⟩, ⟨[.parent none], []⟩], false⟩,
        .ofCompound [.type ⟨none, "b"⟩]] := by cbv
  exact ⟨_, _, _, hl, hparent, rfl, SelectorList.hasParent_nestWithin hl hparent rfl rfl⟩

end SelectorAlgebra

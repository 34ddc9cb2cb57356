import SelectorAlgebra.Proofs.Nesting.Block
import SelectorAlgebra.Proofs.Selector.Written

/-!
# Nesting gives selectors that can be written

Names grow by suffixes only, and conditions are put behind conditions. Main statement: nesting a
selector list that can be written in another gives one that can be written.
-/

namespace SelectorAlgebra

/-- The shape of selectors that can be written, whatever texts they keep. -/
abbrev Shape.writable : Shape := .written fun _ ↦ True

/-! ### Suffixes -/

/-- A suffix on a name gives a name. -/
theorem Simple.everywhere_withSuffix {s t : Simple} {suffix : String}
    (hs : s.Everywhere .writable) (hsuffix : Text.IsNameText suffix.toList)
    (h : s.withSuffix suffix = .ok t) : t.Everywhere .writable ∧ (s.Follows → t.Follows) := by
  have hname {n : String} (hn : Text.IsName n.toList) : Text.IsName (n ++ suffix).toList := by
    rw [String.toList_append]
    exact hn.append hsuffix
  match s with
  | .universal _ | .attribute _ | .parent _ => cases h
  | .type n =>
    cases h
    exact ⟨⟨⟨hs.1.ns, hname hs.1.name⟩, trivial⟩, fun h ↦ h⟩
  | .className n | .id n | .placeholder n =>
    cases h
    exact ⟨⟨hname hs.1, trivial⟩, fun _ ↦ trivial⟩
  | .pseudo ⟨name, element, some a, l⟩ | .pseudo ⟨name, element, none, some l⟩ => cases h
  | .pseudo ⟨name, element, none, none⟩ =>
    cases h
    exact ⟨⟨⟨⟨hname hs.1.1.1, trivial⟩, trivial⟩, trivial⟩, fun _ ↦ trivial⟩

/-- Conditions that become conditions keep a compound selector written. -/
theorem Compound.written_of_forall₂ {c d : Compound} (hc : Compound.Written c)
    (h : List.Forall₂ (fun s t ↦ Simple.Follows s → Simple.Follows t) c d) :
    Compound.Written d := by
  obtain ⟨s, tail, rfl, htail⟩ := hc
  cases h with
  | cons _ h =>
    refine ⟨_, _, rfl, ?_⟩
    induction h with
    | nil => simp
    | cons ht _ ih =>
      rw [List.forall_mem_cons] at htail ⊢
      exact ⟨ht htail.1, ih htail.2⟩

theorem Compound.written_of_lengthened {c d : Compound} {suffix : Option String}
    (hc : Compound.Written c ∧ Compound.Each .writable c)
    (hsuffix : ∀ n ∈ suffix, Text.IsNameText n.toList) (h : Compound.Lengthened suffix c d) :
    Compound.Written d ∧ Compound.Each .writable d := by
  cases h with
  | same => exact hc
  | @last suffix s t front hs =>
    obtain ⟨hwritten, heach⟩ := hc
    rw [Compound.each_iff, List.forall_mem_append, List.forall_mem_singleton] at heach
    obtain ⟨ht, hfollows⟩ := Simple.everywhere_withSuffix heach.2 (hsuffix suffix rfl) hs
    refine ⟨Compound.written_of_forall₂ hwritten ?_, Compound.each_iff.2 ?_⟩
    · exact List.rel_append (List.forall₂_same.2 fun _ _ ↦ id) (.cons hfollows .nil)
    · exact List.forall_mem_append.2 ⟨heach.1, List.forall_mem_singleton.2 ht⟩

/-- Conditions behind a compound selector that can be written. -/
theorem Compound.written_append {c d : Compound}
    (hc : Compound.Written c ∧ Compound.Each .writable c)
    (hd : Compound.Each .writable d ∧ ∀ t ∈ d, t.Follows) :
    Compound.Written (c ++ d) ∧ Compound.Each .writable (c ++ d) := by
  obtain ⟨⟨s, tail, rfl, htail⟩, heach⟩ := hc
  refine ⟨⟨s, tail ++ d, rfl, fun t ht ↦ ?_⟩, Compound.each_iff.2 fun t ht ↦ ?_⟩
  · exact (List.mem_append.1 ht).elim (htail t) (hd.2 t)
  · exact (List.mem_append.1 ht).elim (Compound.each_iff.1 heach t) (Compound.each_iff.1 hd.1 t)

/-! ### Paths and members -/

theorem Complex.each_trail {c : Complex} {ks : List Combinator}
    (hc : Path.Each .writable c.components) : Path.Each .writable (c.trail ks).components := by
  rw [Path.each_iff] at hc ⊢
  intro d hd
  unfold Complex.trail at hd
  split at hd
  · exact hc d hd
  · next last hlast =>
    rcases List.mem_append.1 hd with hd | hd
    · exact hc d (List.dropLast_subset _ hd)
    · obtain rfl := List.mem_singleton.1 hd
      exact hc last (List.mem_of_getLast? hlast)

theorem Complex.written_trail {c : Complex} {ks : List Combinator}
    (h : c.Written ∨ ks ≠ []) : (c.trail ks).Written := by
  unfold Complex.trail
  split
  · next hlast =>
    have hnil : c.components = [] := List.getLast?_eq_none_iff.1 hlast
    rcases h with (h | h) | h
    · exact .inl fun happend ↦ h (List.append_eq_nil_iff.1 happend).1
    · exact absurd hnil h
    · exact .inl fun happend ↦ h (List.append_eq_nil_iff.1 happend).2
  · exact .inr (by simp)

theorem Complex.everywhere_withCombinators {c : Complex} {ks : List Combinator}
    (hc : c.Everywhere .writable) : (c.withCombinators ks false).Everywhere .writable := by
  exact Complex.everywhere_iff.2
    ⟨Complex.written_trail (.inl hc.complex), trivial, Complex.each_trail hc.components⟩

/-- A selector behind one that may be empty. -/
theorem Complex.everywhere_concatenate {c d : Complex} (hc : Path.Each .writable c.components)
    (hd : d.Everywhere .writable) : (c.concatenate d false).Everywhere .writable := by
  refine Complex.everywhere_iff.2 ⟨?_, trivial, Path.each_iff.2 fun e he ↦ ?_⟩
  · change (c.trail d.leading).leading ≠ [] ∨ (c.trail d.leading).components ++ d.components ≠ []
    rcases hd.complex with h | h
    · apply (Complex.written_trail (.inr h)).imp_right
      intro hne happend
      exact hne (List.append_eq_nil_iff.1 happend).1
    · exact .inr fun happend ↦ h (List.append_eq_nil_iff.1 happend).2
  · exact (List.mem_append.1 he).elim (Path.each_iff.1 (Complex.each_trail hc) e)
      hd.component

theorem Complex.everywhere_merge {p q : Complex} {suffix : Option String} {conditions : Compound}
    {ks : List Combinator} (hp : p.Everywhere .writable)
    (hsuffix : ∀ n ∈ suffix, Text.IsNameText n.toList)
    (hconditions : Compound.Each .writable conditions ∧ ∀ t ∈ conditions, t.Follows)
    (h : p.merge suffix conditions ks = .ok q) :
    q.Everywhere .writable ∧ q.lineBreak = p.lineBreak := by
  obtain ⟨front, subject, lengthened, hfront, hlengthened, rfl⟩ := Complex.merge_eq_ok_iff.1 h
  refine ⟨Complex.everywhere_iff.2 ⟨.inr (by simp), trivial, Path.each_iff.2 fun d hd ↦ ?_⟩, rfl⟩
  rcases List.mem_append.1 hd with hd | hd
  · exact hp.component (by simp [hfront, hd])
  · obtain rfl := List.mem_singleton.1 hd
    have hsubject := hp.component (d := ⟨subject, []⟩) (by simp [hfront])
    exact Compound.written_append
      (Compound.written_of_lengthened hsubject hsuffix hlengthened) hconditions

/-! ### Blocks -/

/-- Whether there are members, all of them can be written, and no line break stands before the first
if none is to. -/
def SelectorList.IsBlock (unbroken : Prop) (l : SelectorList) : Prop :=
  (∃ c m, l = c :: m ∧ (unbroken → c.lineBreak = false)) ∧ SelectorList.Each .writable l

theorem SelectorList.IsBlock.imp {p q : Prop} {l : SelectorList} (hpq : q → p)
    (h : SelectorList.IsBlock p l) : SelectorList.IsBlock q l := by
  obtain ⟨⟨c, m, hcm, hc⟩, heach⟩ := h
  exact ⟨⟨c, m, hcm, fun hq ↦ hc (hpq hq)⟩, heach⟩

theorem SelectorList.everywhere_iff_isBlock {l : SelectorList} :
    SelectorList.Everywhere .writable l ↔ SelectorList.IsBlock True l := by
  simp only [SelectorList.Everywhere, SelectorList.IsBlock, Shape.written, SelectorList.Written,
    true_imp_iff]

theorem SelectorList.IsBlock.ne_nil {unbroken : Prop} {l : SelectorList}
    (h : SelectorList.IsBlock unbroken l) : l ≠ [] := by
  obtain ⟨⟨c, m, rfl, -⟩, -⟩ := h
  exact List.cons_ne_nil c m

theorem SelectorList.isBlock_map {unbroken : Prop} {l : SelectorList} {f : Complex → Complex}
    (hl : SelectorList.IsBlock True l) (hf : ∀ c ∈ l, (f c).Everywhere .writable)
    (hbreak : ∀ c, c.lineBreak = false → unbroken → (f c).lineBreak = false) :
    SelectorList.IsBlock unbroken (l.map f) := by
  obtain ⟨⟨c, m, rfl, hc⟩, -⟩ := hl
  refine ⟨⟨f c, m.map f, rfl, hbreak c (hc trivial)⟩, SelectorList.each_iff.2 fun d hd ↦ ?_⟩
  obtain ⟨e, he, rfl⟩ := List.mem_map.1 hd
  exact hf e he

theorem SelectorList.isBlock_mapM {l r : SelectorList} {f : Complex → Except SelectorError Complex}
    (hl : SelectorList.IsBlock True l) (h : l.mapM f = .ok r)
    (hf : ∀ p q, f p = .ok q → p.Everywhere .writable →
      q.Everywhere .writable ∧ q.lineBreak = p.lineBreak) : SelectorList.IsBlock True r := by
  obtain ⟨⟨p, m, rfl, hp⟩, heach⟩ := hl
  have hmem := exists_of_mapM h
  rw [List.mapM_cons] at h
  obtain ⟨q, hq, h⟩ := bind_eq_ok_iff.1 h
  obtain ⟨s, -, h⟩ := bind_eq_ok_iff.1 h
  cases h
  refine ⟨⟨q, s, rfl, fun _ ↦ (hf p q hq heach.1).2.trans (hp trivial)⟩, ?_⟩
  apply SelectorList.each_iff.2
  intro d hd
  obtain ⟨e, he, hed⟩ := hmem d hd
  exact (hf e d hed (SelectorList.each_iff.1 heach e he)).1

theorem Compound.isBlock_placements {parent l : SelectorList} {c d : Compound}
    {ks : List Combinator} (hparent : SelectorList.IsBlock True parent)
    (hc : Compound.Each .writable c) (hd : Compound.Written d ∧ Compound.Each .writable d)
    (h : Compound.placements parent c d ks = .ok l) : SelectorList.IsBlock True l := by
  unfold Compound.placements at h
  split at h
  · cases h
    refine SelectorList.isBlock_map hparent (fun p hp ↦ ?_) fun p hp _ ↦ ?_
    · exact Complex.everywhere_withCombinators (SelectorList.each_iff.1 hparent.2 p hp)
    · simpa [Complex.withCombinators] using hp
  · next suffix _ _ =>
    obtain ⟨⟨s, conditions, rfl, hfollows⟩, -, hconditions⟩ := hd
    apply SelectorList.isBlock_mapM hparent h
    intro p q hq hp
    exact Complex.everywhere_merge hp (fun n hn ↦ (hc.1 n hn).2.1) ⟨hconditions, hfollows⟩ hq
  · cases h
    exact ⟨⟨_, [], rfl, fun _ ↦ rfl⟩, ⟨.inr (by simp), trivial, hd, trivial⟩, trivial⟩

theorem SelectorList.isBlock_extend {heads l : SelectorList}
    (hheads : ∃ c m, heads = c :: m ∧ c.lineBreak = false)
    (heach : ∀ c ∈ heads, Path.Each .writable c.components) (hl : SelectorList.IsBlock True l) :
    SelectorList.IsBlock True (SelectorList.extend heads l) := by
  obtain ⟨c, m, rfl, hc⟩ := hheads
  obtain ⟨⟨d, n, rfl, hd⟩, hmembers⟩ := hl
  refine ⟨⟨c.concatenate d false, _, rfl, fun _ ↦ ?_⟩, SelectorList.each_iff.2 fun e he ↦ ?_⟩
  · simp [Complex.concatenate, hc, hd trivial]
  · obtain ⟨h, hh, he⟩ := List.mem_flatMap.1 he
    obtain ⟨p, hp, rfl⟩ := List.mem_map.1 he
    exact Complex.everywhere_concatenate (heach h hh) (SelectorList.each_iff.1 hmembers p hp)

theorem SelectorList.isBlock_foldl {heads : SelectorList} {blocks : List SelectorList}
    (hheads : SelectorList.IsBlock True heads)
    (hblocks : ∀ l ∈ blocks, SelectorList.IsBlock True l) :
    SelectorList.IsBlock True (blocks.foldl SelectorList.extend heads) := by
  induction blocks generalizing heads with
  | nil => exact hheads
  | cons l rest ih =>
    rw [List.forall_mem_cons] at hblocks
    refine ih ?_ hblocks.2
    obtain ⟨⟨c, m, hcm, hc⟩, heach⟩ := hheads
    refine SelectorList.isBlock_extend ⟨c, m, hcm, hc trivial⟩ (fun d hd ↦ ?_) hblocks.1
    exact (SelectorList.each_iff.1 heach d hd).components

/-! ### Interleaving -/

/-- The blocks of the members of a list give a list without a line break at the front. -/
theorem SelectorList.everywhere_interleave {l : SelectorList} {blocks : List SelectorList}
    (hl : SelectorList.Written l)
    (h : List.Forall₂ (fun c b ↦ SelectorList.IsBlock (c.lineBreak = false) b) l blocks) :
    SelectorList.Everywhere .writable (interleave blocks) := by
  have heach : ∀ b ∈ blocks, SelectorList.Each .writable b := by
    clear hl
    induction h with
    | nil => simp
    | cons hb _ ih => exact List.forall_mem_cons.2 ⟨hb.2, ih⟩
  obtain ⟨c, m, rfl, hc⟩ := hl
  cases h with
  | cons hb _ =>
    obtain ⟨⟨d, n, rfl, hd⟩, -⟩ := hb
    obtain ⟨rest, hrest⟩ := interleave_cons d n _
    refine ⟨⟨d, rest, hrest, hd hc⟩, SelectorList.each_iff.2 fun e he ↦ ?_⟩
    obtain ⟨b, hb, he⟩ := mem_interleave_iff.1 he
    exact SelectorList.each_iff.1 (heach b hb) e he

/-! ### Replacing the parent selector -/

theorem Complex.isBlock_unresolved {parent : SelectorList} {implied : Bool} {c : Complex}
    (hparent : SelectorList.IsBlock True parent) (hc : c.Everywhere .writable) :
    SelectorList.IsBlock (c.lineBreak = false) (c.unresolved parent implied) := by
  unfold Complex.unresolved
  split
  · refine SelectorList.isBlock_map hparent (fun p hp ↦ ?_) fun p hp hbreak ↦ ?_
    · have hpwritable := SelectorList.each_iff.1 hparent.2 p hp
      exact Complex.everywhere_concatenate hpwritable.components hc
    · simp [Complex.concatenate, hp, hbreak]
  · exact ⟨⟨c, [], rfl, id⟩, hc, trivial⟩

variable {parent : SelectorList}

mutual

theorem Simple.everywhere_resolve (hparent : SelectorList.IsBlock True parent) {s t : Simple}
    (hs : s.Everywhere .writable) (h : s.resolve parent = .ok t) :
    t.Everywhere .writable ∧ (s.Follows → t.Follows) := by
  match s with
  | .pseudo p =>
    obtain ⟨q, hq, h⟩ := bind_eq_ok_iff.1 h
    cases h
    exact ⟨Pseudo.everywhere_resolve hparent hs hq, id⟩
  | .universal _ | .type _ | .className _ | .id _ | .attribute _ | .placeholder _ | .parent _ =>
    cases h
    exact ⟨hs, id⟩

theorem Pseudo.everywhere_resolve (hparent : SelectorList.IsBlock True parent) {p q : Pseudo}
    (hp : (Simple.pseudo p).Everywhere .writable) (h : p.resolve parent = .ok q) :
    (Simple.pseudo q).Everywhere .writable := by
  match p with
  | ⟨name, element, argument, none⟩ =>
    cases h
    exact hp
  | ⟨name, element, argument, some l⟩ =>
    unfold Pseudo.resolve at h
    split at h
    · obtain ⟨blocks, hblocks, h⟩ := bind_eq_ok_iff.1 h
      cases h
      obtain ⟨⟨hname, hargument⟩, hwritten, heach⟩ := hp
      refine ⟨⟨hname, ?_⟩, ?_⟩
      · cases argument <;> exact hargument
      · have hforall := SelectorList.isBlock_blocks hparent heach hblocks
        exact SelectorList.everywhere_interleave hwritten hforall
    · cases h
      exact hp

theorem SelectorList.isBlock_blocks (hparent : SelectorList.IsBlock True parent) {implied : Bool}
    {l : SelectorList} {blocks : List SelectorList} (hl : SelectorList.Each .writable l)
    (h : SelectorList.blocks parent implied l = .ok blocks) :
    List.Forall₂ (fun c b ↦ SelectorList.IsBlock (c.lineBreak = false) b) l blocks := by
  match l with
  | [] =>
    cases h
    exact .nil
  | c :: l =>
    obtain ⟨block, hblock, h⟩ := bind_eq_ok_iff.1 h
    obtain ⟨more, hmore, h⟩ := bind_eq_ok_iff.1 h
    cases h
    exact .cons (Complex.isBlock_block hparent hl.1 hblock)
      (SelectorList.isBlock_blocks hparent hl.2 hmore)

theorem Complex.isBlock_block (hparent : SelectorList.IsBlock True parent) {implied : Bool}
    {c : Complex} {block : SelectorList} (hc : c.Everywhere .writable)
    (h : c.block parent implied = .ok block) :
    SelectorList.IsBlock (c.lineBreak = false) block := by
  match c with
  | ⟨leading, components, lineBreak⟩ =>
    rw [Complex.block_eq_foldl hparent.ne_nil] at h
    split at h
    · next hhas =>
      rw [map_eq_pure_bind] at h
      obtain ⟨ps, hps, h⟩ := bind_eq_ok_iff.1 h
      cases h
      have hplacements := Path.isBlock_placements hparent hc.2.2 hps
      apply SelectorList.IsBlock.imp (fun _ ↦ trivial)
      cases components with
      | nil => cases hhas
      | cons d p =>
        obtain ⟨l, rest, rfl⟩ := List.exists_cons_of_length_eq_add_one hplacements.1
        have hall := List.forall_mem_cons.1 hplacements.2
        rw [List.foldl_cons]
        refine SelectorList.isBlock_foldl (SelectorList.isBlock_extend ?_ ?_ hall.1) hall.2
        · exact ⟨_, [], rfl, rfl⟩
        · intro e he
          obtain rfl := List.mem_singleton.1 he
          trivial
    · cases h
      exact Complex.isBlock_unresolved hparent hc

theorem Path.isBlock_placements (hparent : SelectorList.IsBlock True parent) {p : Path}
    {placements : List SelectorList} (hp : Path.Each .writable p)
    (h : Path.placements parent p = .ok placements) :
    placements.length = p.length ∧ ∀ l ∈ placements, SelectorList.IsBlock True l := by
  match p with
  | [] =>
    cases h
    simp
  | ⟨c, ks⟩ :: p =>
    obtain ⟨d, hd, h⟩ := bind_eq_ok_iff.1 h
    obtain ⟨l, hl, h⟩ := bind_eq_ok_iff.1 h
    obtain ⟨more, hmore, h⟩ := bind_eq_ok_iff.1 h
    cases h
    obtain ⟨heach, hfollows⟩ := Compound.each_resolve hparent hp.1.2 hd
    have hwritten := Compound.written_of_forall₂ hp.1.1 hfollows
    have hrest := Path.isBlock_placements hparent hp.2 hmore
    refine ⟨congrArg (· + 1) hrest.1, List.forall_mem_cons.2 ⟨?_, hrest.2⟩⟩
    exact Compound.isBlock_placements hparent hp.1.2 ⟨hwritten, heach⟩ hl

theorem Compound.each_resolve (hparent : SelectorList.IsBlock True parent) {c d : Compound}
    (hc : Compound.Each .writable c) (h : Compound.resolve parent c = .ok d) :
    Compound.Each .writable d ∧
      List.Forall₂ (fun s t ↦ Simple.Follows s → Simple.Follows t) c d := by
  match c with
  | [] =>
    cases h
    exact ⟨trivial, .nil⟩
  | s :: c =>
    obtain ⟨t, ht, h⟩ := bind_eq_ok_iff.1 h
    obtain ⟨more, hmore, h⟩ := bind_eq_ok_iff.1 h
    cases h
    have hs := Simple.everywhere_resolve hparent hc.1 ht
    have hrest := Compound.each_resolve hparent hc.2 hmore
    exact ⟨⟨hs.1, hrest.1⟩, .cons hs.2 hrest.2⟩

end

/-- What nesting a selector list that can be written in another gives can be written. -/
theorem SelectorList.everywhere_nestWithin {l r : SelectorList}
    (hl : SelectorList.Everywhere .writable l) (hparent : SelectorList.Everywhere .writable parent)
    (h : l.nestWithin parent true false = .ok r) : SelectorList.Everywhere .writable r := by
  obtain ⟨blocks, hblocks, h⟩ := bind_eq_ok_iff.1 h
  cases h
  rw [SelectorList.everywhere_iff_isBlock] at hparent
  exact SelectorList.everywhere_interleave hl.1
    (SelectorList.isBlock_blocks hparent hl.2 hblocks)

end SelectorAlgebra

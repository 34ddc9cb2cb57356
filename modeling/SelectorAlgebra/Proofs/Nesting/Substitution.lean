import Mathlib
import SelectorAlgebra.Proofs.Nesting.Resolution
import SelectorAlgebra.Proofs.Parser.Written
import SelectorAlgebra.Proofs.Selector.Text

/-!
# Nesting as substitution in the text

A second printer writes a given text where a parent selector stands. Main statement: nesting in a
parent of one member writes the text of the parent in place of each `&`, and in front of each member
without one.
-/

namespace SelectorAlgebra

mutual

/-- The text of a simple selector with a given text in place of `&`; a suffix follows it. -/
def Simple.charsWith (own : List Char) : Simple → List Char
  | .parent suffix => own ++ (suffix.getD "").toList
  | .pseudo p => p.charsWith own
  | s => s.chars

/-- The text of a pseudo selector with a given text in place of `&`. -/
def Pseudo.charsWith (own : List Char) : Pseudo → List Char
  | ⟨name, element, argument, selector⟩ =>
    (if element then [':', ':'] else [':']) ++ name.toList ++
      (match argument, selector with
      | none, none => []
      | some a, none => '(' :: a.toList ++ [')']
      | none, some l => '(' :: SelectorList.charsWith own l ++ [')']
      | some a, some l =>
        '(' :: a.toList ++ [' ', 'o', 'f', ' '] ++ SelectorList.charsWith own l ++ [')'])

/-- The text of a selector list with a given text in place of `&`. -/
def SelectorList.charsWith (own : List Char) : SelectorList → List Char
  | [] => []
  | c :: l => c.charsWith own ++ SelectorList.moreCharsWith own l

/-- The text of the members of a list after the first with a given text in place of `&`. -/
def SelectorList.moreCharsWith (own : List Char) : SelectorList → List Char
  | [] => []
  | c :: l =>
    [',', if c.lineBreak then '\n' else ' '] ++ c.charsWith own ++
      SelectorList.moreCharsWith own l

/-- The text of a complex selector with a given text in place of `&`. -/
def Complex.charsWith (own : List Char) : Complex → List Char
  | ⟨leading, components, _⟩ =>
    spaced (leading.map (fun k ↦ [k.symbol]) ++ Path.textsWith own components)

/-- The texts of the components of a path with a given text in place of `&`. -/
def Path.textsWith (own : List Char) : Path → List (List Char)
  | [] => []
  | ⟨c, combinators⟩ :: p =>
    (Compound.charsWith own c ++ combinators.flatMap fun k ↦ [' ', k.symbol]) ::
      Path.textsWith own p

/-- The text of a compound selector with a given text in place of `&`. -/
def Compound.charsWith (own : List Char) : Compound → List Char
  | [] => []
  | s :: c => s.charsWith own ++ Compound.charsWith own c

end

/-- The text of a member that is nested in a parent with a given text: it takes the place of `&`, or
it is put in front where there is none. -/
def Complex.nestedChars (own : List Char) (c : Complex) : List Char :=
  if c.hasParent then c.charsWith own else own ++ ' ' :: c.chars

/-- The text of a list, each member of which is nested in a parent with a given text. -/
def SelectorList.nestedText (own : List Char) (l : SelectorList) : String :=
  String.ofList ([',', ' '].intercalate (l.map (Complex.nestedChars own)))

variable {own : List Char}

/-! ### Texts without `&` -/

mutual

/-- Where no `&` stands or the given text is `&`, it is the canonical text. -/
theorem Simple.charsWith_eq {s : Simple} (h : s.hasParent = true → own = ['&']) :
    s.charsWith own = s.chars := by
  match s with
  | .parent suffix =>
    rw [h rfl]
    rfl
  | .pseudo p => exact Pseudo.charsWith_eq h
  | .universal _ | .type _ | .className _ | .id _ | .attribute _ | .placeholder _ => rfl

theorem Pseudo.charsWith_eq {p : Pseudo} (h : p.hasParent = true → own = ['&']) :
    p.charsWith own = p.chars := by
  match p with
  | ⟨_, _, argument, none⟩ => cases argument <;> rfl
  | ⟨_, _, argument, some l⟩ =>
    have hl := SelectorList.charsWith_eq (l := l) h
    cases argument <;> simp only [Pseudo.charsWith, Pseudo.chars, hl]

theorem SelectorList.charsWith_eq {l : SelectorList}
    (h : SelectorList.hasParent l = true → own = ['&']) :
    SelectorList.charsWith own l = SelectorList.chars l := by
  match l with
  | [] => rfl
  | c :: l =>
    simp only [SelectorList.hasParent, Bool.or_eq_true] at h
    rw [SelectorList.charsWith, SelectorList.chars, Complex.charsWith_eq fun hc ↦ h (.inl hc),
      SelectorList.moreCharsWith_eq fun hl ↦ h (.inr hl)]

theorem SelectorList.moreCharsWith_eq {l : SelectorList}
    (h : SelectorList.hasParent l = true → own = ['&']) :
    SelectorList.moreCharsWith own l = SelectorList.moreChars l := by
  match l with
  | [] => rfl
  | c :: l =>
    simp only [SelectorList.hasParent, Bool.or_eq_true] at h
    rw [SelectorList.moreCharsWith, SelectorList.moreChars,
      Complex.charsWith_eq fun hc ↦ h (.inl hc),
      SelectorList.moreCharsWith_eq fun hl ↦ h (.inr hl)]

theorem Complex.charsWith_eq {c : Complex} (h : c.hasParent = true → own = ['&']) :
    c.charsWith own = c.chars := by
  match c with
  | ⟨_, p, _⟩ => rw [Complex.charsWith, Complex.chars, Path.textsWith_eq (p := p) h]

theorem Path.textsWith_eq {p : Path} (h : Path.hasParent p = true → own = ['&']) :
    Path.textsWith own p = Path.texts p := by
  match p with
  | [] => rfl
  | ⟨c, ks⟩ :: p =>
    simp only [Path.hasParent, Bool.or_eq_true] at h
    rw [Path.textsWith, Path.texts, Compound.charsWith_eq fun hc ↦ h (.inl hc),
      Path.textsWith_eq fun hp ↦ h (.inr hp)]

theorem Compound.charsWith_eq {c : Compound} (h : Compound.hasParent c = true → own = ['&']) :
    Compound.charsWith own c = Compound.chars c := by
  match c with
  | [] => rfl
  | s :: c =>
    simp only [Compound.hasParent, Bool.or_eq_true] at h
    rw [Compound.charsWith, Compound.chars, Simple.charsWith_eq fun hs ↦ h (.inl hs),
      Compound.charsWith_eq fun hc ↦ h (.inr hc)]

end

/-! ### Texts of what is put together -/

theorem Compound.chars_append (c d : Compound) :
    Compound.chars (c ++ d) = Compound.chars c ++ Compound.chars d := by
  induction c with
  | nil => rfl
  | cons s c ih => rw [List.cons_append, Compound.chars, Compound.chars, ih, List.append_assoc]

/-- A suffix is written behind the name that it lengthens. -/
theorem Simple.chars_withSuffix {s t : Simple} {suffix : String}
    (h : s.withSuffix suffix = .ok t) : t.chars = s.chars ++ suffix.toList := by
  match s with
  | .universal _ | .attribute _ | .parent _ => cases h
  | .pseudo ⟨_, _, some _, _⟩ | .pseudo ⟨_, _, none, some _⟩ => cases h
  | .type n | .className n | .id n | .placeholder n | .pseudo ⟨n, _, none, none⟩ =>
    cases h
    simp [Simple.chars, QualifiedName.chars, Pseudo.chars, Pseudo.withName]

theorem Compound.chars_of_lengthened {suffix : Option String} {c d : Compound}
    (h : Compound.Lengthened suffix c d) :
    Compound.chars d = Compound.chars c ++ (suffix.getD "").toList := by
  cases h with
  | same => simp
  | last front hs =>
    simp [Compound.chars_append, Compound.chars, Simple.chars_withSuffix hs]

/-- A path is written with a space in front of each component and combinator. -/
theorem Complex.spacedParts_word (k : List Combinator) (p : Path) (c : Compound)
    (ks : List Combinator) (b : Bool) :
    spacedParts (word ⟨k, p ++ [⟨c, ks⟩], b⟩) = spacedParts (word ⟨k, p, b⟩) ++
      ' ' :: (Compound.chars c ++ ks.flatMap fun k ↦ [' ', k.symbol]) := by
  rw [word_append, spacedParts_append]
  simp [word, spacedParts_cons, spacedParts_combinators, Part.chars]

/-! ### Written as another text asks -/

/-- The shape of selectors without line breaks. -/
def Shape.unbroken : Shape where
  complex c := c.lineBreak = false

/-- The shape of selectors that can be written on one line. -/
def Shape.straight : Shape where
  compound := Compound.Written
  complex c := c.Written ∧ c.lineBreak = false

theorem Shape.entail_straight {K : List Char → Prop} :
    Shape.Entail (.written K) .unbroken .straight where
  compound _ hc _ := hc
  complex _ hc hbreak := ⟨hc.complex, hbreak.complex⟩

/-- Simple selectors that are written as another text asks, where they are no parent selectors. -/
abbrev Compound.WrittenWith (own : List Char) (c d : Compound) : Prop :=
  List.Forall₂ (fun s t ↦ s.IsOther → t.chars = s.charsWith own) c d

theorem Compound.WrittenWith.chars_eq {c d : Compound} (h : Compound.WrittenWith own c d)
    (hc : ∀ s ∈ c, s.IsOther) : Compound.chars d = Compound.charsWith own c := by
  induction h with
  | nil => rfl
  | cons hst _ ih =>
    rw [List.forall_mem_cons] at hc
    rw [Compound.chars, Compound.charsWith, hst hc.1, ih hc.2]

/-- Members on one line that are written as another text asks. -/
abbrev SelectorList.WrittenWith (own : List Char) (l r : SelectorList) : Prop :=
  List.Forall₂ (fun c m ↦ m.lineBreak = false ∧ m.chars = c.charsWith own) l r

theorem SelectorList.WrittenWith.moreChars_eq {l r : SelectorList}
    (h : SelectorList.WrittenWith own l r) (hl : ∀ c ∈ l, c.lineBreak = false) :
    SelectorList.moreChars r = SelectorList.moreCharsWith own l := by
  induction h with
  | nil => rfl
  | cons hcm _ ih =>
    rw [List.forall_mem_cons] at hl
    rw [SelectorList.moreChars, SelectorList.moreCharsWith, hcm.1, hl.1, hcm.2, ih hl.2]

theorem SelectorList.WrittenWith.chars_eq {l r : SelectorList}
    (h : SelectorList.WrittenWith own l r) (hl : ∀ c ∈ l, c.lineBreak = false) :
    SelectorList.chars r = SelectorList.charsWith own l := by
  cases h with
  | nil => rfl
  | cons hcm h =>
    rw [SelectorList.chars, SelectorList.charsWith, hcm.2,
      SelectorList.WrittenWith.moreChars_eq h (List.forall_mem_cons.1 hl).2]

/-- Blocks of one member each. -/
theorem exists_of_forall₂_singleton {α β : Type} {R : α → β → Prop} {l : List α}
    {blocks : List (List β)} (h : List.Forall₂ (fun a block ↦ ∃ b, block = [b] ∧ R a b) l blocks) :
    ∃ m : List β, blocks = m.map ([·]) ∧ List.Forall₂ R l m := by
  induction h with
  | nil => exact ⟨[], rfl, .nil⟩
  | cons hb _ ih =>
    obtain ⟨b, rfl, hb⟩ := hb
    obtain ⟨m, rfl, hm⟩ := ih
    exact ⟨b :: m, rfl, .cons hb hm⟩

theorem Complex.space_charsWith {c : Complex} (h : c.Written) :
    ' ' :: c.charsWith own = spacedParts (c.leading.map .combinator) ++
      (Path.textsWith own c.components).flatMap fun u ↦ ' ' :: u := by
  obtain ⟨leading, p, lineBreak⟩ := c
  have hne : leading.map (fun k ↦ [k.symbol]) ++ Path.textsWith own p ≠ [] := by
    intro hnil
    obtain ⟨hleading, htexts⟩ := List.append_eq_nil_iff.1 hnil
    obtain rfl := List.map_eq_nil_iff.1 hleading
    cases p with
    | nil => exact h.elim (· rfl) (· rfl)
    | cons d p =>
      cases d
      simp [Path.textsWith] at htexts
  have hall : (leading.map (fun k ↦ [k.symbol]) ++ Path.textsWith own p).flatMap (' ' :: ·) =
      (leading.flatMap fun k ↦ [' ', k.symbol]) ++ (Path.textsWith own p).flatMap (' ' :: ·) := by
    rw [List.flatMap_append, List.flatMap_map]
  rw [Complex.charsWith, spacedParts_combinators, ← hall]
  generalize leading.map (fun k ↦ [k.symbol]) ++ Path.textsWith own p = texts at hne
  obtain ⟨x, texts, rfl⟩ := List.exists_cons_of_ne_nil hne
  exact space_spaced texts

/-! ### Steps -/

variable {p : Complex}

/-- In the place of a component that starts with `&` stands the text of the parent. -/
theorem Component.spacedParts_of_placed {m : Complex} {c : Compound} {ks : List Combinator}
    (hp : p.Written) (hc : Compound.Written c)
    (h : Component.Placed (Compound.WrittenWith p.chars) p ⟨c, ks⟩ m) :
    spacedParts m.word =
      ' ' :: (Compound.charsWith p.chars c ++ ks.flatMap fun k ↦ [' ', k.symbol]) := by
  have hown := Complex.space_chars hp.word_ne_nil
  cases h with
  | alone _ hword _ =>
    rw [hword, spacedParts_append, ← hown, spacedParts_combinators]
    simp [Compound.charsWith, Simple.charsWith]
  | @merged suffix conditions resolved subject lengthened front _ _ hresolved hparent hlengthened =>
    obtain ⟨leading, components, lineBreak⟩ := p
    obtain rfl := hparent
    rw [Complex.spacedParts_word] at hown ⊢
    rw [Compound.chars_append, Compound.chars_of_lengthened hlengthened,
      Compound.WrittenWith.chars_eq hresolved hc.isOther, Compound.charsWith, Simple.charsWith]
    simp only [List.append_assoc, ← List.cons_append]
    rw [hown]
    simp

/-- What the components of a path become is written like the components. -/
theorem Path.spacedParts_of_placed (hp : p.Written) {path : Path} {ps : SelectorList}
    {ms : List Complex} (hpath : Path.Each .straight path) (hps : ∀ q ∈ ps, q = p)
    (h : Path.Placed (Compound.WrittenWith p.chars) path ps ms) :
    (ms.flatMap fun m ↦ spacedParts m.word) =
      (Path.textsWith p.chars path).flatMap fun u ↦ ' ' :: u := by
  induction h with
  | nil => rfl
  | @parent d path q m ps ms h _ ih =>
    obtain ⟨c, ks⟩ := d
    obtain ⟨rfl, hps⟩ := List.forall_mem_cons.1 hps
    have hm := Component.spacedParts_of_placed hp hpath.1.1 h
    rw [List.flatMap_cons, hm, ih hpath.2 hps, Path.textsWith, List.flatMap_cons]
  | @other d path resolved ps ms hother hresolved _ ih =>
    obtain ⟨c, ks⟩ := d
    have hchars := Compound.WrittenWith.chars_eq hresolved (hpath.1.1.isOther_of_other hother)
    rw [List.flatMap_cons, ih hpath.2 hps, Path.textsWith, List.flatMap_cons, ← hchars]
    simp [Complex.word, spacedParts_cons, spacedParts_combinators, Part.chars]

/-- A pseudo selector is written with the text of the list inside it. -/
theorem Pseudo.chars_of_list {name : String} {element : Bool} {argument : Option String}
    {l m : SelectorList} (h : SelectorList.chars m = SelectorList.charsWith own l) :
    Pseudo.chars ⟨name, element, argument, some m⟩ =
      Pseudo.charsWith own ⟨name, element, argument, some l⟩ := by
  cases argument <;> simp only [Pseudo.chars, Pseudo.charsWith, h]

/-- In a parent of one member, a block has one member. -/
theorem Complex.Owns.exists_eq_singleton {c : Complex} {block : SelectorList} {implied : Bool}
    (h : c.Owns [p] implied block) : ∃ m, block = [m] := by
  cases hparent : c.hasParent with
  | true =>
    have hlength := h.length_eq hparent
    rwa [List.length_singleton, one_pow, List.length_eq_one_iff] at hlength
  | false =>
    rw [h.unresolved hparent]
    split
    · exact ⟨_, rfl⟩
    · exact ⟨_, rfl⟩

/-- Nesting in a parent of one member keeps the text, with that of the parent in place of `&`. -/
theorem resolutionLaw_chars (hp : p.Written ∧ p.lineBreak = false) :
    ResolutionLaw [p] .straight (fun s t ↦ s.IsOther → t.chars = s.charsWith p.chars)
      (fun c m ↦ m.lineBreak = false ∧ m.chars = c.charsWith p.chars) where
  nonempty := List.cons_ne_nil p []
  same s hs hother := by
    refine (Simple.charsWith_eq fun hparent ↦ ?_).symm
    match s with
    | .parent suffix => exact absurd rfl (hother suffix)
    | .pseudo q =>
      have hq : q.hasParent = true := hparent
      rw [hs q rfl] at hq
      cases hq
  list name element argument l blocks hl hblocks _ := by
    obtain ⟨m, rfl, hm⟩ := exists_of_forall₂_singleton (R := fun c m ↦
        m.lineBreak = false ∧ m.chars = c.charsWith p.chars) (hblocks.imp fun c block h ↦ by
      obtain ⟨m, rfl⟩ := h.1.exists_eq_singleton
      exact ⟨m, rfl, h.2 m (List.mem_singleton_self m)⟩)
    rw [interleave_map_singleton]
    exact Pseudo.chars_of_list (SelectorList.WrittenWith.chars_eq hm fun c hc ↦
      (SelectorList.each_iff.1 hl c hc).complex.2)
  kept c hc hnone := by
    refine ⟨hc.complex.2, (Complex.charsWith_eq fun hparent ↦ ?_).symm⟩
    rw [hnone] at hparent
    cases hparent
  resolved c ps m hc hps hm := by
    have hself : ∀ q ∈ ps, q = p := fun q hq ↦ List.mem_singleton.1 (hps q hq)
    have hbreak : m.lineBreak = false := by
      rw [hm.lineBreak_eq, List.any_eq_false]
      intro q hq
      simp [hself q hq, hp.2]
    obtain ⟨ms, hplaced, hword, -⟩ := hm
    have htexts := Path.spacedParts_of_placed hp.1 hc.components hself hplaced
    have hspaced : spacedParts m.word = ' ' :: c.charsWith p.chars := by
      rw [hword, spacedParts_append, Complex.space_charsWith hc.complex.1, ← htexts]
      simp only [spacedParts, List.flatMap_assoc]
    have hne : m.word ≠ [] := by
      intro hnil
      rw [hnil] at hspaced
      cases hspaced
    rw [← Complex.space_chars hne] at hspaced
    exact ⟨hbreak, (List.cons.inj hspaced).2⟩

/-- What a member becomes in a parent of one member. -/
theorem Complex.nestedChars_of_block (hp : p.Written ∧ p.lineBreak = false) {c : Complex}
    {block : SelectorList} (hc : c.Everywhere .straight) (h : c.block [p] true = .ok block) :
    ∃ m, block = [m] ∧ m.lineBreak = false ∧ m.chars = c.nestedChars p.chars := by
  cases hparent : c.hasParent with
  | true =>
    obtain ⟨m, rfl⟩ := (Complex.owns_of_block (List.cons_ne_nil p []) h).exists_eq_singleton
    obtain ⟨hbreak, hchars⟩ :=
      (resolutionLaw_chars hp).block hc (.inl hparent) h m (List.mem_singleton_self m)
    exact ⟨m, rfl, hbreak, by rw [hchars, nestedChars, if_pos hparent]⟩
  | false =>
    have hwritten := hc.complex
    refine ⟨_, (Complex.owns_of_block (List.cons_ne_nil p []) h).unresolved hparent, ?_, ?_⟩
    · simp [hp.2, hwritten.2]
    · have hword := Complex.word_concatenate p c false
      have hne : (p.concatenate c false).word ≠ [] := by simp [hword, hp.1.word_ne_nil]
      have hspace := Complex.space_chars hne
      rw [hword, spacedParts_append, ← Complex.space_chars hp.1.word_ne_nil,
        ← Complex.space_chars hwritten.1.word_ne_nil] at hspace
      rw [nestedChars, if_neg (by simp [hparent])]
      exact (List.cons.inj hspace).2

/-- Members without line breaks are written with a comma and a space between them. -/
theorem SelectorList.chars_eq_intercalate {l : SelectorList} (h : ∀ c ∈ l, c.lineBreak = false) :
    SelectorList.chars l = [',', ' '].intercalate (l.map Complex.chars) := by
  cases l with
  | nil => rfl
  | cons c l =>
    rw [SelectorList.chars]
    induction l generalizing c with
    | nil => simp [SelectorList.moreChars]
    | cons d l ih =>
      have htail := (List.forall_mem_cons.1 h).2
      have hd : d.lineBreak = false := htail d List.mem_cons_self
      rw [List.map_cons, List.map_cons, List.intercalate_cons_cons, ← List.map_cons, ← ih d htail,
        SelectorList.moreChars, hd]
      simp

/-- Nesting in a parent of one member writes the text of the parent in place of each `&` of a list
that was read from a text, and in front of each member without one. -/
theorem SelectorList.text_nestWithin_singleton {text : String} {options : ParseOptions}
    {l r : SelectorList} (hl : (SelectorList.parse text options).result = .ok l)
    (hunbroken : SelectorList.Everywhere .unbroken l) (hp : p.Written)
    (hbreak : p.lineBreak = false) (h : l.nestWithin [p] true false = .ok r) :
    SelectorList.text r = SelectorList.nestedText p.chars l := by
  have hwritten := SelectorList.written_of_parse (K := fun _ ↦ True) (fun _ _ ↦ trivial) hl
  have hstraight := hwritten.2.entail Shape.entail_straight hunbroken.2
  obtain ⟨blocks, hblocks, rfl⟩ := SelectorList.nestWithin_eq_ok_iff.1 h
  rw [SelectorList.blocks_eq_mapM, mapM_eq_ok_iff] at hblocks
  have hmembers : List.Forall₂ (fun c block ↦ ∃ m, block = [m] ∧ m.lineBreak = false ∧
      m.chars = c.nestedChars p.chars) l blocks := by
    have heach := (List.forall₂_and_left l blocks).2 ⟨SelectorList.each_iff.1 hstraight, hblocks⟩
    exact heach.imp fun _ _ h ↦ Complex.nestedChars_of_block ⟨hp, hbreak⟩ h.1 h.2
  obtain ⟨m, rfl, hm⟩ := exists_of_forall₂_singleton hmembers
  obtain ⟨hbreaks, hchars⟩ := (List.forall₂_and_left m l).1 hm.flip
  have hmap : m.map Complex.chars = l.map (Complex.nestedChars p.chars) := by
    rw [← List.forall₂_eq_eq_eq, List.forall₂_map_left_iff, List.forall₂_map_right_iff]
    exact hchars
  rw [interleave_map_singleton, SelectorList.text, SelectorList.chars_eq_intercalate hbreaks, hmap]
  rfl

/-- The list `&-x:not(&), b` nested in `.a` is written `.a-x:not(.a), .a b`. -/
theorem SelectorList.text_nestWithin_singleton_suffix :
    SelectorList.text
        [.ofCompound [.className "a-x",
          .pseudo ⟨"not", false, none, some [.ofCompound [.className "a"]]⟩],
        ⟨[], [⟨[.className "a"], []⟩, ⟨[.type ⟨none, "b"⟩], []⟩], false⟩] =
      SelectorList.nestedText (Complex.chars (.ofCompound [.className "a"]))
        [.ofCompound [.parent (some "-x"),
          .pseudo ⟨"not", false, none, some [.ofCompound [.parent none]]⟩],
        .ofCompound [.type ⟨none, "b"⟩]] := by
  have hread : (SelectorList.parse "&-x:not(&), b").result = .ok
      [.ofCompound [.parent (some "-x"),
        .pseudo ⟨"not", false, none, some [.ofCompound [.parent none]]⟩],
      .ofCompound [.type ⟨none, "b"⟩]] := by
    rw [SelectorList.parse_eq]
    cbv
  apply SelectorList.text_nestWithin_singleton hread
  · simp [SelectorList.Everywhere, SelectorList.Each, Complex.ofCompound, Complex.Everywhere,
      Path.Each, Compound.Each, Simple.Everywhere, Pseudo.Everywhere, Shape.unbroken]
  · exact .inr (by simp [Complex.ofCompound])
  · rfl
  · cbv

end SelectorAlgebra

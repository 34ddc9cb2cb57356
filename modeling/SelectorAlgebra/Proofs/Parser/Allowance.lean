import SelectorAlgebra.Proofs.Parser.EntryPoint
import SelectorAlgebra.Proofs.Selector.Word

/-!
# Reading with restrictions

Parent selectors and placeholders may be forbidden. Main statement: a restriction changes nothing
but that the selectors are left out in which something forbidden occurs.
-/

namespace SelectorAlgebra

/-- The shape of selectors in which nothing forbidden occurs. -/
def Shape.permitted (allow : Allowance) : Shape where
  simple
    | .parent _ => allow.parent = true
    | .placeholder _ => allow.placeholder = true
    | _ => True

namespace Parser

variable {α β : Type}

/-- Whether a parser reads what another reads, those values left out that lack a property. -/
def Filters (P : α → Prop) (p q : Parser α) : Prop :=
  ∀ s a r, Reads p s a r ↔ Reads q s a r ∧ P a

namespace Filters

variable {p q : Parser α} {P : α → Prop} {f g : α → Parser β} {Q : β → Prop}

/-- Nothing is left out where all values have the property. -/
theorem same (h : ∀ s a r, Reads p s a r → P a) : Filters P p p :=
  fun s a r ↦ ⟨fun hr ↦ ⟨hr, h s a r hr⟩, And.left⟩

/-- All is left out where no value has the property. -/
theorem fail {fault : SyntaxFault} (h : ∀ s a r, Reads q s a r → ¬ P a) :
    Filters P (Parser.fail fault) q :=
  fun s a r ↦ ⟨fun hr ↦ absurd hr not_reads_fail, fun hr ↦ absurd hr.2 (h s a r hr.1)⟩

theorem pure {a : α} (ha : P a) : Filters P (pure a) (pure a) := by
  refine same fun s b r h ↦ ?_
  obtain ⟨rfl, -⟩ := reads_pure_iff.1 h
  exact ha

/-- Sequences are filtered step by step, if a value that is left out in the first step could only
lead to values that are left out. -/
theorem bind (hp : Filters P p q) (hf : ∀ a, P a → Filters Q (f a) (g a))
    (hg : ∀ a s b r, Reads (g a) s b r → Q b → P a) : Filters Q (p >>= f) (q >>= g) := by
  intro s b t
  rw [reads_bind_iff, reads_bind_iff]
  constructor
  · rintro ⟨a, r, ha, hb⟩
    obtain ⟨ha, hPa⟩ := (hp s a r).1 ha
    obtain ⟨hb, hQ⟩ := (hf a hPa r b t).1 hb
    exact ⟨⟨a, r, ha, hb⟩, hQ⟩
  · rintro ⟨⟨a, r, ha, hb⟩, hQ⟩
    have hPa := hg a r b t hb hQ
    exact ⟨a, r, (hp s a r).2 ⟨ha, hPa⟩, (hf a hPa r b t).2 ⟨hb, hQ⟩⟩

/-- A step that both sequences begin with leaves nothing out. -/
theorem bind_left (hf : ∀ a, Filters Q (f a) (g a)) : Filters Q (p >>= f) (p >>= g) :=
  bind (same fun _ _ _ _ ↦ trivial) (fun a (_ : True) ↦ hf a) fun _ _ _ _ _ _ ↦ trivial

/-- A step that both sequences end with keeps what is left out. -/
theorem bind_right (hp : Filters P p q) (hf : ∀ a s b r, Reads (f a) s b r → (Q b ↔ P a)) :
    Filters Q (p >>= f) (q >>= f) :=
  bind hp (fun a ha ↦ same fun s b r h ↦ (hf a s b r h).2 ha)
    fun a s b r h hQ ↦ (hf a s b r h).1 hQ

/-- An item in front of a list that is read keeps what is left out. -/
theorem cons {a : α} {p q : Parser (List α)} {P Q : List α → Prop} (hp : Filters P p q)
    (hQ : ∀ l, Q (a :: l) ↔ P l) :
    Filters Q (p >>= fun l ↦ Pure.pure (a :: l)) (q >>= fun l ↦ Pure.pure (a :: l)) := by
  refine bind_right hp fun l s b r h ↦ ?_
  obtain ⟨rfl, -⟩ := reads_pure_iff.1 h
  exact hQ l

/-- What is forbidden altogether is left out, and nothing else. -/
theorem guard {b : Bool} {fault : SyntaxFault} (h : ∀ s a r, Reads p s a r → (P a ↔ b = true)) :
    Filters P (if b then p else Parser.fail fault) p := by
  cases b with
  | false => exact fail fun s a r hr ↦ by simpa using h s a r hr
  | true => exact same fun s a r hr ↦ (h s a r hr).2 rfl

end Filters

/-! ### Simple selectors -/

variable {allow : Allowance}

theorem filters_namespaced {ns : String} :
    Filters (Simple.Everywhere (.permitted allow)) (namespaced ns) (namespaced ns) := by
  apply Filters.bind_left
  intro any
  split
  · exact .pure trivial
  · exact .bind_left fun n ↦ .pure trivial

theorem filters_typeSelector :
    Filters (Simple.Everywhere (.permitted allow)) typeSelector typeSelector := by
  apply Filters.bind_left
  intro any
  split
  · apply Filters.bind_left
    intro bar
    split
    · exact filters_namespaced
    · exact .pure trivial
  · apply Filters.bind_left
    intro bar
    split
    · exact filters_namespaced
    · refine .bind_left fun n ↦ .bind_left fun s ↦ ?_
      split
      · exact .bind_left fun _ ↦ filters_namespaced
      · exact .pure trivial

theorem filters_parent {first : Bool} :
    Filters (Simple.Everywhere (.permitted allow)) (parent allow first) (parent {} first) := by
  have hguard : parent allow first =
      if allow.parent then parent {} first else fail .forbiddenParent := by
    unfold parent
    cases allow.parent <;> rfl
  rw [hguard]
  refine .guard fun s t r h ↦ ?_
  cases first with
  | false => exact absurd h not_reads_fail
  | true =>
    simp only [parent, Bool.not_true, Bool.false_eq_true, if_false, reads_rest_bind_iff,
      reads_goTo_bind_iff] at h
    obtain ⟨n, _, -, h⟩ := reads_bind_iff.1 h
    obtain ⟨rfl, -⟩ := reads_pure_iff.1 h
    rfl

theorem filters_placeholder (u : List Char) :
    let p : Parser Simple := do
      goTo u
      return .placeholder (← name)
    Filters (Simple.Everywhere (.permitted allow))
      (if allow.placeholder then p else fail .forbiddenPlaceholder) p := by
  refine .guard fun s t r h ↦ ?_
  rw [reads_goTo_bind_iff] at h
  obtain ⟨n, _, -, h⟩ := reads_bind_iff.1 h
  obtain ⟨rfl, -⟩ := reads_pure_iff.1 h
  rfl

section Nested

variable {nested nested' : Parser SelectorList}

theorem filters_indices (hnested : Filters (SelectorList.Each (.permitted allow)) nested nested') :
    Filters (fun x ↦ ∀ l ∈ x.2, SelectorList.Each (.permitted allow) l)
      (indices nested) (indices nested') := by
  rintro s ⟨a, l⟩ r
  rw [reads_indices_iff, reads_indices_iff]
  refine Iff.trans (and_congr_right fun _ ↦ ?_) and_assoc.symm
  split
  · simp only [hnested _ _ _]
    constructor
    · rintro ⟨m, ⟨hm, heach⟩, rfl⟩
      exact ⟨⟨m, hm, rfl⟩, by simpa using heach⟩
    · rintro ⟨⟨m, hm, rfl⟩, heach⟩
      exact ⟨m, ⟨hm, heach m rfl⟩, rfl⟩
  · constructor
    · rintro ⟨rfl, rfl⟩
      exact ⟨⟨rfl, rfl⟩, by simp⟩
    · exact And.left

theorem filters_argument (hnested : Filters (SelectorList.Each (.permitted allow)) nested nested')
    {n : String} {element : Bool} : Filters (Pseudo.Everywhere (.permitted allow))
      (argument nested n element) (argument nested' n element) := by
  unfold argument
  dsimp only
  split
  · split
    · refine .bind_right (filters_indices hnested) fun x s b r h ↦ ?_
      obtain ⟨a, l⟩ := x
      obtain ⟨rfl, -⟩ := reads_pure_iff.1 h
      cases l <;> simp [Pseudo.Everywhere, Shape.permitted]
    · refine .bind_right hnested fun l s b r h ↦ ?_
      obtain ⟨rfl, -⟩ := reads_pure_iff.1 h
      simp [Pseudo.Everywhere, Shape.permitted]
  · exact .bind_left fun a ↦ .pure trivial

theorem filters_pseudo (hnested : Filters (SelectorList.Each (.permitted allow)) nested nested') :
    Filters (Pseudo.Everywhere (.permitted allow)) (pseudo nested) (pseudo nested') := by
  refine .bind_left fun element ↦ .bind_left fun n ↦ .bind_left fun paren ↦ ?_
  split
  · refine .bind_left fun _ ↦ .bind_right (filters_argument hnested) fun p s b r h ↦ ?_
    rw [reads_blanks_bind_iff, reads_expect_bind_iff] at h
    obtain ⟨_, -, h⟩ := h
    obtain ⟨rfl, -⟩ := reads_pure_iff.1 h
    rfl
  · exact .pure trivial

theorem filters_simple (hnested : Filters (SelectorList.Each (.permitted allow)) nested nested')
    {first : Bool} : Filters (Simple.Everywhere (.permitted allow))
      (simple allow nested first) (simple {} nested' first) := by
  apply Filters.bind_left
  intro s
  split
  · exact .bind_left fun _ ↦ .bind_left fun a ↦ .pure trivial
  · exact .bind_left fun _ ↦ .bind_left fun n ↦ .pure trivial
  · exact .bind_left fun _ ↦ .bind_left fun n ↦ .pure trivial
  · exact filters_placeholder _
  · refine .bind_left fun _ ↦ .bind_right (filters_pseudo hnested) fun p s t r h ↦ ?_
    obtain ⟨rfl, -⟩ := reads_pure_iff.1 h
    exact and_iff_right trivial
  · exact filters_parent
  · exact filters_typeSelector
  · exact filters_typeSelector
  · split
    · exact filters_typeSelector
    · exact .fail fun _ _ _ h ↦ absurd h not_reads_fail

/-! ### Compound and complex selectors -/

theorem filters_moreSimples
    (hnested : Filters (SelectorList.Each (.permitted allow)) nested nested') (bound : ℕ) :
    Filters (Compound.Each (.permitted allow))
      (moreSimples allow nested bound) (moreSimples {} nested' bound) := by
  induction bound with
  | zero => exact .pure trivial
  | succ bound ih =>
    apply Filters.bind_left
    intro s
    split
    · refine .bind (filters_simple hnested) (fun t ht ↦ .cons ih fun d ↦ and_iff_right ht) ?_
      intro t s c r h hc
      obtain ⟨d, -, rfl⟩ := reads_cons_iff.1 h
      exact hc.1
    · exact .pure trivial

theorem filters_compound
    (hnested : Filters (SelectorList.Each (.permitted allow)) nested nested') :
    Filters (Compound.Each (.permitted allow)) (compound allow nested) (compound {} nested') := by
  refine .bind (filters_simple hnested) (fun t ht ↦ .bind_left fun s ↦ ?_) ?_
  · exact .cons (filters_moreSimples hnested _) fun d ↦ and_iff_right ht
  · intro t s c r h hc
    rw [reads_rest_bind_iff] at h
    obtain ⟨d, -, rfl⟩ := reads_cons_iff.1 h
    exact hc.1

/-- Whether nothing forbidden occurs in the compound selectors of a sequence of parts. -/
def IsPermittedWord (allow : Allowance) (w : List Part) : Prop :=
  ∀ c, Part.compound c ∈ w → Compound.Each (.permitted allow) c

theorem isPermittedWord_combinator_cons {k : Combinator} {w : List Part} :
    IsPermittedWord allow (.combinator k :: w) ↔ IsPermittedWord allow w := by
  simp [IsPermittedWord]

theorem isPermittedWord_compound_cons {c : Compound} {w : List Part} :
    IsPermittedWord allow (.compound c :: w) ↔
      Compound.Each (.permitted allow) c ∧ IsPermittedWord allow w := by
  simp only [IsPermittedWord, List.mem_cons, Part.compound.injEq, or_imp, forall_and, forall_eq]

theorem filters_parts
    (hnested : Filters (SelectorList.Each (.permitted allow)) nested nested') (bound : ℕ)
    (adjacent : Bool) : Filters (IsPermittedWord allow)
      (parts allow nested bound adjacent) (parts {} nested' bound adjacent) := by
  induction bound generalizing adjacent with
  | zero => exact .bind_left fun _ ↦ .pure (by simp [IsPermittedWord])
  | succ bound ih =>
    refine .bind_left fun before ↦ .bind_left fun _ ↦ .bind_left fun s ↦ ?_
    split
    · exact .bind_left fun _ ↦ .cons (ih _) fun w ↦ isPermittedWord_combinator_cons
    · split
      · refine .bind (filters_compound hnested) (fun c hc ↦ .cons (ih _) fun w ↦ ?_) ?_
        · exact isPermittedWord_compound_cons.trans (and_iff_right hc)
        · intro c s w r h hw
          obtain ⟨v, -, rfl⟩ := reads_cons_iff.1 h
          exact (isPermittedWord_compound_cons.1 hw).1
      · exact .pure (by simp [IsPermittedWord])

theorem everywhere_permitted_iff {c : Complex} :
    c.Everywhere (.permitted allow) ↔ IsPermittedWord allow c.word := by
  simp only [Complex.everywhere_iff, Shape.permitted, true_and, Path.each_iff, IsPermittedWord,
    Complex.mem_word_iff, forall_exists_index, and_imp, forall_apply_eq_imp_iff₂]

theorem filters_complex
    (hnested : Filters (SelectorList.Each (.permitted allow)) nested nested') (lineBreak : Bool) :
    Filters (Complex.Everywhere (.permitted allow))
      (complex allow nested lineBreak) (complex {} nested' lineBreak) := by
  apply Filters.bind_left
  intro start
  refine .bind_right (filters_parts hnested _ _) fun w s c r h ↦ ?_
  split at h
  · exact absurd h not_reads_failSince
  · have hc : Complex.ofWord w lineBreak = c := by
      dsimp only at h
      split at h
      · rw [reads_notice_bind_iff] at h
        exact (reads_pure_iff.1 h).1
      · exact (reads_pure_iff.1 h).1
    rw [← hc, everywhere_permitted_iff, Complex.word_ofWord]

/-! ### Selector lists -/

theorem filters_moreMembers
    (hnested : Filters (SelectorList.Each (.permitted allow)) nested nested') (bound : ℕ) :
    Filters (SelectorList.Each (.permitted allow))
      (moreMembers allow nested bound) (moreMembers {} nested' bound) := by
  induction bound with
  | zero => exact .pure trivial
  | succ bound ih =>
    refine .bind_left fun _ ↦ .bind_left fun comma ↦ ?_
    split
    · refine .bind_left fun s ↦ .bind_left fun _ ↦ .bind (filters_complex hnested _)
        (fun c hc ↦ .cons ih fun l ↦ and_iff_right hc) ?_
      intro c s l r h hl
      obtain ⟨m, -, rfl⟩ := reads_cons_iff.1 h
      exact hl.1
    · exact .pure trivial

theorem filters_members
    (hnested : Filters (SelectorList.Each (.permitted allow)) nested nested') :
    Filters (SelectorList.Each (.permitted allow)) (members allow nested) (members {} nested') := by
  refine .bind_left fun _ ↦ .bind (filters_complex hnested _) (fun c hc ↦ .bind_left fun s ↦ ?_) ?_
  · exact .cons (filters_moreMembers hnested _) fun l ↦ and_iff_right hc
  · intro c s l r h hl
    rw [reads_rest_bind_iff] at h
    obtain ⟨m, -, rfl⟩ := reads_cons_iff.1 h
    exact hl.1

end Nested

theorem filters_list (depth : ℕ) :
    Filters (SelectorList.Each (.permitted allow)) (list allow depth) (list {} depth) := by
  induction depth with
  | zero => exact .fail fun _ _ _ h ↦ absurd h not_reads_fail
  | succ depth ih => exact filters_members ih

theorem filters_nestedList :
    Filters (SelectorList.Each (.permitted allow)) (nestedList allow) (nestedList {}) := by
  intro s l r
  rw [reads_nestedList_iff, reads_nestedList_iff]
  exact filters_list (s.length + 1) s l r

end Parser

namespace EntryPoint

variable {e : EntryPoint} {text : String} {options : ParseOptions} {x : e.Tree}

theorem filters_whole {allow : Allowance} :
    Parser.Filters (e.Everywhere (.permitted allow)) (e.parser allow) (e.parser {}) := by
  cases e with
  | list =>
    exact fun s l r ↦ (Parser.filters_nestedList s l r).trans
      (and_congr_right fun _ ↦ (and_iff_right trivial).symm)
  | complex => exact Parser.filters_complex Parser.filters_nestedList false
  | compound =>
    exact fun s c r ↦ (Parser.filters_compound Parser.filters_nestedList s c r).trans
      (and_congr_right fun _ ↦ (and_iff_right trivial).symm)
  | simple => exact Parser.filters_simple Parser.filters_nestedList

/-- A text is read under restrictions as without them, if nothing forbidden occurs in what is
read. -/
theorem parse_permitted_iff : (e.parse text options).result = .ok x ↔
    (e.parse text).result = .ok x ∧ e.Everywhere (.permitted options.toAllowance) x := by
  rw [parse_eq_ok_iff, parse_eq_ok_iff]
  constructor
  · rintro ⟨r, hr, hblank⟩
    obtain ⟨hr, hx⟩ := (filters_whole _ _ _).1 hr
    exact ⟨⟨r, hr, hblank⟩, hx⟩
  · rintro ⟨⟨r, hr, hblank⟩, hx⟩
    exact ⟨r, (filters_whole _ _ _).2 ⟨hr, hx⟩, hblank⟩

end EntryPoint

end SelectorAlgebra

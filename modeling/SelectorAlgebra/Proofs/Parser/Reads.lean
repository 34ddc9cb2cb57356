import SelectorAlgebra.Parser.Selector
import SelectorAlgebra.Proofs.Text.Name

/-!
# What parsers read

A parser seen as a relation between a text, the value taken from its front and the text that is
left. There is one rule for each way to build a parser, so that the grammar unfolds to what it reads
in either direction.
-/

namespace SelectorAlgebra.Parser

variable {α β : Type} {s t r : List Char}

/-- Whether a parser takes a value from a text and leaves another. -/
def Reads (p : Parser α) (s : List Char) (a : α) (r : List Char) : Prop :=
  (p s).result = .ok (a, r)

/-- A parser takes at most one value from a text. -/
theorem Reads.unique {p : Parser α} {a b : α} (ha : Reads p s a r) (hb : Reads p s b t) :
    a = b ∧ r = t := by
  have := ha.symm.trans hb
  simpa using this

/-- A parser that takes a value from a text takes no other. -/
theorem Reads.iff {p : Parser α} {a b : α} (h : Reads p s a r) :
    Reads p s b t ↔ b = a ∧ t = r := by
  constructor
  · exact fun hb ↦ hb.unique h
  · rintro ⟨rfl, rfl⟩
    exact h

@[simp] theorem reads_pure_iff {a b : α} : Reads (pure a) s b r ↔ a = b ∧ s = r := by
  change (Except.ok (a, s) : Except Fault _) = .ok (b, r) ↔ _
  simp

/-- What a sequence makes of a text of which its first parser takes a value. -/
theorem Reads.bind_eq {p : Parser α} {f : α → Parser β} {a : α} (h : Reads p s a r) :
    (p >>= f) s = ⟨(p s).notices ++ (f a r).notices, (f a r).result⟩ := by
  change andThen p f s = _
  unfold andThen
  rw [Reads] at h
  split
  · next hp => simp [hp] at h
  · next hp =>
    simp only [hp, Except.ok.injEq, Prod.mk.injEq] at h
    obtain ⟨rfl, rfl⟩ := h
    rw [hp]

/-- A sequence fails where its first parser does. -/
theorem bind_eq_of_error {p : Parser α} {f : α → Parser β} {e : Fault}
    (h : (p s).result = .error e) :
    (p >>= f) s = ⟨(p s).notices, .error e⟩ := by
  change andThen p f s = _
  unfold andThen
  split
  · next hp =>
    rw [hp] at h ⊢
    cases h
    rfl
  · next hp => simp [hp] at h

theorem pure_apply {a : α} : (pure a : Parser α) s = ⟨[], .ok (a, s)⟩ := rfl

/-- Parsers keep the laws of monads. This is not an instance, since `simp` would then rewrite the
sequences that the lemmas below read. -/
theorem lawfulMonad : LawfulMonad Parser := LawfulMonad.mk' _
  (fun p ↦ by
    funext s
    change (p >>= pure) s = p s
    cases h : (p s).result with
    | error e => rw [bind_eq_of_error h, ← h]
    | ok x => rw [Reads.bind_eq h, pure_apply, List.append_nil, ← h])
  (fun _ _ ↦ rfl)
  (fun p f g ↦ by
    funext s
    cases h : (p s).result with
    | error e =>
      have hpf : ((p >>= f) s).result = .error e := by rw [bind_eq_of_error h]
      rw [bind_eq_of_error hpf, bind_eq_of_error h, bind_eq_of_error h]
    | ok x =>
      have hpf : ((p >>= f) s).result = (f x.1 x.2).result := by rw [Reads.bind_eq h]
      cases hf : (f x.1 x.2).result with
      | error e =>
        rw [bind_eq_of_error (hpf.trans hf), Reads.bind_eq h, Reads.bind_eq h, bind_eq_of_error hf]
      | ok y =>
        rw [Reads.bind_eq (hpf.trans hf), Reads.bind_eq h, Reads.bind_eq h, Reads.bind_eq hf,
          List.append_assoc])

theorem rest_bind_apply {f : List Char → Parser β} : (rest >>= f) s = f s s := rfl

theorem goTo_bind_apply {f : Unit → Parser β} : (goTo t >>= f) s = f () t := rfl

theorem blanks_bind_apply {f : Unit → Parser β} : (blanks >>= f) s = f () (Text.dropBlanks s) := rfl

/-- Parsers in sequence read what the first and then the second reads. -/
@[simp low] theorem reads_bind_iff {p : Parser α} {f : α → Parser β} {b : β} :
    Reads (p >>= f) s b t ↔ ∃ a r, Reads p s a r ∧ Reads (f a) r b t := by
  change (andThen p f s).result = _ ↔ _
  unfold andThen Reads
  split
  · next hp => simp [hp]
  · next a r hp =>
    simp only [hp, Except.ok.injEq, Prod.mk.injEq]
    constructor
    · exact fun h ↦ ⟨a, r, ⟨rfl, rfl⟩, h⟩
    · rintro ⟨_, _, ⟨rfl, rfl⟩, h⟩
      exact h

/-- After a parser that takes a value, a sequence goes on with what that leaves. -/
theorem Reads.bind_iff {p : Parser α} {f : α → Parser β} {a : α} {b : β} (h : Reads p s a r) :
    Reads (p >>= f) s b t ↔ Reads (f a) r b t := by
  rw [reads_bind_iff]
  constructor
  · rintro ⟨a', r', ha, hb⟩
    obtain ⟨rfl, rfl⟩ := ha.unique h
    exact hb
  · exact fun hb ↦ ⟨a, r, h, hb⟩

theorem reads_cons_iff {a : α} {p : Parser (List α)} {l : List α} :
    Reads (p >>= fun m ↦ pure (a :: m)) s l r ↔ ∃ m, Reads p s m r ∧ l = a :: m := by
  rw [reads_bind_iff]
  simp only [reads_pure_iff]
  constructor
  · rintro ⟨m, _, hm, rfl, rfl⟩
    exact ⟨m, hm, rfl⟩
  · rintro ⟨m, hm, rfl⟩
    exact ⟨m, r, hm, rfl, rfl⟩

/-- Looking at what is left takes nothing. -/
@[simp] theorem reads_rest_bind_iff {f : List Char → Parser β} {b : β} :
    Reads (rest >>= f) s b t ↔ Reads (f s) s b t := Iff.rfl

@[simp] theorem reads_goTo_bind_iff {f : Unit → Parser β} {u : List Char} {b : β} :
    Reads (goTo u >>= f) s b t ↔ Reads (f ()) u b t := Iff.rfl

@[simp] theorem reads_blanks_bind_iff {f : Unit → Parser β} {b : β} :
    Reads (blanks >>= f) s b t ↔ Reads (f ()) (Text.dropBlanks s) b t := Iff.rfl

@[simp] theorem reads_notice_bind_iff {f : Unit → Parser β} {start : List Char} {b : β} :
    Reads (notice start >>= f) s b t ↔ Reads (f ()) s b t := Iff.rfl

@[simp] theorem not_reads_fail {fault : SyntaxFault} {a : α} : ¬ Reads (fail fault) s a r := by
  simp [Reads, fail]

@[simp] theorem not_reads_failSince {start : List Char} {fault : SyntaxFault} {a : α} :
    ¬ Reads (failSince start fault) s a r := by
  simp [Reads, failSince]

/-- A character is accepted if it comes next, and otherwise nothing is taken. -/
@[simp] theorem reads_accept_bind_iff {c : Char} {f : Bool → Parser β} {b : β} :
    Reads (accept c >>= f) s b t ↔
      (∃ r, s = c :: r ∧ Reads (f true) r b t) ∨ (s.head? ≠ some c ∧ Reads (f false) s b t) := by
  rw [reads_bind_iff]
  cases s with
  | nil => simp [Reads, accept]
  | cons d r => by_cases h : d = c <;> simp [Reads, accept, h, and_assoc]

theorem reads_accept_bind_cons {c : Char} {f : Bool → Parser β} {b : β} :
    Reads (accept c >>= f) (c :: s) b t ↔ Reads (f true) s b t := by
  simp

theorem reads_accept_bind_of_ne {c : Char} {f : Bool → Parser β} {b : β} (h : s.head? ≠ some c) :
    Reads (accept c >>= f) s b t ↔ Reads (f false) s b t := by
  rw [reads_accept_bind_iff]
  constructor
  · rintro (⟨r, rfl, -⟩ | ⟨-, hb⟩)
    · exact absurd rfl h
    · exact hb
  · exact fun hb ↦ .inr ⟨h, hb⟩

@[simp] theorem reads_expect_bind_iff {c : Char} {fault : SyntaxFault} {f : Unit → Parser β}
    {b : β} : Reads (expect c fault >>= f) s b t ↔ ∃ r, s = c :: r ∧ Reads (f ()) r b t := by
  rw [reads_bind_iff]
  constructor
  · rintro ⟨_, r, h, hf⟩
    exact ⟨r, by simpa [expect] using h, hf⟩
  · rintro ⟨r, h, hf⟩
    exact ⟨(), r, by simp [expect, h], hf⟩

/-- Name characters are taken as they are written. -/
theorem reads_nameChars_iff {n : String} : Reads nameChars s n r ↔
    Text.dropName s = some r ∧ s = n.toList ++ r := by
  unfold Reads nameChars
  cases h : Text.dropName s with
  | none => simp
  | some t =>
    obtain ⟨u, rfl⟩ := Text.dropName_suffix h
    simp only [Stretch.chars_mk_append, Except.ok.injEq, Prod.mk.injEq, Option.some.injEq]
    constructor
    · rintro ⟨rfl, rfl⟩
      simp
    · rintro ⟨rfl, hn⟩
      exact ⟨by rw [List.append_cancel_right hn, String.ofList_toList], rfl⟩

theorem reads_name_iff {n : String} : Reads name s n r ↔
    Text.startsName s = true ∧ Text.dropName s = some r ∧ s = n.toList ++ r := by
  cases h : Text.startsName s <;> simp [name, h, reads_nameChars_iff]

theorem reads_quoted_iff {v : String} : Reads quoted s v r ↔
    ∃ q t, s = q :: t ∧ Text.readQuoted q t = .ok (v.toList, r) := by
  unfold Reads quoted
  split
  · simp [fail]
  · next q t =>
    split
    · next u t' hu =>
      simp only [Except.ok.injEq, Prod.mk.injEq, List.cons.injEq]
      constructor
      · rintro ⟨rfl, rfl⟩
        exact ⟨q, t, ⟨rfl, rfl⟩, by rw [hu, String.toList_ofList]⟩
      · rintro ⟨_, _, ⟨rfl, rfl⟩, h⟩
        rw [hu] at h
        cases h
        exact ⟨String.ofList_toList, rfl⟩
    · next stop hstop =>
      simp only [reduceCtorEq, false_iff]
      rintro ⟨_, _, ht, h⟩
      cases ht
      rw [hstop] at h
      cases h

theorem reads_rawArgument_iff {a : String} : Reads rawArgument s a r ↔
    Text.dropArgument 0 s = .ok r ∧ a.toList = Text.trimEnd (Stretch.chars ⟨s, r⟩) := by
  unfold Reads rawArgument
  split
  · next t ht =>
    simp only [Except.ok.injEq, Prod.mk.injEq, ht]
    constructor
    · rintro ⟨rfl, rfl⟩
      exact ⟨rfl, String.toList_ofList⟩
    · rintro ⟨rfl, h⟩
      exact ⟨by rw [← h, String.ofList_toList], rfl⟩
  · next ht => simp [ht]

/-- Indices are read up to where they end, and a list behind the word `of`. -/
theorem reads_indices_iff {nested : Parser SelectorList} {a : String} {l : Option SelectorList} :
    Reads (indices nested) s (a, l) r ↔
      (a.toList ≠ [] ∧ a.toList = Text.trim (Stretch.chars ⟨s, (Text.dropIndices s s).stop⟩)) ∧
        if (Text.dropIndices s s).ofList then
          ∃ m, Reads nested (Text.dropBlanks (Text.dropIndices s s).rest) m r ∧ l = some m
        else l = none ∧ r = (Text.dropIndices s s).rest := by
  simp only [indices, reads_rest_bind_iff, reads_goTo_bind_iff]
  generalize Text.trim _ = u
  by_cases hu : u = []
  · subst hu
    cases (Text.dropIndices s s).ofList <;> simp
  · have hval : (a.toList ≠ [] ∧ a.toList = u) ↔ String.ofList u = a := by
      rw [← String.toList_inj, String.toList_ofList]
      constructor
      · exact fun h ↦ h.2.symm
      · rintro rfl
        exact ⟨hu, rfl⟩
    rw [hval]
    cases (Text.dropIndices s s).ofList with
    | true =>
      simp only [if_true, List.isEmpty_iff, hu, if_false, reads_blanks_bind_iff]
      simp only [reads_bind_iff, reads_pure_iff, Prod.mk.injEq]
      constructor
      · rintro ⟨m, _, hm, ⟨hval, rfl⟩, rfl⟩
        exact ⟨hval, m, hm, rfl⟩
      · rintro ⟨hval, m, hm, rfl⟩
        exact ⟨m, r, hm, ⟨hval, rfl⟩, rfl⟩
    | false =>
      simp only [Bool.false_eq_true, if_false, List.isEmpty_iff, hu, reads_pure_iff, Prod.mk.injEq]
      rw [and_assoc, @eq_comm _ none, @eq_comm _ r]

/-- A whole text is read if nothing but blanks is around what is read. -/
theorem reads_whole_iff {p : Parser α} {a : α} : Reads (whole p) s a r ↔
    (∃ t, Reads p (Text.dropBlanks s) a t ∧ Text.dropBlanks t = []) ∧ r = [] := by
  simp only [whole, reads_blanks_bind_iff]
  rw [reads_bind_iff]
  simp only [reads_blanks_bind_iff, reads_rest_bind_iff]
  constructor
  · rintro ⟨b, t, hb, h⟩
    split at h
    · next ht =>
      obtain ⟨rfl, rfl⟩ := reads_pure_iff.1 h
      exact ⟨⟨t, hb, ht⟩, ht⟩
    · exact absurd h not_reads_fail
  · rintro ⟨⟨t, ha, ht⟩, rfl⟩
    exact ⟨a, t, ha, by simp [ht]⟩

/-! ### Complex selectors -/

/-- A complex selector is read as the sequence of its parts, which is not empty. -/
theorem reads_complex_word_iff {allow : Allowance} {nested : Parser SelectorList} {c : Complex}
    {lineBreak : Bool} :
    Reads (complex allow nested lineBreak) s c t ↔
      (Reads (parts allow nested s.length false) s c.word t ∧ c.word ≠ []) ∧
        c.lineBreak = lineBreak := by
  rw [complex, reads_rest_bind_iff, reads_bind_iff]
  constructor
  · rintro ⟨w, r, hw, h⟩
    split at h
    · exact absurd h not_reads_failSince
    · next hne =>
      have hc : Complex.ofWord w lineBreak = c ∧ r = t := by
        dsimp only at h
        split at h
        · exact reads_pure_iff.1 (reads_notice_bind_iff.1 h)
        · exact reads_pure_iff.1 h
      obtain ⟨rfl, rfl⟩ := hc
      rw [Complex.word_ofWord]
      exact ⟨⟨hw, by simpa using hne⟩, rfl⟩
  · rintro ⟨⟨hw, hne⟩, rfl⟩
    refine ⟨c.word, t, hw, ?_⟩
    rw [if_neg (by simpa using hne), Complex.ofWord_word]
    dsimp only
    split
    · exact reads_notice_bind_iff.2 (reads_pure_iff.2 ⟨rfl, rfl⟩)
    · exact reads_pure_iff.2 ⟨rfl, rfl⟩

/-! ### Selector lists -/

/-- A list has a member in front and further ones. -/
theorem reads_members_iff {allow : Allowance} {nested : Parser SelectorList} {l : SelectorList} :
    Reads (members allow nested) s l r ↔ ∃ c t m,
      Reads (complex allow nested false) (Text.dropBlanks s) c t ∧
        Reads (moreMembers allow nested t.length) t m r ∧ l = c :: m := by
  rw [members, reads_blanks_bind_iff, reads_bind_iff]
  simp only [reads_rest_bind_iff, reads_cons_iff, exists_and_left]

/-- Further members of a list come behind a comma. -/
theorem reads_moreMembers_succ_iff {allow : Allowance} {nested : Parser SelectorList} {bound : Nat}
    {l : SelectorList} : Reads (moreMembers allow nested (bound + 1)) s l r ↔
      (∃ u c t m, Text.dropBlanks s = ',' :: u ∧
        Reads (complex allow nested (Text.blanksBreakLine u)) (Text.dropBlanks u) c t ∧
          Reads (moreMembers allow nested bound) t m r ∧ l = c :: m) ∨
      ((Text.dropBlanks s).head? ≠ some ',' ∧ l = [] ∧ r = Text.dropBlanks s) := by
  rw [moreMembers, reads_blanks_bind_iff, reads_accept_bind_iff]
  refine or_congr (exists_congr fun u ↦ ?_) (and_congr_right fun _ ↦ ?_)
  · rw [if_pos rfl, reads_rest_bind_iff, reads_blanks_bind_iff, reads_bind_iff]
    simp only [reads_cons_iff]
    constructor
    · rintro ⟨hu, c, t, hc, m, hm, rfl⟩
      exact ⟨c, t, m, hu, hc, hm, rfl⟩
    · rintro ⟨c, t, m, hu, hc, hm, rfl⟩
      exact ⟨hu, c, t, hc, m, hm, rfl⟩
  · rw [if_neg (by decide), reads_pure_iff, eq_comm, @eq_comm _ r]

/-- Blanks in front of a comma are passed. -/
theorem reads_moreMembers_blanks_iff {allow : Allowance} {nested : Parser SelectorList}
    {bound : Nat} {l : SelectorList} : Reads (moreMembers allow nested (bound + 1)) s l r ↔
      Reads (moreMembers allow nested (bound + 1)) (Text.dropBlanks s) l r := by
  rw [reads_moreMembers_succ_iff, reads_moreMembers_succ_iff, Text.dropBlanks_dropBlanks]

/-- A list of any depth is read as one less deep than the text is long. -/
theorem reads_nestedList_iff {allow : Allowance} {l : SelectorList} :
    Reads (nestedList allow) s l r ↔ Reads (list allow (s.length + 1)) s l r := by
  rw [Reads, Reads, nestedList]

end SelectorAlgebra.Parser

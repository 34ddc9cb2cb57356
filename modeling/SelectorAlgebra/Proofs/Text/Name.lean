import SelectorAlgebra.Proofs.Text.Blank
import SelectorAlgebra.Text.Name

/-!
# Where names end

Names keep their escapes, so a name may take a part of what is written behind it: a hexadecimal
escape that is not finished takes more digits and a blank. Main statements: what is read as a name
is one by itself, names are closed under suffixes, and the only mark that a name can take from
behind is one blank.
-/

namespace SelectorAlgebra.Text

/-- Whether a text holds only name characters and whole escapes. -/
def IsNameText (s : List Char) : Prop := dropName s = some []

/-- Whether a text is a name and nothing else. -/
def IsName (s : List Char) : Prop := startsName s = true ∧ IsNameText s

/-- Whether a name takes a blank behind it, as one that ends with an unfinished hexadecimal escape
does. -/
def TakesBlank (s : List Char) : Prop := IsNameText (s ++ [' '])

instance (s : List Char) : Decidable (IsNameText s) :=
  inferInstanceAs (Decidable (dropName s = some []))

instance (s : List Char) : Decidable (TakesBlank s) :=
  inferInstanceAs (Decidable (IsNameText (s ++ [' '])))

/-- Whether no name goes on with a text. -/
def EndsName (s : List Char) : Prop := ∀ c ∈ s.head?, isNameChar c = false ∧ c ≠ '\\'

/-! ### Characters -/

/-- The hexadecimal digits. -/
def hexDigits : List Char := "0123456789abcdefABCDEF".toList

/-- What is true of the hexadecimal digits one by one is true of all of them. -/
theorem of_isHexDigit {P : Char → Prop} [DecidablePred P] {c : Char} (h : isHexDigit c = true)
    (hP : hexDigits.all (fun c ↦ decide (P c)) = true) : P c := by
  have hall : ∀ n < 103, isHexDigit (Char.ofNat n) = true → Char.ofNat n ∈ hexDigits := by decide
  have hle : c ≤ 'f' := by
    simp only [isHexDigit, Char.isDigit, Bool.or_eq_true, Bool.and_eq_true, decide_eq_true_eq] at h
    rcases h with (⟨-, hdigit⟩ | ⟨-, hlower⟩) | ⟨-, hupper⟩
    · exact Char.le_trans hdigit (by decide : '9' ≤ 'f')
    · exact hlower
    · exact Char.le_trans hupper (by decide : 'F' ≤ 'f')
  have hmem := hall c.toNat (Nat.lt_succ_of_le hle)
  rw [Char.ofNat_toNat] at hmem
  exact of_decide_eq_true (List.all_eq_true.1 hP c (hmem h))

theorem isNameChar_of_isHexDigit {c : Char} (h : isHexDigit c = true) : isNameChar c = true :=
  of_isHexDigit (P := fun c ↦ isNameChar c = true) h (by decide)

theorem isNameChar_of_isNameStart {c : Char} (h : isNameStart c = true) : isNameChar c = true := by
  simp [isNameChar, h]

theorem isNameChar_of_isBlank {c : Char} (h : isBlank c = true) : isNameChar c = false := by
  simp only [isBlank, Bool.or_eq_true, beq_iff_eq] at h
  rcases h with (((rfl | rfl) | rfl) | rfl) | rfl <;> rfl

theorem isHexDigit_of_isNameChar {c : Char} (h : isNameChar c = false) : isHexDigit c = false := by
  rw [← Bool.not_eq_true] at h ⊢
  exact fun hc ↦ h (isNameChar_of_isHexDigit hc)

theorem endsName_cons {c : Char} {s : List Char} :
    EndsName (c :: s) ↔ isNameChar c = false ∧ c ≠ '\\' := by
  simp [EndsName]

theorem dropBlank_cons (c : Char) (s : List Char) :
    dropBlank (c :: s) = if isBlank c then s else c :: s := rfl

/-! ### Escapes -/

theorem hexRun_append {ds : List Char} (hds : ∀ c ∈ ds, isHexDigit c = true) {n : Nat}
    (hn : ds.length ≤ n) (s : List Char) : hexRun n (ds ++ s) = ds ++ hexRun (n - ds.length) s := by
  simp only [hexRun, List.take_append, List.take_of_length_le hn]
  exact List.takeWhile_append_of_pos hds

theorem hexRun_eq_nil {s : List Char} (h : ∀ c ∈ s.head?, isHexDigit c = false) (n : Nat) :
    hexRun n s = [] := by
  cases s with
  | nil => simp [hexRun]
  | cons c s =>
    cases n with
    | zero => rfl
    | succ n => simp [hexRun, h c rfl]

/-- The digits that are counted and what stands behind them. -/
theorem hexRun_spec (n : Nat) (s : List Char) :
    ∃ ds t, s = ds ++ t ∧ hexRun n s = ds ∧ (∀ c ∈ ds, isHexDigit c = true) ∧ ds.length ≤ n ∧
      (ds.length = n ∨ ∀ c ∈ t.head?, isHexDigit c = false) := by
  induction n generalizing s with
  | zero => exact ⟨[], s, rfl, rfl, by simp, Nat.le_refl _, .inl rfl⟩
  | succ n ih =>
    cases s with
    | nil => exact ⟨[], [], rfl, rfl, by simp, Nat.zero_le _, .inr (by simp)⟩
    | cons c s =>
      cases hc : isHexDigit c with
      | false =>
        exact ⟨[], c :: s, rfl, hexRun_eq_nil (by simp [hc]) _, by simp, Nat.zero_le _,
          .inr (by simp [hc])⟩
      | true =>
        obtain ⟨ds, t, hs, hr, hds, hn, ht⟩ := ih s
        refine ⟨c :: ds, t, by simp [hs], ?_, by simpa [hc] using hds, by simpa using hn,
          ht.imp_left (by simp)⟩
        simp only [hexRun, List.take_succ_cons, List.takeWhile_cons, hc, if_true]
        exact congrArg _ hr

/-- Digits that fill a run, or that something other than a digit follows, are the run. -/
theorem hexRun_eq {ds t : List Char} {n : Nat} (hds : ∀ c ∈ ds, isHexDigit c = true)
    (hn : ds.length ≤ n) (ht : ds.length = n ∨ ∀ c ∈ t.head?, isHexDigit c = false) :
    hexRun n (ds ++ t) = ds := by
  rw [hexRun_append hds hn]
  rcases ht with ht | ht
  · simp [ht, hexRun]
  · rw [hexRun_eq_nil ht, List.append_nil]

theorem dropEscape_char {c : Char} (hc : isHexDigit c = false) (s : List Char) :
    dropEscape (c :: s) = some s := by
  simp [dropEscape, hc]

theorem dropEscape_hex {c : Char} (hc : isHexDigit c = true) (s : List Char) :
    dropEscape (c :: s) = some (dropBlank (s.drop (hexRun 5 s).length)) := by
  simp [dropEscape, hc]

/-- An escape is a character that is no hexadecimal digit, or up to six digits and a blank where one
follows them. -/
theorem dropEscape_cases {s r : List Char} (h : dropEscape s = some r) :
    (∃ c, isHexDigit c = false ∧ s = c :: r) ∨
      ∃ c ds t, isHexDigit c = true ∧ s = c :: (ds ++ t) ∧ r = dropBlank t ∧
        (∀ d ∈ ds, isHexDigit d = true) ∧ ds.length ≤ 5 ∧
        (ds.length = 5 ∨ ∀ d ∈ t.head?, isHexDigit d = false) := by
  cases s with
  | nil => cases h
  | cons c s =>
    cases hc : isHexDigit c with
    | false =>
      rw [dropEscape_char hc] at h
      cases h
      exact .inl ⟨c, hc, rfl⟩
    | true =>
      obtain ⟨ds, t, rfl, hrun, hds, hn, ht⟩ := hexRun_spec 5 s
      rw [dropEscape_hex hc, hrun, List.drop_left] at h
      cases h
      exact .inr ⟨c, ds, t, hc, rfl, rfl, hds, hn, ht⟩

/-- A whole escape leaves what is written behind it, an unfinished one takes more digits and a
blank. -/
theorem dropEscape_append {s r : List Char} (h : dropEscape s = some r) :
    (∀ x, dropEscape (s ++ x) = some (r ++ x)) ∨
      (r = [] ∧ ∃ m, ∀ x,
        dropEscape (s ++ x) = some (dropBlank (x.drop (hexRun m x).length))) := by
  rcases dropEscape_cases h with ⟨c, hc, rfl⟩ | ⟨c, ds, t, hc, rfl, rfl, hds, hn, ht⟩
  · exact .inl fun x ↦ dropEscape_char hc (r ++ x)
  · cases t with
    | nil =>
      refine .inr ⟨rfl, 5 - ds.length, fun x ↦ ?_⟩
      rw [List.append_nil, List.cons_append, dropEscape_hex hc, hexRun_append hds hn,
        List.length_append, ← List.drop_drop, List.drop_left]
    | cons b t =>
      refine .inl fun x ↦ ?_
      have hrun : hexRun 5 (ds ++ (b :: t ++ x)) = ds := hexRun_eq hds hn (by simpa using ht)
      rw [List.cons_append, List.append_assoc, dropEscape_hex hc, hrun, List.drop_left,
        List.cons_append, dropBlank_cons, dropBlank_cons]
      split <;> rfl

/-- What an escape takes depends on no more than the next character behind it. -/
theorem dropEscape_congr {s e r x : List Char} (h : dropEscape s = some r) (hs : s = e ++ r)
    (hx : ∀ c ∈ x.head?, c ∈ r.head?) : dropEscape (e ++ x) = some x := by
  rcases dropEscape_cases h with ⟨c, hc, rfl⟩ | ⟨c, ds, t, hc, rfl, rfl, hds, hn, ht⟩
  · obtain rfl : e = [c] := (List.append_left_inj r).1 (by simpa using hs.symm)
    exact dropEscape_char hc x
  · have hrun {u : List Char} (hu : ∀ d ∈ u.head?, d ∈ t.head?) : hexRun 5 (ds ++ u) = ds :=
      hexRun_eq hds hn (ht.imp_right fun ht d hd ↦ ht d (hu d hd))
    by_cases hblank : ∃ b u, t = b :: u ∧ isBlank b = true
    · obtain ⟨b, u, rfl, hb⟩ := hblank
      rw [dropBlank_cons, if_pos hb] at hs
      obtain rfl : e = c :: ds ++ [b] := (List.append_left_inj u).1 (by simpa using hs.symm)
      have := hrun (u := b :: x) (by simp)
      simp [dropEscape_hex hc, this, dropBlank_cons, hb]
    · have hself {u : List Char} (hu : ∀ d ∈ u.head?, d ∈ t.head?) : dropBlank u = u := by
        cases u with
        | nil => rfl
        | cons b u =>
          obtain ⟨v, hv⟩ := List.head?_eq_some_iff.1 (hu b rfl)
          rw [dropBlank_cons, if_neg fun hb ↦ hblank ⟨b, v, hv, hb⟩]
      rw [hself (fun _ hd ↦ hd)] at hs hx
      obtain rfl : e = c :: ds := (List.append_left_inj t).1 (by simpa using hs.symm)
      rw [List.cons_append, dropEscape_hex hc, hrun hx, List.drop_left, hself hx]

/-! ### Names -/

theorem dropName_cons {c : Char} (h : isNameChar c = true) (s : List Char) :
    dropName (c :: s) = dropName s := by
  rw [dropName, if_pos h]

theorem dropName_escape {s r : List Char} (hs : s.head? ≠ some '\n') (h : dropEscape s = some r) :
    dropName ('\\' :: s) = dropName r := by
  rw [dropName, if_neg (by decide), if_pos (by simpa using hs)]
  split
  · next hn => simp [hn] at h
  · next r' hr =>
    rw [h] at hr
    cases hr
    rfl

theorem dropName_of_endsName {s : List Char} (h : EndsName s) : dropName s = some s := by
  cases s with
  | nil => rw [dropName]
  | cons c s =>
    rw [endsName_cons] at h
    rw [dropName, if_neg (by simp [h.1]), if_neg (by simp [h.2])]

/-- What is written behind name characters and whole escapes is all that is left, or an escape at
their end takes digits and a blank from it. -/
theorem dropName_append {s : List Char} (h : IsNameText s) :
    (∀ x, dropName (s ++ x) = dropName x) ∨
      ∃ m, ∀ x, dropName (s ++ x) = dropName (dropBlank (x.drop (hexRun m x).length)) := by
  unfold IsNameText at h
  fun_induction dropName s with
  | case1 => exact .inl fun x ↦ rfl
  | case2 c s hc ih =>
    simpa only [List.cons_append, dropName_cons hc] using ih h
  | case3 => cases h
  | case4 c s hc hs r hr _ ih =>
    obtain ⟨rfl, hne⟩ : c = '\\' ∧ s.head? ≠ some '\n' := by simpa using hs
    have hhead (x : List Char) : (s ++ x).head? ≠ some '\n' := by
      cases s with
      | nil => cases hr
      | cons d s => exact hne
    rcases dropEscape_append hr with hclosed | ⟨rfl, m, hopen⟩
    · simpa only [List.cons_append, dropName_escape (hhead _) (hclosed _)] using ih h
    · exact .inr ⟨m, fun x ↦ dropName_escape (hhead x) (hopen x)⟩
  | case5 => cases h

/-- What stands in front of the end of a name is name characters and whole escapes. -/
theorem isNameText_of_dropName {s r : List Char} (h : dropName s = some r) :
    ∃ n, s = n ++ r ∧ IsNameText n := by
  fun_induction dropName s with
  | case1 =>
    cases h
    exact ⟨[], rfl, by unfold IsNameText; rw [dropName]⟩
  | case2 c s hc ih =>
    obtain ⟨n, rfl, hn⟩ := ih h
    exact ⟨c :: n, rfl, (dropName_cons hc n).trans hn⟩
  | case3 => cases h
  | case4 c s hc hs t ht _ ih =>
    obtain ⟨rfl, hs⟩ : c = '\\' ∧ s.head? ≠ some '\n' := by simpa using hs
    obtain ⟨n, hn, hnt⟩ := ih h
    obtain ⟨e, he⟩ := dropEscape_suffix ht
    have hen := dropEscape_congr (x := n) ht he.symm (by cases n <;> simp [hn])
    refine ⟨'\\' :: e ++ n, by rw [← he, hn]; simp, (dropName_escape ?_ hen).trans hnt⟩
    cases e with
    | nil =>
      have := dropEscape_length ht
      simp [← he] at this
    | cons d e => simpa [← he] using hs
  | case5 c s _ _ =>
    cases h
    exact ⟨[], rfl, by unfold IsNameText; rw [dropName]⟩

theorem dropName_append_nameChars {s : List Char} (h : ∀ c ∈ s, isNameChar c = true)
    (t : List Char) : dropName (s ++ t) = dropName t := by
  induction s with
  | nil => rfl
  | cons c s ih =>
    rw [List.forall_mem_cons] at h
    rw [List.cons_append, dropName_cons h.1, ih h.2]

theorem isNameText_nil : IsNameText [] := by
  unfold IsNameText
  rw [dropName]

theorem dropBlank_eq_self {s : List Char} (h : ∀ c ∈ s.head?, isBlank c = false) :
    dropBlank s = s := by
  cases s with
  | nil => rfl
  | cons c s => rw [dropBlank_cons, if_neg (by simp [h c rfl])]

theorem EndsName.not_isHexDigit {s : List Char} (h : EndsName s) :
    ∀ c ∈ s.head?, isHexDigit c = false :=
  fun c hc ↦ isHexDigit_of_isNameChar (h c hc).1

theorem isNameText_append {s t : List Char} (hs : IsNameText s) (ht : IsNameText t) :
    IsNameText (s ++ t) := by
  rcases dropName_append hs with hclosed | ⟨m, hopen⟩
  · exact (hclosed t).trans ht
  · obtain ⟨ds, u, rfl, hrun, hds, -, -⟩ := hexRun_spec m t
    have hu : IsNameText u := by
      unfold IsNameText at ht
      rwa [dropName_append_nameChars (fun c hc ↦ isNameChar_of_isHexDigit (hds c hc))] at ht
    -- a blank behind the digits would have ended the second text
    have hblank : ∀ c ∈ u.head?, isBlank c = false := by
      intro c hc
      cases u with
      | nil => cases hc
      | cons d u =>
        cases hc
        rw [← Bool.not_eq_true]
        intro hb
        have hend : EndsName (c :: u) := by
          refine endsName_cons.2 ⟨isNameChar_of_isBlank hb, ?_⟩
          rintro rfl
          cases hb
        cases hu.symm.trans (dropName_of_endsName hend)
    rw [IsNameText, hopen, hrun, List.drop_left, dropBlank_eq_self hblank]
    exact hu

/-- A name is read up to its end, unless it takes a blank behind it. -/
theorem dropName_append_of_endsName {s t : List Char} (hs : IsNameText s) (ht : EndsName t)
    (h : TakesBlank s → ∀ c ∈ t.head?, isBlank c = false) : dropName (s ++ t) = some t := by
  rcases dropName_append hs with hclosed | ⟨m, hopen⟩
  · rw [hclosed, dropName_of_endsName ht]
  · have htakes : TakesBlank s := by
      rw [TakesBlank, IsNameText, hopen, hexRun_eq_nil (by simp [isHexDigit])]
      exact isNameText_nil
    rw [hopen, hexRun_eq_nil ht.not_isHexDigit]
    simp only [List.length_nil, List.drop_zero]
    rw [dropBlank_eq_self (h htakes), dropName_of_endsName ht]

/-- A name that is left whole by a blank behind it does not take one. -/
theorem not_takesBlank_of_dropName {s t : List Char} (hs : IsNameText s)
    (h : dropName (s ++ ' ' :: t) = some (' ' :: t)) : ¬ TakesBlank s := by
  intro htakes
  unfold TakesBlank IsNameText at htakes
  rcases dropName_append hs with hclosed | ⟨m, hopen⟩
  · have hspace : EndsName [' '] := endsName_cons.2 (by decide)
    rw [hclosed, dropName_of_endsName hspace] at htakes
    cases htakes
  · have hspace : hexRun m (' ' :: t) = [] := hexRun_eq_nil (by simp [isHexDigit]) m
    rw [hopen, hspace] at h
    have := (dropName_suffix h).length_le
    simp only [List.length_nil, List.drop_zero, dropBlank_cons, isBlank, List.length_cons] at this
    exact absurd this (by simp)

/-! ### Where names start -/

theorem startsEscape_iff {s : List Char} :
    startsEscape s = true ↔ ∃ c t, s = '\\' :: c :: t ∧ c ≠ '\n' := by
  unfold startsEscape
  split
  · next c t => simp
  · next h => simpa using fun c t hs ↦ (h c t hs).elim

/-- A name starts with a name start or an escape, maybe behind a hyphen, or with two hyphens. -/
theorem startsName_iff {s : List Char} : startsName s = true ↔
    (startsEscape s = true ∨ ∃ c t, s = c :: t ∧ isNameStart c = true) ∨
      ∃ t, s = '-' :: t ∧
        (startsEscape t = true ∨ ∃ c u, t = c :: u ∧ (isNameStart c = true ∨ c = '-')) := by
  have hhead (s : List Char) (p : Char → Bool) :
      s.head?.any p = true ↔ ∃ c t, s = c :: t ∧ p c = true := by
    cases s <;> simp
  unfold startsName
  split
  · next t =>
    have : isNameStart '-' = false := rfl
    simp [hhead, startsEscape, this]
  · next h =>
    simp only [Bool.or_eq_true, hhead]
    constructor
    · exact .inl
    · rintro (h' | ⟨t, rfl, -⟩)
      · exact h'
      · exact (h t rfl).elim

/-- A name starts with a name start, a backslash or a hyphen. -/
theorem head_of_startsName {c : Char} {s : List Char} (h : startsName (c :: s) = true) :
    isNameStart c = true ∨ c = '\\' ∨ c = '-' := by
  rcases startsName_iff.1 h with (h | ⟨d, u, heq, h⟩) | ⟨u, heq, -⟩
  · obtain ⟨d, u, heq, -⟩ := startsEscape_iff.1 h
    exact .inr (.inl (List.cons.inj heq).1)
  · obtain ⟨rfl, -⟩ := List.cons.inj heq
    exact .inl h
  · exact .inr (.inr (List.cons.inj heq).1)

theorem startsEscape_append {s : List Char} (h : startsEscape s = true) (t : List Char) :
    startsEscape (s ++ t) = true := by
  obtain ⟨c, u, rfl, hc⟩ := startsEscape_iff.1 h
  exact startsEscape_iff.2 ⟨c, u ++ t, rfl, hc⟩

theorem startsName_append {s : List Char} (h : startsName s = true) (t : List Char) :
    startsName (s ++ t) = true := by
  rw [startsName_iff] at h ⊢
  rcases h with (h | ⟨c, u, rfl, hc⟩) | ⟨u, rfl, h | ⟨c, v, rfl, hc⟩⟩
  · exact .inl (.inl (startsEscape_append h t))
  · exact .inl (.inr ⟨c, u ++ t, rfl, hc⟩)
  · exact .inr ⟨u ++ t, rfl, .inl (startsEscape_append h t)⟩
  · exact .inr ⟨c :: v ++ t, rfl, .inr ⟨c, v ++ t, rfl, hc⟩⟩

theorem IsName.append {s t : List Char} (hs : IsName s) (ht : IsNameText t) : IsName (s ++ t) :=
  ⟨startsName_append hs.1 t, isNameText_append hs.2 ht⟩

/-- A name is not empty and starts with a name character or a backslash. -/
theorem IsName.exists_cons {s : List Char} (h : IsName s) :
    ∃ c t, s = c :: t ∧ (isNameChar c = true ∨ c = '\\') := by
  rcases startsName_iff.1 h.1 with (h | ⟨c, t, rfl, hc⟩) | ⟨t, rfl, -⟩
  · obtain ⟨c, t, rfl, -⟩ := startsEscape_iff.1 h
    exact ⟨_, _, rfl, .inr rfl⟩
  · exact ⟨c, t, rfl, .inl (isNameChar_of_isNameStart hc)⟩
  · exact ⟨_, _, rfl, .inl rfl⟩

theorem IsName.head_append_ne {n : List Char} (h : IsName n) (s : List Char) {c : Char}
    (hc : isNameChar c = false) (hb : c ≠ '\\') : (n ++ s).head? ≠ some c := by
  obtain ⟨d, n, rfl, hd⟩ := h.exists_cons
  intro heq
  obtain rfl := Option.some.inj heq
  rcases hd with hd | hd
  · rw [hc] at hd
    cases hd
  · exact hb hd

theorem IsName.startsTight_append {n : List Char} (h : IsName n) (s : List Char) :
    StartsTight (n ++ s) := by
  obtain ⟨c, n, rfl, hc⟩ := h.exists_cons
  refine startsTight_cons (Bool.eq_false_iff.2 fun hblank ↦ ?_) (fun hs ↦ ?_) (n ++ s)
  · rcases hc with hc | rfl
    · rw [isNameChar_of_isBlank hblank] at hc
      cases hc
    · cases hblank
  · subst hs
    rcases hc with hc | hc <;> cases hc

theorem dropName_lt {s r : List Char}
    (hs : startsEscape s = true ∨ ∃ c t, s = c :: t ∧ isNameChar c = true)
    (h : dropName s = some r) : r.length < s.length := by
  rcases hs with hs | ⟨c, t, rfl, hc⟩
  · obtain ⟨c, t, rfl, hc⟩ := startsEscape_iff.1 hs
    obtain ⟨u, hu⟩ : ∃ u, dropEscape (c :: t) = some u := ⟨_, rfl⟩
    rw [dropName_escape (by simpa using hc) hu] at h
    have := dropEscape_length hu
    have := (dropName_suffix h).length_le
    simp only [List.length_cons] at *
    omega
  · rw [dropName_cons hc] at h
    have := (dropName_suffix h).length_le
    simp only [List.length_cons]
    omega

private theorem ne_nil_of_dropName {n r : List Char}
    (hs : startsEscape (n ++ r) = true ∨ ∃ c t, n ++ r = c :: t ∧ isNameChar c = true)
    (h : dropName (n ++ r) = some r) : n ≠ [] := by
  rintro rfl
  exact absurd (dropName_lt hs h) (Nat.lt_irrefl _)

private theorem startsEscape_of_dropName {n r : List Char} (hs : startsEscape (n ++ r) = true)
    (hn : IsNameText n) (h : dropName (n ++ r) = some r) : startsEscape n = true := by
  obtain ⟨c, n, rfl⟩ := List.exists_cons_of_ne_nil (ne_nil_of_dropName (.inl hs) h)
  obtain ⟨d, t, ht, hd⟩ := startsEscape_iff.1 hs
  obtain ⟨rfl, hnt⟩ := List.cons.inj ht
  cases n with
  | nil =>
    unfold IsNameText at hn
    rw [dropName, if_neg (by decide), if_pos (by decide)] at hn
    cases hn
  | cons c n =>
    obtain ⟨rfl, -⟩ := List.cons.inj hnt
    exact startsEscape_iff.2 ⟨c, n, rfl, hd⟩

/-- What is read as a name is one by itself. -/
theorem isName_of_dropName {s r : List Char} (hs : startsName s = true)
    (h : dropName s = some r) : ∃ n, s = n ++ r ∧ IsName n := by
  obtain ⟨n, rfl, hn⟩ := isNameText_of_dropName h
  refine ⟨n, rfl, startsName_iff.2 ?_, hn⟩
  rcases startsName_iff.1 hs with (hs | ⟨c, t, ht, hc⟩) | ⟨t, ht, hs⟩
  · exact .inl (.inl (startsEscape_of_dropName hs hn h))
  · have hne := ne_nil_of_dropName (.inr ⟨c, t, ht, isNameChar_of_isNameStart hc⟩) h
    obtain ⟨d, n, rfl⟩ := List.exists_cons_of_ne_nil hne
    obtain ⟨rfl, -⟩ := List.cons.inj ht
    exact .inl (.inr ⟨d, n, rfl, hc⟩)
  · have hne := ne_nil_of_dropName (.inr ⟨_, t, ht, rfl⟩) h
    obtain ⟨d, n, rfl⟩ := List.exists_cons_of_ne_nil hne
    obtain ⟨rfl, rfl⟩ := List.cons.inj ht
    have hhyphen : isNameChar '-' = true := rfl
    rw [List.cons_append, dropName_cons hhyphen] at h
    rw [IsNameText, dropName_cons hhyphen] at hn
    refine .inr ⟨n, rfl, ?_⟩
    rcases hs with hs | ⟨c, t, ht, hc⟩
    · exact .inl (startsEscape_of_dropName hs hn h)
    · have hchar : isNameChar c = true := by
        rcases hc with hc | rfl
        · exact isNameChar_of_isNameStart hc
        · rfl
      obtain ⟨d, n, rfl⟩ :=
        List.exists_cons_of_ne_nil (ne_nil_of_dropName (.inr ⟨c, t, ht, hchar⟩) h)
      obtain ⟨rfl, -⟩ := List.cons.inj ht
      exact .inr ⟨d, n, rfl, hc⟩

/-- Without a backslash a name is its characters, and takes no blank. -/
theorem isNameText_iff_of_not_mem {s : List Char} (h : '\\' ∉ s) :
    IsNameText s ↔ ∀ c ∈ s, isNameChar c = true := by
  constructor
  · intro hs
    unfold IsNameText at hs
    fun_induction dropName s with
    | case1 => simp
    | case2 c s hc ih => simpa [hc] using ih (fun hm ↦ h (.tail _ hm)) hs
    | case3 => cases hs
    | case4 c s _ hs' _ _ _ _ => simp_all
    | case5 => cases hs
  · intro hs
    have := dropName_append_nameChars hs []
    rw [List.append_nil] at this
    exact this.trans isNameText_nil

theorem not_takesBlank_of_not_mem {s : List Char} (h : '\\' ∉ s) : ¬ TakesBlank s := by
  intro htakes
  have := (isNameText_iff_of_not_mem (by simp [h])).1 htakes ' ' (by simp)
  cases this

end SelectorAlgebra.Text

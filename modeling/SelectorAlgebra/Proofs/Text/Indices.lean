import SelectorAlgebra.Proofs.Text.Argument

/-!
# Where indices end

The indices of a pseudo-class that counts siblings run to a closing parenthesis, or to the word `of`
behind a blank. Main statements: indices are taken whole by what is written behind them exactly if
neither blanks alone nor the word `of` follows a blank in them; and of indices without comments that
were read from a text, those fail that end with a blank and the word.
-/

namespace SelectorAlgebra.Text

/-- Whether indices are taken whole by what is written behind them: no blank in them is followed by
nothing but blanks or by the word `of`. -/
def isIndices (s : List Char) : Bool :=
  match s with
  | [] => true
  | c :: s =>
    if c = ')' then false
    else if isBlank c then
      have := (dropBlanks_suffix s).length_le
      !(dropBlanks s).isEmpty && !startsOf (dropBlanks s) && isIndices (dropBlanks s)
    else isIndices s
termination_by s.length
decreasing_by all_goals simp only [List.length_cons]; omega

/-- What may be written behind indices: a closing parenthesis, or the word `of` between spaces. -/
def EndsIndices (s : List Char) : Prop :=
  (∃ t, s = ')' :: t) ∨ ∃ t, s = ' ' :: 'o' :: 'f' :: ' ' :: t

theorem dropIndices_close (stop s : List Char) :
    dropIndices stop (')' :: s) = ⟨stop, ')' :: s, false⟩ := by
  rw [dropIndices, if_pos rfl]

theorem dropIndices_cons {c : Char} (hclose : c ≠ ')') (hc : isBlank c = false)
    (stop s : List Char) : dropIndices stop (c :: s) = dropIndices s s := by
  rw [dropIndices, if_neg hclose, if_neg (by simp [hc])]

theorem dropIndices_blank {c : Char} (hc : isBlank c = true) (stop s : List Char) :
    dropIndices stop (c :: s) =
      if startsOf (dropBlanks s) then ⟨stop, (dropBlanks s).drop 2, true⟩
      else dropIndices stop (dropBlanks s) := by
  have hclose : c ≠ ')' := by
    rintro rfl
    cases hc
  rw [dropIndices, if_neg hclose, if_pos hc]

/-- Indices do not end behind where their last character was found, unless they end further on. -/
theorem stop_dropIndices (stop s : List Char) :
    (dropIndices stop s).stop = stop ∨
      (dropIndices stop s).stop <:+ s ∧ (dropIndices stop s).stop.length < s.length := by
  fun_induction dropIndices stop s with
  | case1 | case2 | case3 => exact .inl rfl
  | case4 stop c s _ _ hle _ ih =>
    refine ih.imp_right fun ih ↦ ⟨ih.1.trans ((dropBlanks_suffix s).trans (List.suffix_cons c s)), ?_⟩
    have := ih.2
    simp only [List.length_cons]
    omega
  | case5 stop c s _ _ ih =>
    right
    rcases ih with ih | ih
    · rw [ih]
      exact ⟨List.suffix_cons c s, Nat.lt_succ_self _⟩
    · exact ⟨ih.1.trans (List.suffix_cons c s), Nat.lt_succ_of_lt ih.2⟩

theorem rest_dropIndices_suffix (stop s : List Char) : (dropIndices stop s).rest <:+ s := by
  fun_induction dropIndices stop s with
  | case1 => exact List.suffix_refl _
  | case2 => exact List.suffix_refl _
  | case3 _ c s =>
    exact (List.drop_suffix _ _).trans ((dropBlanks_suffix s).trans (List.suffix_cons c s))
  | case4 _ c s _ _ _ _ ih => exact ih.trans ((dropBlanks_suffix s).trans (List.suffix_cons c s))
  | case5 _ c s _ _ ih => exact ih.trans (List.suffix_cons c s)

theorem stop_dropIndices_suffix (s : List Char) : (dropIndices s s).stop <:+ s := by
  rcases stop_dropIndices s s with h | ⟨h, -⟩
  · exact ⟨[], h⟩
  · exact h

/-- Indices do not end behind a blank, unless they end where they start. -/
theorem exists_of_stop_dropIndices {stop s e : List Char} (h : (dropIndices stop s).stop = e)
    (hne : e ≠ stop) : ∃ u c, s = u ++ c :: e ∧ isBlank c = false := by
  fun_induction dropIndices stop s with
  | case1 | case2 | case3 => exact absurd h.symm hne
  | case4 stop c s _ _ _ _ ih =>
    obtain ⟨u, d, hu, hd⟩ := ih h hne
    obtain ⟨v, hv⟩ := dropBlanks_suffix s
    refine ⟨c :: (v ++ u), d, ?_, hd⟩
    rw [← hv, List.cons_append, List.append_assoc, ← hu]
  | case5 stop c s _ hc ih =>
    by_cases hs : e = s
    · exact ⟨[], c, by rw [hs, List.nil_append], Bool.eq_false_iff.2 hc⟩
    · obtain ⟨u, d, hu, hd⟩ := ih h hs
      exact ⟨c :: u, d, by simp [hu], hd⟩

theorem EndsIndices.dropIndices {s : List Char} (h : EndsIndices s) :
    (dropIndices s s).stop = s := by
  rcases h with ⟨t, rfl⟩ | ⟨t, rfl⟩
  · rw [dropIndices_close]
  · have hblanks : dropBlanks ('o' :: 'f' :: ' ' :: t) = 'o' :: 'f' :: ' ' :: t :=
      dropBlanks_cons rfl rfl
    have hstarts : startsOf ('o' :: 'f' :: ' ' :: t) = true := rfl
    rw [dropIndices_blank rfl, hblanks, if_pos hstarts]

theorem EndsIndices.head {s : List Char} (h : EndsIndices s) :
    ∃ c t, s = c :: t ∧ (c = ')' ∨ c = ' ') := by
  rcases h with ⟨t, rfl⟩ | ⟨t, rfl⟩
  · exact ⟨_, _, rfl, .inl rfl⟩
  · exact ⟨_, _, rfl, .inr rfl⟩

/-- What is written behind indices neither makes nor unmakes the word `of` at their end. -/
theorem startsOf_append {s t : List Char} (hs : s ≠ []) (ht : EndsIndices t) :
    startsOf (s ++ t) = startsOf s := by
  obtain ⟨c, t, rfl, hc⟩ := ht.head
  match s with
  | [a] => rcases hc with rfl | rfl <;> simp [startsOf]
  | [a, b] => rcases hc with rfl | rfl <;> simp [startsOf, isNameChar, isNameStart]
  | a :: b :: d :: s => simp [startsOf]

theorem dropBlanks_append_of_endsIndices {s t : List Char} (hs : dropBlanks s ≠ [])
    (ht : EndsIndices t) : dropBlanks (s ++ t) = dropBlanks s ++ t := by
  apply dropBlanks_append hs
  obtain ⟨c, t, rfl, hc⟩ := ht.head
  rcases hc with rfl | rfl <;> simp

/-- Indices are passed over up to what is written behind them. -/
theorem dropIndices_append {s t : List Char} (hs : isIndices s = true) (hne : s ≠ [])
    (ht : EndsIndices t) (stop : List Char) : dropIndices stop (s ++ t) = dropIndices t t := by
  fun_induction isIndices s generalizing stop with
  | case1 => exact absurd rfl hne
  | case2 => cases hs
  | case3 c s hclose hc _ ih =>
    simp only [Bool.and_eq_true, Bool.not_eq_true', List.isEmpty_eq_false_iff] at hs
    obtain ⟨⟨hnil, hof⟩, hs⟩ := hs
    rw [List.cons_append, dropIndices_blank hc, dropBlanks_append_of_endsIndices hnil ht,
      startsOf_append hnil ht, hof, if_neg (by simp)]
    exact ih hs hnil stop
  | case4 c s hclose hc ih =>
    rw [List.cons_append, dropIndices_cons hclose (by simpa using hc)]
    cases s with
    | nil => rfl
    | cons d s => exact ih hs (by simp) _

/-- What indices are taken whole by is where they stop. -/
theorem isIndices_of_stop {s t : List Char} (ht : EndsIndices t) {stop : List Char}
    (hlt : s ≠ [] → t.length < stop.length) (h : (dropIndices stop (s ++ t)).stop = t) :
    isIndices s = true := by
  fun_induction isIndices s generalizing stop with
  | case1 => rfl
  | case2 s =>
    rw [List.cons_append, dropIndices_close] at h
    exact absurd (hlt (by simp)) (by simp [show stop = t from h])
  | case3 c s hclose hc _ ih =>
    have hlt := hlt (by simp)
    have hstop : stop ≠ t := by
      rintro rfl
      exact Nat.lt_irrefl _ hlt
    rw [List.cons_append, dropIndices_blank hc] at h
    split at h
    · exact absurd h hstop
    · next hof =>
      by_cases hnil : dropBlanks s = []
      · have hsuffix := dropBlanks_append_suffix hnil t
        rcases stop_dropIndices stop (dropBlanks (s ++ t)) with h' | ⟨-, h'⟩
        · exact absurd (h'.symm.trans h) hstop
        · rw [h] at h'
          exact absurd hsuffix.length_le (by omega)
      · rw [dropBlanks_append_of_endsIndices hnil ht] at h hof
        rw [startsOf_append hnil ht] at hof
        have := ih (fun _ ↦ hlt) h
        simp [hnil, hof, this]
  | case4 c s hclose hc ih =>
    rw [List.cons_append, dropIndices_cons hclose (by simpa using hc)] at h
    refine ih (fun hne ↦ ?_) h
    have := List.length_pos_iff.2 hne
    simp
    omega

/-! ### Indices without comments -/

/-- Whether a text ends with a blank and the word `of`, in any case. -/
def EndsWithOf (s : List Char) : Prop :=
  ∃ u b x y, s = u ++ [b, x, y] ∧ isBlank b = true ∧ x.toLower = 'o' ∧ y.toLower = 'f'

/-- Whether no comment starts anywhere in a text. -/
def IsCommentFree (s : List Char) : Prop := ¬ ['/', '*'] <:+: s

theorem IsCommentFree.part {s t : List Char} (h : IsCommentFree s) (ht : t <:+: s) :
    IsCommentFree t := fun hc ↦ h (hc.trans ht)

theorem IsCommentFree.startsComment {s : List Char} (h : IsCommentFree s) :
    startsComment s = false := by
  rw [← Bool.not_eq_true, startsComment_iff]
  rintro ⟨t, rfl⟩
  exact h ⟨[], t, rfl⟩

theorem dropBlanks_of_isCommentFree {s : List Char} (h : IsCommentFree s) :
    dropBlanks s = s.dropWhile isBlank := by
  induction s with
  | nil => rw [dropBlanks, List.dropWhile_nil]
  | cons c s ih =>
    cases hc : isBlank c with
    | true =>
      rw [dropBlanks_cons_of_isBlank hc, List.dropWhile_cons_of_pos hc]
      exact ih (h.part (List.suffix_cons c s).isInfix)
    | false => rw [dropBlanks_cons hc h.startsComment, List.dropWhile_cons_of_neg (by simp [hc])]

theorem isSpace_of_isBlank {c : Char} (h : isBlank c = true) : isSpace c = true := by
  simp only [isBlank, Bool.or_eq_true, beq_iff_eq] at h
  rcases h with (((rfl | rfl) | rfl) | rfl) | rfl <;> rfl

theorem isBlank_of_toLower {c d : Char} (h : c.toLower = d) (hd : isBlank d.toLower = false)
    (hdd : d.toLower = d) : isBlank c = false := by
  rw [← Bool.not_eq_true]
  intro hc
  have hlower : c.toLower = c := by
    simp only [isBlank, Bool.or_eq_true, beq_iff_eq] at hc
    rcases hc with (((rfl | rfl) | rfl) | rfl) | rfl <;> rfl
  rw [← hlower, h, ← hdd, hd] at hc
  cases hc

/-- Indices that end with the word are not taken whole. -/
theorem not_isIndices_of_endsWithOf {s : List Char} (hs : IsCommentFree s) (h : EndsWithOf s) :
    isIndices s = false := by
  obtain ⟨u, b, x, y, hu, hb, hx, hy⟩ := h
  have hword : [b, x, y].dropWhile isBlank = [x, y] := by
    rw [List.dropWhile_cons_of_pos hb, List.dropWhile_cons_of_neg]
    rw [isBlank_of_toLower hx rfl rfl]
    simp
  have hof : startsOf [x, y] = true := by simp [startsOf, hx, hy]
  fun_induction isIndices s generalizing u with
  | case1 => simp at hu
  | case2 => rfl
  | case3 c s _ _ _ ih =>
    have hfree := hs.part (List.suffix_cons c s).isInfix
    rw [dropBlanks_of_isCommentFree hfree] at ih ⊢
    cases u with
    | nil =>
      obtain ⟨rfl, rfl⟩ := List.cons.inj hu
      rw [List.dropWhile_cons_of_pos hb] at hword
      simp [hword, hof]
    | cons d u =>
      obtain ⟨rfl, rfl⟩ := List.cons.inj hu
      simp only [List.append_eq, List.dropWhile_append] at ih ⊢
      split
      · simp [hword, hof]
      · next hne =>
        rw [if_neg hne] at ih
        have hpart : List.dropWhile isBlank u ++ [b, x, y] <:+: u ++ [b, x, y] := by
          obtain ⟨v, hv⟩ := List.dropWhile_suffix (l := u) isBlank
          exact ⟨v, [], by rw [List.append_nil, ← List.append_assoc, hv]⟩
        rw [ih (hfree.part hpart) _ rfl, Bool.and_false]
  | case4 c s _ _ ih =>
    cases u with
    | nil =>
      obtain ⟨rfl, -⟩ := List.cons.inj hu
      simp_all
    | cons d u =>
      obtain ⟨rfl, rfl⟩ := List.cons.inj hu
      exact ih (hs.part (List.suffix_cons c _).isInfix) u rfl

theorem EndsWithOf.append {s : List Char} (h : EndsWithOf s) (u : List Char) :
    EndsWithOf (u ++ s) := by
  obtain ⟨v, b, x, y, rfl, hb, hx, hy⟩ := h
  exact ⟨u ++ v, b, x, y, by simp, hb, hx, hy⟩

/-- A word that is one no more with a text behind it stands at the end. -/
theorem startsOf_eq_pair {s t : List Char} (hs : startsOf s = true)
    (hst : startsOf (s ++ t) = false) :
    ∃ x y, s = [x, y] ∧ x.toLower = 'o' ∧ y.toLower = 'f' := by
  match s with
  | [] | [_] => cases hs
  | [x, y] =>
    simp only [startsOf, Bool.and_eq_true, beq_iff_eq] at hs
    exact ⟨x, y, rfl, hs.1⟩
  | x :: y :: z :: s =>
    have : startsOf (x :: y :: z :: s ++ t) = startsOf (x :: y :: z :: s) := rfl
    rw [this, hs] at hst
    cases hst

/-- Where indices stop, no character that belongs to them follows. -/
theorem head_stop_dropIndices {stop s e : List Char} (h : (dropIndices stop s).stop = e)
    (hne : stop ≠ e) : ∀ c ∈ e.head?, c ≠ '*' := by
  fun_induction dropIndices stop s with
  | case1 | case2 | case3 => exact absurd h hne
  | case4 stop c s _ _ _ _ ih => exact ih h hne
  | case5 stop c s hclose hc ih =>
    by_cases hs : s = e
    · subst hs
      intro d hd
      obtain ⟨t, rfl⟩ := List.head?_eq_some_iff.1 hd
      rintro rfl
      rw [dropIndices_cons (by decide) rfl] at h
      rcases stop_dropIndices t t with h' | ⟨-, h'⟩
      · exact absurd (h'.symm.trans h) (by simp)
      · rw [h, List.length_cons] at h'
        omega
    · exact ih h hs

/-- White space in front of indices is passed over. -/
private theorem dropIndices_spaces {y w e : List Char} (hy : ∀ c ∈ y, isSpace c = true)
    (hw : StartsTight w) (he : e.length < w.length) {stop : List Char}
    (hstop : (y ++ w).length ≤ stop.length) (h : (dropIndices stop (y ++ w)).stop = e) :
    ∃ stop', w.length ≤ stop'.length ∧ (dropIndices stop' w).stop = e := by
  induction y generalizing stop with
  | nil => exact ⟨stop, hstop, h⟩
  | cons c y ih =>
    rw [List.forall_mem_cons] at hy
    simp only [List.cons_append, List.length_cons, List.length_append] at hstop h ih
    cases hc : isBlank c with
    | false =>
      rw [dropIndices_cons (not_special_of_isSpace hy.1).1 hc] at h
      exact ih hy.2 (by simp) h
    | true =>
      rw [dropIndices_blank hc] at h
      split at h
      · have := congrArg List.length h
        simp only at this
        omega
      · next hof =>
        apply ih hy.2 (show _ ≤ stop.length by omega)
        rw [← h]
        -- one blank or several, they are dropped together
        cases y with
        | nil => rw [List.nil_append, dropBlanks_of_startsTight hw]
        | cons d y =>
          rw [List.cons_append] at hof ⊢
          cases hd : isBlank d with
          | false =>
            have hslash := (not_special_of_isSpace (hy.2 d (.head _))).2.1
            rw [dropBlanks_cons hd]
            rw [← Bool.not_eq_true, startsComment_iff]
            rintro ⟨t, ht⟩
            exact hslash (List.cons.inj ht).1
          | true =>
            rw [dropBlanks_cons_of_isBlank hd] at hof ⊢
            rw [dropIndices_blank hd, if_neg hof]

private theorem takeWhile_append_dropBlanks {s : List Char} (hs : IsCommentFree s) :
    s.takeWhile isBlank ++ dropBlanks s = s := by
  rw [dropBlanks_of_isCommentFree hs, List.takeWhile_append_dropWhile]

/-- White space is not all that follows a blank, if there is none at the end. -/
private theorem dropBlanks_ne_nil {c : Char} {s : List Char} (hs : IsCommentFree s)
    (hc : isBlank c = true) (hlast : ∀ d ∈ (c :: s).getLast?, isSpace d = false) :
    dropBlanks s ≠ [] := by
  rw [dropBlanks_of_isCommentFree hs, Ne, List.dropWhile_eq_nil_iff]
  intro hall
  have hblank : ∀ d ∈ c :: s, isBlank d = true := List.forall_mem_cons.2 ⟨hc, hall⟩
  have hspace := isSpace_of_isBlank (hblank _ (List.getLast_mem (by simp)))
  rw [hlast _ (List.getLast_mem_getLast? (by simp))] at hspace
  cases hspace

private theorem endsWithOf_of_dropBlanks {c x y : Char} {s : List Char} (hs : IsCommentFree s)
    (hc : isBlank c = true) (h : dropBlanks s = [x, y]) (hx : x.toLower = 'o')
    (hy : y.toLower = 'f') : EndsWithOf (c :: s) := by
  obtain ⟨v, b, hvb⟩ := (List.eq_nil_or_concat' (c :: s.takeWhile isBlank)).resolve_left (by simp)
  have hb : b ∈ c :: s.takeWhile isBlank := by simp [hvb]
  refine ⟨v, b, x, y, ?_, ?_, hx, hy⟩
  · calc c :: s = (c :: s.takeWhile isBlank) ++ [x, y] := by
          rw [← h, List.cons_append, takeWhile_append_dropBlanks hs]
      _ = v ++ [b, x, y] := by rw [hvb, List.append_assoc]; rfl
  · rcases List.mem_cons.1 hb with rfl | hb
    · exact hc
    · exact List.mem_takeWhile_imp hb

/-- Indices that stop in a text are taken whole by what is written behind them, or they end with a
word that is one only by itself. -/
private theorem isIndices_or_endsWithOf_append {a t e : List Char} (ha : IsCommentFree a)
    (hlast : ∀ c ∈ a.getLast?, isSpace c = false) (ht : ∀ c ∈ t.head?, c ≠ '*')
    (he : e.length ≤ t.length) {stop : List Char} (hstop : (a ++ t).length ≤ stop.length)
    (h : (dropIndices stop (a ++ t)).stop = e) : isIndices a = true ∨ EndsWithOf a := by
  fun_induction isIndices a generalizing stop with
  | case1 => exact .inl rfl
  | case2 a =>
    rw [List.cons_append, dropIndices_close] at h
    have := congrArg List.length h
    simp only [List.cons_append, List.length_cons, List.length_append] at *
    omega
  | case3 c a hclose hc _ ih =>
    have hfree := ha.part (List.suffix_cons c a).isInfix
    have hnil := dropBlanks_ne_nil hfree hc hlast
    have hlen := (dropBlanks_suffix a).length_le
    simp only [List.cons_append, List.length_cons, List.length_append] at hstop
    rw [List.cons_append, dropIndices_blank hc, dropBlanks_append hnil ht] at h
    split at h
    · have := congrArg List.length h
      simp only at this
      omega
    · next hof =>
      cases hof' : startsOf (dropBlanks a) with
      | true =>
        obtain ⟨x, y, hxy, hx, hy⟩ := startsOf_eq_pair hof' (by simpa using hof)
        exact .inr (endsWithOf_of_dropBlanks hfree hc hxy hx hy)
      | false =>
        have hsuffix : dropBlanks a <:+ c :: a :=
          (dropBlanks_suffix a).trans (List.suffix_cons c a)
        have hlast' : ∀ d ∈ (dropBlanks a).getLast?, isSpace d = false := by
          obtain ⟨v, hv⟩ := hsuffix
          rw [← hv, List.getLast?_append_of_ne_nil _ hnil] at hlast
          exact hlast
        rcases ih (ha.part hsuffix.isInfix) hlast' (by simp; omega) h with h | h
        · exact .inl (by simp [hnil, h])
        · obtain ⟨w, hw⟩ := hsuffix
          exact .inr (hw ▸ h.append w)
  | case4 c a hclose hc ih =>
    rw [List.cons_append, dropIndices_cons hclose (by simpa using hc)] at h
    refine (ih ?_ ?_ (by simp) h).imp_right fun hof ↦ hof.append [c]
    · exact ha.part (List.suffix_cons c a).isInfix
    · intro d hd
      apply hlast d
      cases a with
      | nil => cases hd
      | cons b a => simpa using hd

/-- Indices without comments that were read from a text and cut off at both ends are taken whole
by what is written behind them, or they end with a word that was none before. -/
theorem isIndices_or_endsWithOf {s e : List Char} (h : (dropIndices s s).stop = e)
    (hne : trim (Stretch.chars ⟨s, e⟩) ≠ []) (hfree : IsCommentFree (trim (Stretch.chars ⟨s, e⟩))) :
    isIndices (trim (Stretch.chars ⟨s, e⟩)) = true ∨
      EndsWithOf (trim (Stretch.chars ⟨s, e⟩)) := by
  obtain ⟨u, rfl⟩ : e <:+ s := h ▸ stop_dropIndices_suffix s
  rw [Stretch.chars_mk_append] at hne hfree ⊢
  obtain ⟨⟨y, z, hu, hy, hz⟩, hhead, hlast⟩ := exists_of_trim u
  generalize trim u = a at *
  subst hu
  have hlen := List.length_pos_iff.2 hne
  have hstop : y ++ a ++ z ++ e ≠ e := by
    intro he
    have := congrArg List.length he
    simp only [List.length_append] at this
    omega
  have hend : ∀ c ∈ (z ++ e).head?, c ≠ '*' := by
    intro c hc
    cases z with
    | nil => exact head_stop_dropIndices h hstop c hc
    | cons d z =>
      cases hc
      exact (not_special_of_isSpace (hz c (.head _))).2.2
  have htight : StartsTight (a ++ (z ++ e)) := by
    obtain ⟨c, a, rfl⟩ := List.exists_cons_of_ne_nil hne
    refine ⟨fun d hd ↦ ?_, ?_⟩
    · cases hd
      rw [← Bool.not_eq_true]
      intro hb
      simpa [isSpace_of_isBlank hb] using hhead c rfl
    · rw [← Bool.not_eq_true, startsComment_iff]
      rintro ⟨t, ht⟩
      cases a with
      | nil => exact hend '*' (by simp [show z ++ e = '*' :: t from (List.cons.inj ht).2]) rfl
      | cons d a =>
        cases ht
        exact hfree ⟨[], a, rfl⟩
  rw [List.append_assoc, List.append_assoc] at h
  obtain ⟨stop, hle, h⟩ := dropIndices_spaces hy htight (by simp; omega) (Nat.le_refl _) h
  exact isIndices_or_endsWithOf_append hfree hlast hend (by simp) hle h

/-- White space behind indices is no part of them. -/
private theorem nil_of_endsIndices {a z e : List Char} (hz : ∀ c ∈ z, isSpace c = true)
    (hends : EndsIndices (z ++ e))
    (hstop : (dropIndices (a ++ (z ++ e)) (a ++ (z ++ e))).stop = e) : z = [] := by
  by_contra hne
  obtain ⟨c, z, rfl⟩ := List.exists_cons_of_ne_nil hne
  have hc := hz c (.head z)
  rcases hends with ⟨t, ht⟩ | ⟨t, ht⟩
  · obtain ⟨rfl, -⟩ := List.cons.inj ht
    cases hc
  · have hc : c = ' ' := (List.cons.inj ht).1
    subst hc
    have hnil : z = [] := by
      cases z with
      | nil => rfl
      | cons d z =>
        have hd : d = 'o' := (List.cons.inj (List.cons.inj ht).2).1
        subst hd
        cases hz 'o' (by simp)
    subst hnil
    have hlt : e ≠ a ++ ([' '] ++ e) := fun h ↦ by
      have := congrArg List.length h
      simp only [List.length_append, List.length_cons, List.length_nil] at this
      omega
    obtain ⟨u, d, hu, hd⟩ := exists_of_stop_dropIndices hstop hlt
    have hlast : a ++ [' '] = u ++ [d] := (List.append_left_inj e).1 (by simpa using hu)
    have hspace : ' ' = d := List.head_eq_of_cons_eq (List.append_inj' hlast rfl).2
    subst hspace
    cases hd

/-- Indices are found again in front of what may be written behind them exactly if they are whole
indices. -/
theorem trim_stop_iff {a t : List Char} (ha : IsTrimmed a) (hne : a ≠ []) (ht : EndsIndices t) :
    a = trim (Stretch.chars ⟨a ++ t, (dropIndices (a ++ t) (a ++ t)).stop⟩) ↔
      isIndices a = true := by
  constructor
  · intro h
    generalize hstop : (dropIndices (a ++ t) (a ++ t)).stop = e at h
    obtain ⟨x, hx⟩ := hstop ▸ stop_dropIndices_suffix (a ++ t)
    rw [← hx, Stretch.chars_mk_append] at h
    obtain ⟨⟨y, z, hyz, hy, hz⟩, -⟩ := exists_of_trim x
    rw [← h] at hyz
    have hnil : y = [] := by
      cases y with
      | nil => rfl
      | cons c y =>
        obtain ⟨d, b, rfl⟩ := List.exists_cons_of_ne_nil hne
        have hhead : (d :: b ++ t).head? = some c := by rw [← hx, hyz]; rfl
        obtain rfl := Option.some.inj hhead
        have hspace := hy d (.head y)
        rw [ha.1 d rfl] at hspace
        cases hspace
    subst hnil
    obtain rfl : t = z ++ e := by
      rw [hyz, List.nil_append, List.append_assoc] at hx
      exact (List.append_cancel_left hx).symm
    obtain rfl := nil_of_endsIndices hz ht hstop
    refine isIndices_of_stop ht (fun _ ↦ ?_) hstop
    simpa using List.length_pos_of_ne_nil hne
  · intro h
    rw [dropIndices_append h hne ht, ht.dropIndices, Stretch.chars_mk_append]
    have htrim := trim_append ha hne (z := []) (by simp)
    rw [List.append_nil] at htrim
    exact htrim.symm

end SelectorAlgebra.Text

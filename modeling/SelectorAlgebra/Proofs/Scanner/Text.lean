import SelectorAlgebra.Parser.Argument
import SelectorAlgebra.Proofs.Scanner.Basic
import SelectorAlgebra.Proofs.Text.Fault
import SelectorAlgebra.Proofs.Text.Indices
import SelectorAlgebra.Scanner.Text

/-!
# What scanners of text yield

Main statement: blanks, names, quoted strings and arguments are passed at byte offsets as the
functions on the text that is left pass them, multi-byte characters and cut-off texts among them.
-/

namespace SelectorAlgebra.Scanner

open Text

variable {src s r : List Char}

/-! ### Blanks -/

/-- A comment is passed over up to what follows the first place where it can be closed. -/
theorem find_close (s : List Char) :
    (∃ u v, s = u ++ ['*', '/'] ++ v ∧ find ['*', '/'] s = some (byteSize u) ∧
      dropComment s = dropBlanks v ∧ commentThenBreak s = blanksBreakLine v) ∨
    (find ['*', '/'] s = none ∧ dropComment s = [] ∧ commentThenBreak s = false) := by
  induction s with
  | nil => exact .inr ⟨rfl, by rw [dropComment], by rw [commentThenBreak]⟩
  | cons c s ih =>
    by_cases hclose : ∃ t, c :: s = '*' :: '/' :: t
    · obtain ⟨t, ht⟩ := hclose
      rw [ht]
      exact .inl ⟨[], t, rfl, by simp [find, byteSize], dropComment_close t,
        by rw [commentThenBreak]⟩
    · have hne (t : List Char) : c :: s ≠ '*' :: '/' :: t := fun ht ↦ hclose ⟨t, ht⟩
      have hfind : find ['*', '/'] (c :: s) = (find ['*', '/'] s).map (c.utf8Size + ·) := by
        rw [find, if_neg]
        rintro hprefix
        obtain ⟨t, ht⟩ := List.isPrefixOf_iff_prefix.1 hprefix
        exact hne t ht.symm
      rw [hfind, dropComment_cons hne, commentThenBreak_cons hne]
      rcases ih with ⟨u, v, rfl, hu, hdrop, hbreak⟩ | ⟨hnone, hdrop, hbreak⟩
      · exact .inl ⟨c :: u, v, rfl, by rw [hu]; rfl, hdrop, hbreak⟩
      · exact .inr ⟨by rw [hnone]; rfl, hdrop, hbreak⟩

/-- After a comment, the blanks are those that were there with it. -/
theorem yields_comment : ∃ v, Yields src comment ('/' :: '*' :: s) ⟨[], .ok ((), v)⟩ ∧
    v.length ≤ s.length ∧ dropBlanks v = dropBlanks ('/' :: '*' :: s) ∧
      blanksBreakLine v = blanksBreakLine ('/' :: '*' :: s) := by
  have hopen : Yields src (advance 2) ('/' :: '*' :: s) ⟨[], .ok ((), s)⟩ := yields_advance ['/', '*']
  rw [dropBlanks_comment, blanksBreakLine]
  rcases find_close s with ⟨u, v, hs, hfind, hdrop, hbreak⟩ | ⟨hnone, hdrop, hbreak⟩
  · refine ⟨v, hopen.andThen fun _ ↦ yields_rest.andThen fun _ ↦ ?_, ?_, hdrop.symm, hbreak.symm⟩
    · rw [hfind, hs]
      have hclose : byteSize u + 2 = byteSize (u ++ ['*', '/']) := by
        rw [byteSize_append]
        rfl
      dsimp only
      rw [hclose]
      exact yields_advance _
    · rw [hs, List.length_append]
      exact Nat.le_add_left _ _
  · refine ⟨[], hopen.andThen fun _ ↦ yields_rest.andThen fun _ ↦ ?_, Nat.zero_le _, ?_, ?_⟩
    · rw [hnone]
      exact yields_source_bind (yields_moveTo List.nil_suffix)
    · rw [hdrop]
      simp [dropBlanks]
    · rw [hbreak]
      simp [blanksBreakLine]

/-- A round passes some of the blanks, or there are none. -/
theorem yields_blanksRound (newline : Bool) :
    (∃ newline' v, Yields src (blanksRound newline) s ⟨[], .ok (.again newline', v)⟩ ∧
      v.length < s.length ∧ dropBlanks v = dropBlanks s ∧
        (newline' || blanksBreakLine v) = (newline || blanksBreakLine s)) ∨
    (StartsTight s ∧ Yields src (blanksRound newline) s ⟨[], .ok (.done newline, s)⟩) := by
  cases s with
  | nil => exact .inr ⟨⟨by simp, rfl⟩, yields_peek.andThen fun _ ↦ yields_pure⟩
  | cons c s =>
    by_cases hc : isBlank c = true
    · refine .inl ⟨newline || c == '\n', s, yields_peek.andThen fun _ ↦ ?_, Nat.lt_succ_self _,
        (dropBlanks_cons_of_isBlank hc).symm, ?_⟩
      · simp only [List.head?_cons, hc, if_true]
        exact yields_bump.andThen fun _ ↦ yields_pure
      · rw [blanksBreakLine_cons_of_isBlank hc, Bool.or_assoc]
    · by_cases hcomment : ∃ t, c :: s = '/' :: '*' :: t
      · obtain ⟨t, ht⟩ := hcomment
        rw [ht]
        obtain ⟨v, hv, hlength, hdrop, hbreak⟩ := @yields_comment src t
        refine .inl ⟨newline, v, yields_peek.andThen fun _ ↦ ?_, ?_, hdrop, by rw [hbreak]⟩
        · exact yields_peekAt.andThen fun _ ↦ hv.andThen fun _ ↦ yields_pure
        · simp only [List.length_cons]
          omega
      · refine .inr ⟨⟨by simpa using hc, ?_⟩, yields_peek.andThen fun _ ↦ ?_⟩
        · exact Bool.eq_false_iff.2 fun h ↦ hcomment (startsComment_iff.1 h)
        · simp only [List.head?_cons, hc, Bool.false_eq_true, if_false]
          split
          · next hslash =>
            refine yields_peekAt.andThen fun _ ↦ ?_
            rw [if_neg]
            · exact yields_pure
            · intro hstar
              cases s with
              | nil => simp at hstar
              | cons d t => exact hcomment ⟨t, by simp_all⟩
          · exact yields_pure

theorem yields_blanks : Yields src blanks s ⟨[], .ok (blanksBreakLine s, dropBlanks s)⟩ := by
  refine yields_loop (motive := fun newline s q ↦
    Yields src q s ⟨[], .ok (newline || blanksBreakLine s, dropBlanks s)⟩)
    (fun {next newline s} ih ↦ ?_) id
  rcases @yields_blanksRound src s newline with
    ⟨newline', v, hround, hlength, hdrop, hbreak⟩ | ⟨htight, hround⟩
  · rw [← hdrop, ← hbreak]
    exact hround.andThen fun _ ↦ ih hlength
  · rw [blanksBreakLine_of_startsTight htight, dropBlanks_of_startsTight htight, Bool.or_false]
    exact hround.andThen fun _ ↦ yields_pure

/-! ### Names -/

theorem yields_hexDigits (n : Nat) :
    Yields src (hexDigits n) s ⟨[], .ok ((), s.drop (hexRun n s).length)⟩ := by
  induction n generalizing s with
  | zero => exact yields_pure
  | succ n ih =>
    refine yields_peek.andThen fun _ ↦ ?_
    cases s with
    | nil => exact yields_pure
    | cons c s =>
      by_cases hc : isHexDigit c = true
      · have hrun : hexRun (n + 1) (c :: s) = c :: hexRun n s := by simp [hexRun, hc]
        simp only [List.head?_cons, Option.any_some, hc, if_true, hrun, List.length_cons,
          List.drop_succ_cons]
        exact yields_bump.andThen fun _ ↦ ih
      · have hrun : hexRun (n + 1) (c :: s) = [] := by simp [hexRun, hc]
        simp only [List.head?_cons, Option.any_some, hc, hrun, List.length_nil, List.drop_zero]
        exact yields_pure

/-- What passing an escape tells, from its backslash on. -/
def escapeReading (s : List Char) : Reading Unit :=
  match dropEscape s.tail with
  | some r => ⟨[], .ok ((), r)⟩
  | none => ⟨[], .error ⟨.expectedEscape, ⟨s, []⟩⟩⟩

theorem yields_escape : Yields src escape ('\\' :: s) (escapeReading ('\\' :: s)) := by
  intro hs
  refine yields_position_bind (yields_bump.andThen fun _ ↦ ?_) hs
  cases s with
  | nil => exact yields_consume_nil.andThen fun _ ↦ yields_failSince hs List.nil_suffix
  | cons c s =>
    refine yields_consume.andThen fun _ ↦ ?_
    by_cases hc : isHexDigit c = true
    · simp only [hc, if_true, escapeReading, List.tail_cons, dropEscape]
      refine (yields_hexDigits 5).andThen fun _ ↦ yields_peek.andThen fun _ ↦ ?_
      cases s.drop (hexRun 5 s).length with
      | nil => exact yields_pure
      | cons d t =>
        by_cases hd : isBlank d = true
        · simp only [List.head?_cons, Option.any_some, hd, if_true, dropBlank]
          exact yields_bump
        · simp only [List.head?_cons, Option.any_some, hd, dropBlank]
          exact yields_pure
    · simp only [hc, escapeReading, List.tail_cons, dropEscape]
      exact yields_pure

/-- What passing name characters and escapes tells. -/
def nameReading (s : List Char) : Reading Unit :=
  match dropName s with
  | some r => ⟨[], .ok ((), r)⟩
  | none => ⟨[], .error ⟨.expectedEscape, ⟨['\\'], []⟩⟩⟩

theorem yields_nameChars : Yields src nameChars s (nameReading s) := by
  refine yields_loop (motive := fun _ s q ↦ Yields src q s (nameReading s))
    (fun {next _ s} ih ↦ ?_) id
  have hdone (h : dropName s = some s) (hround : Yields src (nameRound ()) s
      ⟨[], .ok (.done (), s)⟩) : Yields src (nameRound () >>= proceed next) s (nameReading s) := by
    rw [nameReading, h]
    exact hround.andThen fun _ ↦ yields_pure
  cases s with
  | nil => exact hdone (by rw [dropName]) (yields_peek.andThen fun _ ↦ yields_pure)
  | cons c s =>
    by_cases hc : isNameChar c = true
    · have hround : Yields src (nameRound ()) (c :: s) ⟨[], .ok (.again (), s)⟩ := by
        refine yields_peek.andThen fun _ ↦ ?_
        simp only [List.head?_cons, hc, if_true]
        exact yields_bump.andThen fun _ ↦ yields_pure
      rw [nameReading, dropName_cons hc]
      exact hround.andThen fun _ ↦ ih (Nat.lt_succ_self _)
    · by_cases hescape : c = '\\'
      · subst hescape
        have hsecond : ('\\' :: s)[1]? = s.head? := by cases s <;> rfl
        by_cases hnewline : s.head? = some '\n'
        · refine hdone (by rw [dropName]; simp [hc, hnewline]) ?_
          refine yields_peek.andThen fun _ ↦ yields_peekAt.andThen fun _ ↦ ?_
          rw [hsecond, if_pos hnewline]
          exact yields_pure
        · have hround {y : Reading (Round Unit Unit)} (hy : Yields src
              (do escape; return .again ()) ('\\' :: s) y) :
              Yields src (nameRound ()) ('\\' :: s) y := by
            refine yields_peek.andThen fun _ ↦ yields_peekAt.andThen fun _ ↦ ?_
            rw [hsecond, if_neg hnewline]
            exact hy
          have hpass : Yields src escape ('\\' :: s) (escapeReading ('\\' :: s)) := yields_escape
          cases h : dropEscape s with
          | some r =>
            rw [escapeReading, List.tail_cons, h] at hpass
            rw [nameReading, dropName_escape hnewline h]
            have hlength := dropEscape_length h
            exact (hround (hpass.andThen fun _ ↦ yields_pure)).andThen fun _ ↦
              ih (Nat.lt_succ_of_lt hlength)
          | none =>
            obtain rfl : s = [] := by cases s <;> simp_all [dropEscape]
            have hcut : dropName ['\\'] = none := by rw [dropName]; simp [hc, dropEscape]
            rw [nameReading, hcut]
            exact (hround hpass.bind_error).bind_error
      · refine hdone (dropName_of_endsName (endsName_cons.2 ⟨by simpa using hc, hescape⟩)) ?_
        refine yields_peek.andThen fun _ ↦ ?_
        simp only [List.head?_cons, hc, hescape, if_false]
        exact yields_pure

theorem isEscape_head (s : List Char) : isEscape s[0]? s[1]? = startsEscape s := by
  match s with
  | [] => rfl
  | [c] => simp [isEscape, startsEscape]
  | c :: d :: s =>
    by_cases hc : c = '\\'
    · subst hc
      simp [isEscape, startsEscape, bne]
    · simp [isEscape, startsEscape, hc]

theorem yields_startsName : Yields src startsName s ⟨[], .ok (Text.startsName s, s)⟩ := by
  refine yields_peek.andThen fun _ ↦ ?_
  cases s with
  | nil => exact yields_pure
  | cons c s =>
    by_cases hhyphen : c = '-'
    · subst hhyphen
      refine yields_peekAt.andThen fun _ ↦ ?_
      rw [Text.startsName, ← isEscape_head, ← List.head?_eq_getElem?]
      simp only [List.getElem?_cons_succ, ← List.head?_eq_getElem?]
      split
      · next h =>
        rw [h, Bool.or_true]
        exact yields_pure
      · next h =>
        rw [Bool.not_eq_true] at h
        rw [h, Bool.or_false]
        exact yields_peekAt.andThen fun _ ↦ yields_pure
    · have hname : Text.startsName (c :: s) = (isEscape (some c) s.head? || isNameStart c) := by
        rw [Text.startsName, ← isEscape_head]
        · simp [List.head?_eq_getElem?]
        · exact fun t ht ↦ hhyphen (List.cons.inj ht).1
      rw [hname]
      simp only [List.head?_cons, if_neg hhyphen]
      split
      · next hc =>
        rw [hc, Bool.or_true]
        exact yields_pure
      · next hc =>
        rw [Bool.not_eq_true] at hc
        rw [hc, Bool.or_false]
        split
        · refine yields_peekAt.andThen fun _ ↦ ?_
          rw [List.getElem?_cons_succ, ← List.head?_eq_getElem?]
          exact yields_pure
        · next hbackslash =>
          have hno : isEscape (some c) s.head? = false := by simp [isEscape, hbackslash]
          rw [hno]
          exact yields_pure

theorem yields_name : Yields src name s (Parser.name s) := by
  intro hs
  have hcut : Parser.name s =
      if Text.startsName s then Parser.nameChars s else Parser.fail .expectedName s := by
    change (if Text.startsName s then Parser.nameChars else Parser.fail .expectedName) s = _
    split <;> rfl
  refine yields_position_bind (yields_startsName.andThen fun _ ↦ ?_) hs
  rw [hcut]
  split
  · have hpass : Yields src nameChars s (nameReading s) := yields_nameChars
    rw [Parser.nameChars]
    cases h : dropName s with
    | some r =>
      rw [nameReading, h] at hpass
      exact hpass.andThen fun hr ↦ yields_position_bind ((yields_slice hs hr).andThen fun _ ↦
        yields_pure)
    | none =>
      rw [nameReading, h] at hpass
      exact hpass.bind_error
  · exact yields_failSince_self hs

/-! ### Quoted strings -/

/-- What passing the rest of a quoted string tells, in front of which some of its value stands. -/
def quotedReading (quote : Char) (start : List Char) (value : String) (s : List Char) :
    Reading String :=
  match readQuoted quote s with
  | .ok (v, r) => ⟨[], .ok (value ++ String.ofList v, r)⟩
  | .error stop => ⟨[], .error ⟨.expectedString, ⟨start, stop⟩⟩⟩

theorem quotedReading_of_map {quote c : Char} {start t : List Char} {value : String}
    (h : readQuoted quote t = (readQuoted quote s).map fun (v, r) ↦ (c :: v, r)) :
    quotedReading quote start value t = quotedReading quote start (value.push c) s := by
  rw [quotedReading, h, quotedReading]
  cases readQuoted quote s with
  | error stop => rfl
  | ok x =>
    have hvalue (v : List Char) : value ++ String.ofList (c :: v) =
        value.push c ++ String.ofList v := by
      rw [String.ofList_cons, String.push_eq_append, String.append_assoc]
    simp only [Except.map, hvalue]

section QuotedRound

variable {quote : Char} {start : List Char} {value : String} {next : String → Scanner String}

/-- The character behind a backslash is passed with it, and is a part of the value unless it is a
line feed. -/
theorem yields_quotedRound_escape (hquote : quote ≠ '\\') (hstart : start <:+ src)
    (hne : start ≠ [])
    (ih : ∀ {value r}, r.length < s.length → r <:+ s →
      Yields src (next value) r (quotedReading quote start value r)) :
    Yields src (quotedRound quote (offset src start) value >>= proceed next) ('\\' :: s)
      (quotedReading quote start value ('\\' :: s)) := by
  have hclose := Ne.symm hquote
  have hnewline : '\\' ≠ '\n' := by decide
  cases s with
  | nil =>
    have hround : Yields src (quotedRound quote (offset src start) value) ['\\']
        ⟨[], .error ⟨.expectedString, ⟨start, []⟩⟩⟩ := by
      refine yields_consume.andThen fun _ ↦ ?_
      simp only [if_neg hclose, if_neg hnewline, if_true]
      exact yields_consume_nil.andThen fun _ ↦
        yields_failSince_of_lt hstart List.nil_suffix (List.length_pos_of_ne_nil hne)
    exact hround.bind_error
  | cons d s =>
    have hround : Yields src (quotedRound quote (offset src start) value) ('\\' :: d :: s)
        ⟨[], .ok (.again (if d = '\n' then value else value.push d), s)⟩ := by
      refine yields_consume.andThen fun _ ↦ ?_
      simp only [if_neg hclose, if_neg hnewline, if_true]
      refine yields_consume.andThen fun _ ↦ ?_
      by_cases hd : d = '\n'
      · simp only [if_pos hd]
        exact yields_pure
      · simp only [if_neg hd]
        exact yields_pure
    have hrest : quotedReading quote start value ('\\' :: d :: s) =
        quotedReading quote start (if d = '\n' then value else value.push d) s := by
      by_cases hd : d = '\n'
      · subst hd
        rw [if_pos rfl, quotedReading, readQuoted, quotedReading]
      · rw [if_neg hd, quotedReading_of_map (readQuoted_escape quote hd s)]
    rw [hrest]
    exact hround.andThen fun _ ↦ ih (Nat.lt_succ_self _) (List.suffix_cons d s)

/-- One round passes a character of a string, an escaped one with its backslash. -/
theorem yields_quotedRound (hquote : quote ≠ '\\') (hstart : start <:+ src) (hs : s <:+ start)
    (hlt : s.length < start.length)
    (ih : ∀ {value r}, r.length < s.length → r <:+ s →
      Yields src (next value) r (quotedReading quote start value r)) :
    Yields src (quotedRound quote (offset src start) value >>= proceed next) s
      (quotedReading quote start value s) := by
  have hfail {t : List Char} (ht : t <:+ s) : Yields src
      (failSince (offset src start) .expectedString : Scanner (Round String String)) t
      ⟨[], .error ⟨.expectedString, ⟨start, t⟩⟩⟩ :=
    yields_failSince_of_lt hstart (ht.trans hs) (Nat.lt_of_le_of_lt ht.length_le hlt)
  cases s with
  | nil =>
    have hround : Yields src (quotedRound quote (offset src start) value) [] _ :=
      yields_consume_nil.andThen fun _ ↦ hfail List.nil_suffix
    exact hround.bind_error
  | cons c s =>
    have hrest := List.suffix_cons c s
    have hless := Nat.lt_succ_self s.length
    by_cases hclose : c = quote
    · subst hclose
      have hround : Yields src (quotedRound c (offset src start) value) (c :: s)
          ⟨[], .ok (.done value, s)⟩ := by
        refine yields_consume.andThen fun _ ↦ ?_
        simp only [if_true]
        exact yields_pure
      rw [quotedReading, readQuoted_close hquote]
      dsimp only
      rw [String.ofList_nil, String.append_empty]
      exact hround.andThen fun _ ↦ yields_pure
    by_cases hnewline : c = '\n'
    · have hround : Yields src (quotedRound quote (offset src start) value) (c :: s)
          ⟨[], .error ⟨.expectedString, ⟨start, s⟩⟩⟩ := by
        refine yields_consume.andThen fun _ ↦ ?_
        simp only [if_neg hclose, if_pos hnewline]
        exact hfail hrest
      have hread : readQuoted quote (c :: s) = .error s := by
        rw [readQuoted]
        · rw [if_neg hclose, if_pos hnewline]
        all_goals simp [hnewline]
      rw [quotedReading, hread]
      exact hround.bind_error
    by_cases hescape : c = '\\'
    · subst hescape
      exact yields_quotedRound_escape hquote hstart (List.ne_nil_of_length_pos (by omega))
        fun hr hsuffix ↦ ih (Nat.lt_trans hr hless) (hsuffix.trans hrest)
    · have hround : Yields src (quotedRound quote (offset src start) value) (c :: s)
          ⟨[], .ok (.again (value.push c), s)⟩ := by
        refine yields_consume.andThen fun _ ↦ ?_
        simp only [if_neg hclose, if_neg hnewline, if_neg hescape]
        exact yields_pure
      rw [quotedReading_of_map (readQuoted_cons hclose hescape hnewline s)]
      exact hround.andThen fun _ ↦ ih hless hrest

end QuotedRound

theorem yields_quoted {quote : Char} (hquote : quote = '"' ∨ quote = '\'') :
    Yields src (quoted quote) (quote :: s) (Parser.quoted (quote :: s)) := by
  intro hstart
  have hloop : Yields src (loop (quotedRound quote (offset src (quote :: s))) "") s
      (quotedReading quote (quote :: s) "" s) := by
    refine yields_loop (motive := fun value t q ↦ t <:+ quote :: s →
      t.length < (quote :: s).length → Yields src q t (quotedReading quote (quote :: s) value t))
      (fun ih hsuffix hlt ↦ yields_quotedRound (by rcases hquote with rfl | rfl <;> decide) hstart
        hsuffix hlt fun hr hrest ↦ ih hr (hrest.trans hsuffix) (Nat.lt_trans hr hlt))
      fun h ↦ h (List.suffix_cons quote s) (Nat.lt_succ_self _)
  refine yields_position_bind (yields_bump.andThen fun _ ↦ ?_) hstart
  have hread : Parser.quoted (quote :: s) = quotedReading quote (quote :: s) "" s := by
    rw [Parser.quoted, quotedReading]
    cases readQuoted quote s with
    | ok x => simp
    | error stop => rfl
  rw [hread]
  exact hloop

/-! ### Arguments that are no selectors -/

/-- What passing the rest of an argument tells, in which `depth` parentheses are open. -/
def argumentReading (depth : Nat) (s : List Char) : Reading Unit :=
  match dropArgument depth s with
  | .ok r => ⟨[], .ok ((), r)⟩
  | .error e => ⟨[], .error e⟩

section ArgumentRound

variable {depth : Nat} {next : Nat → Scanner Unit}

/-- A quoted string in an argument is passed as a whole. -/
theorem yields_argumentRound_quoted {c : Char} (hquote : c = '"' ∨ c = '\'')
    (ih : ∀ {depth r}, r.length < (c :: s).length →
      Yields src (next depth) r (argumentReading depth r)) :
    Yields src (argumentRound depth >>= proceed next) (c :: s) (argumentReading depth (c :: s)) := by
  have hclose : c ≠ ')' := by rcases hquote with rfl | rfl <;> decide
  have hopen : c ≠ '(' := by rcases hquote with rfl | rfl <;> decide
  have hround {y : Reading (Round Nat Unit)}
      (hy : Yields src (do let _ ← quoted c; return .again depth) (c :: s) y) :
      Yields src (argumentRound depth) (c :: s) y := by
    refine yields_peek.andThen fun _ ↦ ?_
    simp only [List.head?_cons, if_neg hclose, if_neg hopen]
    rw [if_pos (by simpa using hquote)]
    exact hy
  have hstring : Yields src (quoted c) (c :: s) _ := yields_quoted hquote
  rw [Parser.quoted] at hstring
  cases h : readQuoted c s with
  | ok x =>
    rw [h] at hstring
    rw [argumentReading, dropArgument_quoted hquote h]
    have hlength := (readQuoted_suffix h).2
    exact (hround (hstring.andThen fun _ ↦ yields_pure)).andThen fun _ ↦
      ih (Nat.lt_succ_of_lt hlength)
  | error stop =>
    rw [h] at hstring
    rw [argumentReading, dropArgument_quoted_error hquote h]
    exact (hround hstring.bind_error).bind_error

/-- An escape in an argument is passed as a whole. -/
theorem yields_argumentRound_escape
    (ih : ∀ {depth r}, r.length < ('\\' :: s).length →
      Yields src (next depth) r (argumentReading depth r)) :
    Yields src (argumentRound depth >>= proceed next) ('\\' :: s)
      (argumentReading depth ('\\' :: s)) := by
  have hround {y : Reading (Round Nat Unit)}
      (hy : Yields src (do escape; return .again depth) ('\\' :: s) y) :
      Yields src (argumentRound depth) ('\\' :: s) y := by
    refine yields_peek.andThen fun _ ↦ ?_
    have hclose : '\\' ≠ ')' := by decide
    have hopen : '\\' ≠ '(' := by decide
    simp only [List.head?_cons, if_neg hclose, if_neg hopen]
    rw [if_neg (by decide), if_pos trivial]
    exact hy
  have hdrop : Yields src escape ('\\' :: s) (escapeReading ('\\' :: s)) := yields_escape
  rw [escapeReading, List.tail_cons] at hdrop
  cases h : dropEscape s with
  | some r =>
    rw [h] at hdrop
    rw [argumentReading, dropArgument_escape h]
    have hlength := dropEscape_length h
    exact (hround (hdrop.andThen fun _ ↦ yields_pure)).andThen fun _ ↦
      ih (Nat.lt_succ_of_lt hlength)
  | none =>
    rw [h] at hdrop
    rw [argumentReading, dropArgument_escape_error h]
    exact (hround hdrop.bind_error).bind_error

/-- One round passes a character of an argument, or a string or an escape as a whole. -/
theorem yields_argumentRound
    (ih : ∀ {depth r}, r.length < s.length → Yields src (next depth) r (argumentReading depth r)) :
    Yields src (argumentRound depth >>= proceed next) s (argumentReading depth s) := by
  cases s with
  | nil =>
    have hround : Yields src (argumentRound depth) [] _ := yields_peek.andThen fun _ ↦ yields_fail
    rw [argumentReading, dropArgument]
    exact hround.bind_error
  | cons c s =>
    have hpass (depth' : Nat) (hround : Yields src (argumentRound depth) (c :: s)
        ⟨[], .ok (.again depth', s)⟩) (h : dropArgument depth (c :: s) = dropArgument depth' s) :
        Yields src (argumentRound depth >>= proceed next) (c :: s)
          (argumentReading depth (c :: s)) := by
      rw [argumentReading, h]
      exact hround.andThen fun _ ↦ ih (Nat.lt_succ_self _)
    by_cases hclose : c = ')'
    · cases depth with
      | zero =>
        have hround : Yields src (argumentRound 0) (c :: s) ⟨[], .ok (.done (), c :: s)⟩ := by
          refine yields_peek.andThen fun _ ↦ ?_
          simp only [List.head?_cons, if_pos hclose]
          exact yields_pure
        rw [argumentReading, dropArgument, if_pos hclose]
        exact hround.andThen fun _ ↦ yields_pure
      | succ depth =>
        refine hpass depth (yields_peek.andThen fun _ ↦ ?_) (by rw [dropArgument, if_pos hclose])
        simp only [List.head?_cons, if_pos hclose]
        exact yields_bump.andThen fun _ ↦ yields_pure
    by_cases hopen : c = '('
    · refine hpass (depth + 1) (yields_peek.andThen fun _ ↦ ?_)
        (by rw [dropArgument.eq_def]; simp only [if_neg hclose, if_pos hopen])
      simp only [List.head?_cons, if_neg hclose, if_pos hopen]
      exact yields_bump.andThen fun _ ↦ yields_pure
    by_cases hquote : c = '"' ∨ c = '\''
    · exact yields_argumentRound_quoted hquote ih
    by_cases hescape : c = '\\'
    · subst hescape
      exact yields_argumentRound_escape ih
    · refine hpass depth (yields_peek.andThen fun _ ↦ ?_)
        (dropArgument_cons hclose hopen hquote hescape depth s)
      simp only [List.head?_cons, if_neg hclose, if_neg hopen]
      rw [if_neg (by simpa using hquote), if_neg hescape]
      exact yields_bump.andThen fun _ ↦ yields_pure

end ArgumentRound

theorem yields_rawArgument : Yields src rawArgument s (Parser.rawArgument s) := by
  intro hs
  have hloop : Yields src (loop argumentRound 0) s (argumentReading 0 s) :=
    yields_loop (motive := fun depth s q ↦ Yields src q s (argumentReading depth s))
      yields_argumentRound id
  refine yields_position_bind ?_ hs
  rw [argumentReading] at hloop
  rw [Parser.rawArgument]
  cases h : dropArgument 0 s with
  | ok r =>
    rw [h] at hloop
    exact hloop.andThen fun hr ↦ yields_position_bind ((yields_slice hs hr).andThen fun _ ↦
      yields_pure)
  | error e =>
    rw [h] at hloop
    exact hloop.bind_error

/-! ### Indices -/

/-- A character that differs from an ASCII letter at most in case is one byte long. -/
theorem utf8Size_of_toLower {c d : Char} (h : c.toLower = d) (hd : d.utf8Size = 1) :
    c.utf8Size = 1 := by
  unfold Char.toLower at h
  split at h
  · next hc =>
    have hle : c.val.toNat ≤ 90 := hc.2
    exact Char.utf8Size_eq_one_iff.2 (Nat.le_trans hle (by decide))
  · rw [h, hd]

theorem startsOf_iff : startsOf s = true ↔ ∃ a b t, s = [a, b] ++ t ∧ a.toLower = 'o' ∧
    b.toLower = 'f' ∧ t.head?.any isNameChar = false := by
  unfold startsOf
  split
  · simp [and_assoc]
  · next h => simpa using fun a b t hs ↦ absurd hs (h a b t)

theorem byteSize_of_toLower {a b : Char} (ha : a.toLower = 'o') (hb : b.toLower = 'f') :
    byteSize [a, b] = byteSize ['o', 'f'] := by
  simp only [byteSize, utf8Size_of_toLower ha rfl, utf8Size_of_toLower hb rfl]
  rfl

/-- The word `of` is looked for in a slice of its size, which there need not be. -/
theorem yields_startsKeyword :
    Yields src (startsKeyword ['o', 'f']) s ⟨[], .ok (startsOf s, s)⟩ := by
  refine yields_rest.andThen fun _ ↦ ?_
  cases h : sliceTo s (byteSize ['o', 'f']) with
  | none =>
    have hno : startsOf s = false := by
      rw [← Bool.not_eq_true]
      rintro hof
      obtain ⟨a, b, t, rfl, ha, hb, -⟩ := startsOf_iff.1 hof
      rw [← byteSize_of_toLower ha hb, sliceTo_append] at h
      cases h
    rw [hno]
    exact yields_pure
  | some word =>
    obtain ⟨t, rfl, hsize⟩ := sliceTo_eq_some h
    dsimp only
    split
    · next hword =>
      obtain ⟨a, _, rfl, ha, hword⟩ := List.map_eq_cons_iff.1 hword
      obtain ⟨b, _, rfl, hb, hword⟩ := List.map_eq_cons_iff.1 hword
      obtain rfl := List.map_eq_nil_iff.1 hword
      have hof : startsOf ([a, b] ++ t) = !t.head?.any isNameChar := by simp [startsOf, ha, hb]
      rw [← hsize, hof]
      exact (yields_require (sliceFrom_append [a, b] t)).andThen fun _ ↦ yields_pure
    · next hword =>
      have hno : startsOf (word ++ t) = false := by
        rw [← Bool.not_eq_true]
        rintro hof
        obtain ⟨a, b, u, heq, ha, hb, -⟩ := startsOf_iff.1 hof
        rw [heq, ← byteSize_of_toLower ha hb, sliceTo_append] at h
        cases h
        simp [ha, hb] at hword
      rw [hno]
      exact yields_pure

/-- What passing the rest of indices tells, of which the last character ends in front of `stop`. -/
def indicesReading (src stop s : List Char) : Reading (Nat × Bool) :=
  ⟨[], .ok ((offset src (dropIndices stop s).stop, (dropIndices stop s).ofList),
    (dropIndices stop s).rest)⟩

/-- One round passes a character of indices, or white space, and the word `of` behind it. -/
theorem yields_indicesRound {stop : List Char} {next : Nat → Scanner (Nat × Bool)}
    (ih : ∀ {stop r}, r.length < s.length →
      Yields src (next (offset src stop)) r (indicesReading src stop r)) :
    Yields src (indicesRound (offset src stop) >>= proceed next) s
      (indicesReading src stop s) := by
  cases s with
  | nil =>
    have hround : Yields src (indicesRound (offset src stop)) []
        ⟨[], .ok (.done (offset src stop, false), [])⟩ := yields_peek.andThen fun _ ↦ yields_pure
    rw [indicesReading, dropIndices]
    exact hround.andThen fun _ ↦ yields_pure
  | cons c s =>
    by_cases hclose : c = ')'
    · have hround : Yields src (indicesRound (offset src stop)) (c :: s)
          ⟨[], .ok (.done (offset src stop, false), c :: s)⟩ := by
        refine yields_peek.andThen fun _ ↦ ?_
        simp only [List.head?_cons, if_pos hclose]
        exact yields_pure
      rw [indicesReading, dropIndices, if_pos hclose]
      exact hround.andThen fun _ ↦ yields_pure
    · by_cases hblank : isBlank c = true
      · have hround {y : Reading (Round Nat (Nat × Bool))} (hy : Yields src (do
            if startsOf (dropBlanks s) then
              advance 2
              return .done (offset src stop, true)
            else return .again (offset src stop)) (dropBlanks s) y) :
            Yields src (indicesRound (offset src stop)) (c :: s) y := by
          refine yields_peek.andThen fun _ ↦ ?_
          simp only [List.head?_cons, if_neg hclose, if_pos hblank]
          refine yields_blanks.andThen fun _ ↦ ?_
          rw [dropBlanks_cons_of_isBlank hblank]
          exact yields_startsKeyword.andThen fun _ ↦ hy
        rw [indicesReading, dropIndices_blank hblank]
        cases hof : startsOf (dropBlanks s) with
        | true =>
          obtain ⟨a, b, t, ht, ha, hb, -⟩ := startsOf_iff.1 hof
          rw [hof, ht] at hround
          rw [ht, if_pos rfl]
          have hskip : Yields src (advance 2) ([a, b] ++ t) ⟨[], .ok ((), t)⟩ := by
            have hsize : byteSize [a, b] = 2 := byteSize_of_toLower ha hb
            rw [← hsize]
            exact yields_advance [a, b]
          exact (hround (hskip.andThen fun _ ↦ yields_pure)).andThen fun _ ↦ yields_pure
        | false =>
          rw [hof] at hround
          rw [if_neg (by decide)]
          exact (hround yields_pure).andThen fun _ ↦
            ih (Nat.lt_succ_of_le (dropBlanks_suffix s).length_le)
      · have hround : Yields src (indicesRound (offset src stop)) (c :: s)
            ⟨[], .ok (.again (offset src s), s)⟩ := by
          refine yields_peek.andThen fun _ ↦ ?_
          simp only [List.head?_cons, if_neg hclose, if_neg hblank]
          exact yields_bump.andThen fun _ ↦ yields_position_bind yields_pure
        rw [indicesReading, dropIndices_cons hclose (by simpa using hblank)]
        exact hround.andThen fun _ ↦ ih (Nat.lt_succ_self _)

theorem yields_indicesLoop {stop : List Char} :
    Yields src (loop indicesRound (offset src stop)) s (indicesReading src stop s) :=
  yields_loop (motive := fun n s q ↦ ∀ stop, n = offset src stop →
    Yields src q s (indicesReading src stop s))
    (fun ih _ hn ↦ hn ▸ yields_indicesRound fun hr ↦ ih hr _ rfl) fun h ↦ h stop rfl

theorem yields_indicesBetween {start stop : List Char} (hstart : start <:+ src)
    (hstop : stop <:+ start) (hs : s <:+ start) :
    Yields src (indicesBetween (offset src start) (offset src stop)) s
      (if (trim (Stretch.chars ⟨start, stop⟩)).isEmpty then
        Parser.failSince start .expectedIndices s
      else ⟨[], .ok (String.ofList (trim (Stretch.chars ⟨start, stop⟩)), s)⟩) := by
  refine (yields_slice hstart hstop).andThen fun _ ↦ ?_
  dsimp only
  split
  · exact yields_failSince hstart hs
  · exact yields_pure

end SelectorAlgebra.Scanner

import SelectorAlgebra.Proofs.Text.Quoted

/-!
# Names between quotes

Between quotes a backslash only keeps the character behind it, while a name may also hold escapes
that give the number of a character. Main statements: a name without such an escape has the same
value with quotes and without, and a name with one never has.
-/

namespace SelectorAlgebra.Text

/-- Whether an escape of a name is written with hexadecimal digits. -/
def hasHexEscape : List Char → Bool
  | '\\' :: c :: s => isHexDigit c || hasHexEscape s
  | _ :: s => hasHexEscape s
  | [] => false

theorem hasHexEscape_cons {c : Char} (hc : c ≠ '\\') (s : List Char) :
    hasHexEscape (c :: s) = hasHexEscape s := by
  rw [hasHexEscape]
  simp [hc]

/-! ### Decoding -/

theorem hexRun_succ (n : Nat) (c : Char) (s : List Char) :
    hexRun (n + 1) (c :: s) = if isHexDigit c then c :: hexRun n s else [] := by
  rw [hexRun, List.take_succ_cons, List.takeWhile_cons]
  rfl

theorem decodeName_char {c : Char} (hc : isHexDigit c = false) (s : List Char) :
    decodeName ('\\' :: c :: s) = c :: decodeName s := by
  have hrun : hexRun 6 (c :: s) = [] := by rw [hexRun_succ, hc]; rfl
  conv => lhs; unfold decodeName
  rw [if_pos (beq_self_eq_true _)]
  split
  · next heq => cases heq
  · next heq =>
    cases heq
    rfl
  · next heq =>
    rw [hrun] at heq
    cases heq

theorem decodeName_hex {c : Char} (hc : isHexDigit c = true) (s : List Char) :
    decodeName ('\\' :: c :: s) = codePoint (hexValue (c :: hexRun 5 s)) ::
      decodeName (dropBlank (s.drop (hexRun 5 s).length)) := by
  have hrun : hexRun 6 (c :: s) = c :: hexRun 5 s := by rw [hexRun_succ, if_pos hc]
  conv => lhs; unfold decodeName
  rw [if_pos (beq_self_eq_true _)]
  split
  · next heq => cases heq
  · next heq _ =>
    rw [hrun] at heq
    cases heq
  · next heq =>
    rw [hrun] at heq
    cases heq
    rfl

/-- No digit is the character whose number it writes. -/
theorem codePoint_hexValue_ne {c : Char} (hc : isHexDigit c = true) :
    codePoint (hexValue [c]) ≠ c :=
  of_isHexDigit (P := fun c ↦ codePoint (hexValue [c]) ≠ c) hc (by decide)

/-! ### Reading between quotes -/

/-- Whether a character stands for itself between double quotes. -/
def IsQuotable (c : Char) : Prop := c ≠ '"' ∧ c ≠ '\\' ∧ c ≠ '\n'

theorem isQuotable_of_isNameChar {c : Char} (hc : isNameChar c = true) : IsQuotable c :=
  ⟨ne_of_isNameChar hc rfl, ne_of_isNameChar hc rfl, ne_of_isNameChar hc rfl⟩

theorem exists_of_readQuoted_append {w s v t : List Char} (hw : ∀ c ∈ w, IsQuotable c)
    (h : readQuoted '"' (w ++ s) = .ok (v, t)) :
    ∃ v', v = w ++ v' ∧ readQuoted '"' s = .ok (v', t) := by
  induction w generalizing v with
  | nil => exact ⟨v, rfl, h⟩
  | cons c w ih =>
    obtain ⟨⟨hq, hb, hn⟩, hw⟩ := List.forall_mem_cons.1 hw
    rw [List.cons_append, readQuoted_cons hq hb hn] at h
    obtain ⟨u, hu, rfl⟩ := exists_of_map_cons h
    obtain ⟨v', rfl, hv⟩ := ih hw hu
    exact ⟨v', rfl, hv⟩

/-- A name without hexadecimal escapes has its own value between quotes. -/
theorem readQuoted_of_isNameText {n : List Char} (h : IsNameText n)
    (hhex : hasHexEscape n = false) (r : List Char) :
    readQuoted '"' (n ++ '"' :: r) = .ok (decodeName n, r) := by
  unfold IsNameText at h
  fun_induction dropName n with
  | case1 =>
    rw [List.nil_append, readQuoted_close (by decide), decodeName]
  | case2 c n hc ih =>
    obtain ⟨hq, hb, hn⟩ := isQuotable_of_isNameChar hc
    rw [hasHexEscape_cons hb] at hhex
    rw [List.cons_append, readQuoted_cons hq hb hn, ih h hhex, decodeName_cons hb]
    rfl
  | case3 => cases h
  | case4 c n hc hescape u hu _ ih =>
    obtain ⟨rfl, hhead⟩ : c = '\\' ∧ n.head? ≠ some '\n' := by simpa using hescape
    cases n with
    | nil => cases hu
    | cons d n =>
      rw [hasHexEscape, Bool.or_eq_false_iff] at hhex
      rw [dropEscape_char hhex.1] at hu
      cases hu
      rw [List.cons_append, List.cons_append, readQuoted_escape _ (by simpa using hhead),
        ih h hhex.2, decodeName_char hhex.1]
      rfl
  | case5 => cases h

/-- What is read between quotes of a hexadecimal escape: all its digits, and the blank behind them
if there is one. -/
theorem exists_of_readQuoted_hex {d : Char} {s r v t : List Char} (hd : isHexDigit d = true)
    (h : readQuoted '"' ('\\' :: d :: (s ++ '"' :: r)) = .ok (v, t)) :
    ∃ b v', v = d :: (hexRun 5 s ++ (b ++ v')) ∧
      readQuoted '"' (dropBlank (s.drop (hexRun 5 s).length) ++ '"' :: r) = .ok (v', t) := by
  obtain ⟨ds, u, rfl, hrun, hds, -⟩ := hexRun_spec 5 s
  have hne : d ≠ '\n' := ne_of_isNameChar (isNameChar_of_isHexDigit hd) rfl
  have hquotable : ∀ c ∈ ds, IsQuotable c := fun c hc ↦
    isQuotable_of_isNameChar (isNameChar_of_isHexDigit (hds c hc))
  rw [readQuoted_escape _ hne, List.append_assoc] at h
  rw [hrun, List.drop_left]
  obtain ⟨w, hw, rfl⟩ := exists_of_map_cons h
  obtain ⟨v', rfl, hu⟩ := exists_of_readQuoted_append hquotable hw
  cases u with
  | nil => exact ⟨[], v', rfl, hu⟩
  | cons c u =>
    rw [dropBlank_cons]
    split
    · next hc =>
      -- a line feed would have ended the string
      have hquotable : IsQuotable c := by
        refine ⟨?_, ?_, ?_⟩
        · rintro rfl
          cases hc
        · rintro rfl
          cases hc
        · rintro rfl
          cases hu
      obtain ⟨hq, hb, hn⟩ := hquotable
      rw [List.cons_append, readQuoted_cons hq hb hn] at hu
      obtain ⟨v'', hv, rfl⟩ := exists_of_map_cons hu
      exact ⟨[c], v'', rfl, hv⟩
    · exact ⟨[], v', rfl, hu⟩

/-- Between quotes a name goes up to the closing one. Its value there has no fewer characters than
by itself, and is another if it has a hexadecimal escape. -/
theorem of_readQuoted_isNameText {n r v t : List Char} (h : IsNameText n)
    (hread : readQuoted '"' (n ++ '"' :: r) = .ok (v, t)) :
    t = r ∧ (decodeName n).length ≤ v.length ∧ (v = decodeName n → hasHexEscape n = false) := by
  unfold IsNameText at h
  fun_induction dropName n generalizing v with
  | case1 =>
    rw [List.nil_append, readQuoted_close (by decide)] at hread
    cases hread
    exact ⟨rfl, by simp [decodeName], fun _ ↦ rfl⟩
  | case2 c n hc ih =>
    obtain ⟨hq, hb, hn⟩ := isQuotable_of_isNameChar hc
    rw [List.cons_append, readQuoted_cons hq hb hn] at hread
    obtain ⟨w, hw, rfl⟩ := exists_of_map_cons hread
    obtain ⟨rfl, hlength, hsame⟩ := ih h hw
    rw [decodeName_cons hb, hasHexEscape_cons hb]
    exact ⟨rfl, by simpa using hlength, fun heq ↦ hsame (List.cons.inj heq).2⟩
  | case3 => cases h
  | case4 c n hc hescape u hu _ ih =>
    obtain ⟨rfl, hhead⟩ : c = '\\' ∧ n.head? ≠ some '\n' := by simpa using hescape
    cases n with
    | nil => cases hu
    | cons d n =>
      cases hd : isHexDigit d with
      | false =>
        rw [dropEscape_char hd] at hu
        cases hu
        rw [List.cons_append, List.cons_append, readQuoted_escape _ (by simpa using hhead)] at hread
        obtain ⟨w, hw, rfl⟩ := exists_of_map_cons hread
        obtain ⟨rfl, hlength, hsame⟩ := ih h hw
        rw [decodeName_char hd, hasHexEscape, hd, Bool.false_or]
        exact ⟨rfl, by simpa using hlength, fun heq ↦ hsame (List.cons.inj heq).2⟩
      | true =>
        rw [dropEscape_hex hd, Option.some.injEq] at hu
        obtain ⟨b, w, rfl, hw⟩ := exists_of_readQuoted_hex hd hread
        rw [hu] at hw
        obtain ⟨rfl, hlength, -⟩ := ih h hw
        rw [decodeName_hex hd, hu]
        refine ⟨rfl, ?_, fun heq ↦ ?_⟩
        · simp only [List.length_cons, List.length_append]
          omega
        · -- by length the escape is a single digit, which it does not stand for
          obtain ⟨hcode, hrest⟩ := List.cons.inj heq
          have hrun : hexRun 5 n = [] := by
            apply List.length_eq_zero_iff.1
            have := congrArg List.length hrest
            simp only [List.length_append] at this
            omega
          rw [hrun] at hcode
          exact absurd hcode.symm (codePoint_hexValue_ne hd)
  | case5 => cases h

end SelectorAlgebra.Text

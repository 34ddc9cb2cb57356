import Mathlib
import SelectorAlgebra.Proofs.Parser.Reads
import SelectorAlgebra.Proofs.Text.Decoding
import SelectorAlgebra.Proofs.Text.Numeral

/-!
# The pieces of a name

A name is scanned piece by piece, where a piece is a name character or a whole escape, and decoding
takes it apart a second time. Main statements: the scan is the repetition of its step, and the
decoded text of a name that is read has exactly one character for each piece of the scan, the one
that the piece stands for.
-/

namespace SelectorAlgebra

namespace Text

/-! ### Cutting -/

/-- One step of the scan of a name: the text after the name character or the escape at its front.
There is none where a name ends and where an escape has no character. -/
def dropPiece : List Char → Option (List Char)
  | [] => none
  | c :: s =>
    if isNameChar c then some s
    else if c == '\\' && s.head? != some '\n' then dropEscape s
    else none

/-- A piece is a part at the front of the text, and not empty. -/
theorem exists_of_dropPiece {s r : List Char} (h : dropPiece s = some r) :
    ∃ c p, s = c :: p ++ r := by
  cases s with
  | nil => cases h
  | cons c s =>
    simp only [dropPiece] at h
    split_ifs at h
    · cases h
      exact ⟨c, [], rfl⟩
    · obtain ⟨p, rfl⟩ := dropEscape_suffix h
      exact ⟨c, p, rfl⟩

theorem dropPiece_length {s r : List Char} (h : dropPiece s = some r) : r.length < s.length := by
  obtain ⟨c, p, rfl⟩ := exists_of_dropPiece h
  simp only [List.length_append, List.length_cons]
  omega

/-- The pieces that the scan of a name takes from a text, in order. -/
def pieces (s : List Char) : List (List Char) :=
  match h : dropPiece s with
  | none => []
  | some r => have := dropPiece_length h; Stretch.chars ⟨s, r⟩ :: pieces r
termination_by s.length

theorem pieces_eq_nil {s : List Char} (h : dropPiece s = none) : pieces s = [] := by
  rw [pieces]
  split
  · rfl
  · next hr => simp [h] at hr

theorem pieces_append {p r : List Char} (h : dropPiece (p ++ r) = some r) :
    pieces (p ++ r) = p :: pieces r := by
  rw [pieces]
  split
  · next hr => simp [h] at hr
  · next hr =>
    rw [h] at hr
    cases hr
    rw [Stretch.chars_mk_append]

/-- The scan of a name repeats its step while there is one, and fails only in front of a backslash
that ends the text. -/
theorem dropName_eq (s : List Char) : dropName s =
    match dropPiece s with
    | some r => dropName r
    | none => if s = ['\\'] then none else some s := by
  cases s with
  | nil =>
    rw [dropName]
    rfl
  | cons c s =>
    by_cases hc : isNameChar c = true
    · simp [dropName_cons, dropPiece, hc]
    by_cases hb : c = '\\' ∧ s.head? ≠ some '\n'
    · obtain ⟨rfl, hs⟩ := hb
      have hpiece : dropPiece ('\\' :: s) = dropEscape s := by simp [dropPiece, hc, hs]
      rw [hpiece]
      cases s with
      | nil =>
        -- both fail, the scan since its escape does
        rw [dropName]
        rfl
      | cons d s => exact dropName_escape hs rfl
    · have hend : dropName (c :: s) = some (c :: s) := by
        rw [dropName, if_neg hc, if_neg (by simpa using hb)]
      have hpiece : dropPiece (c :: s) = none := by
        rw [dropPiece, if_neg hc, if_neg (by simpa using hb)]
      rw [hend, hpiece]
      refine (if_neg ?_).symm
      rintro ⟨⟩
      exact hb ⟨rfl, by simp⟩

theorem dropName_of_dropPiece {s r : List Char} (h : dropPiece s = some r) :
    dropName s = dropName r := by
  rw [dropName_eq s, h]

/-- A name ends where no piece is taken. -/
theorem eq_of_dropPiece_eq_none {s t : List Char} (h : dropPiece s = none)
    (hs : dropName s = some t) : s = t := by
  rw [dropName_eq, h] at hs
  dsimp only at hs
  split_ifs at hs
  exact Option.some.inj hs

/-- What a piece takes depends on no more than the next character behind it. -/
theorem dropPiece_congr {p r x : List Char} (h : dropPiece (p ++ r) = some r)
    (hx : ∀ c ∈ x.head?, c ∈ r.head?) : dropPiece (p ++ x) = some x := by
  cases p with
  | nil => exact absurd (dropPiece_length h) (Nat.lt_irrefl _)
  | cons c p =>
    simp only [List.cons_append, dropPiece] at h ⊢
    split_ifs at h with hc hb
    · have hp : p = [] := by simpa using h
      rw [if_pos hc, hp, List.nil_append]
    · have hhead : (p ++ x).head? = (p ++ r).head? := by
        cases p with
        | nil => exact absurd (dropEscape_length h) (Nat.lt_irrefl _)
        | cons d p => rfl
      rw [if_neg hc, hhead, if_pos hb]
      exact dropEscape_congr h rfl hx

/-- The pieces make up the name, and the name by itself has the same ones. -/
theorem pieces_of_dropName {s t : List Char} (h : dropName s = some t) :
    s = (pieces s).flatten ++ t ∧ pieces (pieces s).flatten = pieces s := by
  fun_induction pieces s with
  | case1 s hpiece =>
    exact ⟨eq_of_dropPiece_eq_none hpiece h, pieces_eq_nil rfl⟩
  | case2 s r hpiece _ ih =>
    obtain ⟨hr, hself⟩ := ih ((dropName_of_dropPiece hpiece).symm.trans h)
    obtain ⟨c, p, rfl⟩ := exists_of_dropPiece hpiece
    rw [Stretch.chars_mk_append, List.flatten_cons]
    generalize (pieces r).flatten = n at hr hself
    -- the next piece starts with the same character, whatever follows the name
    have hfront : dropPiece (c :: p ++ n) = some n :=
      dropPiece_congr hpiece (by cases n <;> simp [hr])
    exact ⟨by rw [hr, List.append_assoc], by rw [pieces_append hfront, hself]⟩

/-! ### What pieces stand for -/

/-- The blank that is dropped and what stands behind it. -/
theorem dropBlank_spec (s : List Char) :
    ∃ blank : Option Char, s = blank.toList ++ dropBlank s ∧ (∀ b ∈ blank, isBlank b = true) ∧
      (blank = none → ∀ b ∈ (dropBlank s).head?, isBlank b = false) := by
  cases s with
  | nil => exact ⟨none, rfl, by simp, by simp [dropBlank]⟩
  | cons b s =>
    rw [dropBlank_cons]
    cases hb : isBlank b with
    | true => exact ⟨some b, rfl, by simpa, by simp⟩
    | false => exact ⟨none, rfl, by simp, by simpa⟩

/-- An escape that gives the number of a character: up to six digits, and maybe the blank that ends
them. -/
structure HexEscape where
  digits : List Char
  blank : Option Char
  digits_ne_nil : digits ≠ []
  length_digits_le : digits.length ≤ 6
  isHexDigit_of_mem : ∀ d ∈ digits, isHexDigit d = true
  isBlank_of_mem : ∀ b ∈ blank, isBlank b = true

/-- The text of an escape. -/
def HexEscape.chars (e : HexEscape) : List Char := '\\' :: (e.digits ++ e.blank.toList)

/-- Which character a piece of a name stands for. -/
inductive Denotes : List Char → Char → Prop
  /-- A name character stands for itself. -/
  | plain {c : Char} (hc : isNameChar c = true) : Denotes [c] c
  /-- A backslash in front of a character that is no hexadecimal digit is left out. -/
  | escaped {c : Char} (hc : isHexDigit c = false) : Denotes ['\\', c] c
  /-- Digits stand for the character whose number they are the numeral of. -/
  | numbered (e : HexEscape) {c : Char} (hn : IsNumeral e.digits c.toNat)
      (hc : ¬ IsReplaced c.toNat) : Denotes e.chars c
  /-- The replacement character stands for the numbers that are no character and for zero. -/
  | replaced (e : HexEscape) {n : Nat} (hn : IsNumeral e.digits n) (h : IsReplaced n) :
      Denotes e.chars '\ufffd'

namespace HexEscape

theorem isNumeral_iff (e : HexEscape) {n : Nat} :
    IsNumeral e.digits n ↔ hexValue e.digits = n :=
  Text.isNumeral_iff e.digits_ne_nil e.isHexDigit_of_mem

/-- An escape stands for the character of the number that its digits are read as. -/
theorem denotes (e : HexEscape) : Denotes e.chars (codePoint (hexValue e.digits)) := by
  by_cases h : IsReplaced (hexValue e.digits)
  · rw [codePoint_of_isReplaced h]
    exact .replaced e (e.isNumeral_iff.2 rfl) h
  · have hn : (codePoint (hexValue e.digits)).toNat = hexValue e.digits := toNat_codePoint h
    exact .numbered e (e.isNumeral_iff.2 hn.symm) (by rwa [hn])

/-- Where the digits and the blank do not go on, decoding goes on behind the escape. -/
theorem decodeName_append (e : HexEscape) {s : List Char}
    (hdigit : e.digits.length = 6 ∨ ∀ d ∈ (e.blank.toList ++ s).head?, isHexDigit d = false)
    (hblank : e.blank = none → ∀ b ∈ s.head?, isBlank b = false) :
    decodeName (e.chars ++ s) = codePoint (hexValue e.digits) :: decodeName s := by
  obtain ⟨_ | ⟨d, ds⟩, blank, hne, hlength, hdigits, hisBlank⟩ := e
  · exact absurd rfl hne
  · rw [List.forall_mem_cons] at hdigits
    have hrun : hexRun 5 (ds ++ (blank.toList ++ s)) = ds :=
      hexRun_eq hdigits.2 (Nat.le_of_succ_le_succ hlength) (hdigit.imp_left Nat.succ.inj)
    have hend : dropBlank (blank.toList ++ s) = s := by
      cases blank with
      | none => exact dropBlank_eq_self (hblank rfl)
      | some b => exact if_pos (hisBlank b rfl)
    rw [chars, List.cons_append, List.cons_append, List.cons_append, List.append_assoc,
      decodeName_hex hdigits.1, hrun, List.drop_left, hend]

/-- What the scan takes from a backslash and a digit is an escape, and decoding takes the same. -/
theorem exists_of_dropEscape {d : Char} {s r : List Char} (hd : isHexDigit d = true)
    (h : dropEscape (d :: s) = some r) : ∃ e : HexEscape, '\\' :: d :: s = e.chars ++ r ∧
      decodeName ('\\' :: d :: s) = codePoint (hexValue e.digits) :: decodeName r := by
  obtain ⟨ds, t, rfl, hrun, hds, hlength, hstop⟩ := hexRun_spec 5 s
  obtain ⟨blank, ht, hblank, hnone⟩ := dropBlank_spec t
  obtain rfl : dropBlank t = r := by simpa [dropEscape_hex hd, hrun] using h
  let e : HexEscape := ⟨d :: ds, blank, List.cons_ne_nil d ds, Nat.succ_le_succ hlength,
    List.forall_mem_cons.2 ⟨hd, hds⟩, hblank⟩
  have hchars : '\\' :: d :: (ds ++ t) = e.chars ++ dropBlank t := by
    conv => lhs; rw [ht]
    simp [chars, e]
  refine ⟨e, hchars, ?_⟩
  rw [hchars]
  exact e.decodeName_append (ht ▸ hstop.imp_left (congrArg Nat.succ)) hnone

end HexEscape

/-- Decoding takes what the scan takes, and makes of it the character that the piece stands for. -/
theorem exists_denotes_of_dropPiece {s r : List Char} (h : dropPiece s = some r) :
    ∃ p c, s = p ++ r ∧ Denotes p c ∧ decodeName s = c :: decodeName r := by
  cases s with
  | nil => cases h
  | cons c s =>
    simp only [dropPiece] at h
    split_ifs at h with hc hb
    · cases h
      exact ⟨[c], c, rfl, .plain hc, decodeName_cons (ne_of_isNameChar hc rfl) _⟩
    · obtain ⟨rfl, -⟩ : c = '\\' ∧ s.head? ≠ some '\n' := by simpa using hb
      cases s with
      | nil => cases h
      | cons d s =>
        cases hd : isHexDigit d with
        | true =>
          obtain ⟨e, hs, hdecode⟩ := HexEscape.exists_of_dropEscape hd h
          exact ⟨e.chars, _, hs, e.denotes, hdecode⟩
        | false =>
          obtain rfl : s = r := Option.some.inj ((dropEscape_char hd s).symm.trans h)
          exact ⟨['\\', d], d, rfl, .escaped hd, decodeName_char hd _⟩

/-- A piece by itself is decoded to what it stands for. -/
theorem Denotes.decodeName_eq {p : List Char} {c : Char} (h : Denotes p c) :
    decodeName p = [c] := by
  have hnil : decodeName [] = [] := by rw [decodeName]
  have hnumbered (e : HexEscape) : decodeName e.chars = [codePoint (hexValue e.digits)] := by
    have hstop : ∀ b ∈ (e.blank.toList ++ []).head?, isHexDigit b = false := by
      intro b hb
      have hb : b ∈ e.blank := by simpa using hb
      exact isHexDigit_of_isNameChar (isNameChar_of_isBlank (e.isBlank_of_mem b hb))
    have := e.decodeName_append (.inr hstop) (by simp)
    rwa [List.append_nil, hnil] at this
  cases h with
  | plain hc => rw [decodeName_cons (ne_of_isNameChar hc rfl), hnil]
  | escaped hc => rw [decodeName_char hc, hnil]
  | numbered e hn hc => rw [hnumbered, e.isNumeral_iff.1 hn, codePoint_toNat hc]
  | replaced e hn h => rw [hnumbered, e.isNumeral_iff.1 hn, codePoint_of_isReplaced h]

/-- A piece stands for one character only. -/
theorem Denotes.rightUnique : Relator.RightUnique Denotes := by
  intro p c d hc hd
  have h : [c] = [d] := hc.decodeName_eq.symm.trans hd.decodeName_eq
  exact (List.cons.inj h).1

/-- A whole name is decoded piece by piece. -/
theorem forall₂_denotes_pieces {n : List Char} (hn : IsNameText n) :
    List.Forall₂ Denotes (pieces n) (decodeName n) := by
  unfold IsNameText at hn
  fun_induction pieces n with
  | case1 n hpiece =>
    obtain rfl : n = [] := eq_of_dropPiece_eq_none hpiece hn
    rw [decodeName]
    exact .nil
  | case2 n r hpiece _ ih =>
    obtain ⟨p, c, rfl, hc, hdecode⟩ := exists_denotes_of_dropPiece hpiece
    rw [Stretch.chars_mk_append, hdecode]
    exact .cons hc (ih ((dropName_of_dropPiece hpiece).symm.trans hn))

end Text

namespace Parser

open Text

/-- A name that is read is made up of the pieces of its scan, which are the same without the text
behind it, and its decoded text is the one that has exactly one character for each piece, the one
that the piece stands for. -/
theorem decodeName_eq_iff_of_reads_name {s t : List Char} {n : String} (h : Reads name s n t) :
    (pieces s).flatten = n.toList ∧ pieces n.toList = pieces s ∧
      ∀ v, decodeName n.toList = v ↔ List.Forall₂ Denotes (pieces s) v := by
  obtain ⟨-, hend, hs⟩ := reads_name_iff.1 h
  obtain ⟨hcut, hself⟩ := pieces_of_dropName hend
  have hname : (pieces s).flatten = n.toList := List.append_cancel_right (hcut.symm.trans hs)
  rw [hname] at hself
  have hwhole : IsNameText n.toList := by
    obtain ⟨m, hm, hmt⟩ := isNameText_of_dropName hend
    rwa [List.append_cancel_right (hs.symm.trans hm)]
  have hdecode : List.Forall₂ Denotes (pieces s) (decodeName n.toList) :=
    hself ▸ forall₂_denotes_pieces hwhole
  refine ⟨hname, hself, fun v ↦ ⟨?_, fun hv ↦ ?_⟩⟩
  · rintro rfl
    exact hdecode
  · exact Denotes.rightUnique.forall₂ hdecode hv

/-- A seventh digit is no part of an escape, and the next escape ends one without a blank. -/
theorem decodeName_eq_iff_of_reads_name_escapes :
    Reads name "b\\1F600 \\:\\0000410\\d800\\110000 c]".toList
        "b\\1F600 \\:\\0000410\\d800\\110000 c" "]".toList ∧
      pieces "b\\1F600 \\:\\0000410\\d800\\110000 c]".toList =
        ["b", "\\1F600 ", "\\:", "\\000041", "0", "\\d800", "\\110000 ", "c"].map String.toList ∧
      List.Forall₂ Denotes (pieces "b\\1F600 \\:\\0000410\\d800\\110000 c]".toList)
        "b😀:A0\ufffd\ufffdc".toList := by
  have hread : Reads name "b\\1F600 \\:\\0000410\\d800\\110000 c]".toList
      "b\\1F600 \\:\\0000410\\d800\\110000 c" "]".toList :=
    reads_name_iff.2 ⟨by decide, by cbv, rfl⟩
  have hdecode : decodeName "b\\1F600 \\:\\0000410\\d800\\110000 c".toList =
      "b😀:A0\ufffd\ufffdc".toList := by cbv
  obtain ⟨-, -, hiff⟩ := decodeName_eq_iff_of_reads_name hread
  exact ⟨hread, by cbv, (hiff _).1 hdecode⟩

end Parser

end SelectorAlgebra

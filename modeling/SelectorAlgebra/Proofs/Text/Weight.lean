import SelectorAlgebra.Proofs.Text.Decoding
import SelectorAlgebra.Proofs.Text.Indices

/-!
# Weights of texts

A measure of text that neither quoting nor spacing changes: quotes, backslashes, spaces and line
feeds weigh nothing, all other characters the same. Main statements: a value weighs no more than
what it is read from, and a comment that is passed over weighs something.
-/

namespace SelectorAlgebra.Text

/-- Whether a character weighs something. -/
def weighs (c : Char) : Bool := c ∉ ['"', '\'', '\\', ' ', '\n']

/-- How many characters of a text weigh something. -/
def weight (s : List Char) : Nat := s.countP weighs

@[simp] theorem weight_nil : weight [] = 0 := rfl

@[simp] theorem weight_append (s t : List Char) : weight (s ++ t) = weight s + weight t :=
  List.countP_append

theorem weight_cons (c : Char) (s : List Char) :
    weight (c :: s) = weight s + if weighs c then 1 else 0 :=
  List.countP_cons

theorem weight_cons_of_weighs {c : Char} (hc : weighs c = true) (s : List Char) :
    weight (c :: s) = weight s + 1 := by
  rw [weight_cons, if_pos hc]

theorem weight_sublist {s t : List Char} (h : s.Sublist t) : weight s ≤ weight t :=
  h.countP_le

theorem weight_suffix {s t : List Char} (h : s <:+ t) : weight s ≤ weight t :=
  weight_sublist h.sublist

theorem weight_dropBlanks_le (s : List Char) : weight (dropBlanks s) ≤ weight s :=
  weight_suffix (dropBlanks_suffix s)

/-- A comment weighs something. -/
theorem weight_dropBlanks_lt {s : List Char} (h : startsComment s = true) :
    weight (dropBlanks s) < weight s := by
  obtain ⟨t, rfl⟩ := startsComment_iff.1 h
  have := weight_suffix (dropComment_suffix t)
  rw [dropBlanks_comment, weight_cons_of_weighs (by decide), weight_cons_of_weighs (by decide)]
  omega

/-! ### Values -/

theorem weight_requote_cons_of_ne {c : Char} (hc : c ≠ '\n') (v : List Char) :
    weight (requote (c :: v)) = weight (requote v) + if weighs c then 1 else 0 := by
  rw [requote_cons, if_neg hc, weight_append, weight_cons, weight_nil]
  omega

theorem weight_requote_cons_le (c : Char) (v : List Char) :
    weight (requote (c :: v)) ≤ weight (requote v) + 1 := by
  rw [requote_cons, weight_append]
  have hc : weight (if c = '\n' then ['a', ' '] else [c]) ≤ 1 := by
    split
    · decide
    · exact List.countP_le_length
  omega

theorem weight_quoteChars (v : List Char) :
    weight (v.flatMap quoteChar) = weight (requote v) := by
  induction v with
  | nil => rfl
  | cons c v ih =>
    have hc : weight (quoteChar c) = weight (if c = '\n' then ['a', ' '] else [c]) := by
      unfold quoteChar
      split
      · next hquote =>
        rw [Bool.or_eq_true, decide_eq_true_eq, decide_eq_true_eq] at hquote
        rcases hquote with rfl | rfl <;> rfl
      · split <;> rfl
    rw [List.flatMap_cons, requote_cons, weight_append, weight_append, ih, hc]

/-- A value weighs in quotes what it weighs without. -/
theorem weight_writeValue (v : List Char) : weight (writeValue v) = weight (requote v) := by
  unfold writeValue
  split
  · next hplain =>
    rw [requote_eq_self_iff.2]
    exact fun hmem ↦ ne_of_isNameChar ((isName_of_isPlainName hplain).2 _ hmem) rfl rfl
  · rw [quote, weight_append, weight_cons, weight_quoteChars]
    rfl

/-- A quoted value weighs no more than what stands between its quotes. -/
theorem weight_of_readQuoted {q : Char} {s v r : List Char} (h : readQuoted q s = .ok (v, r)) :
    weight (requote v) + weight r ≤ weight s := by
  fun_induction readQuoted q s generalizing v r with
  | case1 => cases h
  | case2 => cases h
  | case3 s ih =>
    have := ih h
    rw [weight_cons, weight_cons]
    omega
  | case4 c s hn ih =>
    obtain ⟨u, hs, rfl⟩ := exists_of_map_cons h
    have := ih hs
    rw [weight_requote_cons_of_ne hn, weight_cons, weight_cons]
    omega
  | case5 s =>
    cases h
    have hnil : weight (requote []) = 0 := rfl
    rw [weight_cons, hnil]
    omega
  | case6 => cases h
  | case7 c s _ _ _ hq hn ih =>
    obtain ⟨u, hs, rfl⟩ := exists_of_map_cons h
    have := ih hs
    rw [weight_requote_cons_of_ne hn, weight_cons]
    omega

/-- The value of a name weighs no more than the name. -/
theorem weight_requote_decodeName {n : List Char} (h : IsNameText n) :
    weight (requote (decodeName n)) ≤ weight n := by
  unfold IsNameText at h
  fun_induction dropName n with
  | case1 => rw [decodeName]; exact Nat.zero_le _
  | case2 c s hc ih =>
    have := ih h
    have hb : c ≠ '\\' := ne_of_isNameChar hc rfl
    have hn : c ≠ '\n' := ne_of_isNameChar hc rfl
    rw [decodeName_cons hb, weight_requote_cons_of_ne hn, weight_cons]
    omega
  | case3 => cases h
  | case4 c s hc hescape r hr _ ih =>
    have hle := ih h
    rw [Bool.and_eq_true, beq_iff_eq] at hescape
    obtain ⟨rfl, hhead⟩ := hescape
    cases s with
    | nil => cases hr
    | cons d s =>
      cases hd : isHexDigit d with
      | false =>
        have hn : d ≠ '\n' := by simpa using hhead
        rw [dropEscape_char hd] at hr
        cases hr
        rw [decodeName_char hd, weight_requote_cons_of_ne hn, weight_cons, weight_cons]
        omega
      | true =>
        rw [dropEscape_hex hd, Option.some.injEq] at hr
        have hweighs : weighs d = true := by
          have hall : ∀ c ∈ ['"', '\'', '\\', ' ', '\n'], isHexDigit c = false := by
            simp [isHexDigit]
          apply decide_eq_true
          intro hmem
          rw [hall d hmem] at hd
          cases hd
        have hsuffix : weight r ≤ weight s :=
          weight_suffix (hr ▸ (dropBlank_suffix _).trans (List.drop_suffix _ s))
        have hcode := weight_requote_cons_le (codePoint (hexValue (d :: hexRun 5 s))) (decodeName r)
        rw [decodeName_hex hd, hr, weight_cons, weight_cons_of_weighs hweighs]
        omega
  | case5 => cases h

/-! ### Arguments -/

theorem weight_trimEnd_le (s : List Char) : weight (trimEnd s) ≤ weight s := by
  obtain ⟨z, hz, -⟩ := (trimEnd_eq_iff.1 (rfl : trimEnd s = trimEnd s)).1
  conv => rhs; rw [hz]
  rw [weight_append]
  omega

theorem weight_trim_le (s : List Char) : weight (trim s) ≤ weight s := by
  obtain ⟨⟨y, z, hyz, -⟩, -⟩ := exists_of_trim s
  conv => rhs; rw [hyz]
  rw [weight_append, weight_append]
  omega

theorem weight_startsOf {s : List Char} (h : startsOf s = true) :
    weight (s.drop 2) + 2 ≤ weight s := by
  have hweighs {c d : Char} (hd : d ∈ ['o', 'f']) (hc : c.toLower = d) : weighs c = true := by
    apply decide_eq_true
    intro hmem
    have hall : ∀ c ∈ ['"', '\'', '\\', ' ', '\n'], c.toLower ∉ ['o', 'f'] := by simp
    exact hall c hmem (hc ▸ hd)
  match s with
  | [] | [_] => cases h
  | a :: b :: s =>
    simp only [startsOf, Bool.and_eq_true, beq_iff_eq] at h
    rw [weight_cons_of_weighs (hweighs (by decide) h.1.1),
      weight_cons_of_weighs (hweighs (by decide) h.1.2)]
    exact Nat.le_refl _

/-- What is left after indices and the word `of` weighs less than what is left after the indices
alone. -/
theorem weight_rest_dropIndices {stop s : List Char} (h : s <:+ stop) :
    weight (dropIndices stop s).rest + (if (dropIndices stop s).ofList then 2 else 0) ≤
      weight (dropIndices stop s).stop := by
  fun_induction dropIndices stop s with
  | case1 => exact Nat.zero_le _
  | case2 => exact weight_suffix h
  | case3 stop c s _ _ _ hof =>
    have hstart := weight_startsOf hof
    have hblanks := weight_dropBlanks_le s
    have hstop := weight_suffix ((List.suffix_cons c s).trans h)
    simp only [if_true]
    omega
  | case4 stop c s _ _ _ _ ih =>
    exact ih ((dropBlanks_suffix s).trans ((List.suffix_cons c s).trans h))
  | case5 stop c s _ _ ih => exact ih (List.suffix_refl s)

end SelectorAlgebra.Text

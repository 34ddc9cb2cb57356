import SelectorAlgebra.Proofs.Text.Name

/-!
# Hexadecimal numerals

An escape may give the number of its character in hexadecimal digits of either case, with zeros in
front. Main statements: digits are a numeral of the number that they are read as and of no other,
and the character of a number has that number, unless the replacement character stands for it.
-/

namespace SelectorAlgebra.Text

/-- Whether digits are the hexadecimal numeral of a number, in either case and maybe behind
zeros. -/
def IsNumeral (digits : List Char) (n : Nat) : Prop :=
  ∃ zeros, digits.map Char.toLower = List.replicate zeros '0' ++ Nat.toDigits 16 n

/-- Whether the replacement character stands for a number: zero, a surrogate, or a number beyond the
last code point. -/
def IsReplaced (n : Nat) : Prop := n = 0 ∨ (0xd800 ≤ n ∧ n ≤ 0xdfff) ∨ 0x10ffff < n

/-! ### Digits -/

theorem hexDigitValue_lt {d : Char} (hd : isHexDigit d = true) : hexDigitValue d < 16 :=
  of_isHexDigit (P := fun d ↦ hexDigitValue d < 16) hd (by decide)

/-- The value of a digit does not depend on its case. -/
theorem hexDigitValue_toLower {d : Char} (hd : isHexDigit d = true) :
    hexDigitValue d.toLower = hexDigitValue d :=
  of_isHexDigit (P := fun d ↦ hexDigitValue d.toLower = hexDigitValue d) hd (by decide)

theorem digitChar_hexDigitValue {d : Char} (hd : isHexDigit d = true) :
    Nat.digitChar (hexDigitValue d) = d.toLower :=
  of_isHexDigit (P := fun d ↦ Nat.digitChar (hexDigitValue d) = d.toLower) hd (by decide)

theorem hexDigitValue_digitChar {n : Nat} (hn : n < 16) : hexDigitValue (Nat.digitChar n) = n := by
  revert n
  decide

/-! ### Numerals -/

theorem hexValue_concat (digits : List Char) (d : Char) :
    hexValue (digits ++ [d]) = 16 * hexValue digits + hexDigitValue d := by
  simp [hexValue]

theorem toDigits_concat {n v : Nat} (hn : 0 < n) (hv : v < 16) :
    Nat.toDigits 16 (16 * n + v) = Nat.toDigits 16 n ++ [Nat.digitChar v] := by
  rw [← Nat.toDigits_of_lt_base hv, Nat.toDigits_append_toDigits (by decide) hn hv]

/-- A number is read back from its numeral. -/
theorem hexValue_toDigits (n : Nat) : hexValue (Nat.toDigits 16 n) = n := by
  induction n using Nat.strongRecOn with
  | ind n ih =>
    have hlast : n % 16 < 16 := Nat.mod_lt n (by decide)
    by_cases hn : n < 16
    · rw [Nat.toDigits_of_lt_base hn, ← List.nil_append [_], hexValue_concat,
        hexDigitValue_digitChar hn]
      exact Nat.zero_add n
    · have hfront : 0 < n / 16 := by omega
      calc hexValue (Nat.toDigits 16 n)
        _ = hexValue (Nat.toDigits 16 (16 * (n / 16) + n % 16)) := by rw [Nat.div_add_mod]
        _ = 16 * (n / 16) + n % 16 := by
          rw [toDigits_concat hfront hlast, hexValue_concat, ih _ (by omega),
            hexDigitValue_digitChar hlast]
        _ = n := Nat.div_add_mod n 16

theorem hexValue_zeros_append (zeros : Nat) (digits : List Char) :
    hexValue (List.replicate zeros '0' ++ digits) = hexValue digits := by
  induction zeros with
  | zero => rfl
  | succ zeros ih => exact ih

theorem hexValue_map_toLower {digits : List Char} (hdigits : ∀ d ∈ digits, isHexDigit d = true) :
    hexValue (digits.map Char.toLower) = hexValue digits := by
  induction digits using List.reverseRecOn with
  | nil => rfl
  | append_singleton digits d ih =>
    rw [List.forall_mem_append, List.forall_mem_singleton] at hdigits
    rw [List.map_append, List.map_singleton, hexValue_concat, hexValue_concat, ih hdigits.1,
      hexDigitValue_toLower hdigits.2]

/-- Digits are a numeral of the number that they are read as. -/
theorem isNumeral_hexValue {digits : List Char} (hne : digits ≠ [])
    (hdigits : ∀ d ∈ digits, isHexDigit d = true) : IsNumeral digits (hexValue digits) := by
  induction digits using List.reverseRecOn with
  | nil => exact absurd rfl hne
  | append_singleton digits d ih =>
    rw [List.forall_mem_append, List.forall_mem_singleton] at hdigits
    have hvalue := hexDigitValue_lt hdigits.2
    rw [IsNumeral, hexValue_concat, List.map_append, List.map_singleton,
      ← digitChar_hexDigitValue hdigits.2]
    rcases eq_or_ne digits [] with rfl | hfront
    · refine ⟨0, ?_⟩
      rw [show hexValue [] = 0 from rfl, Nat.mul_zero, Nat.zero_add, Nat.toDigits_of_lt_base hvalue]
      rfl
    · obtain ⟨zeros, hzeros⟩ := ih hfront hdigits.1
      rw [hzeros]
      rcases Nat.eq_zero_or_pos (hexValue digits) with hzero | hpos
      · -- the digits so far are zeros, and one of them was the numeral
        refine ⟨zeros + 1, ?_⟩
        rw [hzero, Nat.mul_zero, Nat.zero_add, Nat.toDigits_of_lt_base hvalue, Nat.toDigits_zero,
          List.replicate_succ']
      · exact ⟨zeros, by rw [toDigits_concat hpos hvalue, List.append_assoc]⟩

theorem isNumeral_iff {digits : List Char} {n : Nat} (hne : digits ≠ [])
    (hdigits : ∀ d ∈ digits, isHexDigit d = true) : IsNumeral digits n ↔ hexValue digits = n := by
  constructor
  · rintro ⟨zeros, h⟩
    rw [← hexValue_map_toLower hdigits, h, hexValue_zeros_append, hexValue_toDigits]
  · rintro rfl
    exact isNumeral_hexValue hne hdigits

/-! ### Code points -/

theorem isReplaced_iff {n : Nat} : IsReplaced n ↔ ¬ (n ≠ 0 ∧ n.isValidChar) := by
  unfold IsReplaced Nat.isValidChar
  omega

theorem codePoint_of_isReplaced {n : Nat} (h : IsReplaced n) : codePoint n = '\ufffd' :=
  if_neg (isReplaced_iff.1 h)

theorem toNat_codePoint {n : Nat} (h : ¬ IsReplaced n) : (codePoint n).toNat = n := by
  obtain ⟨hzero, hvalid⟩ := not_not.1 (isReplaced_iff.not.1 h)
  rw [codePoint, if_pos ⟨hzero, hvalid⟩, Char.ofNat, dif_pos hvalid]
  rfl

/-- A character is the one of its number. -/
theorem codePoint_toNat {c : Char} (h : ¬ IsReplaced c.toNat) : codePoint c.toNat = c :=
  Char.toNat_inj.1 (toNat_codePoint h)

end SelectorAlgebra.Text

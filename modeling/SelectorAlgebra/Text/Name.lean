import SelectorAlgebra.Text.Blank

/-!
# Names

Identifiers and the escapes in them. A name is kept as it was written, escapes included, so reading
one only finds where it ends; decoding resolves the escapes. Main statement: what is left after a
name is a suffix of the text.
-/

namespace SelectorAlgebra.Text

/-- Whether a character may start a name: a letter, a low line, or any character outside ASCII. -/
def isNameStart (c : Char) : Bool :=
  c.isAlpha || c == '_' || 128 ≤ c.toNat

/-- Whether a character may stand inside a name: a name start, a digit or a hyphen. -/
def isNameChar (c : Char) : Bool :=
  isNameStart c || c.isDigit || c == '-'

/-- Whether a character is a hexadecimal digit. -/
def isHexDigit (c : Char) : Bool :=
  c.isDigit || ('a' ≤ c && c ≤ 'f') || ('A' ≤ c && c ≤ 'F')

/-- Whether a text starts with a backslash and a character other than a line feed. -/
def startsEscape : List Char → Bool
  | '\\' :: c :: _ => c != '\n'
  | _ => false

/-- Whether a text starts with a name: a name start or an escape, or a hyphen that one of these or a
second hyphen follows. -/
def startsName : List Char → Bool
  | '-' :: s => startsEscape s || s.head?.any fun c ↦ isNameStart c || c == '-'
  | s => startsEscape s || s.head?.any isNameStart

/-- The hexadecimal digits at the front of a text, at most `n` of them. -/
def hexRun (n : Nat) (s : List Char) : List Char :=
  (s.take n).takeWhile isHexDigit

/-- The text after an escape whose backslash has been passed: a hexadecimal digit takes up to five
more and one blank with it, any other character stands alone. There is none at the end of the
text. -/
def dropEscape : List Char → Option (List Char)
  | [] => none
  | c :: s => some (if isHexDigit c then dropBlank (s.drop (hexRun 5 s).length) else s)

/-- What is left after an escape is a suffix of the text. -/
theorem dropEscape_suffix {s r : List Char} (h : dropEscape s = some r) : r <:+ s := by
  cases s with
  | nil => simp [dropEscape] at h
  | cons c s =>
    simp only [dropEscape, Option.some.injEq] at h
    subst h
    split
    · exact (dropBlank_suffix _).trans ((List.drop_suffix _ s).trans (List.suffix_cons c s))
    · exact List.suffix_cons c s

/-- An escape takes at least one character. -/
theorem dropEscape_length {s r : List Char} (h : dropEscape s = some r) :
    r.length < s.length := by
  cases s with
  | nil => simp [dropEscape] at h
  | cons c s =>
    simp only [dropEscape, Option.some.injEq] at h
    subst h
    split
    · have := ((dropBlank_suffix (s.drop (hexRun 5 s).length)).trans
        (List.drop_suffix _ s)).length_le
      simp only [List.length_cons]
      omega
    · simp

/-- The text after the name characters and escapes at its front. There is none when the text ends
with the backslash of an escape. -/
def dropName (s : List Char) : Option (List Char) :=
  match s with
  | [] => some []
  | c :: s =>
    if isNameChar c then dropName s
    else if c == '\\' && s.head? != some '\n' then
      match h : dropEscape s with
      | none => none
      | some r => have := dropEscape_length h; dropName r
    else some (c :: s)
termination_by s.length
decreasing_by all_goals simp only [List.length_cons]; omega

/-- What is left after a name is a suffix of the text. -/
theorem dropName_suffix {s r : List Char} (h : dropName s = some r) : r <:+ s := by
  fun_induction dropName s with
  | case1 => cases h; exact List.suffix_refl _
  | case2 c s _ ih => exact (ih h).trans (List.suffix_cons c s)
  | case3 => cases h
  | case4 c s _ _ t ht _ ih =>
    exact (ih h).trans ((dropEscape_suffix ht).trans (List.suffix_cons c s))
  | case5 => cases h; exact List.suffix_refl _

/-- The value of a hexadecimal digit. -/
def hexDigitValue (c : Char) : Nat :=
  if c.isDigit then c.toNat - '0'.toNat
  else if 'a' ≤ c then c.toNat - 'a'.toNat + 10
  else c.toNat - 'A'.toNat + 10

/-- The number that hexadecimal digits write, the most significant first. -/
def hexValue (digits : List Char) : Nat :=
  digits.foldl (fun n c ↦ 16 * n + hexDigitValue c) 0

/-- The character of a code point; the replacement character for zero, for a surrogate and for a
number that is no code point. -/
def codePoint (n : Nat) : Char :=
  if n ≠ 0 ∧ n.isValidChar then Char.ofNat n else '\ufffd'

/-- The text that a name denotes: every escape is replaced by its character. -/
def decodeName (s : List Char) : List Char :=
  match s with
  | [] => []
  | c :: s =>
    if c == '\\' then
      match hexRun 6 s, s with
      | [], [] => []
      | [], d :: s => d :: decodeName s
      | digits@(_ :: _), s =>
        have := ((dropBlank_suffix (s.drop digits.length)).trans
          (List.drop_suffix digits.length s)).length_le
        codePoint (hexValue digits) :: decodeName (dropBlank (s.drop digits.length))
    else c :: decodeName s
termination_by s.length
decreasing_by all_goals simp only [List.length_cons] at *; omega

end SelectorAlgebra.Text

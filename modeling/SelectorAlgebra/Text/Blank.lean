/-!
# Blanks

What may stand between the parts of a selector: white space and comments. The wider Unicode class
of white space, which is cut from the ends of a text that is kept as it was written, stands here
too. Main statement: dropping blanks leaves a suffix of the text.
-/

namespace SelectorAlgebra.Text

/-- The white space of selector text: line feed, tab, space, carriage return and form feed. -/
def isBlank (c : Char) : Bool :=
  c == '\n' || c == '\t' || c == ' ' || c == '\r' || c == '\x0c'

mutual

/-- The text after the white space and the comments at its front. -/
def dropBlanks : List Char → List Char
  | '/' :: '*' :: s => dropComment s
  | c :: s => if isBlank c then dropBlanks s else c :: s
  | [] => []

/-- The text after a comment whose opening has been passed and the blanks that follow it; a comment
that is never closed runs to the end. -/
def dropComment : List Char → List Char
  | '*' :: '/' :: s => dropBlanks s
  | _ :: s => dropComment s
  | [] => []

end

mutual

/-- Whether a line feed stands among the blanks at the front of a text, comments aside. -/
def blanksBreakLine : List Char → Bool
  | '/' :: '*' :: s => commentThenBreak s
  | c :: s => isBlank c && (c == '\n' || blanksBreakLine s)
  | [] => false

/-- Whether a line feed stands among the blanks that follow a comment whose opening has been
passed. -/
def commentThenBreak : List Char → Bool
  | '*' :: '/' :: s => blanksBreakLine s
  | _ :: s => commentThenBreak s
  | [] => false

end

/-- The text without the one blank character at its front, if there is one. -/
def dropBlank : List Char → List Char
  | c :: s => if isBlank c then s else c :: s
  | [] => []

/-- The ranges of the Unicode property White_Space. -/
def spaceRanges : List (Nat × Nat) :=
  [(0x09, 0x0d), (0x20, 0x20), (0x85, 0x85), (0xa0, 0xa0), (0x1680, 0x1680), (0x2000, 0x200a),
    (0x2028, 0x2029), (0x202f, 0x202f), (0x205f, 0x205f), (0x3000, 0x3000)]

/-- Whether a character has the Unicode property White_Space. -/
def isSpace (c : Char) : Bool :=
  spaceRanges.any fun r ↦ r.1 ≤ c.toNat && c.toNat ≤ r.2

/-- The text without the white space at its end. -/
def trimEnd (s : List Char) : List Char :=
  (s.reverse.dropWhile isSpace).reverse

/-- The text without the white space at either end. -/
def trim (s : List Char) : List Char :=
  trimEnd (s.dropWhile isSpace)

mutual

/-- Dropping blanks leaves a suffix of the text. -/
theorem dropBlanks_suffix (s : List Char) : dropBlanks s <:+ s := by
  unfold dropBlanks
  split
  · next s => exact (dropComment_suffix s).trans ⟨['/', '*'], rfl⟩
  · next c s _ =>
    split
    · exact (dropBlanks_suffix s).trans (List.suffix_cons c s)
    · exact List.suffix_refl _
  · exact List.suffix_refl _

/-- Dropping a comment leaves a suffix of the text. -/
theorem dropComment_suffix (s : List Char) : dropComment s <:+ s := by
  unfold dropComment
  split
  · next s => exact (dropBlanks_suffix s).trans ⟨['*', '/'], rfl⟩
  · next c s _ => exact (dropComment_suffix s).trans (List.suffix_cons c s)
  · exact List.suffix_refl _

end

/-- Dropping one blank leaves a suffix of the text. -/
theorem dropBlank_suffix (s : List Char) : dropBlank s <:+ s := by
  unfold dropBlank
  split
  · next c s =>
    split
    · exact List.suffix_cons c s
    · exact List.suffix_refl _
  · exact List.suffix_refl _

/-- A blank at the front is dropped. -/
theorem dropBlanks_cons_of_isBlank {c : Char} {s : List Char} (h : isBlank c = true) :
    dropBlanks (c :: s) = dropBlanks s := by
  conv => lhs; unfold dropBlanks
  split
  · next heq =>
    cases heq
    simp [isBlank] at h
  · next heq =>
    cases heq
    simp [h]
  · next heq => cases heq

end SelectorAlgebra.Text

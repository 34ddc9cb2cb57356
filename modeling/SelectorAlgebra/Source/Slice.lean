/-!
# Slices

Parts of a text between byte offsets in its UTF-8 form. There is a slice only between offsets that
stand at boundaries between characters and not past the end of the text.
-/

namespace SelectorAlgebra.Text

/-- The number of bytes of a text. -/
def byteSize : List Char → Nat
  | [] => 0
  | c :: s => c.utf8Size + byteSize s

/-- The text from a byte offset on. There is none past the end or inside a character. -/
def sliceFrom : List Char → Nat → Option (List Char)
  | s, 0 => some s
  | [], _ + 1 => none
  | c :: s, n + 1 => if c.utf8Size ≤ n + 1 then sliceFrom s (n + 1 - c.utf8Size) else none

/-- The text up to a byte offset. There is none past the end or inside a character. -/
def sliceTo : List Char → Nat → Option (List Char)
  | _, 0 => some []
  | [], _ + 1 => none
  | c :: s, n + 1 =>
    if c.utf8Size ≤ n + 1 then (sliceTo s (n + 1 - c.utf8Size)).map (c :: ·) else none

/-- The text between two byte offsets. There is none if either is past the end or inside a
character, or if they are in reverse order. -/
def slice (s : List Char) (start stop : Nat) : Option (List Char) :=
  if start ≤ stop then (sliceFrom s start).bind fun t ↦ sliceTo t (stop - start) else none

/-- The byte offset of the first place where a pattern stands in a text. -/
def find (pattern : List Char) : List Char → Option Nat
  | [] => if pattern.isEmpty then some 0 else none
  | c :: s =>
    if pattern.isPrefixOf (c :: s) then some 0 else (find pattern s).map (c.utf8Size + ·)

end SelectorAlgebra.Text

/-!
# Locations

Points of a source text. A location is what walking over the text before it gives, so the location
after a text is a fold over its characters. Main statement: walking over two texts one after the
other is walking over their concatenation.
-/

namespace SelectorAlgebra

/-- A point in a source text: its offset in UTF-8 bytes, its line and its column in characters, all
counted from zero. -/
structure Location where
  offset : Nat
  line : Nat
  column : Nat
  deriving DecidableEq, Repr

namespace Location

/-- The start of every text. -/
def origin : Location := ⟨0, 0, 0⟩

/-- The location after one more character; a line feed starts the next line. -/
def step (l : Location) (c : Char) : Location :=
  if c = '\n' then ⟨l.offset + c.utf8Size, l.line + 1, 0⟩
  else ⟨l.offset + c.utf8Size, l.line, l.column + 1⟩

/-- The location after a text that starts at a location. -/
def advance (l : Location) (s : List Char) : Location :=
  s.foldl step l

/-- The longest run of whole characters at the front of a text that fits into a number of bytes. -/
def fitting : Nat → List Char → List Char
  | _, [] => []
  | n, c :: s => if c.utf8Size ≤ n then c :: fitting (n - c.utf8Size) s else []

/-- The location of a byte offset: an offset past the end stands for the end, and one inside a
character for the start of that character. -/
def locate (source : List Char) (offset : Nat) : Location :=
  origin.advance (fitting offset source)

/-- Walking over a concatenation is walking over its parts in turn. -/
theorem advance_append (l : Location) (s t : List Char) :
    l.advance (s ++ t) = (l.advance s).advance t := by
  simp [advance]

/-- What fits is the front of the text. -/
theorem fitting_isPrefix (n : Nat) (s : List Char) : fitting n s <+: s := by
  induction s generalizing n with
  | nil => simp [fitting]
  | cons c s ih =>
    simp only [fitting]
    split
    · exact List.cons_prefix_cons.2 ⟨rfl, ih _⟩
    · exact ⟨c :: s, rfl⟩

end Location

end SelectorAlgebra

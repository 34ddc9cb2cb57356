import SelectorAlgebra.Source.Location
import SelectorAlgebra.Source.Slice

/-!
# Spans

Ranges of a source text, with the text they cover and the name of its source. Inside the reader a
range is a stretch: the text from where it starts and the text from where it stops.
-/

namespace SelectorAlgebra

/-- A range of a source text, its end excluded. -/
structure Span where
  /-- Where the text came from, if that is known. -/
  url : Option String
  start : Location
  stop : Location
  /-- The covered text. -/
  text : String
  deriving DecidableEq, Repr

namespace Span

/-- The span between two byte offsets of a text; a stop before the start stands for the start. -/
def ofOffsets (source : List Char) (url : Option String) (start stop : Nat) : Span :=
  let first := Location.locate source start
  let last := max stop first.offset
  { url
    start := first
    stop := Location.locate source last
    text := String.ofList
      ((Location.fitting last source).drop (Location.fitting start source).length) }

/-- The number of bytes covered. -/
def size (s : Span) : Nat :=
  s.stop.offset - s.start.offset

/-- The place a span starts at, as diagnostics name it: source, line and column, both counted from
one; a hyphen stands for an unknown source. -/
def place (s : Span) : String :=
  s.url.getD "-" ++ ":" ++ toString (s.start.line + 1) ++ ":" ++ toString (s.start.column + 1)

end Span

/-- A range of a text, given by the two suffixes of the text that follow its ends. -/
structure Stretch where
  /-- The text from the start of the range. -/
  start : List Char
  /-- The text after the range. -/
  stop : List Char
  deriving DecidableEq, Repr

namespace Stretch

/-- The characters of a range. -/
def chars (r : Stretch) : List Char :=
  r.start.take (r.start.length - r.stop.length)

/-- The span of a range inside its whole text. -/
def span (r : Stretch) (source : List Char) (url : Option String) : Span :=
  let size := Text.byteSize
  Span.ofOffsets source url (size source - size r.start) (size source - size r.stop)

/-- A range and the text after it make up the text from its start. -/
theorem chars_append {r : Stretch} (h : r.stop <:+ r.start) : r.chars ++ r.stop = r.start := by
  obtain ⟨t, h⟩ := h
  simp [chars, ← h]

/-- The range in front of a text is what was put there. -/
@[simp] theorem chars_mk_append (s t : List Char) : chars ⟨s ++ t, t⟩ = s := by
  simp [chars]

end Stretch

end SelectorAlgebra

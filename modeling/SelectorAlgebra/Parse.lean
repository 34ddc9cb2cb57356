import SelectorAlgebra.Diagnostic.Warning
import SelectorAlgebra.Scanner.Selector

/-!
# Reading selectors from text

The four kinds of selector can each be read from a whole text.
-/

namespace SelectorAlgebra

/-- How a text is read. -/
structure ParseOptions extends Allowance where
  /-- Where the text came from. -/
  url : Option String := none
  deriving DecidableEq, Repr

/-- What reading a text gives: the warnings up to the end or to the error, and the value. -/
structure Parsed (α : Type) where
  warnings : List Warning
  result : Except SyntaxError α

/-- What a scan gives, with the byte offsets that it names as spans of the text; nothing if it
crashes. -/
def Scan.parsed? {α : Type} (x : Scan α) (text : List Char) (url : Option String) :
    Option (Parsed α) :=
  let warnings := x.notices.map fun r ↦
    Warning.multipleCombinators (Span.ofOffsets text url r.1 r.2)
  match x.result with
  | .ok (a, _) => some ⟨warnings, .ok a⟩
  | .error (.fault fault start stop) =>
    some ⟨warnings, .error ⟨fault, Span.ofOffsets text url start stop⟩⟩
  | .error .crash => none

/-- What a scanner makes of a whole text. No scanner of a selector crashes, so what is given in
place of a crash is never seen. -/
def Scanner.run {α : Type} (q : Scanner α) (text : String) (url : Option String) : Parsed α :=
  ((q text.toList 0).parsed? text.toList url).getD
    ⟨[], .error ⟨.expectedSelector, Span.ofOffsets text.toList url 0 0⟩⟩

/-- Reads a selector list. -/
def SelectorList.parse (text : String) (options : ParseOptions := {}) : Parsed SelectorList :=
  (Scanner.wholeList options.toAllowance).run text options.url

/-- Reads a complex selector. -/
def Complex.parse (text : String) (options : ParseOptions := {}) : Parsed Complex :=
  let allow := options.toAllowance
  (Scanner.whole (Scanner.complex allow (Scanner.nestedList allow) false)).run text options.url

/-- Reads a compound selector. -/
def Compound.parse (text : String) (options : ParseOptions := {}) : Parsed Compound :=
  let allow := options.toAllowance
  (Scanner.whole (Scanner.compound allow (Scanner.nestedList allow))).run text options.url

/-- Reads a simple selector. -/
def Simple.parse (text : String) (options : ParseOptions := {}) : Parsed Simple :=
  let allow := options.toAllowance
  (Scanner.whole (Scanner.simple allow (Scanner.nestedList allow) true)).run text options.url

end SelectorAlgebra

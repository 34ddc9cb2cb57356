import SelectorAlgebra.Selector.Text
import SelectorAlgebra.Source.Span

/-!
# Errors

What can go wrong with selectors, and the text that tells it.
-/

namespace SelectorAlgebra

/-- Why a text cannot be read as a selector. -/
inductive SyntaxFault where
  /-- No selector starts where one has to. -/
  | expectedSelector
  /-- No name starts where one has to. -/
  | expectedName
  /-- An attribute selector is not closed, or its operator is none. -/
  | expectedBracket
  /-- The namespace `*` of an attribute has no bar after it. -/
  | expectedBar
  /-- The argument of a pseudo selector is not closed. -/
  | expectedParenthesis
  /-- A pseudo-class that counts does not say which. -/
  | expectedIndices
  /-- A quoted string is not closed on its line. -/
  | expectedString
  /-- A text ends with the backslash of an escape. -/
  | expectedEscape
  /-- A placeholder stands where none may. -/
  | forbiddenPlaceholder
  /-- A parent selector stands where none may. -/
  | forbiddenParent
  /-- A parent selector stands after other simple selectors. -/
  | parentNotFirst
  /-- A character is left after the selector. -/
  | unexpected (c : Char)
  deriving DecidableEq, Repr

/-- The text of a fault. -/
def SyntaxFault.message : SyntaxFault → String
  | expectedSelector => "expected selector."
  | expectedName => "Expected identifier."
  | expectedBracket => "Expected \"]\"."
  | expectedBar => "Expected \"|\"."
  | expectedParenthesis => "Expected \")\"."
  | expectedIndices => "Expected An+B expression."
  | expectedString => "Expected string."
  | expectedEscape => "Expected escape sequence."
  | forbiddenPlaceholder => "Placeholder selectors aren't allowed here."
  | forbiddenParent => "Parent selectors aren't allowed here."
  | parentNotFirst => "\"&\" may only used at the beginning of a compound selector."
  | unexpected c => "unexpected \"" ++ String.ofList [c] ++ "\"."

/-- A fault and the part of the text that it is about. -/
structure SyntaxError where
  fault : SyntaxFault
  span : Span
  deriving DecidableEq, Repr

/-- A failure of an operation on selectors. -/
inductive SelectorError where
  /-- A complex selector would hold nothing. -/
  | emptyComplex
  /-- A complex selector has no component to ask for. -/
  | noComponents (selector : Complex)
  /-- A text is no selector. -/
  | malformed (error : SyntaxError)
  /-- There is no enclosing rule that a parent selector could stand for. -/
  | topLevelParent
  /-- A parent has no compound selector at its end to merge with. -/
  | invalidParent (parent : Complex)
  /-- A simple selector has no name at its end to lengthen. -/
  | invalidSuffix (selector : Simple) (suffix : String)

/-- The text of a failure. -/
def SelectorError.message : SelectorError → String
  | emptyComplex => "a complex selector may not be empty"
  | noComponents c => "complex selector \"" ++ c.text ++ "\" has no components"
  | malformed e => e.fault.message ++ "\n  at " ++ e.span.place
  | topLevelParent => "top-level selectors may not contain the parent selector \"&\""
  | invalidParent p =>
    "selector \"" ++ p.text ++ "\" can't be used as a parent in a compound selector"
  | invalidSuffix s suffix =>
    "selector \"" ++ s.text ++ "\" can't have a suffix \"" ++ suffix ++ "\""

end SelectorAlgebra

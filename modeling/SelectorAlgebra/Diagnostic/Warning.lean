import SelectorAlgebra.Source.Span
import SelectorAlgebra.Text.Blank

/-!
# Warnings

What is reported about a text that can be read all the same.
-/

namespace SelectorAlgebra

/-- A message about a part of a text. -/
structure Warning where
  message : String
  /-- The part of the text that the message is about, where there is one. -/
  span : Option Span
  /-- Whether the message is about a form that will be refused one day. -/
  deprecation : Bool
  deriving DecidableEq, Repr

namespace Warning

/-- The warning about a complex selector that holds several combinators in one place. -/
def multipleCombinators (span : Span) : Warning where
  message :=
    "The selector \"" ++ String.ofList (Text.trimEnd span.text.toList) ++
      "\" is invalid CSS: it has more than one combinator in a row. " ++
      "This will be an error in a future version."
  span := some span
  deprecation := true

end Warning

end SelectorAlgebra

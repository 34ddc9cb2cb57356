import SelectorAlgebra.Parser.Simple
import SelectorAlgebra.Selector.Word

/-!
# The grammar of selectors

Compound selectors, complex selectors and selector lists. Their parsers take the parser of nested
selector lists as a parameter; tying the knot by depth gives the parser of selector lists, and a
depth past the length of the text is never used up. Repetitions are bounded by the length of the
text in the same way.
-/

namespace SelectorAlgebra

namespace Parser

/-- Whether a simple selector comes next that may follow another in a compound selector. -/
def continuesCompound : List Char → Bool
  | c :: _ => c ∈ ['[', '.', '#', '%', ':', '&']
  | [] => false

/-- Takes further simple selectors of a compound selector, at most `bound` of them. -/
def moreSimples (allow : Allowance) (nested : Parser SelectorList) : Nat → Parser Compound
  | 0 => return []
  | bound + 1 => do
    if continuesCompound (← rest) then
      let s ← simple allow nested false
      return s :: (← moreSimples allow nested bound)
    else return []

/-- Takes a compound selector. -/
def compound (allow : Allowance) (nested : Parser SelectorList) : Parser Compound := do
  let s ← simple allow nested true
  return s :: (← moreSimples allow nested (← rest).length)

/-- Whether a compound selector comes next. -/
def startsCompound : List Char → Bool
  | c :: s => c ∈ ['*', '[', '.', '#', '%', ':', '&', '|'] || Text.startsName (c :: s)
  | [] => false

/-- Takes parts of a complex selector and the blanks around them, at most `bound` parts. A compound
selector directly after another, which `adjacent` tells, needs blanks in front of it. -/
def parts (allow : Allowance) (nested : Parser SelectorList) : Nat → Bool → Parser (List Part)
  | 0, _ => do
    blanks
    return []
  | bound + 1, adjacent => do
    let before ← rest
    blanks
    let s ← rest
    match s.head?.bind Combinator.ofSymbol? with
    | some k =>
      goTo s.tail
      return .combinator k :: (← parts allow nested bound false)
    | none =>
      if (!adjacent || s.length < before.length) && startsCompound s then
        let c ← compound allow nested
        return .compound c :: (← parts allow nested bound true)
      else return []

/-- Takes a complex selector and the blanks after it, and reports one that holds several combinators
in one place. -/
def complex (allow : Allowance) (nested : Parser SelectorList) (lineBreak : Bool) :
    Parser Complex := do
  let start ← rest
  let word ← parts allow nested start.length false
  if word.isEmpty then failSince start .expectedSelector
  else
    let c := Complex.ofWord word lineBreak
    if c.hasMultipleCombinators then notice start
    return c

/-- Takes further members of a selector list, each after a comma, at most `bound` of them. A line
break after the comma is kept with the member. -/
def moreMembers (allow : Allowance) (nested : Parser SelectorList) : Nat → Parser SelectorList
  | 0 => return []
  | bound + 1 => do
    blanks
    if ← accept ',' then
      let lineBreak := Text.blanksBreakLine (← rest)
      blanks
      let c ← complex allow nested lineBreak
      return c :: (← moreMembers allow nested bound)
    else return []

/-- Takes a selector list. -/
def members (allow : Allowance) (nested : Parser SelectorList) : Parser SelectorList := do
  blanks
  let c ← complex allow nested false
  return c :: (← moreMembers allow nested (← rest).length)

/-- Takes a selector list in which lists are nested less than `depth` deep. -/
def list (allow : Allowance) : Nat → Parser SelectorList
  | 0 => fail .expectedSelector
  | depth + 1 => members allow (list allow depth)

/-- Takes a selector list of any depth that the text has room for. -/
def nestedList (allow : Allowance) : Parser SelectorList := fun s ↦
  list allow (s.length + 1) s

/-- Takes the whole text, with blanks around what is read. -/
def whole {α : Type} (p : Parser α) : Parser α := do
  blanks
  let a ← p
  blanks
  match ← rest with
  | [] => return a
  | c :: _ => fail (.unexpected c)

end Parser

end SelectorAlgebra

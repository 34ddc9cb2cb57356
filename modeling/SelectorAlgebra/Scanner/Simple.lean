import SelectorAlgebra.Scanner.Text
import SelectorAlgebra.Selector.PseudoName

/-!
# Scanning simple selectors

One scanner for each kind of simple selector. Those that may hold a selector list take the scanner
of selector lists as a parameter.
-/

namespace SelectorAlgebra.Scanner

/-- Whether a bar comes next that ends a namespace and does not start an operator. -/
def startsBar : Scanner Bool := do
  if (← peek) = some '|' then return (← peekAt 1) != some '=' else return false

/-- Takes what follows the bar of a namespace in a type or universal selector. -/
def namespaced (ns : String) : Scanner Simple := do
  if ← accept '*' then return .universal (some ns)
  else return .type ⟨some ns, ← name⟩

/-- Takes a type or universal selector. -/
def typeSelector : Scanner Simple := do
  if ← accept '*' then
    if ← accept '|' then namespaced "*" else return .universal none
  else if ← accept '|' then namespaced ""
  else
    let n ← name
    if ← startsBar then
      bump
      namespaced n
    else return .type ⟨none, n⟩

/-- Takes the name of an attribute. -/
def attributeName : Scanner QualifiedName := do
  if ← accept '*' then
    expect '|' .expectedBar
    return ⟨some "*", ← name⟩
  else if ← startsBar then
    bump
    return ⟨some "", ← name⟩
  else
    let n ← name
    if ← startsBar then
      bump
      return ⟨some n, ← name⟩
    else return ⟨none, n⟩

/-- Takes the operator of an attribute selector. How long it is is guessed from its first character,
and there may be no such part of the text. -/
def attributeOperator : Scanner AttributeOperator := do
  let start ← position
  let size := if (← peek) = some '=' then 1 else 2
  let symbol := (Text.slice (← source) start (start + size)).getD []
  match AttributeOperator.ofSymbol? symbol with
  | some o =>
    advance size
    return o
  | none => failSince start .expectedBracket

/-- Takes the value of an attribute selector. It is kept without quotes and escapes, so that both
ways to write it give the same selector. -/
def attributeValue : Scanner String := do
  match ← peek with
  | some '"' => quoted '"'
  | some '\'' => quoted '\''
  | _ => return String.ofList (Text.decodeName (← name).toList)

/-- Takes the letter after the value of an attribute selector and the blanks after it, if there is
one. -/
def attributeModifier : Scanner (Option Char) := do
  match ← peek with
  | some c =>
    if c.isAlpha then
      bump
      let _ ← blanks
      return some c
    else return none
  | none => return none

/-- Takes an attribute selector whose opening bracket comes next. -/
def attributeSelector : Scanner AttributeSelector := do
  bump
  let _ ← blanks
  let n ← attributeName
  let _ ← blanks
  if ← accept ']' then return { name := n }
  else
    let o ← attributeOperator
    let _ ← blanks
    let v ← attributeValue
    let _ ← blanks
    let m ← attributeModifier
    expect ']' .expectedBracket
    return ⟨n, some o, some v, m⟩

/-- Takes the indices of a pseudo-class that counts siblings, and the selector list after the word
`of`, if it is there. -/
def indices (nested : Scanner SelectorList) : Scanner (String × Option SelectorList) := do
  let start ← position
  let (stop, ofList) ← loop indicesRound start
  if ofList then
    let _ ← blanks
    let a ← indicesBetween start stop
    return (a, some (← nested))
  else return (← indicesBetween start stop, none)

/-- Takes the argument of a pseudo selector, as its name asks for it. -/
def argument (nested : Scanner SelectorList) (n : String) (element : Bool) : Scanner Pseudo := do
  let kind := PseudoKind.ofName (Pseudo.normalize n)
  if kind.takesSelector element then
    if kind = .counting then
      let (a, l) ← indices nested
      return ⟨n, element, some a, l⟩
    else return ⟨n, element, none, some (← nested)⟩
  else return ⟨n, element, some (← rawArgument), none⟩

/-- Takes a pseudo selector whose first colon comes next. -/
def pseudo (nested : Scanner SelectorList) : Scanner Pseudo := do
  bump
  let element ← accept ':'
  let n ← name
  if ← accept '(' then
    let _ ← blanks
    let p ← argument nested n element
    let _ ← blanks
    expect ')' .expectedParenthesis
    return p
  else return ⟨n, element, none, none⟩

/-- Takes a parent selector; `first` tells whether nothing stands before it in its compound. -/
def parent (allow : Allowance) (first : Bool) : Scanner Simple := do
  let start ← position
  if !allow.parent then failSince start .forbiddenParent
  else if !first then failSince start .parentNotFirst
  else
    bump
    let suffixStart ← position
    nameChars
    let stop ← position
    if suffixStart < stop then
      return .parent (some (String.ofList (← slice suffixStart stop)))
    else return .parent none

/-- Takes a simple selector; `first` tells whether nothing stands before it in its compound. -/
def simple (allow : Allowance) (nested : Scanner SelectorList) (first : Bool) :
    Scanner Simple := do
  let start ← position
  match ← peek with
  | some '[' => return .attribute (← attributeSelector)
  | some '.' =>
    bump
    return .className (← name)
  | some '#' =>
    bump
    return .id (← name)
  | some '%' =>
    if allow.placeholder then
      bump
      return .placeholder (← name)
    else failSince start .forbiddenPlaceholder
  | some ':' => return .pseudo (← pseudo nested)
  | some '&' => parent allow first
  | some '*' => typeSelector
  | some '|' => typeSelector
  | some _ => if ← startsName then typeSelector else failSince start .expectedSelector
  | none => failSince start .expectedSelector

end SelectorAlgebra.Scanner

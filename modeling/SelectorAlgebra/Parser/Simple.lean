import SelectorAlgebra.Parser.Argument
import SelectorAlgebra.Selector.PseudoName

/-!
# The grammar of simple selectors

One parser for each kind of simple selector. Those that may hold a selector list take the parser of
selector lists as a parameter.
-/

namespace SelectorAlgebra.Parser

/-- Whether a bar comes next that ends a namespace and does not start an operator. -/
def startsBar : List Char → Bool
  | '|' :: '=' :: _ => false
  | '|' :: _ => true
  | _ => false

/-- Takes what follows the bar of a namespace in a type or universal selector. -/
def namespaced (ns : String) : Parser Simple := do
  if ← accept '*' then return .universal (some ns)
  else return .type ⟨some ns, ← name⟩

/-- Takes a type or universal selector. -/
def typeSelector : Parser Simple := do
  if ← accept '*' then
    if ← accept '|' then namespaced "*" else return .universal none
  else if ← accept '|' then namespaced ""
  else
    let n ← name
    let s ← rest
    if startsBar s then
      goTo s.tail
      namespaced n
    else return .type ⟨none, n⟩

/-- Takes the name of an attribute. -/
def attributeName : Parser QualifiedName := do
  if ← accept '*' then
    expect '|' .expectedBar
    return ⟨some "*", ← name⟩
  else
    let s ← rest
    if startsBar s then
      goTo s.tail
      return ⟨some "", ← name⟩
    else
      let n ← name
      let s ← rest
      if startsBar s then
        goTo s.tail
        return ⟨some n, ← name⟩
      else return ⟨none, n⟩

/-- Takes the operator of an attribute selector. -/
def attributeOperator : Parser AttributeOperator := do
  let s ← rest
  let size := if s.head? = some '=' then 1 else 2
  match AttributeOperator.ofSymbol? (s.take size) with
  | some o =>
    goTo (s.drop size)
    return o
  | none => fail .expectedBracket

/-- Takes the value of an attribute selector. It is kept without quotes and escapes, so that both
ways to write it give the same selector. -/
def attributeValue : Parser String := do
  match ← rest with
  | '"' :: _ | '\'' :: _ => quoted
  | _ => return String.ofList (Text.decodeName (← name).toList)

/-- Takes the letter after the value of an attribute selector and the blanks after it, if there is
one. -/
def attributeModifier : Parser (Option Char) := do
  match ← rest with
  | c :: s =>
    if c.isAlpha then
      goTo s
      blanks
      return some c
    else return none
  | [] => return none

/-- Takes an attribute selector whose opening bracket has been taken. -/
def attributeSelector : Parser AttributeSelector := do
  blanks
  let n ← attributeName
  blanks
  if ← accept ']' then return { name := n }
  else
    let o ← attributeOperator
    blanks
    let v ← attributeValue
    blanks
    let m ← attributeModifier
    expect ']' .expectedBracket
    return ⟨n, some o, some v, m⟩

/-- Takes the argument of a pseudo selector, as its name asks for it. -/
def argument (nested : Parser SelectorList) (n : String) (element : Bool) : Parser Pseudo := do
  let kind := PseudoKind.ofName (Pseudo.normalize n)
  if kind.takesSelector element then
    if kind = .counting then
      let (a, l) ← indices nested
      return ⟨n, element, some a, l⟩
    else return ⟨n, element, none, some (← nested)⟩
  else return ⟨n, element, some (← rawArgument), none⟩

/-- Takes a pseudo selector whose first colon has been taken. -/
def pseudo (nested : Parser SelectorList) : Parser Pseudo := do
  let element ← accept ':'
  let n ← name
  if ← accept '(' then
    blanks
    let p ← argument nested n element
    blanks
    expect ')' .expectedParenthesis
    return p
  else return ⟨n, element, none, none⟩

/-- Takes a parent selector; `first` tells whether nothing stands before it in its compound. -/
def parent (allow : Allowance) (first : Bool) : Parser Simple := do
  if !allow.parent then fail .forbiddenParent
  else if !first then fail .parentNotFirst
  else
    goTo (← rest).tail
    let suffix ← nameChars
    return .parent (if suffix.isEmpty then none else some suffix)

/-- Takes a simple selector; `first` tells whether nothing stands before it in its compound. -/
def simple (allow : Allowance) (nested : Parser SelectorList) (first : Bool) : Parser Simple := do
  match ← rest with
  | '[' :: s =>
    goTo s
    return .attribute (← attributeSelector)
  | '.' :: s =>
    goTo s
    return .className (← name)
  | '#' :: s =>
    goTo s
    return .id (← name)
  | '%' :: s =>
    if allow.placeholder then
      goTo s
      return .placeholder (← name)
    else fail .forbiddenPlaceholder
  | ':' :: s =>
    goTo s
    return .pseudo (← pseudo nested)
  | '&' :: _ => parent allow first
  | '*' :: _ | '|' :: _ => typeSelector
  | s => if Text.startsName s then typeSelector else fail .expectedSelector

end SelectorAlgebra.Parser

import SelectorAlgebra.Scanner.Basic
import SelectorAlgebra.Text.Name

/-!
# Scanning text

Blanks, names, quoted strings and the arguments that are no selectors, as they are passed at byte
offsets.
-/

namespace SelectorAlgebra.Scanner

/-! ### Blanks -/

/-- Takes a comment that comes next; one that is never closed runs to the end. -/
def comment : Scanner Unit := do
  advance 2
  match Text.find ['*', '/'] (← rest) with
  | some i => advance (i + 2)
  | none => moveTo (Text.byteSize (← source))

/-- Takes a white space character or a comment. The state tells whether a line feed was among the
white space. -/
def blanksRound (newline : Bool) : Scanner (Round Bool Bool) := do
  match ← peek with
  | some c =>
    if Text.isBlank c then
      bump
      return .again (newline || c == '\n')
    else if c = '/' then
      if (← peekAt 1) = some '*' then
        comment
        return .again newline
      else return .done newline
    else return .done newline
  | none => return .done newline

/-- Takes the blanks that come next, and tells whether a line feed was among them, comments
aside. -/
def blanks : Scanner Bool :=
  loop blanksRound false

/-! ### Names -/

/-- Takes hexadecimal digits, at most `bound` of them. -/
def hexDigits : Nat → Scanner Unit
  | 0 => return ()
  | bound + 1 => do
    if (← peek).any Text.isHexDigit then
      bump
      hexDigits bound
    else return ()

/-- Takes an escape whose backslash comes next. -/
def escape : Scanner Unit := do
  let start ← position
  bump
  match ← consume with
  | some c =>
    if Text.isHexDigit c then
      hexDigits 5
      if (← peek).any Text.isBlank then bump else return ()
    else return ()
  | none => failSince start .expectedEscape

/-- Takes a name character or an escape. -/
def nameRound : Unit → Scanner (Round Unit Unit) := fun _ ↦ do
  match ← peek with
  | some c =>
    if Text.isNameChar c then
      bump
      return .again ()
    else if c = '\\' then
      if (← peekAt 1) = some '\n' then return .done ()
      else
        escape
        return .again ()
    else return .done ()
  | none => return .done ()

/-- Takes name characters and escapes, maybe none. -/
def nameChars : Scanner Unit :=
  loop nameRound ()

/-- Whether two characters in a row are a backslash and another than a line feed. -/
def isEscape (c next : Option Char) : Bool :=
  c == some '\\' && next != some '\n' && next.isSome

/-- Whether a name comes next. -/
def startsName : Scanner Bool := do
  match ← peek with
  | some c =>
    if c = '-' then
      let second ← peekAt 1
      if second.any fun d ↦ Text.isNameStart d || d == '-' then return true
      else return isEscape second (← peekAt 2)
    else if Text.isNameStart c then return true
    else if c = '\\' then return isEscape (some c) (← peekAt 1)
    else return false
  | none => return false

/-- Takes a name, which is kept as it is written. -/
def name : Scanner String := do
  let start ← position
  if ← startsName then
    nameChars
    return String.ofList (← slice start (← position))
  else failSince start .expectedName

/-! ### Quoted strings -/

/-- Takes a character of a quoted string or its closing quote. The state is the value so far. -/
def quotedRound (quote : Char) (start : Nat) (value : String) : Scanner (Round String String) := do
  match ← consume with
  | some c =>
    if c = quote then return .done value
    else if c = '\n' then failSince start .expectedString
    else if c = '\\' then
      match ← consume with
      | some d => if d = '\n' then return .again value else return .again (value.push d)
      | none => failSince start .expectedString
    else return .again (value.push c)
  | none => failSince start .expectedString

/-- Takes a quoted string whose quote comes next, and gives its value. -/
def quoted (quote : Char) : Scanner String := do
  let start ← position
  bump
  loop (quotedRound quote start) ""

/-! ### Arguments that are no selectors -/

/-- Takes a part of an argument in which `depth` parentheses are open. -/
def argumentRound (depth : Nat) : Scanner (Round Nat Unit) := do
  match ← peek with
  | none => fail .expectedParenthesis
  | some c =>
    if c = ')' then
      match depth with
      | 0 => return .done ()
      | depth + 1 =>
        bump
        return .again depth
    else if c = '(' then
      bump
      return .again (depth + 1)
    else if c = '"' || c = '\'' then
      let _ ← quoted c
      return .again depth
    else if c = '\\' then
      escape
      return .again depth
    else
      bump
      return .again depth

/-- Takes an argument that is no selector, up to its closing parenthesis. -/
def rawArgument : Scanner String := do
  let start ← position
  loop argumentRound 0
  return String.ofList (Text.trimEnd (← slice start (← position)))

/-- Whether a word of ASCII letters comes next, in any case, and no name character behind it. -/
def startsKeyword (keyword : List Char) : Scanner Bool := do
  let s ← rest
  match Text.sliceTo s (Text.byteSize keyword) with
  | some word =>
    if word.map Char.toLower = keyword.map Char.toLower then
      return !(← require (Text.sliceFrom s (Text.byteSize keyword))).head?.any Text.isNameChar
    else return false
  | none => return false

/-- Takes a character of indices, or white space in them. The state is the byte offset behind the
last character that belongs to them. At the end it is told whether the word `of` was taken. -/
def indicesRound (stop : Nat) : Scanner (Round Nat (Nat × Bool)) := do
  match ← peek with
  | some c =>
    if c = ')' then return .done (stop, false)
    else if Text.isBlank c then
      let _ ← blanks
      if ← startsKeyword ['o', 'f'] then
        advance 2
        return .done (stop, true)
      else return .again stop
    else
      bump
      return .again (← position)
  | none => return .done (stop, false)

/-- The indices between two byte offsets, of which there has to be something. -/
def indicesBetween (start stop : Nat) : Scanner String := do
  let argument := Text.trim (← slice start stop)
  if argument.isEmpty then failSince start .expectedIndices
  else return String.ofList argument

end SelectorAlgebra.Scanner

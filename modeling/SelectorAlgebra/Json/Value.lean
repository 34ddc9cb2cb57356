/-!
# JSON

JSON values and their text, on one line or with an indentation of two spaces. The members of an
object keep their order.
-/

namespace SelectorAlgebra

/-- A JSON value; numbers are natural numbers. -/
inductive Json where
  | null
  | bool (b : Bool)
  | number (n : Nat)
  | string (s : String)
  | array (items : List Json)
  | object (fields : List (String × Json))

namespace Json

/-- Text, or null where there is none. -/
def ofText? : Option String → Json
  | some s => string s
  | none => null

/-- The digit of a number below sixteen. -/
def hexDigit (n : Nat) : Char :=
  if n < 10 then Char.ofNat ('0'.toNat + n) else Char.ofNat ('a'.toNat + (n - 10))

/-- A character inside quotes. Quotes and backslashes get a backslash in front, and control
characters their short or numbered escape. -/
def escapeChar (c : Char) : List Char :=
  if c = '"' then ['\\', '"']
  else if c = '\\' then ['\\', '\\']
  else if c = '\n' then ['\\', 'n']
  else if c = '\r' then ['\\', 'r']
  else if c = '\t' then ['\\', 't']
  else if c = '\x08' then ['\\', 'b']
  else if c = '\x0c' then ['\\', 'f']
  else if c.toNat < 32 then
    ['\\', 'u', '0', '0', hexDigit (c.toNat / 16), hexDigit (c.toNat % 16)]
  else [c]

/-- A string in quotes. -/
def quote (s : String) : String :=
  "\"" ++ String.ofList (s.toList.flatMap escapeChar) ++ "\""

/-- How the parts of an array or object are set apart. -/
structure Layout where
  /-- What stands in front of an item at a depth. -/
  before : Nat → String
  /-- What stands between a key and its value. -/
  colon : String

/-- Everything on one line, without a space. -/
def Layout.compact : Layout where
  before := fun _ ↦ ""
  colon := ":"

/-- Each item on a line of its own, two spaces further in than its container. -/
def Layout.indented : Layout where
  before := fun depth ↦ "\n" ++ String.ofList (List.replicate (2 * depth) ' ')
  colon := ": "

mutual

/-- The text of a value that stands at a depth. -/
def write (layout : Layout) (depth : Nat) : Json → String
  | null => "null"
  | bool b => if b then "true" else "false"
  | number n => toString n
  | string s => quote s
  | array [] => "[]"
  | array (j :: js) =>
    "[" ++ layout.before (depth + 1) ++ write layout (depth + 1) j ++
      writeItems layout (depth + 1) js ++ layout.before depth ++ "]"
  | object [] => "\x7b\x7d"
  | object ((k, j) :: fs) =>
    "\x7b" ++ layout.before (depth + 1) ++ quote k ++ layout.colon ++
      write layout (depth + 1) j ++ writeFields layout (depth + 1) fs ++ layout.before depth ++
      "\x7d"

/-- The text of the items of an array after the first. -/
def writeItems (layout : Layout) (depth : Nat) : List Json → String
  | [] => ""
  | j :: js =>
    "," ++ layout.before depth ++ write layout depth j ++ writeItems layout depth js

/-- The text of the members of an object after the first. -/
def writeFields (layout : Layout) (depth : Nat) : List (String × Json) → String
  | [] => ""
  | (k, j) :: fs =>
    "," ++ layout.before depth ++ quote k ++ layout.colon ++ write layout depth j ++
      writeFields layout depth fs

end

/-- The text of a value on one line. -/
def compact (j : Json) : String := j.write Layout.compact 0

/-- The text of a value over several lines. -/
def indented (j : Json) : String := j.write Layout.indented 0

end Json

end SelectorAlgebra

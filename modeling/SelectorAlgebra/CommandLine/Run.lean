import SelectorAlgebra.CommandLine.Arguments
import SelectorAlgebra.Covering.Relation
import SelectorAlgebra.Diagnostic.Console
import SelectorAlgebra.Json.Selector
import SelectorAlgebra.Nesting.Resolve
import SelectorAlgebra.Parse

/-!
# Running a command

A command gives the texts for the two output streams and the exit code.
-/

namespace SelectorAlgebra.CommandLine

/-- What a run leaves behind. -/
structure Outcome where
  stdout : String
  stderr : String
  code : UInt32
  deriving DecidableEq, Repr

/-- Why a command fails. -/
inductive Failure where
  /-- A selector cannot be read or nested. -/
  | selector (error : SelectorError)
  /-- An operand cannot be read, and the part it plays is named. -/
  | operand (role : String) (error : SelectorError)
  /-- Nesting is asked for where parent selectors are refused. -/
  | nestWithoutParent

/-- The text of a failure; the cause of one stands below it, further in. -/
def Failure.text : Failure → String
  | selector e => e.message
  | operand role e =>
    let indented (c : Char) : List Char := if c = '\n' then "\n    ".toList else [c]
    "in the " ++ role ++ " selector\n\nCaused by:\n    " ++
      String.ofList (e.message.toList.flatMap indented)
  | nestWithoutParent =>
    "\x60nest\x60 resolves parent selectors and can't be used with \x60--no-parent\x60"

/-- A step of a command: the console goes along, what is shown on it is collected, and a failure
keeps both. -/
abbrev Step := ExceptT Failure (StateM (Console × String))

/-- Shows warnings, unless they are left out. -/
def report (o : Options) (warnings : List Warning) : Step Unit := do
  let (console, shown) ← get
  if !o.quiet then
    let (console, more) := console.warnAll warnings
    set (console, shown ++ more)

/-- Reads a selector list; a failure is put into words by the given function. -/
def read (o : Options) (text : String) (allowParent : Bool)
    (failure : SelectorError → Failure := .selector) : Step SelectorList := do
  let parsed := SelectorList.parse text { parent := allowParent, url := o.url }
  report o parsed.warnings
  match parsed.result with
  | .ok l => return l
  | .error e => throw (failure (.malformed e))

/-- A text with spaces after it, up to a number of characters. -/
def padRight (width : Nat) (text : String) : String :=
  text ++ String.ofList (List.replicate (width - text.length) ' ')

/-- The weights of the members, one on a line, and of the list if it has several. -/
def specificityTable (o : Options) (l : SelectorList) : String :=
  let width := (l.map fun c ↦ c.text.utf8ByteSize).foldr max 0
  let line (width : Nat) (label : String) (s : Specificity) :=
    padRight width label ++ "  " ++ Style.cyan.apply (!o.noColour) s.text ++ "\n"
  String.join (l.map fun c ↦ line width c.text c.specificity) ++
    if 1 < l.length then
      line (max width "(list)".length) "(list)" (SelectorList.specificity l)
    else ""

/-- The weights of the list and of the members as JSON. -/
def specificityJson (l : SelectorList) : Json :=
  .object [("list", .object (SelectorList.specificity l).jsonFields),
    ("members", .array (l.map fun c ↦
      .object (c.specificity.jsonFields ++ [("selector", .string c.text)])))]

/-- The answer whether a selector list covers another. -/
def coveringText (o : Options) (a b : SelectorList) : String :=
  let holds := SelectorList.covers a b
  let answer := if holds then "yes" else "no"
  if o.json then (Json.object [("superselector", .bool holds)]).compact
  else if o.noColour then answer
  else
    Style.bold.apply true ((if holds then Style.green else Style.red).apply true answer) ++ " " ++
      SelectorList.text a ++ (if holds then " is" else " is not") ++ " a superselector of " ++
      SelectorList.text b

/-- A selector list as a result. -/
def listText (o : Options) (l : SelectorList) : String :=
  if o.json then (SelectorList.json l).indented else SelectorList.text l

/-- The text that a command writes. -/
def Command.output (o : Options) : Command → Step String
  | .parse selector => do
    return listText o (← read o selector (!o.noParent)) ++ "\n"
  | .specificity selector => do
    let l ← read o selector (!o.noParent)
    return if o.json then (specificityJson l).indented ++ "\n" else specificityTable o l
  | .superselector a b => do
    let a ← read o a (!o.noParent)
    let b ← read o b (!o.noParent)
    return coveringText o a b ++ "\n"
  | .nest parent child => do
    if o.noParent then throw .nestWithoutParent
    let parent ← read o parent false (.operand "parent")
    let child ← read o child true (.operand "child")
    match SelectorList.nestWithin child parent true false with
    | .ok l => return listText o l ++ "\n"
    | .error e => throw (.selector e)

/-- Runs a command. -/
def Command.run (o : Options) (c : Command) : Outcome :=
  match (c.output o).run.run ({ colour := !o.noColour }, "") with
  | (.ok stdout, (_, shown)) => ⟨stdout, shown, 0⟩
  | (.error e, (_, shown)) => ⟨"", shown ++ "Error: " ++ e.text ++ "\n", 1⟩

/-- Runs the command that the arguments ask for; arguments that name none are refused. -/
def run (arguments : List String) : Outcome :=
  match ofArguments? arguments with
  | some (o, c) => c.run o
  | none => ⟨"", "Error: the arguments name no command\n", 2⟩

end SelectorAlgebra.CommandLine

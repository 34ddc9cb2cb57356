/-!
# Arguments of the command line

Options may stand anywhere among the arguments, up to a double hyphen that ends them; what is left
is the command and its operands.
-/

namespace SelectorAlgebra.CommandLine

/-- Options that hold for every command. -/
structure Options where
  /-- Whether warnings are left out. -/
  quiet : Bool := false
  /-- Whether the output is without colours. -/
  noColour : Bool := false
  /-- What the selectors are said to come from. -/
  url : Option String := none
  /-- Whether parent selectors are refused. -/
  noParent : Bool := false
  /-- Whether results are written as JSON. -/
  json : Bool := false
  deriving DecidableEq, Repr

/-- What is asked for, with the texts of the selectors. -/
inductive Command where
  /-- The canonical text of a selector list. -/
  | parse (selector : String)
  /-- The weights of a selector list and of its members. -/
  | specificity (selector : String)
  /-- Whether the first selector list covers the second. -/
  | superselector (a b : String)
  /-- The selector of a rule in another rule. -/
  | nest (parent child : String)
  deriving DecidableEq, Repr

/-- Options with a source in front of them: a source that they name themselves comes later and stays
in force. -/
def Options.behindUrl (o : Options) (url : String) : Options :=
  { o with url := some (o.url.getD url) }

/-- The options, and the other arguments in order; none where an option is unknown or its value is
missing. An option may be given again, and of several sources the last one counts. -/
def readOptions : List String → Option (Options × List String)
  | [] => some ({}, [])
  | "--" :: operands => some ({}, operands)
  | "--url" :: url :: rest => (readOptions rest).map fun (o, r) ↦ (o.behindUrl url, r)
  | argument :: rest =>
    match readOptions rest with
    | none => none
    | some (o, r) =>
      match argument.toList with
      | '-' :: 'q' :: [] => some ({ o with quiet := true }, r)
      | '-' :: '-' :: name =>
        if name = "quiet".toList then some ({ o with quiet := true }, r)
        else if name = "no-color".toList then some ({ o with noColour := true }, r)
        else if name = "no-parent".toList then some ({ o with noParent := true }, r)
        else if name = "json".toList then some ({ o with json := true }, r)
        else if "url=".toList.isPrefixOf name then
          some (o.behindUrl (String.ofList (name.drop 4)), r)
        else none
      | '-' :: _ :: _ => none
      | _ => some (o, argument :: r)

/-- The command that the arguments other than options name. -/
def Command.ofOperands? : List String → Option Command
  | ["parse", selector] => some (.parse selector)
  | ["specificity", selector] => some (.specificity selector)
  | ["superselector", a, b] => some (.superselector a b)
  | ["nest", parent, child] => some (.nest parent child)
  | _ => none

/-- The options and the command of the arguments. -/
def ofArguments? (arguments : List String) : Option (Options × Command) := do
  let (options, operands) ← readOptions arguments
  return (options, ← Command.ofOperands? operands)

end SelectorAlgebra.CommandLine

import SelectorAlgebra.Parser.Basic
import SelectorAlgebra.Text.Quoted

/-!
# Arguments of pseudo selectors

The arguments that are no selectors: a text up to the closing parenthesis, and the indices of the
pseudo-classes that count siblings.
-/

namespace SelectorAlgebra

namespace Text

/-- The text from the parenthesis that closes an argument in which `depth` parentheses are open.
Strings and escapes are passed over as wholes. -/
def dropArgument (depth : Nat) (s : List Char) : Except Fault (List Char) :=
  match s with
  | [] => .error ⟨.expectedParenthesis, ⟨[], []⟩⟩
  | c :: s =>
    if c = ')' then
      match depth with
      | 0 => .ok (c :: s)
      | depth + 1 => dropArgument depth s
    else if c = '(' then dropArgument (depth + 1) s
    else if c = '"' || c = '\'' then
      match h : readQuoted c s with
      | .error stop => .error ⟨.expectedString, ⟨c :: s, stop⟩⟩
      | .ok (_, r) => have := (readQuoted_suffix h).2; dropArgument depth r
    else if c = '\\' then
      match h : dropEscape s with
      | none => .error ⟨.expectedEscape, ⟨c :: s, []⟩⟩
      | some r => have := dropEscape_length h; dropArgument depth r
    else dropArgument depth s
termination_by s.length
decreasing_by all_goals simp only [List.length_cons]; omega

/-- Whether a text starts with the word `of`, in any case. -/
def startsOf : List Char → Bool
  | a :: b :: s => a.toLower == 'o' && b.toLower == 'f' && !s.head?.any isNameChar
  | _ => false

/-- Where the indices of a pseudo-class that counts siblings end. -/
structure IndicesEnd where
  /-- The text after the last character that belongs to the indices. -/
  stop : List Char
  /-- The text that is to be read next. -/
  rest : List Char
  /-- Whether the word `of` was taken, so that a selector list follows. -/
  ofList : Bool

/-- The end of indices: they run to a closing parenthesis or to the word `of` after white space.
`stop` follows the last character taken. -/
def dropIndices (stop s : List Char) : IndicesEnd :=
  match s with
  | [] => ⟨stop, [], false⟩
  | c :: s =>
    if c = ')' then ⟨stop, c :: s, false⟩
    else if isBlank c then
      have := (dropBlanks_suffix s).length_le
      if startsOf (dropBlanks s) then ⟨stop, (dropBlanks s).drop 2, true⟩
      else dropIndices stop (dropBlanks s)
    else dropIndices s s
termination_by s.length
decreasing_by all_goals simp only [List.length_cons]; omega

end Text

namespace Parser

/-- Takes a quoted string and gives its value. -/
def quoted : Parser String := fun s ↦
  match s with
  | [] => fail .expectedString s
  | quote :: r =>
    match Text.readQuoted quote r with
    | .ok (v, r) => ⟨[], .ok (String.ofList v, r)⟩
    | .error stop => ⟨[], .error ⟨.expectedString, ⟨s, stop⟩⟩⟩

/-- Takes an argument that is no selector, up to its closing parenthesis. -/
def rawArgument : Parser String := fun s ↦
  match Text.dropArgument 0 s with
  | .ok r => ⟨[], .ok (String.ofList (Text.trimEnd (Stretch.chars ⟨s, r⟩)), r)⟩
  | .error e => ⟨[], .error e⟩

/-- Takes the indices of a pseudo-class that counts siblings, and the selector list after the word
`of`, if it is there. -/
def indices (nested : Parser SelectorList) : Parser (String × Option SelectorList) := do
  let start ← rest
  let ending := Text.dropIndices start start
  goTo ending.rest
  if ending.ofList then blanks
  let argument := Text.trim (Stretch.chars ⟨start, ending.stop⟩)
  if argument.isEmpty then failSince start .expectedIndices
  else if ending.ofList then return (String.ofList argument, some (← nested))
  else return (String.ofList argument, none)

end Parser

end SelectorAlgebra

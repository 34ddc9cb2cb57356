import SelectorAlgebra.Scanner.Simple
import SelectorAlgebra.Selector.Word

/-!
# Scanning selectors

Compound selectors, complex selectors and selector lists, and the end of the text behind them.
Nested selector lists are scanned to a depth that the text has no room for.
-/

namespace SelectorAlgebra.Scanner

/-- Takes a further simple selector of a compound selector. The state is what has been taken. -/
def compoundRound (allow : Allowance) (nested : Scanner SelectorList) (simples : Compound) :
    Scanner (Round Compound Compound) := do
  if (← peek).any (· ∈ ['[', '.', '#', '%', ':', '&']) then
    return .again (simples ++ [← simple allow nested false])
  else return .done simples

/-- Takes a compound selector. -/
def compound (allow : Allowance) (nested : Scanner SelectorList) : Scanner Compound := do
  loop (compoundRound allow nested) [← simple allow nested true]

/-- What has been taken of a complex selector. -/
structure Draft where
  leading : List Combinator := []
  components : Path := []
  /-- The last compound selector, which is no component yet. -/
  last : Option Compound := none
  /-- The combinators after the last compound selector. -/
  combinators : List Combinator := []

namespace Draft

/-- A combinator is put at the end. -/
def addCombinator (d : Draft) (k : Combinator) : Draft :=
  if d.last.isSome then { d with combinators := d.combinators ++ [k] }
  else { d with leading := d.leading ++ [k] }

/-- A compound selector is put at the end, and the one before it becomes a component. -/
def addCompound (d : Draft) (c : Compound) : Draft :=
  match d.last with
  | some l =>
    { d with components := d.components ++ [⟨l, d.combinators⟩], last := some c, combinators := [] }
  | none => { d with last := some c }

/-- The components, the last compound selector among them. -/
def path (d : Draft) : Path :=
  match d.last with
  | some l => d.components ++ [⟨l, d.combinators⟩]
  | none => d.components

end Draft

/-- Whether a compound selector comes next, of which the first character is given. -/
def startsCompound (c : Char) : Scanner Bool := do
  if c ∈ ['*', '[', '.', '#', '%', ':', '&', '|'] then return true else startsName

/-- Takes a combinator or a compound selector of a complex selector, and the blanks in front of it.
A compound selector behind another has to be separated from it. -/
def complexRound (allow : Allowance) (nested : Scanner SelectorList) (d : Draft) :
    Scanner (Round Draft Draft) := do
  let before ← position
  let _ ← blanks
  let separated := before < (← position) || !d.combinators.isEmpty
  match ← peek with
  | some c =>
    match Combinator.ofSymbol? c with
    | some k =>
      bump
      return .again (d.addCombinator k)
    | none =>
      if d.last.isNone || separated then
        if ← startsCompound c then return .again (d.addCompound (← compound allow nested))
        else return .done d
      else return .done d
  | none => return .done d

/-- Takes a complex selector and the blanks after it, and reports one that holds several combinators
in one place. -/
def complex (allow : Allowance) (nested : Scanner SelectorList) (lineBreak : Bool) :
    Scanner Complex := do
  let start ← position
  let d ← loop (complexRound allow nested) {}
  if d.leading.isEmpty && d.path.isEmpty then failSince start .expectedSelector
  else
    let c : Complex := ⟨d.leading, d.path, lineBreak⟩
    if c.hasMultipleCombinators then notice start
    return c

/-- Takes a member of a selector list and the comma after it. The state is the members so far and
whether the next one is on a line of its own. -/
def memberRound (allow : Allowance) (nested : Scanner SelectorList)
    (state : SelectorList × Bool) : Scanner (Round (SelectorList × Bool) SelectorList) := do
  let members := state.1 ++ [← complex allow nested state.2]
  let _ ← blanks
  if ← accept ',' then return .again (members, ← blanks)
  else return .done members

/-- Takes a selector list. -/
def members (allow : Allowance) (nested : Scanner SelectorList) : Scanner SelectorList := do
  let _ ← blanks
  loop (memberRound allow nested) ([], false)

/-- Takes a selector list in which lists are nested less than `depth` deep. -/
def list (allow : Allowance) : Nat → Scanner SelectorList
  | 0 => halt .crash
  | depth + 1 => members allow (list allow depth)

/-- Takes a selector list of any depth that the text has room for. -/
def nestedList (allow : Allowance) : Scanner SelectorList := do
  list allow (Text.byteSize (← source) + 1)

/-- Asks for the end of the text, with blanks in front of it. -/
def ending : Scanner Unit := do
  let _ ← blanks
  match ← peek with
  | some c => fail (.unexpected c)
  | none => return ()

/-- Takes a selector list that is the whole text. -/
def wholeList (allow : Allowance) : Scanner SelectorList := do
  let l ← nestedList allow
  ending
  return l

/-- Takes what is the whole text but for blanks around it. -/
def whole {α : Type} (q : Scanner α) : Scanner α := do
  let _ ← blanks
  let a ← q
  ending
  return a

end SelectorAlgebra.Scanner

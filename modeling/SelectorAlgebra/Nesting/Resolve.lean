import SelectorAlgebra.Nesting.Interleave
import SelectorAlgebra.Nesting.Suffix
import SelectorAlgebra.Selector.Parent
import SelectorAlgebra.Selector.Word

/-!
# Nesting

The selector of a rule inside another rule. A parent selector is replaced by each member of the
parent, in every combination where several occur, and a member without one gets the parent in front.
Each member of the nested selector gives a block of members, and the blocks are interleaved.
-/

namespace SelectorAlgebra

/-- A member of the parent that takes the place of `&` in a compound selector: the suffix goes to
its last name, the further conditions to its last compound selector, and the combinators after
it. -/
def Complex.merge (parent : Complex) (suffix : Option String) (conditions : Compound)
    (combinators : List Combinator) : Except SelectorError Complex :=
  match parent.components.getLast? with
  | none => .error (.invalidParent parent)
  | some last =>
    if last.combinators.isEmpty then do
      let subject ←
        match suffix with
        | none => pure last.compound
        | some suffix =>
          if last.compound.isEmpty then throw (.invalidParent parent)
          else Compound.withSuffix last.compound suffix
      return { parent with
        components := parent.components.dropLast ++ [⟨subject ++ conditions, combinators⟩] }
    else .error (.invalidParent parent)

/-- Whether `&` occurs in a selector list inside a compound selector. -/
def Compound.hasNestedParent (c : Compound) : Bool :=
  c.any fun | .pseudo p => p.hasParent | _ => false

/-- What a component becomes for each member of the parent, once the lists inside its pseudo
selectors are resolved: `&` alone is the parent itself, and a component without `&` in front
stays. -/
def Compound.placements (parent : SelectorList) (compound resolved : Compound)
    (combinators : List Combinator) : Except SelectorError SelectorList :=
  match compound with
  | [.parent none] => .ok (SelectorList.withCombinators parent combinators)
  | .parent suffix :: _ => parent.mapM fun p ↦ p.merge suffix resolved.tail combinators
  | _ => .ok [⟨[], [⟨resolved, combinators⟩], false⟩]

/-- The selectors so far with what the next component of a member becomes behind each of them: the
component itself where no `&` is replaced in it. The leading combinators of the member stand in
front of what its first component becomes. -/
def SelectorList.advance (leading : List Combinator) (heads : SelectorList) (component : Component) :
    Option SelectorList → SelectorList
  | none =>
    if heads.isEmpty then [⟨leading, [component], false⟩]
    else heads.map fun h ↦ h.withComponent component false
  | some placements =>
    if heads.isEmpty then
      if leading.isEmpty then placements
      else placements.map fun p ↦ { p with leading := leading ++ p.leading }
    else heads.flatMap fun h ↦ placements.map fun p ↦ h.concatenate p false

/-- The members that a member without `&` gives: the parent goes in front if it is implied. -/
def Complex.unresolved (parent : SelectorList) (implied : Bool) (c : Complex) : SelectorList :=
  if implied then parent.map fun p ↦ p.concatenate c false else [c]

mutual

/-- A simple selector in whose selector list `&` is replaced. -/
def Simple.resolve (parent : SelectorList) : Simple → Except SelectorError Simple
  | .pseudo p => do return .pseudo (← p.resolve parent)
  | s => .ok s

/-- A pseudo selector in whose selector list `&` is replaced; the parent is not implied there. -/
def Pseudo.resolve (parent : SelectorList) : Pseudo → Except SelectorError Pseudo
  | ⟨name, element, argument, none⟩ => .ok ⟨name, element, argument, none⟩
  | ⟨name, element, argument, some l⟩ =>
    if SelectorList.hasParent l then do
      return ⟨name, element, argument, some (interleave (← SelectorList.blocks parent false l))⟩
    else .ok ⟨name, element, argument, some l⟩

/-- For each member of a list, the members that it gives. -/
def SelectorList.blocks (parent : SelectorList) (implied : Bool) :
    SelectorList → Except SelectorError (List SelectorList)
  | [] => .ok []
  | c :: l => do
    let block ← c.block parent implied
    return block :: (← SelectorList.blocks parent implied l)

/-- The members that a member gives, one for each choice of parents for its components. -/
def Complex.block (parent : SelectorList) (implied : Bool) :
    Complex → Except SelectorError SelectorList
  | ⟨leading, components, lineBreak⟩ =>
    if Path.hasParent components then Path.resolve parent leading components []
    else .ok (Complex.unresolved parent implied ⟨leading, components, lineBreak⟩)

/-- The selectors so far with what the components of a path become behind them, taken one component
after the other. -/
def Path.resolve (parent : SelectorList) (leading : List Combinator) :
    Path → SelectorList → Except SelectorError SelectorList
  | [], heads => .ok heads
  | component :: p, heads => do
    let placements ← component.resolve parent
    Path.resolve parent leading p (SelectorList.advance leading heads component placements)

/-- What a component becomes for each member of the parent, unless no `&` is replaced in it. -/
def Component.resolve (parent : SelectorList) :
    Component → Except SelectorError (Option SelectorList)
  | ⟨compound, combinators⟩ =>
    if Compound.hasNestedParent compound || Compound.startsWithParent compound then do
      let resolved ← Compound.resolve parent compound
      return some (← Compound.placements parent compound resolved combinators)
    else .ok none

/-- A compound selector in whose selector lists `&` is replaced. -/
def Compound.resolve (parent : SelectorList) : Compound → Except SelectorError Compound
  | [] => .ok []
  | s :: c => do
    let resolved ← s.resolve parent
    return resolved :: (← Compound.resolve parent c)

end

/-- The selector of a rule nested in a rule with the given parent. Where the parent selectors are to
be kept, only the parent in front is added. -/
def SelectorList.nestWithin (l : SelectorList) (parent : SelectorList) (implied keep : Bool) :
    Except SelectorError SelectorList :=
  if keep then .ok (interleave (l.map (Complex.unresolved parent implied)))
  else do return interleave (← SelectorList.blocks parent implied l)

/-- The selector of a rule that is nested in none: nothing is added, and there is nothing that `&`
could stand for. -/
def SelectorList.atTopLevel (l : SelectorList) (keep : Bool) : Except SelectorError SelectorList :=
  if !keep && SelectorList.hasParent l then .error .topLevelParent else .ok l

end SelectorAlgebra

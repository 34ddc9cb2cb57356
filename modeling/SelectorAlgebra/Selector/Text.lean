import SelectorAlgebra.Selector.Basic
import SelectorAlgebra.Text.Quoted

/-!
# Canonical text

The one text of each selector: single spaces around combinators, a comma and a space or a line feed
between the members of a list, and attribute values in quotes only where they are no plain names.
-/

namespace SelectorAlgebra

/-- The bar and what stands before it, where a namespace is given. -/
def namespaceChars : Option String → List Char
  | none => []
  | some ns => ns.toList ++ ['|']

/-- The text of a qualified name. -/
def QualifiedName.chars (n : QualifiedName) : List Char :=
  namespaceChars n.ns ++ n.name.toList

/-- The text of an attribute selector; without both operator and value it only asks for presence. -/
def AttributeSelector.chars (a : AttributeSelector) : List Char :=
  '[' :: a.name.chars ++
    (match a.operator, a.value with
    | some o, some v =>
      o.symbol ++ Text.writeValue v.toList ++
        (match a.modifier with
        | some m => [' ', m]
        | none => [])
    | _, _ => []) ++ [']']

/-- Texts with one space between each two. -/
def spaced (texts : List (List Char)) : List Char :=
  [' '].intercalate texts

mutual

/-- The text of a simple selector. -/
def Simple.chars : Simple → List Char
  | .universal ns => namespaceChars ns ++ ['*']
  | .type n => n.chars
  | .className n => '.' :: n.toList
  | .id n => '#' :: n.toList
  | .attribute a => a.chars
  | .placeholder n => '%' :: n.toList
  | .parent suffix => '&' :: (suffix.getD "").toList
  | .pseudo p => p.chars

/-- The text of a pseudo selector. -/
def Pseudo.chars : Pseudo → List Char
  | ⟨name, element, argument, selector⟩ =>
    (if element then [':', ':'] else [':']) ++ name.toList ++
      (match argument, selector with
      | none, none => []
      | some a, none => '(' :: a.toList ++ [')']
      | none, some l => '(' :: SelectorList.chars l ++ [')']
      | some a, some l => '(' :: a.toList ++ [' ', 'o', 'f', ' '] ++ SelectorList.chars l ++ [')'])

/-- The text of a selector list. -/
def SelectorList.chars : SelectorList → List Char
  | [] => []
  | c :: l => c.chars ++ SelectorList.moreChars l

/-- The text of the members of a list after the first, each with its comma in front. -/
def SelectorList.moreChars : SelectorList → List Char
  | [] => []
  | c :: l => [',', if c.lineBreak then '\n' else ' '] ++ c.chars ++ SelectorList.moreChars l

/-- The text of a complex selector. -/
def Complex.chars : Complex → List Char
  | ⟨leading, components, _⟩ =>
    spaced (leading.map (fun k ↦ [k.symbol]) ++ Path.texts components)

/-- The texts of the components of a path, with the combinators that follow each. -/
def Path.texts : Path → List (List Char)
  | [] => []
  | ⟨c, combinators⟩ :: p =>
    (Compound.chars c ++ combinators.flatMap fun k ↦ [' ', k.symbol]) :: Path.texts p

/-- The text of a compound selector. -/
def Compound.chars : Compound → List Char
  | [] => []
  | s :: c => s.chars ++ Compound.chars c

end

/-- The canonical text of a simple selector. -/
def Simple.text (s : Simple) : String := String.ofList s.chars

/-- The canonical text of a pseudo selector. -/
def Pseudo.text (p : Pseudo) : String := String.ofList p.chars

/-- The canonical text of a selector list. -/
def SelectorList.text (l : SelectorList) : String := String.ofList (SelectorList.chars l)

/-- The canonical text of a complex selector. -/
def Complex.text (c : Complex) : String := String.ofList c.chars

/-- The canonical text of a component, the combinators after it included. -/
def Component.text (c : Component) : String :=
  String.ofList (Compound.chars c.compound ++ c.combinators.flatMap fun k ↦ [' ', k.symbol])

/-- The canonical text of a compound selector. -/
def Compound.text (c : Compound) : String := String.ofList (Compound.chars c)

end SelectorAlgebra

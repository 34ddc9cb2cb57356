import SelectorAlgebra.Json.Value
import SelectorAlgebra.Selector.PseudoName
import SelectorAlgebra.Selector.Specificity

/-!
# Selectors as JSON

The tree of a selector as JSON, with every field of every node.
-/

namespace SelectorAlgebra

/-- The name of a combinator in a tree. -/
def Combinator.label : Combinator → String
  | child => "Child"
  | nextSibling => "NextSibling"
  | followingSibling => "FollowingSibling"

/-- The name of an attribute operator in a tree. -/
def AttributeOperator.label : AttributeOperator → String
  | equals => "Equal"
  | hasWord => "Include"
  | hasDashPart => "Dash"
  | startsWith => "Prefix"
  | endsWith => "Suffix"
  | contains => "Substring"

/-- Combinators by their names. -/
def Combinator.arrayJson (ks : List Combinator) : Json :=
  .array (ks.map fun k ↦ .string k.label)

/-- A qualified name. -/
def QualifiedName.json (n : QualifiedName) : Json :=
  .object [("name", .string n.name), ("namespace", .ofText? n.ns)]

/-- An attribute selector. -/
def AttributeSelector.json (a : AttributeSelector) : Json :=
  .object [("name", a.name.json), ("op", .ofText? (a.operator.map AttributeOperator.label)),
    ("value", .ofText? a.value), ("modifier", .ofText? (a.modifier.map fun c ↦ String.ofList [c]))]

mutual

/-- The tree of a simple selector. -/
def Simple.json : Simple → Json
  | .universal ns => .object [("Universal", .object [("namespace", .ofText? ns)])]
  | .type n => .object [("Type", n.json)]
  | .className n => .object [("Class", .string n)]
  | .id n => .object [("Id", .string n)]
  | .attribute a => .object [("Attribute", a.json)]
  | .placeholder n => .object [("Placeholder", .string n)]
  | .parent suffix => .object [("Parent", .object [("suffix", .ofText? suffix)])]
  | .pseudo p => .object [("Pseudo", p.json)]

/-- The tree of a pseudo selector. -/
def Pseudo.json : Pseudo → Json
  | ⟨name, element, argument, selector⟩ =>
    let bare : Pseudo := ⟨name, element, argument, none⟩
    .object [("name", .string name), ("normalized_name", .string bare.normalizedName),
      ("is_class", .bool bare.isClass), ("is_syntactic_class", .bool (!element)),
      ("argument", .ofText? argument),
      ("selector", match selector with | some l => SelectorList.json l | none => .null)]

/-- The tree of a selector list. -/
def SelectorList.json (l : SelectorList) : Json :=
  .object [("components", .array (SelectorList.membersJson l))]

/-- The trees of the members of a selector list. -/
def SelectorList.membersJson : SelectorList → List Json
  | [] => []
  | c :: l => c.json :: SelectorList.membersJson l

/-- The tree of a complex selector. -/
def Complex.json : Complex → Json
  | ⟨leading, components, lineBreak⟩ =>
    .object [("leading_combinators", Combinator.arrayJson leading),
      ("components", .array (Path.json components)), ("line_break", .bool lineBreak)]

/-- The trees of the components of a path. -/
def Path.json : Path → List Json
  | [] => []
  | ⟨c, combinators⟩ :: p =>
    .object [("selector", .object [("simples", .array (Compound.simplesJson c))]),
      ("combinators", Combinator.arrayJson combinators)] :: Path.json p

/-- The trees of the simple selectors of a compound selector. -/
def Compound.simplesJson : Compound → List Json
  | [] => []
  | s :: c => s.json :: Compound.simplesJson c

end

/-- The tree of a compound selector. -/
def Compound.json (c : Compound) : Json :=
  .object [("simples", .array (Compound.simplesJson c))]

/-- The ends of a range of weights. -/
def Specificity.jsonFields (s : Specificity) : List (String × Json) :=
  [("max", .number s.max), ("min", .number s.min)]

end SelectorAlgebra

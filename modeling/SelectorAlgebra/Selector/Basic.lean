import SelectorAlgebra.Selector.Combinator

/-!
# Selectors

The tree of a selector. A simple selector is one condition on an element, a compound selector a
sequence of them on the same element, a path a sequence of compound selectors joined by combinators,
a complex selector a path that combinators may precede, and a selector list a choice between complex
selectors. Pseudo selectors may carry a selector list, which closes the recursion.
-/

namespace SelectorAlgebra

/-- A name with an optional namespace: `none` where none is written, the empty text for a bare bar,
and `*` for any namespace. -/
structure QualifiedName where
  ns : Option String
  name : String
  deriving DecidableEq, Repr

/-- How an attribute selector compares an attribute with its value. -/
inductive AttributeOperator where
  /-- The attribute is the value, `=`. -/
  | equals
  /-- The value is one of the words of the attribute, `~=`. -/
  | hasWord
  /-- The attribute is the value or starts with it and a hyphen, `|=`. -/
  | hasDashPart
  /-- The attribute starts with the value, `^=`. -/
  | startsWith
  /-- The attribute ends with the value, `$=`. -/
  | endsWith
  /-- The value occurs in the attribute, `*=`. -/
  | contains
  deriving DecidableEq, Repr

namespace AttributeOperator

/-- The characters that write an operator. -/
def symbol : AttributeOperator → List Char
  | equals => ['=']
  | hasWord => ['~', '=']
  | hasDashPart => ['|', '=']
  | startsWith => ['^', '=']
  | endsWith => ['$', '=']
  | contains => ['*', '=']

/-- The operator that characters write, nothing around it. -/
def ofSymbol? : List Char → Option AttributeOperator
  | ['='] => some equals
  | ['~', '='] => some hasWord
  | ['|', '='] => some hasDashPart
  | ['^', '='] => some startsWith
  | ['$', '='] => some endsWith
  | ['*', '='] => some contains
  | _ => none

/-- Each operator is read back from the characters that write it. -/
@[simp] theorem ofSymbol?_symbol (o : AttributeOperator) : ofSymbol? o.symbol = some o := by
  cases o <;> rfl

end AttributeOperator

/-- A condition on an attribute. A test for its presence has no operator and no value. -/
structure AttributeSelector where
  name : QualifiedName
  operator : Option AttributeOperator := none
  /-- The value, free of quotes and escapes. -/
  value : Option String := none
  /-- The letter that says whether case counts, where one is written. -/
  modifier : Option Char := none
  deriving DecidableEq, Repr

mutual

/-- One condition on an element. -/
inductive Simple where
  /-- Any element, of a namespace if one is given. -/
  | universal (ns : Option String)
  /-- The elements of a name. -/
  | type (name : QualifiedName)
  /-- The elements of a class. -/
  | className (name : String)
  /-- The element of an id. -/
  | id (name : String)
  /-- A condition on an attribute. -/
  | attribute (selector : AttributeSelector)
  /-- A name that only stands for what will extend it. -/
  | placeholder (name : String)
  /-- The selector of the enclosing rule, whose last name the suffix lengthens. -/
  | parent (suffix : Option String)
  /-- A pseudo-class or pseudo-element. -/
  | pseudo (selector : Pseudo)

/-- A pseudo-class or pseudo-element. -/
structure Pseudo where
  /-- The name as written, without colons. -/
  name : String
  /-- Whether two colons are written. -/
  element : Bool
  /-- The argument that is no selector, as in `:nth-child(2n+1 of .a)` the text `2n+1`. -/
  argument : Option String
  /-- The argument that is a selector list, as `.a` in `:not(.a)`. -/
  selector : Option (List Complex)

/-- A compound selector and the combinators that follow it; where none does, the next component is a
descendant. -/
structure Component where
  compound : List Simple
  combinators : List Combinator

/-- A path that combinators may precede. Several combinators in a row are kept as they are, and so
are those at the end. -/
structure Complex where
  /-- The combinators before the first component. -/
  leading : List Combinator
  components : List Component
  /-- Whether a list writes this member on a line of its own. -/
  lineBreak : Bool

end

/-- Conditions on one element, in the order in which they are written. -/
abbrev Compound := List Simple

/-- Components from the outermost to the one that describes the subject. -/
abbrev Path := List Component

/-- A choice between complex selectors. -/
abbrev SelectorList := List Complex

/-- Whether a compound selector starts with a parent selector. -/
def Compound.startsWithParent : Compound → Bool
  | .parent _ :: _ => true
  | _ => false

/-- Whether some place of a path holds more than one combinator. -/
def Path.hasMultipleCombinators (p : Path) : Bool :=
  p.any fun c ↦ 1 < c.combinators.length

namespace Complex

/-- Whether some place holds more than one combinator. -/
def hasMultipleCombinators (c : Complex) : Bool :=
  1 < c.leading.length || Path.hasMultipleCombinators c.components

/-- Whether a complex selector is no selector by itself: it starts or ends with a combinator, or
some place holds more than one. -/
def isBogus (c : Complex) : Bool :=
  !c.leading.isEmpty || c.components.getLast?.all (fun l ↦ !l.combinators.isEmpty)
    || c.hasMultipleCombinators

/-- The compound selector that is all there is of a complex selector. -/
def singleCompound? (c : Complex) : Option Compound :=
  match c.leading, c.components with
  | [], [⟨compound, []⟩] => some compound
  | _, _ => none

/-- The complex selector of one compound selector. -/
def ofCompound (c : Compound) : Complex :=
  ⟨[], [⟨c, []⟩], false⟩

end Complex

/-- Which selectors may occur in a text. -/
structure Allowance where
  /-- Whether `&` may occur. -/
  parent : Bool := true
  /-- Whether placeholders may occur. -/
  placeholder : Bool := true
  deriving DecidableEq, Repr

end SelectorAlgebra

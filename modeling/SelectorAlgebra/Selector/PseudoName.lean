import SelectorAlgebra.Selector.Basic

/-!
# Names of pseudo selectors

What a pseudo selector means depends on its name in lower case and without a vendor's mark. The
names that take a selector list fall into a few kinds, and specificity and covering ask for the
kind.
-/

namespace SelectorAlgebra

/-- What a pseudo selector does with a selector list. -/
inductive PseudoKind where
  /-- It matches what the list matches: `is`, `matches`, `any`. -/
  | matching
  /-- It matches what the list matches and weighs nothing: `where`. -/
  | weightless
  /-- It matches what the list does not match: `not`. -/
  | negation
  /-- It looks at other elements than the subject: `has`, `host`, `host-context`. -/
  | relational
  /-- It matches an element at the current time: `current`. -/
  | current
  /-- It counts siblings that the list matches: `nth-child`, `nth-last-child`. -/
  | counting
  /-- It is the element that is put into a slot: `slotted`. -/
  | slotted
  /-- It has no use for a list. -/
  | plain
  deriving DecidableEq, Repr

namespace PseudoKind

/-- The kind of a name in lower case and without a vendor's mark. -/
def ofName (name : String) : PseudoKind :=
  if name ∈ ["is", "matches", "any"] then matching
  else if name = "where" then weightless
  else if name = "not" then negation
  else if name ∈ ["has", "host", "host-context"] then relational
  else if name = "current" then current
  else if name ∈ ["nth-child", "nth-last-child"] then counting
  else if name = "slotted" then slotted
  else plain

/-- Whether a pseudo selector of this kind takes a selector list as its argument: the slotted
element as a pseudo-element, all other kinds but the plain one as a pseudo-class. -/
def takesSelector (kind : PseudoKind) (element : Bool) : Bool :=
  if element then kind == slotted else kind != slotted && kind != plain

/-- Whether a pseudo-class of this kind matches only elements that its list matches. -/
def narrowsList : PseudoKind → Bool
  | matching | weightless | counting => true
  | _ => false

end PseudoKind

namespace Pseudo

/-- A name without the vendor's mark in front, as `any` for `-webkit-any`; a name with two hyphens
in front is an author's own and stays. -/
def unvendor (name : List Char) : List Char :=
  match name with
  | '-' :: '-' :: _ => name
  | '-' :: s =>
    match s.dropWhile (· != '-') with
    | _ :: bare => bare
    | [] => name
  | _ => name

/-- A name in lower case and without the vendor's mark. -/
def normalize (name : String) : String :=
  String.ofList ((unvendor name.toList).map Char.toLower)

/-- The pseudo-elements that may be written with one colon. -/
def legacyElements : List String :=
  ["after", "before", "first-line", "first-letter"]

/-- The name in lower case and without the vendor's mark. -/
def normalizedName (p : Pseudo) : String :=
  normalize p.name

/-- The kind that the name gives. -/
def kind (p : Pseudo) : PseudoKind :=
  PseudoKind.ofName p.normalizedName

/-- Whether it is a pseudo-class, and no pseudo-element. -/
def isClass (p : Pseudo) : Bool :=
  !p.element && !legacyElements.contains p.normalizedName

/-- The same with another name. -/
def withName (p : Pseudo) (name : String) : Pseudo :=
  { p with name }

/-- The same with another selector list. -/
def withSelector (p : Pseudo) (selector : SelectorList) : Pseudo :=
  { p with selector := some selector }

end Pseudo

/-- Whether a simple selector is a pseudo-element. -/
def Simple.isPseudoElement : Simple → Bool
  | .pseudo p => !p.isClass
  | _ => false

end SelectorAlgebra

/-!
# Combinators

The written relations between two elements of a path. The descendant relation is written as white
space alone, so where one of the two is meant, `none` stands for it.
-/

namespace SelectorAlgebra

/-- A written combinator. -/
inductive Combinator where
  /-- The element on the right is a child of the one on the left. -/
  | child
  /-- The element on the right follows the one on the left immediately, under one parent. -/
  | nextSibling
  /-- The element on the right follows the one on the left, under one parent. -/
  | followingSibling
  deriving DecidableEq, Repr

namespace Combinator

/-- The character that writes a combinator. -/
def symbol : Combinator → Char
  | child => '>'
  | nextSibling => '+'
  | followingSibling => '~'

/-- The combinator that a character writes. -/
def ofSymbol? : Char → Option Combinator
  | '>' => some child
  | '+' => some nextSibling
  | '~' => some followingSibling
  | _ => none

/-- The combinator that a text writes, nothing around it. -/
def ofText? (text : String) : Option Combinator :=
  match text.toList with
  | [c] => ofSymbol? c
  | _ => none

/-- The text of a combinator. -/
def text (k : Combinator) : String :=
  String.ofList [k.symbol]

/-- Whether the first relation holds wherever the second does, by the rules that every relation
implies itself, `>` the descendant relation, and `+` the relation `~`. -/
def covers (a b : Option Combinator) : Bool :=
  a == b || (a == none && b == some child) || (a == some followingSibling && b == some nextSibling)

/-- Each combinator is read back from the character that writes it. -/
@[simp] theorem ofSymbol?_symbol (k : Combinator) : ofSymbol? k.symbol = some k := by
  cases k <;> rfl

/-- A character writes a combinator exactly if it is the symbol of that combinator. -/
theorem ofSymbol?_eq_some_iff {c : Char} {k : Combinator} :
    ofSymbol? c = some k ↔ c = k.symbol := by
  constructor
  · unfold ofSymbol?
    split <;> intro h <;> cases h <;> rfl
  · rintro rfl
    exact ofSymbol?_symbol k

end Combinator

end SelectorAlgebra

/-!
# Styled text

Text that a terminal shows in colour, if colours are wanted.
-/

namespace SelectorAlgebra

/-- A way to show text, by the number that turns it on and the number that turns it off. -/
structure Style where
  on : Nat
  off : Nat

namespace Style

/-- Strong letters. -/
def bold : Style := ⟨1, 0⟩
/-- Weak letters. -/
def dim : Style := ⟨2, 0⟩
/-- Red letters. -/
def red : Style := ⟨31, 39⟩
/-- Green letters. -/
def green : Style := ⟨32, 39⟩
/-- Yellow letters. -/
def yellow : Style := ⟨33, 39⟩
/-- Cyan letters. -/
def cyan : Style := ⟨36, 39⟩

/-- The control sequence of a number. -/
def control (n : Nat) : String :=
  "\x1b[" ++ toString n ++ "m"

/-- A text with control sequences around it, where colours are wanted. -/
def apply (s : Style) (colour : Bool) (text : String) : String :=
  if colour then control s.on ++ text ++ control s.off else text

end Style

end SelectorAlgebra

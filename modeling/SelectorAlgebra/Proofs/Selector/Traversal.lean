import SelectorAlgebra.Selector.Word

/-!
# The complex selectors in a selector

All complex selectors that occur in a selector, at any depth and in post-order: those nested in a
selector stand before it, and siblings from left to right. Main statement: what is nested in a
complex selector can be told from its parts.
-/

namespace SelectorAlgebra

mutual

/-- The complex selectors in a simple selector. -/
def Simple.complexes : Simple → List Complex
  | .pseudo p => p.complexes
  | _ => []

/-- The complex selectors in a pseudo selector. -/
def Pseudo.complexes : Pseudo → List Complex
  | ⟨_, _, _, none⟩ => []
  | ⟨_, _, _, some l⟩ => SelectorList.complexes l

/-- The complex selectors in a selector list, its members included. -/
def SelectorList.complexes : SelectorList → List Complex
  | [] => []
  | c :: l => c.complexes ++ SelectorList.complexes l

/-- The complex selectors in a complex selector, and at the end itself. -/
def Complex.complexes : Complex → List Complex
  | ⟨k, p, b⟩ => Path.complexes p ++ [⟨k, p, b⟩]

/-- The complex selectors in a path. -/
def Path.complexes : Path → List Complex
  | [] => []
  | ⟨c, _⟩ :: p => Compound.complexes c ++ Path.complexes p

/-- The complex selectors in a compound selector. -/
def Compound.complexes : Compound → List Complex
  | [] => []
  | s :: c => s.complexes ++ Compound.complexes c

end

/-- The complex selectors in a part of a complex selector. -/
def Part.complexes : Part → List Complex
  | .combinator _ => []
  | .compound c => Compound.complexes c

/-- What is nested in a complex selector is nested in its parts. -/
theorem Path.complexes_split (w : List Part) :
    Path.complexes (Complex.split w).2 = w.flatMap Part.complexes := by
  induction w with
  | nil => rfl
  | cons x w ih =>
    rw [List.flatMap_cons, ← ih]
    cases x <;> rfl

theorem Complex.complexes_eq (c : Complex) : c.complexes = Path.complexes c.components ++ [c] := by
  cases c
  rfl

theorem Pseudo.complexes_eq (p : Pseudo) :
    p.complexes = p.selector.elim [] SelectorList.complexes := by
  obtain ⟨n, element, a, l⟩ := p
  cases l <;> rfl

end SelectorAlgebra

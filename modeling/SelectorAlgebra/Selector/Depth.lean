import SelectorAlgebra.Selector.Basic

/-!
# Depth of selectors

How deep selector lists are nested inside pseudo selectors.
-/

namespace SelectorAlgebra

mutual

/-- How deep selector lists are nested in a simple selector. -/
def Simple.depth : Simple → Nat
  | .pseudo p => p.depth
  | _ => 0

/-- How deep selector lists are nested in a pseudo selector, its own included. -/
def Pseudo.depth : Pseudo → Nat
  | ⟨_, _, _, none⟩ => 0
  | ⟨_, _, _, some l⟩ => SelectorList.depth l + 1

/-- How deep selector lists are nested in a selector list. -/
def SelectorList.depth : SelectorList → Nat
  | [] => 0
  | c :: l => max c.depth (SelectorList.depth l)

/-- How deep selector lists are nested in a complex selector. -/
def Complex.depth : Complex → Nat
  | ⟨_, p, _⟩ => Path.depth p

/-- How deep selector lists are nested in a path. -/
def Path.depth : Path → Nat
  | [] => 0
  | ⟨c, _⟩ :: p => max (Compound.depth c) (Path.depth p)

/-- How deep selector lists are nested in a compound selector. -/
def Compound.depth : Compound → Nat
  | [] => 0
  | s :: c => max s.depth (Compound.depth c)

end

end SelectorAlgebra

import SelectorAlgebra.Selector.Basic

/-!
# Parent selectors in a selector

Whether a selector names its enclosing rule anywhere, inside pseudo selectors too.
-/

namespace SelectorAlgebra

mutual

/-- Whether a simple selector is or contains a parent selector. -/
def Simple.hasParent : Simple → Bool
  | .parent _ => true
  | .pseudo p => p.hasParent
  | _ => false

/-- Whether the selector list of a pseudo selector contains a parent selector. -/
def Pseudo.hasParent : Pseudo → Bool
  | ⟨_, _, _, none⟩ => false
  | ⟨_, _, _, some l⟩ => SelectorList.hasParent l

/-- Whether a selector list contains a parent selector. -/
def SelectorList.hasParent : SelectorList → Bool
  | [] => false
  | c :: l => c.hasParent || SelectorList.hasParent l

/-- Whether a complex selector contains a parent selector. -/
def Complex.hasParent : Complex → Bool
  | ⟨_, p, _⟩ => Path.hasParent p

/-- Whether a path contains a parent selector. -/
def Path.hasParent : Path → Bool
  | [] => false
  | ⟨c, _⟩ :: p => Compound.hasParent c || Path.hasParent p

/-- Whether a compound selector contains a parent selector. -/
def Compound.hasParent : Compound → Bool
  | [] => false
  | s :: c => s.hasParent || Compound.hasParent c

end

end SelectorAlgebra

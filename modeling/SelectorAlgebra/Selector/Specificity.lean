import SelectorAlgebra.Selector.PseudoName

/-!
# Specificity

The weight of a selector as one number: a hundred for each id, ten for each class, attribute or
pseudo-class, one for each type or pseudo-element. Which member of a list inside a pseudo selector
matches an element is not known from the selector, so every weight is a range. Weights are natural
numbers without a bound.
-/

namespace SelectorAlgebra

/-- A range of weights, both ends included. -/
structure Specificity where
  min : Nat
  max : Nat
  deriving DecidableEq, Repr

namespace Specificity

/-- The range of one weight. -/
def exact (n : Nat) : Specificity := ⟨n, n⟩

/-- The weight of what does not count. -/
def zero : Specificity := exact 0

/-- The weight of a type selector or pseudo-element. -/
def ofType : Specificity := exact 1

/-- The weight of a class, an attribute, a placeholder or a pseudo-class. -/
def ofClass : Specificity := exact 10

/-- The weight of an id. -/
def ofId : Specificity := exact 100

/-- Whether a range holds one weight only. -/
def isExact (s : Specificity) : Bool := s.min == s.max

/-- The range of the sums of a weight from each of two ranges. -/
def add (s t : Specificity) : Specificity := ⟨s.min + t.min, s.max + t.max⟩

/-- Ranges are added end by end. -/
instance : Add Specificity := ⟨add⟩

/-- The sum of ranges. -/
def sum (l : List Specificity) : Specificity :=
  l.foldr (· + ·) zero

/-- The least range around all given ones; zero around none. -/
def hull : List Specificity → Specificity
  | [] => zero
  | s :: l => l.foldl (fun h t ↦ ⟨Nat.min h.min t.min, Nat.max h.max t.max⟩) s

/-- The range of the heaviest choice, where one weight is taken from each given range. -/
def heaviest (l : List Specificity) : Specificity :=
  l.foldl (fun h t ↦ ⟨Nat.max h.min t.min, Nat.max h.max t.max⟩) zero

/-- The text of a range: its weight, or its two ends. -/
def text (s : Specificity) : String :=
  if s.isExact then toString s.min else toString s.min ++ "..=" ++ toString s.max

end Specificity

/-- The weight of a pseudo-class with a selector list, from the weights of the members: the heaviest
for a negation, nothing for a weightless one, that of a class more for a counting one, and otherwise
any of them. -/
def PseudoKind.weigh (kind : PseudoKind) (members : List Specificity) : Specificity :=
  match kind with
  | negation => Specificity.heaviest members
  | weightless => Specificity.zero
  | counting => Specificity.ofClass + Specificity.hull members
  | _ => Specificity.hull members

mutual

/-- The weight of a simple selector. -/
def Simple.specificity : Simple → Specificity
  | .universal _ | .parent _ => Specificity.zero
  | .type _ => Specificity.ofType
  | .className _ | .attribute _ | .placeholder _ => Specificity.ofClass
  | .id _ => Specificity.ofId
  | .pseudo p => p.specificity

/-- The weight of a pseudo selector. -/
def Pseudo.specificity : Pseudo → Specificity
  | ⟨name, element, argument, selector⟩ =>
    let bare : Pseudo := ⟨name, element, argument, none⟩
    match selector with
    | none => if bare.isClass then Specificity.ofClass else Specificity.ofType
    | some l =>
      if bare.isClass then bare.kind.weigh (SelectorList.memberSpecificities l)
      else Specificity.ofType

/-- The weights of the members of a list. -/
def SelectorList.memberSpecificities : SelectorList → List Specificity
  | [] => []
  | c :: l => c.specificity :: SelectorList.memberSpecificities l

/-- The weight of a complex selector. -/
def Complex.specificity : Complex → Specificity
  | ⟨_, p, _⟩ => Path.specificity p

/-- The weight of a path, the sum over its components. -/
def Path.specificity : Path → Specificity
  | [] => Specificity.zero
  | ⟨c, _⟩ :: p => Compound.specificity c + Path.specificity p

/-- The weight of a compound selector, the sum over its simple selectors. -/
def Compound.specificity : Compound → Specificity
  | [] => Specificity.zero
  | s :: c => s.specificity + Compound.specificity c

end

/-- The range of the weights of all members of a list. -/
def SelectorList.specificity (l : SelectorList) : Specificity :=
  Specificity.hull (SelectorList.memberSpecificities l)

/-- The weights of the members are taken one by one. -/
theorem SelectorList.memberSpecificities_eq_map (l : SelectorList) :
    SelectorList.memberSpecificities l = l.map Complex.specificity := by
  induction l with
  | nil => rfl
  | cons c l ih => simp [SelectorList.memberSpecificities, ih]

end SelectorAlgebra

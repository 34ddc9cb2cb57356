import SelectorAlgebra.Proofs.Selector.Everywhere
import SelectorAlgebra.Proofs.Text.Argument
import SelectorAlgebra.Proofs.Text.Indices
import SelectorAlgebra.Selector.PseudoName
import SelectorAlgebra.Selector.Word

/-!
# Legible selectors

The selectors whose canonical text can be read as what it was written for: no name takes the space
behind it, no argument takes or loses its parenthesis, and no value has a line feed.
-/

namespace SelectorAlgebra

/-- The name at the end of a simple selector, if it ends with one. -/
def Simple.lastName : Simple → Option String
  | .type n => some n.name
  | .className n | .id n | .placeholder n => some n
  | .parent suffix => suffix
  | .pseudo ⟨n, _, none, none⟩ => some n
  | .universal _ | .attribute _ | .pseudo _ => none

/-- Whether a simple selector ends with a name that takes the space behind it. -/
def Simple.TakesBlank (s : Simple) : Prop := ∃ n ∈ s.lastName, Text.TakesBlank n.toList

/-- Whether a compound selector ends with a name that takes the space behind it. -/
def Compound.TakesBlank (c : Compound) : Prop := ∃ s ∈ c.getLast?, Simple.TakesBlank s

/-- Whether a pseudo selector is a pseudo-class that counts siblings. -/
def Pseudo.Counts (p : Pseudo) : Prop := p.kind = .counting ∧ p.element = false

instance (p : Pseudo) : Decidable p.Counts := inferInstanceAs (Decidable (_ ∧ _))

/-- Whether the argument of a pseudo selector ends where its text ends. -/
def Pseudo.HasLegibleArgument (p : Pseudo) : Prop :=
  ∀ a ∈ p.argument,
    if p.Counts then Text.startsComment a.toList = false ∧ Text.isIndices a.toList = true
    else Text.IsArgument a.toList

/-- Whether values and arguments of a simple selector can be read where they are written. -/
def Simple.Legible : Simple → Prop
  | .attribute a => ∀ v ∈ a.value, '\n' ∉ v.toList
  | .pseudo p => p.HasLegibleArgument
  | _ => True

/-- Whether no compound selector of a complex selector takes the space behind it. -/
def Complex.Legible (c : Complex) : Prop :=
  ∀ d, Part.compound d ∈ c.word.dropLast → ¬ Compound.TakesBlank d

/-- The shape of selectors that can be read from their canonical text. -/
def Shape.legible : Shape where
  simple := Simple.Legible
  complex := Complex.Legible

end SelectorAlgebra

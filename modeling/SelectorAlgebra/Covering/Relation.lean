import SelectorAlgebra.Covering.Rules
import SelectorAlgebra.Selector.Depth

/-!
# Covering

The covering relation is built in stages: a stage answers for selectors nested to some depth and
asks the stage before it about what is nested in them. A pair is asked of a stage past the depth of
both sides together, since every rule that looks into a list goes down on one side at least.
-/

namespace SelectorAlgebra

namespace Covering

/-- The stages, from the one that covers nothing. -/
def stage : Nat → Covering
  | 0 => ⟨fun _ _ ↦ false, fun _ _ ↦ false⟩
  | n + 1 => (stage n).next

end Covering

/-- Whether a simple selector covers another. -/
def Simple.covers (s t : Simple) : Bool :=
  (Covering.stage (s.depth + t.depth)).coversSimple s t

/-- Whether a compound selector covers another that stands behind some passed components. -/
def Compound.coversBehind (c d : Compound) (parents : Path) : Bool :=
  (Covering.stage (Compound.depth c + max (Compound.depth d) (Path.depth parents))).compound
    c d parents

/-- Whether a compound selector covers another. -/
def Compound.covers (c d : Compound) : Bool :=
  Compound.coversBehind c d []

/-- Whether a path covers another. -/
def Path.covers (p q : Path) : Bool :=
  (Covering.stage (Path.depth p + Path.depth q)).coversPath p q

/-- Whether a complex selector covers another. -/
def Complex.covers (c d : Complex) : Bool :=
  (Covering.stage (c.depth + d.depth)).next.complex c d

/-- Whether a selector list covers another. -/
def SelectorList.covers (k l : SelectorList) : Bool :=
  (Covering.stage (SelectorList.depth k + SelectorList.depth l)).next.list k l

end SelectorAlgebra

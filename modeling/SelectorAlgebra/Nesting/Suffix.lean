import SelectorAlgebra.Error
import SelectorAlgebra.Selector.PseudoName

/-!
# Lengthening the subject

A nested rule may lengthen the last name of its parent, or add conditions to the parent's last
compound selector.
-/

namespace SelectorAlgebra

/-- A simple selector with a suffix on its name. Universal, attribute and parent selectors and
pseudo selectors with an argument do not end with a name. -/
def Simple.withSuffix (s : Simple) (suffix : String) : Except SelectorError Simple :=
  match s with
  | .type n => .ok (.type { n with name := n.name ++ suffix })
  | .className n => .ok (.className (n ++ suffix))
  | .id n => .ok (.id (n ++ suffix))
  | .placeholder n => .ok (.placeholder (n ++ suffix))
  | .pseudo p =>
    if p.argument.isNone && p.selector.isNone then .ok (.pseudo (p.withName (p.name ++ suffix)))
    else .error (.invalidSuffix s suffix)
  | .universal _ | .attribute _ | .parent _ => .error (.invalidSuffix s suffix)

/-- A compound selector with a suffix on its last simple selector; nothing changes where there is
none. -/
def Compound.withSuffix (c : Compound) (suffix : String) : Except SelectorError Compound :=
  match c.getLast? with
  | none => .ok c
  | some last => return c.dropLast ++ [← last.withSuffix suffix]

namespace Complex

/-- The last component. -/
def lastComponent (c : Complex) : Except SelectorError Component :=
  match c.components.getLast? with
  | none => .error (.noComponents c)
  | some last => .ok last

/-- A complex selector whose last compound selector is changed. -/
def modifySubject (c : Complex) (change : Compound → Except SelectorError Compound) :
    Except SelectorError Complex := do
  let last ← c.lastComponent
  let compound ← change last.compound
  return { c with components := c.components.dropLast ++ [{ last with compound }] }

/-- A complex selector with one more condition on its subject. -/
def withSimple (c : Complex) (s : Simple) : Except SelectorError Complex :=
  c.modifySubject fun compound ↦ .ok (compound ++ [s])

/-- A complex selector with a suffix on its last simple selector. -/
def withSuffix (c : Complex) (suffix : String) : Except SelectorError Complex :=
  c.modifySubject fun compound ↦ compound.withSuffix suffix

end Complex

end SelectorAlgebra

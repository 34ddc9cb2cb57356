import SelectorAlgebra.Selector.Equality
import SelectorAlgebra.Selector.PseudoName
import SelectorAlgebra.Covering.Alignment

/-!
# Rules of covering

One selector covers another if it matches every element that the other matches, as far as this can
be told from the two. The rules ask for the relation itself only between selectors inside the lists
of pseudo selectors, so each of them takes an inner relation for what is nested and gives the
relation one level further out.
-/

namespace SelectorAlgebra

/-- A covering relation, on simple selectors and on paths. -/
structure Covering where
  simple : Simple → Simple → Bool
  path : Path → Path → Bool

namespace Covering

/-- Complex selectors cover each other as their paths do; a leading combinator makes one relative to
another selector, and then it is not compared. -/
def complex (r : Covering) (c d : Complex) : Bool :=
  c.leading.isEmpty && d.leading.isEmpty && r.path c.components d.components

/-- A list covers another if each member of the other is covered by some member. -/
def list (r : Covering) (k l : SelectorList) : Bool :=
  l.all fun d ↦ k.any fun c ↦ r.complex c d

/-- The selector lists of the pseudo selectors of a name in a compound selector. -/
def arguments (c : Compound) (name : String) (isClass : Bool) : List SelectorList :=
  c.filterMap fun
    | .pseudo p => if p.isClass == isClass && p.name == name then p.selector else none
    | _ => none

/-- Whether a simple selector covers the subject of every member of the list in a pseudo-class that
matches only what its list matches. -/
def coversArgument (inner : Covering) (s t : Simple) : Bool :=
  match t with
  | .pseudo p =>
    p.isClass && p.kind.narrowsList && p.selector.any fun l ↦
      l.all fun c ↦ c.components.getLast?.any fun last ↦ last.compound.any (inner.simple s)
  | _ => false

/-- Whether a simple selector cannot match what the subject of a complex selector matches: it is
another type or id, or a negation of the given name whose list covers the complex selector. -/
def excludes (inner : Covering) (name : String) (c : Complex) (subject : Compound) (t : Simple) :
    Bool :=
  match t with
  | .type m => subject.any fun | .type n => m != n | _ => false
  | .id m => subject.any fun | .id n => m != n | _ => false
  | .pseudo q => q.name == name && q.selector.any fun l ↦ inner.list l [c]
  | _ => false

/-- Whether a pseudo selector with a selector list covers a compound selector behind some passed
components, by the rule of its kind. -/
def coversCompound (inner : Covering) (p : Pseudo) (l : SelectorList) (d : Compound)
    (parents : Path) : Bool :=
  match p.kind with
  | .matching | .weightless =>
    (arguments d p.name true).any (inner.list l) ||
      l.any fun c ↦ c.leading.isEmpty && inner.path c.components (parents ++ [⟨d, []⟩])
  | .relational => (arguments d p.name true).any (inner.list l)
  | .slotted => (arguments d p.name false).any (inner.list l)
  | .negation =>
    l.all fun c ↦ !c.isBogus && c.components.getLast?.any fun last ↦
      d.any (inner.excludes p.name c last.compound)
  | .current => (arguments d p.name true).any (SelectorList.same l)
  | .counting =>
    d.any fun
      | .pseudo q => q.name == p.name && q.argument == p.argument && q.selector.any (inner.list l)
      | _ => false
  | .plain => false

/-- The rule that all simple selectors share: the same selector is covered, and so is a pseudo-class
whose list is. -/
def sameOrArgument (inner : Covering) (s t : Simple) : Bool :=
  s.same t || inner.coversArgument s t

/-- Whether a simple selector covers another. -/
def coversSimple (inner : Covering) (s t : Simple) : Bool :=
  match s with
  | .universal ns =>
    ns == some "*" ||
      match t with
      | .type n => ns == n.ns
      | .universal m => ns == m
      | _ => ns.isNone || inner.sameOrArgument s t
  | .type n =>
    inner.sameOrArgument s t ||
      match t with
      | .type m => n.name == m.name && n.ns == some "*"
      | _ => false
  | .pseudo p =>
    inner.sameOrArgument s t ||
      p.selector.any fun l ↦
        if p.isClass then !t.isPseudoElement && inner.coversCompound p l [t] []
        else
          match t with
          | .pseudo q =>
            !q.isClass && p.kind == .slotted && q.name == p.name && q.selector.any (inner.list l)
          | _ => false
  | _ => inner.sameOrArgument s t

/-- Whether no element can match a compound selector, since it names two types in one namespace or
two ids: each is compared with the first. -/
def isUnsatisfiable (c : Compound) : Bool :=
  let types := c.filterMap fun | .type n => some n | _ => none
  let ids := c.filterMap fun | .id n => some n | _ => none
  types.head?.any (fun m ↦ types.any fun n ↦ m.ns == n.ns && m.name != n.name) ||
    ids.head?.any fun m ↦ ids.any (m != ·)

/-- Whether every condition of a compound selector covers one of another, where an empty one stands
for any element. -/
def coversConditions (inner : Covering) (c d : Compound) (parents : Path) : Bool :=
  let d := if d.isEmpty then [.universal (some "*")] else d
  let coversSome (s : Simple) := d.any (inner.coversSimple s)
  c.all fun s ↦
    match s with
    | .pseudo p =>
      match p.selector with
      | some l => if p.isClass then inner.coversCompound p l d parents else coversSome s
      | none => coversSome s
    | _ => coversSome s

/-- The first pseudo-element of a compound selector, with what stands before and after it. -/
def atPseudoElement (c : Compound) : Option (Compound × Simple × Compound) :=
  match c.dropWhile fun s ↦ !s.isPseudoElement with
  | [] => none
  | e :: after => some (c.takeWhile fun s ↦ !s.isPseudoElement, e, after)

/-- Whether a compound selector covers another behind some passed components. A pseudo-element is
another element than the one in front of it, so both have one or neither, and what stands before and
after is compared apart. -/
def compound (inner : Covering) (c d : Compound) (parents : Path) : Bool :=
  isUnsatisfiable d ||
    match atPseudoElement c, atPseudoElement d with
    | some (before, e, after), some (before', e', after') =>
      inner.coversSimple e e' && inner.coversConditions before before' parents &&
        inner.coversConditions after after' parents
    | none, none => inner.coversConditions c d parents
    | _, _ => false

/-- Whether a path covers another: the same path does; others are compared only if neither ends with
a combinator or holds several in one place. -/
def coversPath (inner : Covering) (p q : Path) : Bool :=
  (!p.isEmpty && Path.same p q) ||
    (p.getLast?.any (·.combinators.isEmpty) && q.getLast?.any (·.combinators.isEmpty) &&
      !Path.hasMultipleCombinators p && !Path.hasMultipleCombinators q &&
      Alignment.aligned inner.compound p q)

/-- The relation one level further out, which asks the inner one about nested selectors. -/
def next (inner : Covering) : Covering :=
  ⟨inner.coversSimple, inner.coversPath⟩

end Covering

end SelectorAlgebra

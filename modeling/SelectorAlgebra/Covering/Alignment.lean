import SelectorAlgebra.Selector.Basic

/-!
# Alignment of paths

A path covers another if each of its components can be put on a component of the other, in order and
the last on the last, so that the compound selectors cover each other and the combinators allow what
is passed over. The search tries every place for the first component and goes on with the two rests.
Both are suffixes of the paths that were asked about, so an answer is kept in a memo under the
lengths of the two rests and the combinator in front of the first.
-/

namespace SelectorAlgebra

/-- The combinator after a component, where one is written. -/
def Component.next (c : Component) : Option Combinator :=
  c.combinators.head?

namespace Alignment

/-- How a compound selector is compared with another that stands behind some passed components. -/
abbrev Comparison := Compound → Compound → Path → Bool

/-- Whether the components of a gap may be passed over after a combinator: any after white space,
only siblings after `~`, none after `>` and `+`. -/
def gapAllowed (previous : Option Combinator) (gap : Path) : Bool :=
  gap.isEmpty ||
    match previous with
    | none => true
    | some .child | some .nextSibling => false
    | some .followingSibling =>
      gap.all fun d ↦ Combinator.covers (some .followingSibling) d.next

/-- Whether the last component of the first path may stand on the last of a rest of the second,
where a combinator stands in front of it: what lies between is passed over. -/
def finalGapAllowed (previous : Option Combinator) (rest : Path) : Bool :=
  match previous with
  | none => true
  | some .followingSibling =>
    rest.dropLast.all fun d ↦ Combinator.covers (some .followingSibling) d.next
  | some .child | some .nextSibling => rest.dropLast.isEmpty

/-- Whether a component may be put on another after a gap; `previous` is the combinator in front of
it. -/
def fits (covers : Comparison) (previous : Option Combinator) (c : Component) (gap : Path)
    (d : Component) : Bool :=
  gapAllowed previous gap && Combinator.covers c.next d.next && covers c.compound d.compound gap

/-- What an answer of the search is kept under: the lengths of the two rests and the combinator in
front of the first. -/
structure Key where
  left : Nat
  right : Nat
  previous : Option Combinator
  deriving DecidableEq, Repr

/-- The answers that are known; the first entry of a key is the one that counts. -/
abbrev Memo := List (Key × Bool)

/-- The answer that is kept under a key, or else the answer of a search, which is then kept. -/
def remembered (key : Key) (search : StateM Memo Bool) : StateM Memo Bool := do
  match (← get).lookup key with
  | some answer => return answer
  | none =>
    let answer ← search
    modify ((key, answer) :: ·)
    return answer

/-- Whether an attempt succeeds at some component of a path. It is made from the first component on,
with what is passed over in front of it and the rest behind it. The last component is left out. -/
def succeedsAt (attempt : Path → Component → Path → StateM Memo Bool) (gap : Path) :
    Path → StateM Memo Bool
  | d :: e :: q => do
    if ← attempt gap d (e :: q) then return true
    else succeedsAt attempt (gap ++ [d]) (e :: q)
  | _ => return false

/-- Searches for places of the first path on the second, where a combinator stands in front of the
first. The last component goes on the last one, whatever is in front: the gap between is looked at
one step earlier. -/
def search (covers : Comparison) : Path → Path → Option Combinator → StateM Memo Bool
  | [], _, _ => return false
  | c :: p, q, previous =>
    if q.length < p.length + 1 then return false
    else if p.isEmpty then
      return q.getLast?.any fun d ↦ covers c.compound d.compound q.dropLast
    else
      succeedsAt (fun gap d rest ↦
        if !fits covers previous c gap d then return false
        else if p.length == 1 && !finalGapAllowed c.next rest then return false
        else remembered ⟨p.length, rest.length, c.next⟩ (search covers p rest c.next)) [] q

/-- Whether the first path can be put on the second. -/
def aligned (covers : Comparison) (p q : Path) : Bool :=
  ((remembered ⟨p.length, q.length, none⟩ (search covers p q none)).run []).run.1

end Alignment

end SelectorAlgebra

import SelectorAlgebra.Selector.Basic

/-!
# Words of complex selectors

A complex selector is a sequence of combinators and compound selectors, in which the descendant
relation joins two adjacent compound selectors. Main statement: the sequence and the line break
determine the selector, and every sequence is that of a selector.
-/

namespace SelectorAlgebra

/-- A part of a complex selector. -/
inductive Part where
  | combinator (k : Combinator)
  | compound (c : Compound)

namespace Complex

/-- The parts of a complex selector from left to right. -/
def word (c : Complex) : List Part :=
  c.leading.map .combinator ++
    c.components.flatMap fun d ↦ .compound d.compound :: d.combinators.map .combinator

/-- The combinators in front of the first compound selector of a sequence of parts, and the
components after them. -/
def split : List Part → List Combinator × Path
  | [] => ([], [])
  | .combinator k :: w => (k :: (split w).1, (split w).2)
  | .compound c :: w => ([], ⟨c, (split w).1⟩ :: (split w).2)

/-- The complex selector with the given parts. -/
def ofWord (w : List Part) (lineBreak : Bool) : Complex :=
  ⟨(split w).1, (split w).2, lineBreak⟩

/-- Splitting passes over combinators at the front. -/
theorem split_combinators (ks : List Combinator) (w : List Part) :
    split (ks.map .combinator ++ w) = (ks ++ (split w).1, (split w).2) := by
  induction ks with
  | nil => rfl
  | cons k ks ih => simp [split, ih]

/-- Splitting the parts of a path gives back its components. -/
theorem split_components (p : Path) :
    split (p.flatMap fun d ↦ .compound d.compound :: d.combinators.map .combinator) = ([], p) := by
  induction p with
  | nil => rfl
  | cons d p ih =>
    cases d
    simp only [List.flatMap_cons, List.cons_append, split, split_combinators, ih, List.append_nil]

/-- A complex selector is determined by its parts and its line break. -/
theorem ofWord_word (c : Complex) : ofWord c.word c.lineBreak = c := by
  cases c
  simp only [ofWord, word, split_combinators, split_components, List.append_nil]

/-- Every sequence of parts is that of a complex selector. -/
theorem word_ofWord (w : List Part) (lineBreak : Bool) : (ofWord w lineBreak).word = w := by
  have h : (split w).1.map Part.combinator ++ (split w).2.flatMap
      (fun d ↦ .compound d.compound :: d.combinators.map .combinator) = w := by
    induction w with
    | nil => rfl
    | cons x w ih =>
      cases x <;> simp only [split, List.map_cons, List.map_nil, List.flatMap_cons,
        List.cons_append, List.nil_append, ih]
  exact h

/-- A complex selector from its components, unless there is nothing in it. -/
def make? (leading : List Combinator) (components : Path) (lineBreak : Bool) : Option Complex :=
  if leading.isEmpty && components.isEmpty then none else some ⟨leading, components, lineBreak⟩

/-- Combinators are put after the last component, or after the leading ones where there is no
component. -/
def trail (c : Complex) (combinators : List Combinator) : Complex :=
  match c.components.getLast? with
  | none => { c with leading := c.leading ++ combinators }
  | some last =>
    { c with
      components := c.components.dropLast ++
        [{ last with combinators := last.combinators ++ combinators }] }

/-- Combinators are put at the end; a line break may be forced along with them, not without. -/
def withCombinators (c : Complex) (combinators : List Combinator) (force : Bool) : Complex :=
  { c.trail combinators with lineBreak := c.lineBreak || (force && !combinators.isEmpty) }

/-- A component is put at the end. -/
def withComponent (c : Complex) (component : Component) (force : Bool) : Complex :=
  { c with components := c.components ++ [component], lineBreak := c.lineBreak || force }

/-- A complex selector and after it another, as when the second is nested in the first: its leading
combinators attach to the last component of the first. -/
def concatenate (c d : Complex) (force : Bool) : Complex :=
  { c.trail d.leading with
    components := (c.trail d.leading).components ++ d.components
    lineBreak := c.lineBreak || d.lineBreak || force }

end Complex

/-- Combinators are put at the end of every member. -/
def SelectorList.withCombinators (l : SelectorList) (combinators : List Combinator) :
    SelectorList :=
  l.map fun c ↦ c.withCombinators combinators false

end SelectorAlgebra

import SelectorAlgebra.Proofs.Selector.Everywhere
import SelectorAlgebra.Proofs.Text.Indices
import SelectorAlgebra.Selector.PseudoName
import SelectorAlgebra.Selector.Word

/-!
# Selectors that can be written

What holds of every selector that was read from a text, at every depth: its names are names, what
its pseudo selectors carry fits their kind, and nothing is empty. A condition on the texts that are
kept as they were written is carried along.
-/

namespace SelectorAlgebra

/-- Only the names of the pseudo-classes that count siblings are of that kind. -/
theorem PseudoKind.mem_of_ofName_eq_counting {n : String} (h : ofName n = counting) :
    n ∈ ["nth-child", "nth-last-child"] := by
  by_contra hn
  unfold ofName at h
  rw [if_neg hn] at h
  split_ifs at h

/-- Whether a namespace is none, the empty one, any or a name. -/
def IsNamespace : Option String → Prop
  | none => True
  | some ns => ns.toList = [] ∨ ns.toList = ['*'] ∨ Text.IsName ns.toList

/-- A qualified name made of names. -/
structure QualifiedName.Written (n : QualifiedName) : Prop where
  ns : IsNamespace n.ns
  name : Text.IsName n.name.toList

/-- Whether an operator, a value and a modifier go together: a modifier is a letter, and a line feed
in a value came from a backslash. -/
def AttributeSelector.HasWrittenTest (K : List Char → Prop) (a : AttributeSelector) : Prop :=
  match a.operator, a.value, a.modifier with
  | none, none, none => True
  | some _, some v, m =>
    (∃ w, K w ∧ ('\\' ∉ w → '\n' ∉ v.toList)) ∧ ∀ c ∈ m, c.isAlpha = true
  | _, _, _ => False

/-- An argument as it is kept. -/
structure Pseudo.WrittenArgument (K : List Char → Prop) (a : List Char) : Prop where
  kept : K a
  tight : Text.StartsTight a
  last : ∀ c ∈ a.getLast?, Text.isSpace c = false
  closes : '\\' ∉ a → Text.IsArgument a

/-- Indices as they are kept. -/
structure Pseudo.WrittenIndices (K : List Char → Prop) (a : List Char) : Prop where
  kept : K a
  ne_nil : a ≠ []
  trimmed : Text.IsTrimmed a
  ends : Text.IsCommentFree a → Text.isIndices a = true ∨ Text.EndsWithOf a

/-- Whether an argument and a selector list are what a pseudo selector of a kind takes. -/
def Pseudo.HasWrittenArgument (K : List Char → Prop) (p : Pseudo) : Prop :=
  match p.argument, p.selector with
  | none, none => True
  | some a, none =>
    (p.kind.takesSelector p.element = true ∧ p.kind = .counting ∧ WrittenIndices K a.toList) ∨
      (p.kind.takesSelector p.element = false ∧ WrittenArgument K a.toList)
  | none, some _ => p.kind.takesSelector p.element = true ∧ p.kind ≠ .counting
  | some a, some _ =>
    p.kind.takesSelector p.element = true ∧ p.kind = .counting ∧ WrittenIndices K a.toList

/-- A selector list is read only where its kind takes one. -/
theorem Pseudo.HasWrittenArgument.takesSelector {K : List Char → Prop} {p : Pseudo}
    (h : p.HasWrittenArgument K) (hl : p.selector.isSome = true) :
    p.kind.takesSelector p.element = true := by
  unfold HasWrittenArgument at h
  split at h
  · simp_all
  · simp_all
  · exact h.1
  · exact h.1

/-- Whether a simple selector is written with names, those kept as the condition asks. -/
def Simple.Written (K : List Char → Prop) : Simple → Prop
  | .universal ns => IsNamespace ns
  | .type n => n.Written ∧ K n.name.toList
  | .className n | .id n | .placeholder n => Text.IsName n.toList ∧ K n.toList
  | .attribute a => a.name.Written ∧ a.HasWrittenTest K
  | .parent suffix => ∀ n ∈ suffix, n.toList ≠ [] ∧ Text.IsNameText n.toList ∧ K n.toList
  | .pseudo p => (Text.IsName p.name.toList ∧ K p.name.toList) ∧ p.HasWrittenArgument K

/-- Whether a simple selector may stand behind another in a compound selector. -/
def Simple.Follows : Simple → Prop
  | .universal _ | .type _ | .parent _ => False
  | .className _ | .id _ | .attribute _ | .placeholder _ | .pseudo _ => True

/-- Whether a compound selector is not empty and only conditions follow the first. -/
def Compound.Written (c : Compound) : Prop := ∃ s d, c = s :: d ∧ ∀ t ∈ d, Simple.Follows t

theorem Simple.Follows.isOther {s : Simple} (h : s.Follows) : s.IsOther := by
  rintro suffix rfl
  exact h

/-- Only the first simple selector can be a parent selector. -/
theorem Compound.Written.isOther {s : Simple} {c : Compound} (h : Compound.Written (s :: c)) :
    ∀ t ∈ c, t.IsOther := by
  obtain ⟨_, _, heq, hfollows⟩ := h
  cases heq
  exact fun t ht ↦ (hfollows t ht).isOther

theorem Compound.Written.isOther_of_other {c : Compound} (h : Compound.Written c)
    (hc : Compound.startsWithParent c = false) : ∀ s ∈ c, s.IsOther := by
  obtain ⟨s, d, rfl, -⟩ := id h
  refine List.forall_mem_cons.2 ⟨?_, h.isOther⟩
  rintro suffix rfl
  cases hc

/-- Whether there is anything in a complex selector. -/
def Complex.Written (c : Complex) : Prop := c.leading ≠ [] ∨ c.components ≠ []

theorem Complex.Written.word_ne_nil {c : Complex} (h : c.Written) : c.word ≠ [] := by
  intro hnil
  obtain ⟨hleading, hcomponents⟩ := List.append_eq_nil_iff.1 hnil
  rcases h with h | h
  · exact h (List.map_eq_nil_iff.1 hleading)
  · obtain ⟨d, p, hp⟩ := List.exists_cons_of_ne_nil h
    rw [hp] at hcomponents
    cases hcomponents

/-- Whether a list has members and no line break stands before the first. -/
def SelectorList.Written (l : SelectorList) : Prop :=
  ∃ c m, l = c :: m ∧ c.lineBreak = false

/-- What is asked of the parts of a selector that is read from a text. -/
def Shape.written (K : List Char → Prop) : Shape where
  simple := Simple.Written K
  compound := Compound.Written
  complex := Complex.Written
  list := SelectorList.Written

end SelectorAlgebra

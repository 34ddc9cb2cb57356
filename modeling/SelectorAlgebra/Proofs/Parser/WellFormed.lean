import Mathlib
import SelectorAlgebra.Proofs.Parser.Written

/-!
# Selectors are well formed as they are read

Nothing in a selector's type keeps a list from being empty, a type selector from standing behind
another simple selector or a pseudo-class from carrying a list that it has no use for. Main
statement: none of this is ever read, whatever the text, the entry point and the restrictions.
-/

namespace SelectorAlgebra

/-- Whether a text is an identifier, which is taken whole where a name is read. -/
def IsIdentifier (n : String) : Prop := Parser.Reads Parser.name n.toList n []

theorem isIdentifier_iff {n : String} : IsIdentifier n ↔ Text.IsName n.toList := by
  rw [IsIdentifier, Parser.reads_name_iff, Text.IsName, Text.IsNameText, List.append_nil,
    eq_self, and_true]

/-- An attribute selector that compares with a value exactly if it has an operator. -/
structure AttributeSelector.WellFormed (a : AttributeSelector) : Prop where
  name : IsIdentifier a.name.name
  value_iff : a.value.isSome ↔ a.operator.isSome
  operator_of_modifier : a.modifier.isSome → a.operator.isSome

/-- A pseudo selector that carries what its name and its syntax ask for. -/
structure Pseudo.WellFormed (p : Pseudo) : Prop where
  name : IsIdentifier p.name
  takesSelector : p.selector.isSome →
    (PseudoKind.ofName p.normalizedName).takesSelector p.element = true
  counts : p.argument.isSome → p.selector.isSome →
    p.normalizedName ∈ ["nth-child", "nth-last-child"]

/-- Whether the names of a simple selector are identifiers and what it carries goes together. -/
def Simple.WellFormed : Simple → Prop
  | .universal _ | .parent _ => True
  | .type n => IsIdentifier n.name
  | .className n | .id n | .placeholder n => IsIdentifier n
  | .attribute a => a.WellFormed
  | .pseudo p => p.WellFormed

/-- The shape of well-formed selectors. No compound selector is empty, and type selectors, universal
selectors and parent selectors only come first in one. No complex selector lacks both combinators
and components. No list is empty, and no line break stands before its first member. -/
def Shape.wellFormed : Shape where
  simple := Simple.WellFormed
  compound c := c ≠ [] ∧ ∀ s ∈ c.tail, s.Follows
  complex c := c.leading ≠ [] ∨ c.components ≠ []
  list l := l ≠ [] ∧ ∀ c ∈ l.head?, c.lineBreak = false

variable {K : List Char → Prop}

theorem AttributeSelector.wellFormed_of_written {a : AttributeSelector} (hname : a.name.Written)
    (h : a.HasWrittenTest K) : a.WellFormed := by
  refine ⟨isIdentifier_iff.2 hname.name, ?_, ?_⟩ <;>
    · unfold HasWrittenTest at h
      split at h <;> simp_all

theorem Pseudo.wellFormed_of_written {p : Pseudo} (hname : Text.IsName p.name.toList)
    (h : p.HasWrittenArgument K) : p.WellFormed := by
  refine ⟨isIdentifier_iff.2 hname, h.takesSelector, fun ha hl ↦ ?_⟩
  unfold HasWrittenArgument at h
  obtain ⟨a, ha⟩ := Option.isSome_iff_exists.1 ha
  obtain ⟨l, hl⟩ := Option.isSome_iff_exists.1 hl
  simp only [ha, hl] at h
  exact PseudoKind.mem_of_ofName_eq_counting h.2.1

theorem Simple.wellFormed_of_written {s : Simple} (h : s.Written K) : s.WellFormed := by
  match s with
  | .universal _ | .parent _ => trivial
  | .type _ => exact isIdentifier_iff.2 h.1.name
  | .className _ | .id _ | .placeholder _ => exact isIdentifier_iff.2 h.1
  | .attribute _ => exact AttributeSelector.wellFormed_of_written h.1 h.2
  | .pseudo _ => exact Pseudo.wellFormed_of_written h.1.1 h.2

theorem Shape.entail_wellFormed : Entail (written K) (written K) wellFormed where
  simple _ h _ := Simple.wellFormed_of_written h
  compound := by
    rintro _ ⟨s, d, rfl, hd⟩ -
    exact ⟨List.cons_ne_nil s d, hd⟩
  complex _ h _ := h.complex
  list := by
    rintro _ ⟨c, m, rfl, hc⟩ -
    exact ⟨List.cons_ne_nil c m, by simpa using hc⟩

namespace EntryPoint

/-- What is read from a text is well formed at every depth. -/
theorem wellFormed_of_parse {e : EntryPoint} {text : String} {options : ParseOptions} {x : e.Tree}
    (h : (e.parse text options).result = .ok x) : e.Everywhere .wellFormed x := by
  have hwritten := written_of_parse (K := fun _ ↦ True) (fun _ _ ↦ trivial) h
  exact hwritten.entail Shape.entail_wellFormed hwritten

/-- A list with names of all sorts, an escape in one of them, and lists in pseudo selectors. -/
theorem wellFormed_of_parse_nested :
    let l : SelectorList :=
      [⟨[], [⟨[.type ⟨some "*", "a"⟩, .attribute ⟨⟨none, "c"⟩, some .hasWord, some "d", some 'i'⟩,
          .pseudo ⟨"nth-child", false, some "2n", some
            [.ofCompound [.universal none, .pseudo ⟨"not", false, none, some
              [.ofCompound [.parent (some "-f")]]⟩]]⟩], [.child]⟩,
        ⟨[.placeholder "g"], []⟩], false⟩,
      ⟨[.nextSibling], [⟨[.className "\\.h", .pseudo ⟨"slotted", true, none, some
        [.ofCompound [.id "i"]]⟩], []⟩], true⟩]
    (list.parse "*|a[c~=\"d\" i]:nth-child(2n of *:not(&-f)) > %g,\n+ .\\.h::slotted(#i)").result =
      .ok l ∧ list.Everywhere .wellFormed l := by
  intro l
  have hread : (list.parse
      "*|a[c~=\"d\" i]:nth-child(2n of *:not(&-f)) > %g,\n+ .\\.h::slotted(#i)").result =
        .ok l := by
    rw [parse_eq]
    cbv
  exact ⟨hread, wellFormed_of_parse hread⟩

end EntryPoint

end SelectorAlgebra

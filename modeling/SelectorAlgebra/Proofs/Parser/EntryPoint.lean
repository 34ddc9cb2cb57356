import SelectorAlgebra.Proofs.Scanner.Run
import SelectorAlgebra.Proofs.Selector.Induction
import SelectorAlgebra.Proofs.Selector.Everywhere

/-!
# What a text can be read as

A whole text is read as a selector list, a complex selector, a compound selector or a simple
selector. What is true of all four ways to read it is stated once, for the entry point of the
grammar that is taken.
-/

namespace SelectorAlgebra

/-- The sort of selector that a whole text is read as. -/
inductive EntryPoint where
  | list
  | complex
  | compound
  | simple

namespace EntryPoint

/-- The selectors that are read. -/
@[reducible] def Tree : EntryPoint → Type
  | list => SelectorList
  | complex => Complex
  | compound => Compound
  | simple => Simple

/-- Reads a selector of the sort. -/
def parse (e : EntryPoint) (text : String) (options : ParseOptions := {}) : Parsed e.Tree :=
  match e with
  | list => SelectorList.parse text options
  | complex => Complex.parse text options
  | compound => Compound.parse text options
  | simple => Simple.parse text options

/-- The scanner that takes the whole text. -/
def scanner (allow : Allowance) : (e : EntryPoint) → Scanner e.Tree
  | list => Scanner.wholeList allow
  | complex => Scanner.whole (Scanner.complex allow (Scanner.nestedList allow) false)
  | compound => Scanner.whole (Scanner.compound allow (Scanner.nestedList allow))
  | simple => Scanner.whole (Scanner.simple allow (Scanner.nestedList allow) true)

/-- The parser that takes what stands between the blanks around it. -/
def parser (allow : Allowance) : (e : EntryPoint) → Parser e.Tree
  | list => Parser.nestedList allow
  | complex => Parser.complex allow (Parser.nestedList allow) false
  | compound => Parser.compound allow (Parser.nestedList allow)
  | simple => Parser.simple allow (Parser.nestedList allow) true

theorem stays {allow : Allowance} {src s : List Char} (e : EntryPoint) :
    Parser.Stays src (e.parser allow) s := by
  have hnested (r : List Char) : Parser.Stays src (Parser.nestedList allow) r :=
    Parser.stays_nestedList
  cases e with
  | list => exact hnested s
  | complex => exact Parser.stays_complex hnested false
  | compound => exact Parser.stays_compound hnested
  | simple => exact Parser.stays_simple hnested

/-- A whole text is scanned as its parser reads it. -/
theorem yields_scanner {allow : Allowance} {src s : List Char} (e : EntryPoint) :
    Scanner.Yields src (e.scanner allow) s (Parser.whole (e.parser allow) s) := by
  have hnested (t : List Char) (u : List Char) (_ : u.length < t.length) :
      Scanner.Yields src (Scanner.nestedList allow) u (Parser.nestedList allow u) :=
    Scanner.yields_nestedList rfl
  have hstays (text u : List Char) : Parser.Stays text (Parser.nestedList allow) u :=
    Parser.stays_nestedList
  cases e with
  | list => exact Scanner.yields_wholeList
  | complex =>
    exact Scanner.yields_whole (Scanner.yields_complex (hnested _) hstays (Nat.le_refl _))
  | compound =>
    exact Scanner.yields_whole (Scanner.yields_compound (hnested _) hstays (Nat.le_refl _))
  | simple => exact Scanner.yields_whole (Scanner.yields_simple (hnested _) (Nat.le_refl _))

theorem parse_eq_run_scanner (e : EntryPoint) (text : String) (options : ParseOptions) :
    e.parse text options = (e.scanner options.toAllowance).run text options.url := by
  cases e <;> rfl

theorem parse_eq (e : EntryPoint) (text : String) (options : ParseOptions) :
    e.parse text options = (e.parser options.toAllowance).run text options.url := by
  rw [parse_eq_run_scanner, Scanner.run_eq e.yields_scanner]

theorem parse_eq_ok_iff {e : EntryPoint} {text : String} {options : ParseOptions} {x : e.Tree} :
    (e.parse text options).result = .ok x ↔
      ∃ r, Parser.Reads (e.parser options.toAllowance) (Text.dropBlanks text.toList) x r ∧
        Text.dropBlanks r = [] := by
  rw [parse_eq, Parser.run_eq_ok_iff]

/-- What is read and all parts of it have a shape. -/
def Everywhere (σ : Shape) : (e : EntryPoint) → e.Tree → Prop
  | list, l => SelectorList.Everywhere σ l
  | complex, c => Complex.Everywhere σ c
  | compound, c => σ.compound c ∧ Compound.Each σ c
  | simple, s => Simple.Everywhere σ s

variable {σ τ υ : Shape} {e : EntryPoint} {x : e.Tree}

theorem Everywhere.entail (h : Shape.Entail σ τ υ) (hσ : e.Everywhere σ x)
    (hτ : e.Everywhere τ x) : e.Everywhere υ x := by
  cases e with
  | list => exact ⟨h.list x hσ.1 hτ.1, SelectorList.Each.entail h hσ.2 hτ.2⟩
  | complex => exact Complex.Everywhere.entail h hσ hτ
  | compound => exact ⟨h.compound x hσ.1 hτ.1, Compound.Each.entail h hσ.2 hτ.2⟩
  | simple => exact Simple.Everywhere.entail h hσ hτ

end EntryPoint

section Parse

variable {text : String} {options : ParseOptions}

theorem SelectorList.parse_eq : SelectorList.parse text options =
    (Parser.nestedList options.toAllowance).run text options.url :=
  EntryPoint.list.parse_eq text options

theorem Complex.parse_eq : Complex.parse text options =
    (Parser.complex options.toAllowance (Parser.nestedList options.toAllowance) false).run text
      options.url :=
  EntryPoint.complex.parse_eq text options

theorem Compound.parse_eq : Compound.parse text options =
    (Parser.compound options.toAllowance (Parser.nestedList options.toAllowance)).run text
      options.url :=
  EntryPoint.compound.parse_eq text options

theorem Simple.parse_eq : Simple.parse text options =
    (Parser.simple options.toAllowance (Parser.nestedList options.toAllowance) true).run text
      options.url :=
  EntryPoint.simple.parse_eq text options

theorem SelectorList.parse_eq_ok_iff {l : SelectorList} :
    (SelectorList.parse text options).result = .ok l ↔
      ∃ r, Parser.Reads (Parser.nestedList options.toAllowance) (Text.dropBlanks text.toList) l r ∧
        Text.dropBlanks r = [] :=
  EntryPoint.parse_eq_ok_iff (e := .list)

end Parse

theorem inductionStep_everywhere :
    InductionStep (Simple.Everywhere {}) (Complex.Everywhere {}) where
  simple s ih := by
    cases s with
    | pseudo p =>
      refine Simple.everywhere_pseudo_iff.2 ⟨trivial, fun l hl ↦ ⟨trivial, ?_⟩⟩
      exact SelectorList.each_iff.2 (ih p rfl l hl)
    | _ => trivial
  complex c ih :=
    Complex.everywhere_iff.2 ⟨trivial, trivial,
      Path.each_iff.2 fun d hd ↦ ⟨trivial, Compound.each_iff.2 (ih d hd)⟩⟩

/-- All selectors have the shape that asks nothing. -/
theorem EntryPoint.everywhere_default (e : EntryPoint) (x : e.Tree) : e.Everywhere {} x := by
  cases e with
  | list =>
    exact ⟨trivial, SelectorList.each_iff.2 (SelectorList.induction inductionStep_everywhere x)⟩
  | complex => exact Complex.induction inductionStep_everywhere x
  | compound => exact ⟨trivial, Compound.each_iff.2 (Compound.induction inductionStep_everywhere x)⟩
  | simple => exact Simple.induction inductionStep_everywhere x

end SelectorAlgebra

import Mathlib
import SelectorAlgebra.Proofs.Parser.EntryPoint
import SelectorAlgebra.Proofs.Serialization.Simple

/-!
# Attribute selectors and their text

An attribute selector is read from its canonical text whatever its value is, in quotes or without.
Main statement: it comes back as it was exactly if there is no line feed in its value, which is
written as an escape that means nothing inside quotes.
-/

namespace SelectorAlgebra

variable {n : QualifiedName} {m : Option Char}

/-- A text that starts with a bracket is read as an attribute selector. -/
theorem Simple.parse_attribute_iff {text : String} {options : ParseOptions} {s : List Char}
    {x : Simple} (htext : text.toList = '[' :: s) :
    (Simple.parse text options).result = .ok x ↔ ∃ a r,
      Parser.Reads Parser.attributeSelector s a r ∧ Text.dropBlanks r = [] ∧ x = .attribute a := by
  have htight : Text.StartsTight ('[' :: s) := Text.startsTight_cons rfl (by decide) s
  have hsimple (r : List Char) : Parser.Reads (EntryPoint.simple.parser options.toAllowance)
      ('[' :: s) x r ↔ ∃ a, Parser.Reads Parser.attributeSelector s a r ∧ x = .attribute a := by
    change Parser.Reads (Parser.attributeSelector >>= fun a ↦ pure (Simple.attribute a)) s x r ↔ _
    simp only [Parser.reads_bind_iff, Parser.reads_pure_iff]
    constructor
    · rintro ⟨a, _, ha, rfl, rfl⟩
      exact ⟨a, ha, rfl⟩
    · rintro ⟨a, ha, rfl⟩
      exact ⟨a, r, ha, rfl, rfl⟩
  have hparse : (Simple.parse text options).result = .ok x ↔ ∃ r,
      Parser.Reads (EntryPoint.simple.parser options.toAllowance) ('[' :: s) x r ∧
        Text.dropBlanks r = [] := by
    rw [← Text.dropBlanks_of_startsTight htight, ← htext]
    exact EntryPoint.parse_eq_ok_iff (e := .simple)
  simp only [hsimple] at hparse
  refine hparse.trans ⟨?_, ?_⟩
  · rintro ⟨r, ⟨a, ha, hx⟩, hr⟩
    exact ⟨a, r, ha, hr, hx⟩
  · rintro ⟨a, r, ha, hr, hx⟩
    exact ⟨r, ⟨a, ha, hx⟩, hr⟩

/-- What a text is read as that holds an attribute selector and nothing else. -/
theorem Simple.parse_attribute {text : String} {options : ParseOptions} {s : List Char}
    {a : AttributeSelector} (htext : text.toList = '[' :: s)
    (h : Parser.Reads Parser.attributeSelector s a []) :
    (Simple.parse text options).result = .ok (.attribute a) :=
  (Simple.parse_attribute_iff htext).2 ⟨a, [], h, by rw [Text.dropBlanks], rfl⟩

/-- An attribute selector that compares with a value is read from its canonical text, and comes back
as it was exactly if the value has no line feed. -/
theorem Simple.parse_text_attribute (hn : n.Written) (o : AttributeOperator) (v : String)
    (hm : ∀ c ∈ m, c.isAlpha = true) (options : ParseOptions) :
    ∃ s, (Simple.parse (Simple.text (.attribute ⟨n, some o, some v, m⟩)) options).result = .ok s ∧
      (s = .attribute ⟨n, some o, some v, m⟩ ↔ '\n' ∉ v.toList) := by
  have htest : AttributeSelector.HasWrittenTest (fun _ ↦ True) ⟨n, some o, some v, m⟩ :=
    -- a value may hold line feeds if its source holds a backslash, and here any source will do
    ⟨⟨['\\'], trivial, fun h ↦ absurd (List.mem_singleton_self _) h⟩, hm⟩
  have hread := Parser.reads_attributeSelector hn htest []
  rw [List.append_nil] at hread
  refine ⟨_, Simple.parse_attribute (String.toList_ofList ..) hread, ?_⟩
  simp [Text.ofList_requote_eq_iff]

/-- The value `"`, backslash, tabulator and `é` of the attribute `x|a`. -/
theorem Simple.parse_text_attribute_quotes :
    (Simple.parse (Simple.text (.attribute
      ⟨⟨some "x", "a"⟩, some .hasWord, some "\"\\\t\u00e9", some 'i'⟩))).result =
        .ok (.attribute ⟨⟨some "x", "a"⟩, some .hasWord, some "\"\\\t\u00e9", some 'i'⟩) := by
  have hwritten : QualifiedName.Written ⟨some "x", "a"⟩ :=
    ⟨.inr (.inr (Text.isName_of_isPlainName rfl).1), (Text.isName_of_isPlainName rfl).1⟩
  obtain ⟨s, hs, heq⟩ := Simple.parse_text_attribute hwritten .hasWord "\"\\\t\u00e9"
    (m := some 'i') (by simp) {}
  rw [hs, heq.2 (by decide)]

/-- A line feed in a value comes back as the letter that its escape starts with. -/
theorem Simple.not_parse_text_attribute :
    ¬ ∀ (n : QualifiedName) (o : AttributeOperator) (v : String) (m : Option Char), n.Written →
      (∀ s ∈ n.name :: n.ns.toList, '\\' ∉ s.toList) → (∀ c ∈ m, c.isAlpha = true) →
      (Simple.parse (Simple.text (.attribute ⟨n, some o, some v, m⟩))).result =
        .ok (.attribute ⟨n, some o, some v, m⟩) := by
  intro h
  have hwritten : QualifiedName.Written ⟨none, "a"⟩ :=
    ⟨trivial, (Text.isName_of_isPlainName rfl).1⟩
  have hok := h ⟨none, "a"⟩ .equals "\n" none hwritten (by decide) (by simp)
  have hread : (Simple.parse (Simple.text (.attribute
      ⟨⟨none, "a"⟩, some .equals, some "\n", none⟩))).result =
        .ok (.attribute ⟨⟨none, "a"⟩, some .equals, some "a ", none⟩) := by cbv
  rw [hread] at hok
  simp at hok

end SelectorAlgebra

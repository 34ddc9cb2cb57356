import Mathlib
import SelectorAlgebra.Proofs.Serialization.Attribute
import SelectorAlgebra.Proofs.Text.Decoding
import SelectorAlgebra.Selector.Equality

/-!
# Attribute values with quotes and without

A name may stand for the value of an attribute by itself or between double quotes. Main statement:
the text without quotes is always read, and the text with them gives an equal selector exactly if no
escape in the name is hexadecimal, since between quotes such an escape is not decoded.
-/

namespace SelectorAlgebra

open Text

variable {s t : List Char} {u v w : String} {options : ParseOptions}

namespace Parser

/-- A name is decoded where it is a value. -/
theorem reads_attributeValue_name (hv : IsName v.toList) (t : List Char) :
    Reads attributeValue (v.toList ++ ']' :: t) (String.ofList (decodeName v.toList))
      (']' :: t) := by
  have hhead {c : Char} (hc : isNameChar c = false) (hb : c ≠ '\\') :
      (v.toList ++ ']' :: t).head? ≠ some c := IsName.head_append_ne hv _ hc hb
  have hread : Reads name (v.toList ++ ']' :: t) v (']' :: t) :=
    reads_name_append hv (startsWithin_cons.2 (by decide)) (by simp)
  rw [attributeValue, reads_rest_bind_iff]
  split
  · next heq => exact absurd (congrArg List.head? heq) (hhead rfl (by decide))
  · next heq => exact absurd (congrArg List.head? heq) (hhead rfl (by decide))
  · exact hread.bind_iff.2 (reads_pure_iff.2 ⟨rfl, rfl⟩)

theorem reads_attributeValue_quoted_iff :
    Reads attributeValue ('"' :: s) u t ↔ readQuoted '"' s = .ok (u.toList, t) := by
  rw [attributeValue, reads_rest_bind_iff]
  simp [reads_quoted_iff]

end Parser

/-- A test of the attribute `a` is read exactly with the values that its text is read with up to the
closing bracket. -/
theorem Simple.parse_test_iff {x : Simple} (hw : StartsTight (w.toList ++ [']']))
    (hend : ∀ u t, Parser.Reads Parser.attributeValue (w.toList ++ [']']) u t → t = [']']) :
    (Simple.parse ("[a=" ++ w ++ "]") options).result = .ok x ↔
      ∃ u, Parser.Reads Parser.attributeValue (w.toList ++ [']']) u [']'] ∧
        x = .attribute ⟨⟨none, "a"⟩, some .equals, some u, none⟩ := by
  have hname : QualifiedName.Written ⟨none, "a"⟩ :=
    ⟨trivial, (isName_of_isPlainName rfl).1⟩
  have htext : ("[a=" ++ w ++ "]").toList = '[' :: (QualifiedName.chars ⟨none, "a"⟩ ++
      (AttributeOperator.equals.symbol ++ (w.toList ++ [']']))) := by
    simp [QualifiedName.chars, namespaceChars, AttributeOperator.symbol]
  have hmodifier : Parser.Reads Parser.attributeModifier (dropBlanks [']']) none [']'] :=
    Parser.reads_attributeModifier (m := none) (by simp) []
  rw [Simple.parse_attribute_iff htext]
  simp only [Parser.reads_attributeSelector_test_iff hname .equals hw]
  constructor
  · rintro ⟨_, r, ⟨u, t, hu, m, hm, rfl⟩, -, rfl⟩
    obtain rfl := hend u t hu
    obtain ⟨rfl, -⟩ := hmodifier.unique hm
    exact ⟨u, hu, rfl⟩
  · rintro ⟨u, hu, rfl⟩
    exact ⟨_, [], ⟨u, _, hu, none, hmodifier, rfl⟩, by rw [dropBlanks], rfl⟩

/-- A name is read as the value of an attribute without quotes, and it is read with quotes and gives
an equal selector exactly if it has no hexadecimal escape. -/
theorem Simple.parse_quoted_value_iff (hv : IsName v.toList) (options : ParseOptions) :
    ∃ x, (Simple.parse ("[a=" ++ v ++ "]") options).result = .ok x ∧
      ((∃ y, (Simple.parse ("[a=" ++ ("\"" ++ v ++ "\"") ++ "]") options).result = .ok y ∧
        Simple.same x y = true) ↔ hasHexEscape v.toList = false) := by
  have hname := Parser.reads_attributeValue_name hv []
  have hquoted (u : String) (t : List Char) : Parser.Reads Parser.attributeValue
      (("\"" ++ v ++ "\"").toList ++ [']']) u t ↔
        readQuoted '"' (v.toList ++ '"' :: [']']) = .ok (u.toList, t) := by
    rw [← Parser.reads_attributeValue_quoted_iff]
    simp
  refine ⟨_, (Simple.parse_test_iff (IsName.startsTight_append hv _)
    fun u t hu ↦ (hname.unique hu).2.symm).2 ⟨_, hname, rfl⟩, ?_⟩
  have htight : StartsTight (("\"" ++ v ++ "\"").toList ++ [']']) := by
    simpa using startsTight_cons rfl (by decide) _
  simp only [Simple.parse_test_iff htight fun u t hu ↦
    (of_readQuoted_isNameText hv.2 ((hquoted u t).1 hu)).1, hquoted]
  constructor
  · rintro ⟨_, ⟨u, hu, rfl⟩, hsame⟩
    obtain rfl : String.ofList (decodeName v.toList) = u := by
      simpa [Simple.same] using hsame
    exact (of_readQuoted_isNameText hv.2 hu).2.2 String.toList_ofList
  · intro hhex
    refine ⟨_, ⟨String.ofList (decodeName v.toList), ?_, rfl⟩, ?_⟩
    · rw [String.toList_ofList, readQuoted_of_isNameText hv.2 hhex]
    · simp [Simple.same]

/-- The name `b\ c`, whose value has a space. -/
theorem Simple.parse_quoted_value_space :
    ∃ x y, (Simple.parse ("[a=" ++ "b\\ c" ++ "]")).result = .ok x ∧
      (Simple.parse ("[a=" ++ ("\"" ++ "b\\ c" ++ "\"") ++ "]")).result = .ok y ∧
        Simple.same x y = true := by
  have hv : IsName "b\\ c".toList := ⟨by decide, by cbv⟩
  obtain ⟨x, hx, hiff⟩ := Simple.parse_quoted_value_iff hv {}
  obtain ⟨y, hy, hsame⟩ := hiff.2 (by decide)
  exact ⟨x, y, hx, hy, hsame⟩

/-- The name `\31` has the value `1`, and the value `31` between quotes. -/
theorem Simple.not_parse_quoted_value :
    ¬ ∀ (v : String) (x : Simple), IsName v.toList →
      (Simple.parse ("[a=" ++ v ++ "]")).result = .ok x →
        ∃ y, (Simple.parse ("[a=" ++ ("\"" ++ v ++ "\"") ++ "]")).result = .ok y ∧
          Simple.same x y = true := by
  intro h
  have hv : IsName "\\31".toList := ⟨by decide, by cbv⟩
  have hname : (Simple.parse ("[a=" ++ "\\31" ++ "]")).result =
      .ok (.attribute ⟨⟨none, "a"⟩, some .equals, some "1", none⟩) := by cbv
  have hquoted : (Simple.parse ("[a=" ++ ("\"" ++ "\\31" ++ "\"") ++ "]")).result =
      .ok (.attribute ⟨⟨none, "a"⟩, some .equals, some "31", none⟩) := by cbv
  obtain ⟨y, hy, hsame⟩ := h "\\31" _ hv hname
  rw [hquoted] at hy
  cases hy
  simp [Simple.same] at hsame

end SelectorAlgebra

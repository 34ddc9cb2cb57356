import SelectorAlgebra.Parse
import SelectorAlgebra.Proofs.Scanner.Selector

/-!
# What is read from a whole text

Main statement: reading a selector from a text gives what its parser makes of the text, with the
places that it names as spans.
-/

namespace SelectorAlgebra

/-- What a parser makes of a whole text, with the places that it names as spans of the text. -/
def Parser.run {α : Type} (p : Parser α) (text : String) (url : Option String) : Parsed α :=
  let source := text.toList
  { warnings := (p.whole source).notices.map fun r ↦
      Warning.multipleCombinators (r.span source url)
    result :=
      match (p.whole source).result with
      | .ok (a, _) => .ok a
      | .error e => .error ⟨e.fault, e.place.span source url⟩ }

theorem Scan.isSome_parsed? {α : Type} {x : Scan α} {text : List Char} {url : Option String}
    (h : x.result ≠ .error .crash) : (x.parsed? text url).isSome = true := by
  rw [Scan.parsed?]
  split <;> simp_all

/-- A scanner that does what a parser does on the whole text gives what the parser gives. -/
theorem Scanner.run_eq {α : Type} {q : Scanner α} {p : Parser α} {text : String}
    {url : Option String} (h : Yields text.toList q text.toList (p.whole text.toList)) :
    q.run text url = p.run text url := by
  have h := h (List.suffix_refl _)
  rw [Text.offset_self] at h
  have hnotices : (q text.toList 0).notices.map (fun r ↦
      Warning.multipleCombinators (Span.ofOffsets text.toList url r.1 r.2)) =
        (p.whole text.toList).notices.map fun r ↦
          Warning.multipleCombinators (r.span text.toList url) := by
    rw [h.notices, List.map_map]
    rfl
  rw [Scanner.run, Scan.parsed?, Parser.run, hnotices]
  cases hresult : (p.whole text.toList).result with
  | error e =>
    rw [h.fault e hresult]
    rfl
  | ok x =>
    rw [(h.value x.1 x.2 hresult).1]
    rfl

namespace Parser

variable {α : Type} {p : Parser α} {text : String} {url : Option String}

/-- A value is read from a text if it is what stands there between blanks. -/
theorem run_eq_ok_iff {a : α} : (run p text url).result = .ok a ↔
    ∃ r, Reads p (Text.dropBlanks text.toList) a r ∧ Text.dropBlanks r = [] := by
  have hwhole : (run p text url).result = .ok a ↔ Reads (whole p) text.toList a [] := by
    simp only [run, Reads]
    have hrest {b : α} {r : List Char} (h : (whole p text.toList).result = .ok (b, r)) : r = [] :=
      (reads_whole_iff.1 h).2
    cases h : (whole p text.toList).result with
    | error e => simp
    | ok x =>
      obtain ⟨b, r⟩ := x
      rw [hrest h]
      simp
  rw [hwhole, reads_whole_iff]
  simp

/-- A text is refused with the fault of its parser. -/
theorem run_eq_error_iff {err : SyntaxError} : (run p text url).result = .error err ↔
    ∃ fault, (whole p text.toList).result = .error fault ∧
      ⟨fault.fault, fault.place.span text.toList url⟩ = err := by
  rw [run]
  cases (whole p text.toList).result <;> simp

end Parser

end SelectorAlgebra

import Mathlib
import SelectorAlgebra.Proofs.Parser.EntryPoint

/-!
# The reader stays inside its text

Main statement: whatever the text and the entry point, no slice that the reader makes is out of
range, the offsets that it comes to never decrease and stand between characters of the text, and
what an error is about is a range of the text, with its true locations.
-/

namespace SelectorAlgebra

/-- A span that covers what stands in a text between its two locations, and not nothing, except at
the end of the text. -/
structure Span.IsCut (s : Span) (text : String) : Prop where
  ordered : s.start.offset ≤ s.stop.offset
  bounded : s.stop.offset ≤ text.utf8ByteSize
  start : String.Pos.Raw.IsValid text ⟨s.start.offset⟩
  stop : String.Pos.Raw.IsValid text ⟨s.stop.offset⟩
  text_eq : String.Pos.Raw.extract text ⟨s.start.offset⟩ ⟨s.stop.offset⟩ = s.text
  nonempty : s.text = "" → s.start.offset = text.utf8ByteSize
  located : ∃ before after : String, text = before ++ s.text ++ after ∧
    s.start = Location.origin.advance before.toList ∧
    s.stop = Location.origin.advance (before ++ s.text).toList

namespace EntryPoint

variable {e : EntryPoint} {text : String} {options : ParseOptions}

/-- What the scanner does on a text that is read. -/
def scan (e : EntryPoint) (text : String) (options : ParseOptions) : Scan e.Tree :=
  e.scanner options.toAllowance text.toList 0

/-- The scan does what the parser makes of the text. -/
theorem follows_scan (e : EntryPoint) (text : String) (options : ParseOptions) :
    Scanner.Follows text.toList text.toList (e.scan text options)
      ((e.parser options.toAllowance).whole text.toList) := by
  have h : Scanner.Yields text.toList (e.scanner options.toAllowance) text.toList _ :=
    e.yields_scanner
  have h := h (List.suffix_refl _)
  rwa [Text.offset_self] at h

/-- What is read from a text is what the scan of it gives: nothing is put in place of a crash. -/
theorem parsed?_scan (e : EntryPoint) (text : String) (options : ParseOptions) :
    (e.scan text options).parsed? text.toList options.url = some (e.parse text options) := by
  have hsome : ((e.scan text options).parsed? text.toList options.url).isSome = true :=
    Scan.isSome_parsed? (e.follows_scan text options).result_ne_crash
  obtain ⟨parsed, hparsed⟩ := Option.isSome_iff_exists.1 hsome
  rw [parse_eq_run_scanner, Scanner.run, ← scan, hparsed, Option.getD_some]

/-- The span of a range of a text is cut from the text. -/
theorem isCut_span {r : Stretch} (h : r.Within text.toList) (url : Option String) :
    (r.span text.toList url).IsCut text := by
  obtain ⟨start, stop⟩ := r
  obtain ⟨⟨u, hu⟩, ⟨v, hv⟩, hne⟩ := h
  dsimp only at hu hv hne
  subst hv
  have htext : text = String.ofList (u ++ (v ++ stop)) := by rw [hu, String.ofList_toList]
  have hsize (t : List Char) :
      (Location.origin.advance t).offset = (String.ofList t).utf8ByteSize := by
    rw [Location.offset_advance, Location.origin, Nat.zero_add]
  rw [← hu, Stretch.span_append, htext]
  constructor <;> dsimp only
  case ordered =>
    rw [hsize, hsize, utf8ByteSize_ofList_append]
    exact Nat.le_add_right _ _
  case bounded =>
    rw [hsize, ← List.append_assoc, utf8ByteSize_ofList_append (u ++ v)]
    exact Nat.le_add_right _ _
  case start =>
    exact String.Pos.Raw.isValid_ofList.2 ⟨u.length, by rw [hsize, List.take_left]⟩
  case stop =>
    refine String.Pos.Raw.isValid_ofList.2 ⟨(u ++ v).length, ?_⟩
    rw [hsize, ← List.append_assoc, List.take_left]
  case text_eq =>
    have h := String.extract_of_valid u v stop
    rw [← String.utf8ByteSize_ofList, ← String.utf8ByteSize_ofList,
      ← utf8ByteSize_ofList_append, List.append_assoc] at h
    rw [hsize, hsize]
    exact h
  case nonempty =>
    intro hv
    have hv : v = [] := by simpa using congrArg String.toList hv
    subst hv
    have hstop : stop = [] := by
      by_contra hstop
      exact hne hstop rfl
    rw [hsize, hstop, List.append_nil, List.append_nil]
  case located =>
    refine ⟨String.ofList u, String.ofList stop, ?_, ?_, ?_⟩
    · rw [← String.ofList_append, ← String.ofList_append, List.append_assoc]
    · rw [String.toList_ofList]
    · rw [← String.ofList_append, String.toList_ofList]

/-- The reader stays inside the text that it is given. It makes no slice past the end of the text or
inside a character, and it comes to an end; from step to step the byte offset where it stands does
not decrease, is no more than the size of the text and lies between characters. If it fails, it
names a span that is cut from the text, and an empty one only at the end. -/
theorem parse_stays_inside (e : EntryPoint) (text : String) (options : ParseOptions) :
    (e.scan text options).result ≠ .error .crash ∧
      (0 :: (e.scan text options).positions).Pairwise (· ≤ ·) ∧
      (∀ o ∈ (e.scan text options).positions,
        o ≤ text.utf8ByteSize ∧ String.Pos.Raw.IsValid text ⟨o⟩) ∧
      ∀ err, (e.parse text options).result = .error err →
        err.span.url = options.url ∧ err.span.IsCut text := by
  have hscan := e.follows_scan text options
  refine ⟨hscan.result_ne_crash, ?_, fun o ho ↦ ?_, fun err herr ↦ ?_⟩
  · have h := hscan.ordered
    rwa [Text.offset_self] at h
  · obtain ⟨r, hr, rfl⟩ := hscan.boundaries o ho
    exact ⟨Text.offset_le_utf8ByteSize r, Text.isValid_offset hr⟩
  · rw [parse_eq] at herr
    obtain ⟨fault, hfault, rfl⟩ := Parser.run_eq_error_iff.1 herr
    have hstays : Parser.StaysAt text.toList (e.parser options.toAllowance).whole text.toList :=
      Parser.stays_whole (fun _ ↦ e.stays) (List.suffix_refl _)
    exact ⟨rfl, isCut_span (hstays.place fault hfault) options.url⟩

/-- A string that a line feed cuts off, in a text with characters of two bytes. -/
theorem parse_stays_inside_string :
    (list.parse "é[ü=\"ß\n").result =
        .error ⟨.expectedString, ⟨none, ⟨6, 0, 4⟩, ⟨10, 1, 0⟩, "\"ß\n"⟩⟩ ∧
      Span.IsCut ⟨none, ⟨6, 0, 4⟩, ⟨10, 1, 0⟩, "\"ß\n"⟩ "é[ü=\"ß\n" := by
  have hread : (list.parse "é[ü=\"ß\n").result =
      .error ⟨.expectedString, ⟨none, ⟨6, 0, 4⟩, ⟨10, 1, 0⟩, "\"ß\n"⟩⟩ := by
    cbv
  exact ⟨hread, ((parse_stays_inside list "é[ü=\"ß\n" {}).2.2.2 _ hread).2⟩

end EntryPoint

end SelectorAlgebra

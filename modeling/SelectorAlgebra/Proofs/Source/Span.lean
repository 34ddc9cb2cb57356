import SelectorAlgebra.Source.Span

/-!
# Spans of ranges

A range inside a text comes between two parts of it. Main statement: its span starts at the location
after the first part and covers the characters of the range, and the offset of a location is the
number of bytes in front of it.
-/

namespace SelectorAlgebra

theorem utf8ByteSize_ofList_cons (c : Char) (s : List Char) :
    (String.ofList (c :: s)).utf8ByteSize = c.utf8Size + (String.ofList s).utf8ByteSize := by
  rw [String.ofList_cons, String.utf8ByteSize_append, String.utf8ByteSize_singleton]

theorem utf8ByteSize_ofList_append (s t : List Char) : (String.ofList (s ++ t)).utf8ByteSize =
    (String.ofList s).utf8ByteSize + (String.ofList t).utf8ByteSize := by
  rw [String.ofList_append, String.utf8ByteSize_append]

theorem Text.byteSize_eq (s : List Char) : byteSize s = (String.ofList s).utf8ByteSize := by
  induction s with
  | nil => rfl
  | cons c s ih => rw [byteSize, ih, utf8ByteSize_ofList_cons]

namespace Location

/-- The offset grows by the size of what is walked over. -/
theorem offset_advance (l : Location) (s : List Char) :
    (l.advance s).offset = l.offset + (String.ofList s).utf8ByteSize := by
  induction s generalizing l with
  | nil => rfl
  | cons c s ih =>
    rw [advance, List.foldl_cons, ← advance, ih]
    have hstep : (l.step c).offset = l.offset + c.utf8Size := by
      unfold step
      split <;> rfl
    rw [hstep, utf8ByteSize_ofList_cons, Nat.add_assoc]

/-- A part at the front of a text is all that fits into its own size. -/
theorem fitting_append (s t : List Char) :
    fitting (String.ofList s).utf8ByteSize (s ++ t) = s := by
  induction s with
  | nil =>
    cases t with
    | nil => rfl
    | cons c t =>
      have hc : c.utf8Size ≠ 0 := Nat.ne_of_gt c.utf8Size_pos
      simp [fitting, hc]
  | cons c s ih =>
    rw [List.cons_append, fitting, utf8ByteSize_ofList_cons, if_pos (Nat.le_add_right _ _),
      Nat.add_sub_cancel_left, ih]

theorem locate_append (s t : List Char) :
    locate (s ++ t) (String.ofList s).utf8ByteSize = origin.advance s := by
  rw [locate, fitting_append]

end Location

/-- Whether a range lies in a text and covers some of it, if it is not at the end. -/
structure Stretch.Within (r : Stretch) (source : List Char) : Prop where
  start : r.start <:+ source
  stop : r.stop <:+ r.start
  nonempty : r.start ≠ [] → r.stop ≠ r.start

namespace Stretch

theorem Within.suffix {r : Stretch} {s t : List Char} (h : r.Within s) (hs : s <:+ t) :
    r.Within t :=
  ⟨h.start.trans hs, h.stop, h.nonempty⟩

/-- A range of at least one character, unless it is at the end of the text. -/
theorem within_of_tail {s t stop : List Char} (hs : s <:+ t) (hstop : stop <:+ s.tail) :
    Within ⟨s, stop⟩ t := by
  refine ⟨hs, hstop.trans (List.tail_suffix s), fun hne heq ↦ ?_⟩
  have hlength := hstop.length_le
  dsimp only at hne heq
  rw [heq, List.length_tail] at hlength
  have := List.length_pos_iff.2 hne
  omega

/-- The span of the range between two parts of a text. -/
theorem span_append (u v w : List Char) (url : Option String) :
    span ⟨v ++ w, w⟩ (u ++ (v ++ w)) url =
      ⟨url, Location.origin.advance u, Location.origin.advance (u ++ v), String.ofList v⟩ := by
  have hstart : (String.ofList (u ++ (v ++ w))).utf8ByteSize -
      (String.ofList (v ++ w)).utf8ByteSize = (String.ofList u).utf8ByteSize := by
    rw [utf8ByteSize_ofList_append u, Nat.add_sub_cancel]
  have hstop : (String.ofList (u ++ (v ++ w))).utf8ByteSize - (String.ofList w).utf8ByteSize =
      (String.ofList (u ++ v)).utf8ByteSize := by
    rw [← List.append_assoc, utf8ByteSize_ofList_append (u ++ v), Nat.add_sub_cancel]
  have hmax : max (String.ofList (u ++ v)).utf8ByteSize (Location.origin.advance u).offset =
      (String.ofList (u ++ v)).utf8ByteSize := by
    rw [Location.offset_advance, utf8ByteSize_ofList_append]
    simp [Location.origin]
  simp only [span, Text.byteSize_eq, hstart, hstop, Span.ofOffsets, Location.locate_append, hmax,
    Location.fitting_append]
  rw [← List.append_assoc, Location.locate_append, Location.fitting_append,
    List.drop_left]

end Stretch

end SelectorAlgebra

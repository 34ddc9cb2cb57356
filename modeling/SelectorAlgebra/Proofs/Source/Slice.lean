import SelectorAlgebra.Proofs.Source.Span

/-!
# Slices of a text and its ends

The end of a text that is left at some place says where that place is. Main statement: at the byte
offsets of two ends of a text there is a slice, and it is what stands between them.
-/

namespace SelectorAlgebra.Text

theorem byteSize_append (s t : List Char) : byteSize (s ++ t) = byteSize s + byteSize t := by
  rw [byteSize_eq, byteSize_eq, byteSize_eq, utf8ByteSize_ofList_append]

/-- A text has at least as many bytes as characters. -/
theorem length_le_byteSize (s : List Char) : s.length ≤ byteSize s := by
  induction s with
  | nil => exact Nat.zero_le _
  | cons c s ih =>
    have := c.utf8Size_pos
    rw [List.length_cons, byteSize]
    omega

/-! ### Slices at the size of what stands in front -/

theorem sliceFrom_append (u v : List Char) : sliceFrom (u ++ v) (byteSize u) = some v := by
  induction u with
  | nil => cases v <;> rfl
  | cons c u ih =>
    obtain ⟨n, hn⟩ := Nat.exists_eq_add_one.2 c.utf8Size_pos
    have hsize : byteSize (c :: u) = n + byteSize u + 1 := by rw [byteSize, hn]; omega
    rw [hsize, List.cons_append, sliceFrom, if_pos (by omega)]
    rw [show n + byteSize u + 1 - c.utf8Size = byteSize u by omega, ih]

theorem sliceTo_append (u v : List Char) : sliceTo (u ++ v) (byteSize u) = some u := by
  induction u with
  | nil => cases v <;> rfl
  | cons c u ih =>
    obtain ⟨n, hn⟩ := Nat.exists_eq_add_one.2 c.utf8Size_pos
    have hsize : byteSize (c :: u) = n + byteSize u + 1 := by rw [byteSize, hn]; omega
    rw [hsize, List.cons_append, sliceTo, if_pos (by omega)]
    rw [show n + byteSize u + 1 - c.utf8Size = byteSize u by omega, ih, Option.map_some]

/-- What there is a slice up to some offset of, starts with that slice. -/
theorem sliceTo_eq_some {s t : List Char} {n : Nat} (h : sliceTo s n = some t) :
    ∃ u, s = t ++ u ∧ byteSize t = n := by
  fun_induction sliceTo s n generalizing t with
  | case1 s => cases h; exact ⟨s, rfl, rfl⟩
  | case2 => cases h
  | case3 c s n hc ih =>
    obtain ⟨v, hv, rfl⟩ := Option.map_eq_some_iff.1 h
    obtain ⟨u, rfl, hn⟩ := ih hv
    exact ⟨u, rfl, by rw [byteSize, hn]; omega⟩
  | case4 => cases h

/-! ### Offsets of ends -/

/-- The byte offset at which an end of a text starts. -/
def offset (src s : List Char) : Nat :=
  byteSize src - byteSize s

variable {src s r : List Char}

theorem offset_self : offset src src = 0 := Nat.sub_self _

/-- Passing a part of what is left adds its size to the offset. -/
theorem offset_add (u : List Char) (h : u ++ r <:+ src) :
    offset src (u ++ r) + byteSize u = offset src r := by
  obtain ⟨t, rfl⟩ := h
  simp only [offset, byteSize_append]
  omega

theorem offset_cons_add {c : Char} (h : c :: r <:+ src) :
    offset src (c :: r) + c.utf8Size = offset src r :=
  offset_add [c] h

theorem offset_le (h : r <:+ s) : offset src s ≤ offset src r := by
  obtain ⟨u, rfl⟩ := h
  rw [offset, byteSize_append, offset]
  omega

/-- Ends of a text are the further behind the shorter they are. -/
theorem offset_lt_iff (hs : s <:+ src) (hr : r <:+ s) :
    offset src s < offset src r ↔ r.length < s.length := by
  obtain ⟨u, rfl⟩ := hr
  rw [← offset_add u hs, List.length_append]
  cases u with
  | nil => simp [byteSize]
  | cons c u =>
    have := c.utf8Size_pos
    simp only [byteSize, List.length_cons]
    omega

/-- From the offset of an end of the text on, there is that end. -/
theorem sliceFrom_offset (hs : s <:+ src) : sliceFrom src (offset src s) = some s := by
  obtain ⟨u, rfl⟩ := hs
  rw [offset, byteSize_append, Nat.add_sub_cancel, sliceFrom_append]

/-- Between the offsets of two ends of the text, there is what stands between them. -/
theorem slice_offset (hs : s <:+ src) (hr : r <:+ s) :
    slice src (offset src s) (offset src r) = some (Stretch.chars ⟨s, r⟩) := by
  have hle : offset src s ≤ offset src r := offset_le hr
  rw [slice, if_pos hle, sliceFrom_offset hs, Option.bind_some]
  obtain ⟨u, rfl⟩ := hr
  rw [← offset_add u hs, Nat.add_sub_cancel_left, sliceTo_append, Stretch.chars_mk_append]

theorem slice_offset_add (hs : s <:+ src) (n : Nat) :
    slice src (offset src s) (offset src s + n) = sliceTo s n := by
  rw [slice, if_pos (Nat.le_add_right _ _), sliceFrom_offset hs, Option.bind_some,
    Nat.add_sub_cancel_left]

theorem offset_le_utf8ByteSize {text : String} (s : List Char) :
    offset text.toList s ≤ text.utf8ByteSize := by
  have hsize : byteSize text.toList = text.utf8ByteSize := by
    rw [byteSize_eq, String.ofList_toList]
  exact hsize ▸ Nat.sub_le _ _

/-- The offset of an end of a text stands at a boundary between characters. -/
theorem isValid_offset {text : String} (h : s <:+ text.toList) :
    String.Pos.Raw.IsValid text ⟨offset text.toList s⟩ := by
  obtain ⟨u, hu⟩ := h
  refine String.Pos.Raw.isValid_iff_exists_append.2
    ⟨String.ofList u, String.ofList s, ?_, ?_⟩
  · rw [← String.ofList_append, hu, String.ofList_toList]
  · rw [← hu, offset, byteSize_append, Nat.add_sub_cancel, byteSize_eq]
    rfl

end SelectorAlgebra.Text

import Mathlib.Data.List.DropRight
import Mathlib.Data.Set.Basic
import Mathlib.Order.Bounds.Basic
import SelectorAlgebra.Proofs.Source.Span

/-!
# Spans between offsets

A span may be asked for between any two byte offsets: past the end of the text, inside a character
or in reverse order. Main statement: it starts and stops at the last boundaries between characters
up to these offsets, holds the text between the two, and stops where walking over that text from its
start leads.
-/

namespace SelectorAlgebra

/-- The byte offsets of a text that stand between two characters or at one of its ends. -/
def boundaries (source : String) : Set ℕ :=
  {n | String.Pos.Raw.IsValid source ⟨n⟩}

/-- The boundaries are the sizes of what a text can begin with. -/
theorem mem_boundaries_iff {source : String} {n : ℕ} :
    n ∈ boundaries source ↔ ∃ s, s <+: source.toList ∧ (String.ofList s).utf8ByteSize = n := by
  rw [boundaries, Set.mem_ofPred_eq, String.Pos.Raw.isValid_iff_exists_append]
  constructor
  · rintro ⟨before, after, rfl, h⟩
    refine ⟨before.toList, by simp, ?_⟩
    rw [String.ofList_toList]
    exact (congrArg String.Pos.Raw.byteIdx h).symm
  · rintro ⟨s, ⟨t, h⟩, rfl⟩
    refine ⟨String.ofList s, String.ofList t, ?_, rfl⟩
    rw [← String.ofList_append, h, String.ofList_toList]

namespace Location

/-! ### What fits into a number of bytes -/

theorem utf8ByteSize_fitting_le (n : ℕ) (s : List Char) :
    (String.ofList (fitting n s)).utf8ByteSize ≤ n := by
  induction s generalizing n with
  | nil => exact Nat.zero_le n
  | cons c s ih =>
    unfold fitting
    split
    · next hc =>
      rw [utf8ByteSize_ofList_cons]
      have := ih (n - c.utf8Size)
      omega
    · exact Nat.zero_le n

/-- Whatever a text begins with and fits is part of the longest run that fits. -/
theorem isPrefix_fitting {n : ℕ} {s t : List Char} (ht : t <+: s)
    (hn : (String.ofList t).utf8ByteSize ≤ n) : t <+: fitting n s := by
  induction t generalizing n s with
  | nil => exact List.nil_prefix
  | cons c t ih =>
    obtain ⟨s, rfl⟩ := ht
    rw [utf8ByteSize_ofList_cons] at hn
    rw [List.cons_append, fitting, if_pos (Nat.le_of_add_right_le hn), List.cons_prefix_cons]
    exact ⟨rfl, ih (List.prefix_append t s) (by omega)⟩

theorem offset_advance_origin (s : List Char) :
    (origin.advance s).offset = (String.ofList s).utf8ByteSize := by
  rw [offset_advance, origin, Nat.zero_add]

theorem offset_locate (source : List Char) (n : ℕ) :
    (locate source n).offset = (String.ofList (fitting n source)).utf8ByteSize :=
  offset_advance_origin _

/-- An offset stands for the last boundary that is not behind it. -/
theorem isGreatest_offset_locate (source : String) (n : ℕ) :
    IsGreatest {m ∈ boundaries source | m ≤ min n source.utf8ByteSize}
      (locate source.toList n).offset := by
  have hprefix := fitting_isPrefix n source.toList
  rw [offset_locate]
  constructor
  · refine ⟨mem_boundaries_iff.2 ⟨_, hprefix, rfl⟩, le_min (utf8ByteSize_fitting_le n _) ?_⟩
    obtain ⟨t, ht⟩ := hprefix
    have hsize := utf8ByteSize_ofList_append (fitting n source.toList) t
    rw [ht, String.ofList_toList] at hsize
    omega
  · rintro m ⟨hm, hn⟩
    obtain ⟨s, hs, rfl⟩ := mem_boundaries_iff.1 hm
    obtain ⟨t, ht⟩ := isPrefix_fitting hs (hn.trans (min_le_left _ _))
    have hsize := utf8ByteSize_ofList_append s t
    rw [ht] at hsize
    omega

/-! ### Lines and columns -/

/-- Each line feed that is walked over starts a line. -/
theorem line_advance (l : Location) (s : List Char) :
    (l.advance s).line = l.line + s.count '\n' := by
  induction s generalizing l with
  | nil => rfl
  | cons c s ih =>
    rw [advance, List.foldl_cons, ← advance, ih, List.count_cons, step]
    split
    · next hc =>
      rw [if_pos (beq_iff_eq.2 hc)]
      exact Nat.add_right_comm l.line 1 _
    · next hc =>
      rw [if_neg (by simpa using hc)]
      rfl

/-- The column counts the characters since the last line feed that is walked over. -/
theorem column_advance (l : Location) (s : List Char) :
    (l.advance s).column = if '\n' ∈ s then (s.rtakeWhile (· ≠ '\n')).length
      else l.column + s.length := by
  induction s using List.reverseRecOn with
  | nil => rfl
  | append_singleton s c ih =>
    have hlast : l.advance (s ++ [c]) = (l.advance s).step c := by rw [advance_append]; rfl
    rw [hlast, step]
    by_cases hc : c = '\n'
    · subst hc
      simp
    · rw [if_neg hc, ih, List.rtakeWhile_concat_pos _ _ _ (by simpa using hc)]
      simp only [List.mem_append, List.mem_singleton, Ne.symm hc, or_false, List.length_append,
        List.length_singleton]
      split
      · rfl
      · exact Nat.add_assoc _ _ _

end Location

namespace Span

/-- What a span says about the text between two byte offsets. -/
structure Marks (span : Span) (source : String) (start stop : ℕ) : Prop where
  /-- It starts at the last boundary that is not behind the first offset. -/
  start : IsGreatest {n ∈ boundaries source | n ≤ min start source.utf8ByteSize} span.start.offset
  /-- It stops at the last boundary that is not behind the second offset, or where it starts if that
  offset is in front. -/
  stop : IsGreatest {n ∈ boundaries source | n ≤ min (max stop span.start.offset)
    source.utf8ByteSize} span.stop.offset
  start_le_stop : span.start.offset ≤ span.stop.offset
  stop_le_size : span.stop.offset ≤ source.utf8ByteSize
  /-- It holds what stands between its ends, and walking over what stands in front leads to its
  start. -/
  text : ∃ before after : String, source = before ++ span.text ++ after ∧
    span.start = Location.origin.advance before.toList ∧
    before.utf8ByteSize = span.start.offset ∧
    (before ++ span.text).utf8ByteSize = span.stop.offset
  /-- Its size is that of its text, and nothing is lost when it is taken as a difference. -/
  size : span.size = span.text.utf8ByteSize ∧ span.start.offset + span.size = span.stop.offset
  /-- It stops where walking over its text from its start leads. -/
  advance : span.stop = span.start.advance span.text.toList
  line : span.stop.line = span.start.line + span.text.toList.count '\n'
  column : span.stop.column =
    if '\n' ∈ span.text.toList then (span.text.toList.rtakeWhile (· ≠ '\n')).length
    else span.start.column + span.text.length

/-- The span between two offsets covers the run of characters between what fits into the first and
what fits into the second. -/
theorem exists_ofOffsets (source : List Char) (url : Option String) (start stop : ℕ) :
    ∃ before covered after, source = before ++ covered ++ after ∧
      ofOffsets source url start stop = ⟨url, Location.origin.advance before,
        Location.origin.advance (before ++ covered), String.ofList covered⟩ := by
  obtain ⟨after, hafter⟩ :=
    Location.fitting_isPrefix (max stop (Location.locate source start).offset) source
  -- what fits into the first offset also fits into the second, which is no less than its size
  have hfits : (String.ofList (Location.fitting start source)).utf8ByteSize ≤
      max stop (Location.locate source start).offset := by
    rw [Location.offset_locate]
    exact le_max_right _ _
  obtain ⟨covered, hcovered⟩ :=
    Location.isPrefix_fitting (Location.fitting_isPrefix start source) hfits
  refine ⟨Location.fitting start source, covered, after, by rw [hcovered, hafter], ?_⟩
  rw [hcovered, ofOffsets, ← hcovered, List.drop_left, hcovered]
  rfl

/-- A span between any two offsets of a text says what stands between them, and where. -/
theorem marks_ofOffsets (source : String) (url : Option String) (start stop : ℕ) :
    (ofOffsets source.toList url start stop).Marks source start stop := by
  obtain ⟨before, covered, after, hsource, hspan⟩ := exists_ofOffsets source.toList url start stop
  have hstart : IsGreatest _ (ofOffsets source.toList url start stop).start.offset :=
    Location.isGreatest_offset_locate source start
  have hstop : IsGreatest _ (ofOffsets source.toList url start stop).stop.offset :=
    Location.isGreatest_offset_locate source
      (max stop (ofOffsets source.toList url start stop).start.offset)
  rw [hspan] at hstart hstop ⊢
  have hadvance := Location.advance_append Location.origin before covered
  have hsize : (Location.origin.advance (before ++ covered)).offset =
      (Location.origin.advance before).offset + (String.ofList covered).utf8ByteSize := by
    rw [hadvance, Location.offset_advance]
  exact {
    start := hstart
    stop := hstop
    start_le_stop := hsize ▸ Nat.le_add_right _ _
    stop_le_size := hstop.1.2.trans (min_le_right _ _)
    text := ⟨String.ofList before, String.ofList after,
      by rw [← String.ofList_append, ← String.ofList_append, ← hsource, String.ofList_toList],
      by rw [String.toList_ofList], (Location.offset_advance_origin before).symm,
      by rw [← String.ofList_append, Location.offset_advance_origin]⟩
    size := by
      have hdifference : size ⟨url, Location.origin.advance before,
          Location.origin.advance (before ++ covered), String.ofList covered⟩ =
            (String.ofList covered).utf8ByteSize := by
        rw [size, hsize, Nat.add_sub_cancel_left]
      exact ⟨hdifference, by rw [hdifference, hsize]⟩
    advance := by rw [hadvance, String.toList_ofList]
    line := by rw [hadvance, Location.line_advance, String.toList_ofList]
    column := by
      rw [hadvance, Location.column_advance, ← String.length_toList, String.toList_ofList] }

/-- Offsets in the second byte of `é` and past the end mark the whole text, and a second offset in
front of the first marks nothing. -/
example : ofOffsets "é\nb".toList none 1 9 = ⟨none, ⟨0, 0, 0⟩, ⟨4, 1, 1⟩, "é\nb"⟩ ∧
    ofOffsets "é\nb".toList none 3 1 = ⟨none, ⟨3, 1, 0⟩, ⟨3, 1, 0⟩, ""⟩ := by decide

end Span

end SelectorAlgebra

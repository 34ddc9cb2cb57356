import SelectorAlgebra.Proofs.Selector.Word
import SelectorAlgebra.Selector.Depth
import SelectorAlgebra.Selector.Text

/-!
# Words and depths in canonical texts

The canonical text of a complex selector is that of its parts with a space in front of each, up to
the first space. Selectors are at most as deep as their text is long.
-/

namespace SelectorAlgebra

/-! ### Words as texts -/

/-- The text of a part. -/
def Part.chars : Part → List Char
  | .combinator k => [k.symbol]
  | .compound c => Compound.chars c

/-- A part without line breaks. -/
def Part.eraseBreaks : Part → Part
  | .combinator k => .combinator k
  | .compound c => .compound (Compound.eraseBreaks c)

/-- The texts of parts with a space in front of each. -/
def spacedParts (w : List Part) : List Char := w.flatMap fun x ↦ ' ' :: x.chars

theorem spacedParts_cons (x : Part) (w : List Part) :
    spacedParts (x :: w) = ' ' :: (x.chars ++ spacedParts w) := rfl

theorem spacedParts_append (v w : List Part) :
    spacedParts (v ++ w) = spacedParts v ++ spacedParts w :=
  List.flatMap_append

theorem space_spaced {x : List Char} (texts : List (List Char)) :
    ' ' :: spaced (x :: texts) = (x :: texts).flatMap fun u ↦ ' ' :: u := by
  induction texts generalizing x with
  | nil => simp [spaced]
  | cons y texts ih =>
    have htail := ih (x := y)
    rw [spaced, List.intercalate_cons_cons, ← spaced, List.flatMap_cons, ← htail]
    simp

theorem spacedParts_combinators (ks : List Combinator) :
    spacedParts (ks.map .combinator) = ks.flatMap fun k ↦ [' ', k.symbol] := by
  induction ks with
  | nil => rfl
  | cons k ks ih => rw [List.map_cons, spacedParts_cons, ih]; rfl

/-- A complex selector is written as its parts are, without the first space. -/
theorem Complex.space_chars {c : Complex} (h : c.word ≠ []) :
    ' ' :: c.chars = spacedParts c.word := by
  obtain ⟨leading, components, lineBreak⟩ := c
  have htexts (p : Path) : (Path.texts p).flatMap (fun u ↦ ' ' :: u) =
      spacedParts (p.flatMap fun d ↦ .compound d.compound :: d.combinators.map .combinator) := by
    induction p with
    | nil => rfl
    | cons d p ih =>
      obtain ⟨c, ks⟩ := d
      rw [Path.texts, List.flatMap_cons, ih, List.flatMap_cons, spacedParts_append,
        spacedParts_cons, spacedParts_combinators]
      simp [Part.chars]
  have hall : (leading.map (fun k ↦ [k.symbol]) ++ Path.texts components).flatMap
      (fun u ↦ ' ' :: u) = spacedParts (Complex.word ⟨leading, components, lineBreak⟩) := by
    rw [List.flatMap_append, htexts, Complex.word, spacedParts_append, spacedParts_combinators,
      List.flatMap_map]
  rw [← hall, Complex.chars]
  generalize leading.map (fun k ↦ [k.symbol]) ++ Path.texts components = texts at hall
  cases texts with
  | nil =>
    obtain ⟨x, w, hw⟩ := List.exists_cons_of_ne_nil h
    rw [hw, spacedParts_cons] at hall
    cases hall
  | cons x texts => exact space_spaced texts

theorem Complex.word_eraseBreaks (c : Complex) :
    c.eraseBreaks.word = c.word.map Part.eraseBreaks := by
  obtain ⟨leading, components, lineBreak⟩ := c
  rw [Complex.eraseBreaks, Complex.word, Complex.word, List.map_append, List.map_map]
  congr 1
  induction components with
  | nil => rfl
  | cons d p ih =>
    obtain ⟨c, ks⟩ := d
    rw [Path.eraseBreaks, List.flatMap_cons, List.flatMap_cons, List.map_append, ih]
    simp [Part.eraseBreaks]

/-! ### Depth -/

theorem SelectorList.depth_le {l : SelectorList} {c : Complex} (h : c ∈ l) :
    c.depth ≤ SelectorList.depth l := by
  induction l with
  | nil => cases h
  | cons d l ih =>
    rw [SelectorList.depth]
    rcases List.mem_cons.1 h with rfl | h
    · exact Nat.le_max_left _ _
    · exact Nat.le_trans (ih h) (Nat.le_max_right _ _)

theorem Complex.depth_eq (c : Complex) : c.depth = Path.depth c.components := by
  cases c
  rfl

theorem Path.depth_le {p : Path} {d : Component} (h : d ∈ p) :
    Compound.depth d.compound ≤ Path.depth p := by
  induction p with
  | nil => cases h
  | cons e p ih =>
    obtain ⟨c, ks⟩ := e
    rw [Path.depth]
    rcases List.mem_cons.1 h with rfl | h
    · exact Nat.le_max_left _ _
    · exact Nat.le_trans (ih h) (Nat.le_max_right _ _)

theorem Compound.depth_le {c : Compound} {x : Simple} (h : x ∈ c) :
    x.depth ≤ Compound.depth c := by
  induction c with
  | nil => cases h
  | cons y c ih =>
    rw [Compound.depth]
    rcases List.mem_cons.1 h with rfl | h
    · exact Nat.le_max_left _ _
    · exact Nat.le_trans (ih h) (Nat.le_max_right _ _)

theorem length_flatten_le_spaced (texts : List (List Char)) :
    texts.flatten.length ≤ (spaced texts).length := by
  induction texts with
  | nil => exact Nat.zero_le _
  | cons x texts ih =>
    cases texts with
    | nil => simp [spaced]
    | cons y texts =>
      rw [spaced, List.intercalate_cons_cons, ← spaced, List.flatten_cons]
      simp only [List.length_append] at ih ⊢
      omega

mutual

theorem Simple.depth_le_chars (x : Simple) : x.depth ≤ x.chars.length := by
  match x with
  | .pseudo p => exact Pseudo.depth_le_chars p
  | .universal _ | .type _ | .className _ | .id _ | .attribute _ | .placeholder _ | .parent _ =>
    exact Nat.zero_le _

theorem Pseudo.depth_le_chars (p : Pseudo) : p.depth ≤ p.chars.length := by
  match p with
  | ⟨_, _, _, none⟩ => exact Nat.zero_le _
  | ⟨n, element, none, some l⟩ =>
    have := SelectorList.depth_le_chars l
    simp only [Pseudo.depth, Pseudo.chars, List.length_append, List.length_cons]
    omega
  | ⟨n, element, some a, some l⟩ =>
    have := SelectorList.depth_le_chars l
    simp only [Pseudo.depth, Pseudo.chars, List.length_append, List.length_cons]
    omega

theorem SelectorList.depth_le_chars (l : SelectorList) :
    SelectorList.depth l ≤ (SelectorList.chars l).length := by
  match l with
  | [] => exact Nat.zero_le _
  | c :: l =>
    have := Complex.depth_le_chars c
    have := SelectorList.depth_le_moreChars l
    rw [SelectorList.depth, SelectorList.chars, List.length_append]
    omega

theorem SelectorList.depth_le_moreChars (l : SelectorList) :
    SelectorList.depth l ≤ (SelectorList.moreChars l).length := by
  match l with
  | [] => exact Nat.zero_le _
  | c :: l =>
    have := Complex.depth_le_chars c
    have := SelectorList.depth_le_moreChars l
    rw [SelectorList.depth, SelectorList.moreChars, List.length_append, List.length_append]
    omega

theorem Complex.depth_le_chars (c : Complex) : c.depth ≤ c.chars.length := by
  match c with
  | ⟨leading, p, lineBreak⟩ =>
    have hpath := Path.depth_le_texts p
    have htexts := length_flatten_le_spaced (leading.map (fun k ↦ [k.symbol]) ++ Path.texts p)
    rw [List.flatten_append, List.length_append] at htexts
    rw [Complex.depth, Complex.chars]
    omega

theorem Path.depth_le_texts (p : Path) : Path.depth p ≤ (Path.texts p).flatten.length := by
  match p with
  | [] => exact Nat.zero_le _
  | ⟨c, ks⟩ :: p =>
    have := Compound.depth_le_chars c
    have := Path.depth_le_texts p
    rw [Path.depth, Path.texts, List.flatten_cons, List.length_append, List.length_append]
    omega

theorem Compound.depth_le_chars (c : Compound) :
    Compound.depth c ≤ (Compound.chars c).length := by
  match c with
  | [] => exact Nat.zero_le _
  | x :: c =>
    have := Simple.depth_le_chars x
    have := Compound.depth_le_chars c
    rw [Compound.depth, Compound.chars, List.length_append]
    omega

end

end SelectorAlgebra

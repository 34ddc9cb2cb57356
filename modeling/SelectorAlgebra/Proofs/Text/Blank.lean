import Mathlib.Data.List.DropRight
import SelectorAlgebra.Text.Blank

/-!
# Blanks around a text

What dropping blanks and cutting off white space do to a text that is followed by another. Main
statements: blanks at the front of a text are dropped in the same way whatever follows the rest of
it, and what is cut off at the ends is exactly the white space there.
-/

namespace SelectorAlgebra.Text

/-- Whether a text starts with a comment. -/
def startsComment : List Char → Bool
  | '/' :: '*' :: _ => true
  | _ => false

theorem startsComment_iff {s : List Char} :
    startsComment s = true ↔ ∃ t, s = '/' :: '*' :: t := by
  unfold startsComment
  split
  · next t => simp
  · next h => simpa using fun t hs ↦ (h t hs).elim

/-- Whether a text starts with neither white space nor a comment. -/
def StartsTight (s : List Char) : Prop :=
  (∀ c ∈ s.head?, isBlank c = false) ∧ startsComment s = false

theorem StartsTight.of_append {s t : List Char} (h : StartsTight (s ++ t)) : StartsTight s := by
  refine ⟨fun c hc ↦ ?_, ?_⟩
  · obtain ⟨u, rfl⟩ := List.head?_eq_some_iff.1 hc
    exact h.1 c rfl
  · rw [← Bool.not_eq_true, startsComment_iff]
    rintro ⟨u, rfl⟩
    cases h.2

theorem startsTight_cons {c : Char} (hc : isBlank c = false) (hs : c ≠ '/') (s : List Char) :
    StartsTight (c :: s) := by
  refine ⟨by simpa using hc, Bool.eq_false_iff.2 fun h ↦ ?_⟩
  obtain ⟨t, ht⟩ := startsComment_iff.1 h
  exact hs (List.cons.inj ht).1

/-- What is behind a text can only finish a mark for a comment. -/
theorem StartsTight.append {s t : List Char} (h : StartsTight s) (hne : s ≠ [])
    (ht : t.head? ≠ some '*') : StartsTight (s ++ t) := by
  obtain ⟨c, s, rfl⟩ := List.exists_cons_of_ne_nil hne
  refine ⟨h.1, Bool.eq_false_iff.2 fun hcomment ↦ ?_⟩
  obtain ⟨u, hu⟩ := startsComment_iff.1 hcomment
  obtain ⟨rfl, htail⟩ := List.cons.inj hu
  cases s with
  | nil =>
    change t = _ at htail
    exact ht (by rw [htail, List.head?_cons])
  | cons d s =>
    have hd : d = '*' := (List.cons.inj htail).1
    subst hd
    cases h.2

theorem dropBlanks_of_startsTight {s : List Char} (h : StartsTight s) : dropBlanks s = s := by
  unfold dropBlanks
  split
  · cases h.2
  · rw [if_neg (by simp [h.1 _ rfl])]
  · rfl

theorem blanksBreakLine_of_startsTight {s : List Char} (h : StartsTight s) :
    blanksBreakLine s = false := by
  unfold blanksBreakLine
  split
  · cases h.2
  · next c s _ => rw [h.1 c rfl, Bool.false_and]
  · rfl

theorem dropBlanks_comment (s : List Char) : dropBlanks ('/' :: '*' :: s) = dropComment s := by
  rw [dropBlanks]

theorem dropComment_close (s : List Char) : dropComment ('*' :: '/' :: s) = dropBlanks s := by
  rw [dropComment]

theorem dropBlanks_cons {c : Char} {s : List Char} (hc : isBlank c = false)
    (h : startsComment (c :: s) = false) : dropBlanks (c :: s) = c :: s :=
  dropBlanks_of_startsTight ⟨by simp [hc], h⟩

theorem dropComment_cons {c : Char} {s : List Char} (h : ∀ t, c :: s ≠ '*' :: '/' :: t) :
    dropComment (c :: s) = dropComment s := by
  rw [dropComment]
  intro t hc hs
  exact h t (by rw [hc, hs])

theorem commentThenBreak_cons {c : Char} {s : List Char} (h : ∀ t, c :: s ≠ '*' :: '/' :: t) :
    commentThenBreak (c :: s) = commentThenBreak s := by
  conv => lhs; unfold commentThenBreak
  split
  · next heq => exact absurd heq (h _)
  · next heq =>
    cases heq
    rfl
  · next heq => cases heq

/-- The mark that closes a comment stands at the front of a text that goes on only if it did so
before. -/
theorem ne_close_append {c : Char} {s : List Char} (h : ∀ u, c :: s ≠ '*' :: '/' :: u)
    (hs : s ≠ []) (t u : List Char) : c :: (s ++ t) ≠ '*' :: '/' :: u := by
  obtain ⟨d, s, rfl⟩ := List.exists_cons_of_ne_nil hs
  intro hu
  cases hu
  exact h s rfl

/-! ### Induction along the blanks -/

/-- The steps of an induction along the blanks at the front of a text: `P` is told of texts, and `Q`
of texts behind the mark that opens a comment. -/
structure BlankInduction (P Q : List Char → Prop) : Prop where
  nil : P []
  comment : ∀ s, Q s → P ('/' :: '*' :: s)
  blank : ∀ c s, isBlank c = true → P s → P (c :: s)
  tight : ∀ s, s ≠ [] → StartsTight s → P s
  unclosed : Q []
  close : ∀ s, P s → Q ('*' :: '/' :: s)
  inside : ∀ c s, (∀ t, c :: s ≠ '*' :: '/' :: t) → Q s → Q (c :: s)

namespace BlankInduction

variable {P Q : List Char → Prop}

mutual

theorem text (h : BlankInduction P Q) (s : List Char) : P s := by
  match s with
  | [] => exact h.nil
  | c :: s =>
    by_cases hcomment : startsComment (c :: s) = true
    · obtain ⟨u, hu⟩ := startsComment_iff.1 hcomment
      cases hu
      exact h.comment u (h.comment_text u)
    · cases hc : isBlank c with
      | true => exact h.blank c s hc (h.text s)
      | false =>
        exact h.tight _ (List.cons_ne_nil c s)
          ⟨by simpa using hc, Bool.eq_false_iff.2 hcomment⟩

theorem comment_text (h : BlankInduction P Q) (s : List Char) : Q s := by
  match s with
  | [] => exact h.unclosed
  | c :: s =>
    by_cases hclose : ∃ u, c :: s = '*' :: '/' :: u
    · obtain ⟨u, hu⟩ := hclose
      cases hu
      exact h.close u (h.text u)
    · exact h.inside c s (not_exists.1 hclose) (h.comment_text s)

end

end BlankInduction

theorem blankInduction_startsTight :
    BlankInduction (fun s ↦ StartsTight (dropBlanks s)) (fun s ↦ StartsTight (dropComment s)) where
  nil := ⟨by simp [dropBlanks], rfl⟩
  comment s ih := by
    rw [dropBlanks_comment]
    exact ih
  blank c s hc ih := by
    rw [dropBlanks_cons_of_isBlank hc]
    exact ih
  tight s _ hs := by
    rw [dropBlanks_of_startsTight hs]
    exact hs
  unclosed := ⟨by simp [dropComment], rfl⟩
  close s ih := by
    rw [dropComment_close]
    exact ih
  inside c s h ih := by
    rw [dropComment_cons h]
    exact ih

/-- What is left once the blanks are dropped starts with none. -/
theorem startsTight_dropBlanks (s : List Char) : StartsTight (dropBlanks s) :=
  blankInduction_startsTight.text s

theorem dropBlanks_dropBlanks (s : List Char) : dropBlanks (dropBlanks s) = dropBlanks s :=
  dropBlanks_of_startsTight (startsTight_dropBlanks s)

theorem blankInduction_append {t : List Char} (ht : t.head? ≠ some '*') : BlankInduction
    (fun s ↦ dropBlanks s ≠ [] → dropBlanks (s ++ t) = dropBlanks s ++ t)
    (fun s ↦ dropComment s ≠ [] → dropComment (s ++ t) = dropComment s ++ t) where
  nil h := absurd rfl h
  comment s ih h := by
    rw [dropBlanks_comment] at h ⊢
    exact ih h
  blank c s hc ih h := by
    rw [dropBlanks_cons_of_isBlank hc] at h ⊢
    rw [List.cons_append, dropBlanks_cons_of_isBlank hc, ih h]
  tight s hne hs _ := by
    rw [dropBlanks_of_startsTight hs, dropBlanks_of_startsTight (hs.append hne ht)]
  unclosed h := absurd rfl h
  close s ih h := by
    rw [dropComment_close] at h ⊢
    exact ih h
  inside c s hc ih h := by
    rw [dropComment_cons hc] at h ⊢
    have hs : s ≠ [] := by
      rintro rfl
      exact h rfl
    rw [List.cons_append, dropComment_cons (ne_close_append hc hs t), ih h]

/-- Blanks that do not make up the whole text are dropped in the same way if more text follows,
which must not finish the mark of a comment. -/
theorem dropBlanks_append {s t : List Char} (h : dropBlanks s ≠ []) (ht : ∀ c ∈ t.head?, c ≠ '*') :
    dropBlanks (s ++ t) = dropBlanks s ++ t :=
  (blankInduction_append fun hmark ↦ ht _ hmark rfl).text s h

theorem blanksBreakLine_cons_of_isBlank {c : Char} (hc : isBlank c = true) (s : List Char) :
    blanksBreakLine (c :: s) = (c == '\n' || blanksBreakLine s) := by
  conv => lhs; unfold blanksBreakLine
  split
  · next heq =>
    cases heq
    cases hc
  · next heq =>
    cases heq
    rw [hc, Bool.true_and]
  · next heq => cases heq

theorem blankInduction_breakLine {t : List Char} (ht : t.head? ≠ some '*') : BlankInduction
    (fun s ↦ dropBlanks s ≠ [] → blanksBreakLine (s ++ t) = blanksBreakLine s)
    (fun s ↦ dropComment s ≠ [] → commentThenBreak (s ++ t) = commentThenBreak s) where
  nil h := absurd rfl h
  comment s ih h := by
    rw [dropBlanks_comment] at h
    exact ih h
  blank c s hc ih h := by
    rw [dropBlanks_cons_of_isBlank hc] at h
    rw [List.cons_append, blanksBreakLine_cons_of_isBlank hc, blanksBreakLine_cons_of_isBlank hc,
      ih h]
  tight s hne hs _ := by
    rw [blanksBreakLine_of_startsTight hs, blanksBreakLine_of_startsTight (hs.append hne ht)]
  unclosed h := absurd rfl h
  close s ih h := by
    rw [dropComment_close] at h
    exact ih h
  inside c s hc ih h := by
    rw [dropComment_cons hc] at h
    have hs : s ≠ [] := by
      rintro rfl
      exact h rfl
    rw [List.cons_append, commentThenBreak_cons hc,
      commentThenBreak_cons (ne_close_append hc hs t), ih h]

/-- Blanks that do not make up the whole text break the line in the same way if more text follows,
which must not finish the mark of a comment. -/
theorem blanksBreakLine_append {s t : List Char} (h : dropBlanks s ≠ [])
    (ht : ∀ c ∈ t.head?, c ≠ '*') : blanksBreakLine (s ++ t) = blanksBreakLine s :=
  (blankInduction_breakLine fun hmark ↦ ht _ hmark rfl).text s h

theorem blankInduction_suffix (t : List Char) : BlankInduction
    (fun s ↦ dropBlanks s = [] → dropBlanks (s ++ t) <:+ t)
    (fun s ↦ dropComment s = [] → dropComment (s ++ t) <:+ t) where
  nil _ := dropBlanks_suffix t
  comment s ih h := by
    rw [dropBlanks_comment] at h
    exact ih h
  blank c s hc ih h := by
    rw [dropBlanks_cons_of_isBlank hc] at h
    rw [List.cons_append, dropBlanks_cons_of_isBlank hc]
    exact ih h
  tight s hne hs h := by
    rw [dropBlanks_of_startsTight hs] at h
    exact absurd h hne
  unclosed _ := dropComment_suffix t
  close s ih h := by
    rw [dropComment_close] at h
    exact ih h
  inside c s hc ih h := by
    rw [dropComment_cons hc] at h
    by_cases hclose : ∃ u, c :: (s ++ t) = '*' :: '/' :: u
    · -- the mark that closes the comment is cut by the end of the text
      obtain ⟨u, hu⟩ := hclose
      cases s with
      | nil =>
        cases hu
        exact (dropBlanks_suffix u).trans (List.suffix_cons _ _)
      | cons d s => exact absurd hu (ne_close_append hc (List.cons_ne_nil d s) t u)
    · rw [List.cons_append, dropComment_cons (not_exists.1 hclose)]
      exact ih h

/-- A text of blanks alone takes blanks from what follows, and nothing else. -/
theorem dropBlanks_append_suffix {s : List Char} (h : dropBlanks s = []) (t : List Char) :
    dropBlanks (s ++ t) <:+ t :=
  (blankInduction_suffix t).text s h

/-! ### White space that is cut off -/

/-- Whether a text has no white space at its ends. -/
def IsTrimmed (s : List Char) : Prop :=
  (∀ c ∈ s.head?, isSpace c = false) ∧ ∀ c ∈ s.getLast?, isSpace c = false

/-- What is left of a text is what ends in no white space and has nothing else behind it. -/
theorem trimEnd_eq_iff {s a : List Char} : trimEnd s = a ↔
    (∃ z, s = a ++ z ∧ ∀ c ∈ z, isSpace c = true) ∧ ∀ c ∈ a.getLast?, isSpace c = false := by
  change s.rdropWhile isSpace = a ↔ _
  constructor
  · rintro rfl
    refine ⟨⟨(s.reverse.takeWhile isSpace).reverse, ?_, fun c hc ↦ ?_⟩, fun c hc ↦ ?_⟩
    · rw [List.rdropWhile, ← List.reverse_append, List.takeWhile_append_dropWhile,
        List.reverse_reverse]
    · exact List.mem_takeWhile_imp (List.mem_reverse.1 hc)
    · obtain ⟨hne, rfl⟩ := List.mem_getLast?_eq_getLast hc
      simpa using List.rdropWhile_last_not isSpace s hne
  · rintro ⟨⟨z, rfl, hz⟩, ha⟩
    have hself : a.rdropWhile isSpace = a :=
      List.rdropWhile_eq_self_iff.2 fun hne ↦ by simp [ha _ (List.getLast_mem_getLast? hne)]
    induction z using List.reverseRecOn with
    | nil => rw [List.append_nil, hself]
    | append_singleton z c ih =>
      rw [← List.append_assoc, List.rdropWhile_concat_pos _ _ _ (hz c (by simp))]
      exact ih fun d hd ↦ hz d (by simp [hd])

theorem trimEnd_append {a z : List Char} (ha : ∀ c ∈ a.getLast?, isSpace c = false)
    (hz : ∀ c ∈ z, isSpace c = true) : trimEnd (a ++ z) = a :=
  trimEnd_eq_iff.2 ⟨⟨z, rfl, hz⟩, ha⟩

/-- A text is what is left of it with white space cut off on both sides. -/
theorem exists_of_trim (s : List Char) :
    (∃ y z, s = y ++ trim s ++ z ∧ (∀ c ∈ y, isSpace c = true) ∧ ∀ c ∈ z, isSpace c = true) ∧
      IsTrimmed (trim s) := by
  obtain ⟨⟨z, hs, hz⟩, hlast⟩ := trimEnd_eq_iff.1 (rfl : trim s = trim s)
  refine ⟨⟨s.takeWhile isSpace, z, ?_, fun c hc ↦ List.mem_takeWhile_imp hc, hz⟩, ?_, hlast⟩
  · rw [List.append_assoc, ← hs, List.takeWhile_append_dropWhile]
  · intro c hc
    obtain ⟨t, ht⟩ := List.head?_eq_some_iff.1 hc
    have hhead := List.head?_dropWhile_not isSpace s
    rw [hs, ht] at hhead
    simpa using hhead

/-- Cutting off leaves a text as it is between white space behind it and nothing in front. -/
theorem trim_append {a z : List Char} (ha : IsTrimmed a) (hne : a ≠ [])
    (hz : ∀ c ∈ z, isSpace c = true) : trim (a ++ z) = a := by
  obtain ⟨c, a, rfl⟩ := List.exists_cons_of_ne_nil hne
  rw [trim, List.cons_append, List.dropWhile_cons_of_neg (by simp [ha.1 c rfl]), ← List.cons_append]
  exact trimEnd_append ha.2 hz

end SelectorAlgebra.Text

import Mathlib.Algebra.Group.Nat.Even
import SelectorAlgebra.Parser.Argument
import SelectorAlgebra.Proofs.Text.Blank
import SelectorAlgebra.Proofs.Text.Quoted

/-!
# Where arguments end

The arguments of pseudo selectors that are no selectors run to a closing parenthesis, and are kept
as they were written. Main statements: an argument that a parenthesis ends once is ended by every
other parenthesis; and one whose white space at the end is cut off is an argument still exactly if
the backslashes that are left at its end pair off.
-/

namespace SelectorAlgebra.Text

/-- Whether a closing parenthesis right behind a text ends it as an argument. -/
def IsArgument (a : List Char) : Prop := dropArgument 0 (a ++ [')']) = .ok [')']

theorem dropArgument_quoted {q : Char} (hq : q = '"' ∨ q = '\'') {s v r : List Char}
    (h : readQuoted q s = .ok (v, r)) (depth : Nat) :
    dropArgument depth (q :: s) = dropArgument depth r := by
  have hmark : q ≠ ')' ∧ q ≠ '(' := by rcases hq with rfl | rfl <;> decide
  rw [dropArgument.eq_def]
  simp only [if_neg hmark.1, if_neg hmark.2]
  rw [if_pos (by simpa using hq)]
  split
  · next hs => simp [hs] at h
  · next hs =>
    rw [h] at hs
    cases hs
    rfl

theorem dropArgument_escape {s r : List Char} (h : dropEscape s = some r) (depth : Nat) :
    dropArgument depth ('\\' :: s) = dropArgument depth r := by
  rw [dropArgument.eq_def]
  dsimp only
  rw [if_neg (by decide), if_neg (by decide), if_neg (by decide), if_pos rfl]
  split
  · next hs => simp [hs] at h
  · next hs =>
    rw [h] at hs
    cases hs
    rfl

theorem dropArgument_cons {c : Char} (hclose : c ≠ ')') (hopen : c ≠ '(')
    (hq : ¬ (c = '"' ∨ c = '\'')) (hb : c ≠ '\\') (depth : Nat) (s : List Char) :
    dropArgument depth (c :: s) = dropArgument depth s := by
  rw [dropArgument.eq_def]
  dsimp only
  rw [if_neg hclose, if_neg hopen, if_neg (by simpa using hq), if_neg hb]

/-- Where an argument ends does not depend on what follows the parenthesis. -/
theorem dropArgument_append {depth : Nat} {s r : List Char} (h : dropArgument depth s = .ok r) :
    ∃ a t, s = a ++ r ∧ r = ')' :: t ∧
      ∀ u, dropArgument depth (a ++ ')' :: u) = .ok (')' :: u) := by
  fun_induction dropArgument depth s with
  | case1 => cases h
  | case2 s =>
    cases h
    exact ⟨[], s, rfl, rfl, fun u ↦ by rw [List.nil_append, dropArgument, if_pos rfl]⟩
  | case3 s depth ih =>
    obtain ⟨a, t, rfl, rfl, ha⟩ := ih h
    refine ⟨')' :: a, t, rfl, rfl, fun u ↦ ?_⟩
    rw [List.cons_append, dropArgument, if_pos rfl]
    exact ha u
  | case4 depth s _ ih =>
    obtain ⟨a, t, rfl, rfl, ha⟩ := ih h
    refine ⟨'(' :: a, t, rfl, rfl, fun u ↦ ?_⟩
    rw [List.cons_append, dropArgument.eq_def]
    exact ha u
  | case5 => cases h
  | case6 depth q s _ _ hq v r' hs _ ih =>
    obtain ⟨a, t, rfl, rfl, ha⟩ := ih h
    obtain ⟨w, rfl, hw, -⟩ := exists_of_readQuoted hs
    refine ⟨q :: w ++ q :: a, t, by simp, rfl, fun u ↦ ?_⟩
    rw [List.append_assoc, List.cons_append, List.cons_append,
      dropArgument_quoted (by simpa using hq) (hw _)]
    exact ha u
  | case7 => cases h
  | case8 depth s r' hs _ _ _ _ ih =>
    obtain ⟨a, t, rfl, rfl, ha⟩ := ih h
    obtain ⟨e, rfl⟩ := dropEscape_suffix hs
    refine ⟨'\\' :: e ++ a, t, by simp, rfl, fun u ↦ ?_⟩
    have he : dropEscape (e ++ (a ++ ')' :: u)) = some (a ++ ')' :: u) :=
      dropEscape_congr hs rfl (by cases a <;> simp)
    rw [List.append_assoc, List.cons_append, dropArgument_escape he]
    exact ha u
  | case9 depth c s hclose hopen hq hb ih =>
    obtain ⟨a, t, rfl, rfl, ha⟩ := ih h
    refine ⟨c :: a, t, rfl, rfl, fun u ↦ ?_⟩
    rw [List.cons_append, dropArgument_cons hclose hopen (by simpa using hq) hb]
    exact ha u

/-- A text is an argument exactly if any parenthesis behind it ends it. -/
theorem isArgument_iff {a : List Char} (t : List Char) :
    IsArgument a ↔ dropArgument 0 (a ++ ')' :: t) = .ok (')' :: t) := by
  have hcongr {u v : List Char} (h : dropArgument 0 (a ++ ')' :: u) = .ok (')' :: u)) :
      dropArgument 0 (a ++ ')' :: v) = .ok (')' :: v) := by
    obtain ⟨b, w, hab, -, hb⟩ := dropArgument_append h
    rw [List.append_cancel_right hab]
    exact hb v
  exact ⟨hcongr, hcongr⟩

theorem not_special_of_isSpace {c : Char} (h : isSpace c = true) : c ≠ ')' ∧ c ≠ '/' ∧ c ≠ '*' := by
  refine ⟨?_, ?_, ?_⟩ <;> (rintro rfl; revert h; decide)

theorem isSpace_of_isHexDigit {c : Char} (h : isHexDigit c = true) : isSpace c = false :=
  of_isHexDigit (P := fun c ↦ isSpace c = false) h (by decide)

/-! ### Backslashes at the end -/

/-- How many backslashes a text ends with. -/
def endBackslashes (s : List Char) : Nat := (s.reverse.takeWhile (· == '\\')).length

theorem endBackslashes_append_cons {c : Char} (hc : c ≠ '\\') (s t : List Char) :
    endBackslashes (s ++ c :: t) = endBackslashes t := by
  rw [endBackslashes, endBackslashes, List.reverse_append, List.reverse_cons, List.append_assoc,
    List.takeWhile_append]
  split
  · next hall => simpa [hc] using hall.symm
  · rfl

theorem endBackslashes_cons {c : Char} (hc : c ≠ '\\') (s : List Char) :
    endBackslashes (c :: s) = endBackslashes s :=
  endBackslashes_append_cons hc [] s

theorem endBackslashes_replicate (n : Nat) : endBackslashes (List.replicate n '\\') = n := by
  simp [endBackslashes]

theorem endBackslashes_of_not_mem {s : List Char} (h : '\\' ∉ s) : endBackslashes s = 0 := by
  induction s with
  | nil => rfl
  | cons c s ih =>
    rw [List.mem_cons, not_or] at h
    rw [endBackslashes_cons (Ne.symm h.1), ih h.2]

theorem even_endBackslashes_cons_cons (s : List Char) :
    Even (endBackslashes ('\\' :: '\\' :: s)) ↔ Even (endBackslashes s) := by
  by_cases hall : ∀ c ∈ s, c = '\\'
  · rw [List.eq_replicate_of_mem hall, ← List.replicate_succ, ← List.replicate_succ,
      endBackslashes_replicate, endBackslashes_replicate, Nat.even_add_one, Nat.even_add_one,
      not_not]
  · push Not at hall
    obtain ⟨c, hmem, hc⟩ := hall
    obtain ⟨u, t, rfl⟩ := List.append_of_mem hmem
    rw [endBackslashes_append_cons hc, ← List.cons_append, ← List.cons_append,
      endBackslashes_append_cons hc]

theorem endBackslashes_dropBlank (s : List Char) :
    endBackslashes (dropBlank s) = endBackslashes s := by
  cases s with
  | nil => rfl
  | cons b s =>
    rw [dropBlank_cons]
    split
    · next hb =>
      refine (endBackslashes_cons ?_ s).symm
      rintro rfl
      cases hb
    · rfl

/-- A whole escape pairs its own backslashes off. -/
theorem even_endBackslashes_escape {s r : List Char} (h : dropEscape s = some r) :
    Even (endBackslashes ('\\' :: s)) ↔ Even (endBackslashes r) := by
  rcases dropEscape_cases h with ⟨c, hc, rfl⟩ | ⟨c, ds, t, hc, rfl, rfl, hds, -⟩
  · by_cases hb : c = '\\'
    · subst hb
      exact even_endBackslashes_cons_cons r
    · exact iff_of_eq (congrArg Even (endBackslashes_append_cons hb ['\\'] r))
  · have hne {d : Char} (hd : isHexDigit d = true) : d ≠ '\\' :=
      ne_of_isNameChar (isNameChar_of_isHexDigit hd) rfl
    have hdigits : endBackslashes ('\\' :: c :: (ds ++ t)) = endBackslashes t := by
      cases ds using List.reverseRecOn with
      | nil => exact endBackslashes_append_cons (hne hc) ['\\'] t
      | append_singleton ds d =>
        rw [List.append_assoc, ← List.cons_append, ← List.cons_append]
        exact endBackslashes_append_cons (hne (hds d (by simp))) _ t
    rw [hdigits, endBackslashes_dropBlank]

/-! ### White space at the end -/

private theorem exists_tail {a s t : List Char} {c : Char} (h : a ++ t = c :: s)
    (ht : t.head? ≠ some c) : ∃ b, a = c :: b ∧ s = b ++ t := by
  cases a with
  | nil => exact absurd (congrArg List.head? h) ht
  | cons e a =>
    obtain ⟨rfl, hs⟩ := List.cons.inj h
    exact ⟨a, rfl, hs.symm⟩

private theorem exists_of_append_eq {b t w u : List Char} {q : Char} (h : b ++ t = w ++ q :: u)
    (hq : q ∉ t) : ∃ r, u = r ++ t ∧ b = w ++ q :: r := by
  rcases List.append_eq_append_iff.1 h with ⟨y, rfl, rfl⟩ | ⟨y, rfl, hy⟩
  · simp at hq
  · obtain ⟨r, rfl, rfl⟩ := exists_tail hy.symm fun hhead ↦ hq (List.mem_of_mem_head? hhead)
    exact ⟨r, rfl, rfl⟩

variable {z : List Char} (hz : ∀ c ∈ z, isSpace c = true)

include hz

private theorem not_mem_spaces_close {c : Char} (hc : isSpace c = false) (hclose : c ≠ ')') :
    c ∉ z ++ [')'] := by
  rw [List.mem_append, List.mem_singleton, not_or]
  exact ⟨fun hmem ↦ by simp [hz c hmem] at hc, hclose⟩

private theorem head_spaces_close_ne {c : Char} (hc : isSpace c = false) (hclose : c ≠ ')') :
    (z ++ [')']).head? ≠ some c :=
  fun h ↦ not_mem_spaces_close hz hc hclose (List.mem_of_mem_head? h)

/-- An escape takes no more than one character from white space behind it. -/
theorem dropEscape_append_spaces {s r : List Char} (h : dropEscape s = some r) :
    ∃ x, x <:+ z ∧ dropEscape (s ++ (z ++ [')'])) = some (r ++ (x ++ [')'])) := by
  rcases dropEscape_append h with hclosed | ⟨rfl, m, hopen⟩
  · exact ⟨z, List.suffix_refl z, hclosed _⟩
  · have hrun : hexRun m (z ++ [')']) = [] := by
      refine hexRun_eq_nil (fun d hd ↦ Bool.eq_false_iff.2 fun hdigit ↦ ?_) m
      have hclose : d ≠ ')' := ne_of_isNameChar (isNameChar_of_isHexDigit hdigit) rfl
      exact head_spaces_close_ne hz (isSpace_of_isHexDigit hdigit) hclose hd
    rw [hopen, hrun]
    cases z with
    | nil => exact ⟨[], List.suffix_refl _, rfl⟩
    | cons d z =>
      rw [List.length_nil, List.drop_zero, List.cons_append, dropBlank_cons]
      split
      · exact ⟨z, List.suffix_cons d z, rfl⟩
      · exact ⟨d :: z, List.suffix_refl _, rfl⟩

/-- An argument whose white space at the end is cut off is one still exactly if the backslashes that
are left at its end pair off. -/
theorem dropArgument_trim_iff {depth : Nat} {a : List Char}
    (h : dropArgument depth (a ++ (z ++ [')'])) = .ok [')']) :
    dropArgument depth (a ++ [')']) = .ok [')'] ↔ Even (endBackslashes a) := by
  generalize hs : a ++ (z ++ [')']) = s at h
  -- the white space is not fixed along the scan, since the last escape may take its first character
  fun_induction dropArgument depth s generalizing a z with
  | case1 => cases h
  | case2 s =>
    cases h
    have hlength := congrArg List.length hs
    simp only [List.length_append, List.length_cons, List.length_nil] at hlength
    obtain rfl : a = [] := List.length_eq_zero_iff.1 (by omega)
    exact iff_of_true (by rw [List.nil_append, dropArgument, if_pos rfl]) Even.zero
  | case3 s depth ih =>
    cases a with
    | nil =>
      -- the parenthesis would be the last one, and there is one open
      cases z with
      | nil =>
        cases hs
        rw [dropArgument] at h
        cases h
      | cons c z =>
        cases hs
        cases hz _ (.head z)
    | cons c a =>
      cases hs
      rw [List.cons_append, dropArgument, if_pos rfl, endBackslashes_cons (by decide)]
      exact ih hz rfl h
  | case4 depth s _ ih =>
    obtain ⟨b, rfl, rfl⟩ := exists_tail hs (head_spaces_close_ne hz (by decide) (by decide))
    rw [List.cons_append, dropArgument.eq_def, endBackslashes_cons (by decide)]
    exact ih hz rfl h
  | case5 => cases h
  | case6 depth q s _ _ hq v r hr _ ih =>
    have hq : q = '"' ∨ q = '\'' := by simpa using hq
    obtain ⟨hspace, hclose, hb⟩ : isSpace q = false ∧ q ≠ ')' ∧ q ≠ '\\' := by
      rcases hq with rfl | rfl <;> decide
    obtain ⟨b, rfl, rfl⟩ := exists_tail hs (head_spaces_close_ne hz hspace hclose)
    obtain ⟨w, hw, hx, -⟩ := exists_of_readQuoted hr
    -- the closing quote is none of the white space, so it stands in front of it
    obtain ⟨u, rfl, rfl⟩ := exists_of_append_eq hw (not_mem_spaces_close hz hspace hclose)
    rw [List.cons_append, List.append_assoc, List.cons_append, dropArgument_quoted hq (hx _),
      ← List.cons_append, endBackslashes_append_cons hb]
    exact ih hz rfl h
  | case7 => cases h
  | case8 depth s r hr _ _ _ _ ih =>
    obtain ⟨b, rfl, rfl⟩ := exists_tail hs (head_spaces_close_ne hz (by decide) (by decide))
    cases b with
    | nil =>
      -- without the white space the backslash takes the parenthesis
      have hescape : dropEscape [')'] = some [] := rfl
      rw [List.singleton_append, dropArgument_escape hescape, dropArgument]
      exact iff_of_false (by simp) (by decide)
    | cons c b =>
      obtain ⟨r', hr'⟩ : ∃ r, dropEscape (c :: b) = some r := ⟨_, rfl⟩
      obtain ⟨x, hx, hxr⟩ := dropEscape_append_spaces hz hr'
      obtain ⟨y, hy, hyr⟩ := dropEscape_append_spaces (z := []) (by simp) hr'
      obtain rfl := List.suffix_nil.1 hy
      rw [List.nil_append] at hyr
      obtain rfl := Option.some.inj (hxr.symm.trans hr)
      rw [List.cons_append, dropArgument_escape hyr, even_endBackslashes_escape hr']
      exact ih (fun d hd ↦ hz d (hx.subset hd)) rfl h
  | case9 depth d s hclose hopen hq hb ih =>
    cases a with
    | nil =>
      cases z with
      | nil =>
        cases hs
        exact absurd rfl hclose
      | cons c z =>
        cases hs
        exact ih (List.forall_mem_cons.1 hz).2 rfl h
    | cons e a =>
      cases hs
      rw [List.cons_append, dropArgument_cons hclose hopen (by simpa using hq) hb,
        endBackslashes_cons hb]
      exact ih hz rfl h

theorem isArgument_trim_iff {a : List Char} (h : IsArgument (a ++ z)) :
    IsArgument a ↔ Even (endBackslashes a) :=
  dropArgument_trim_iff hz (by rwa [← List.append_assoc])

/-- Without backslashes, white space at the end of an argument may be cut off. -/
theorem isArgument_of_append {a : List Char} (hb : '\\' ∉ a) (h : IsArgument (a ++ z)) :
    IsArgument a := by
  rw [isArgument_trim_iff hz h, endBackslashes_of_not_mem hb]
  exact Even.zero

end SelectorAlgebra.Text

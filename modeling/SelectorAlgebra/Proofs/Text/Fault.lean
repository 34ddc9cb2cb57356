import SelectorAlgebra.Parser.Argument
import SelectorAlgebra.Proofs.Source.Span

/-!
# Where scanning fails

A name, a string and an argument can be cut off. Main statement: what is then reported is a range of
the text that was scanned.
-/

namespace SelectorAlgebra.Text

/-- A name is cut off only in an escape, by the end of the text. -/
theorem suffix_of_dropName_eq_none {s : List Char} (h : dropName s = none) : ['\\'] <:+ s := by
  fun_induction dropName s with
  | case1 => cases h
  | case2 c s _ ih => exact (ih h).trans (List.suffix_cons c s)
  | case3 c s _ hc hs =>
    cases s with
    | nil => simp_all
    | cons d s => cases hs
  | case4 c s _ _ t ht _ ih =>
    exact (ih h).trans ((dropEscape_suffix ht).trans (List.suffix_cons c s))
  | case5 => cases h

/-- What is left behind a string that is cut off is the end of the text. -/
theorem suffix_of_readQuoted_eq_error {quote : Char} {s stop : List Char}
    (h : readQuoted quote s = .error stop) : stop <:+ s := by
  fun_induction readQuoted quote s with
  | case1 => cases h; exact List.suffix_refl _
  | case2 => cases h; exact List.nil_suffix
  | case3 s ih => exact (ih h).trans ⟨['\\', '\n'], rfl⟩
  | case4 c s _ ih =>
    cases hs : readQuoted quote s with
    | error stop' =>
      simp only [hs, Except.map, Except.error.injEq] at h
      subst h
      exact (ih hs).trans ⟨['\\', c], rfl⟩
    | ok p => simp [hs, Except.map] at h
  | case5 => cases h
  | case6 => cases h; exact List.suffix_cons _ _
  | case7 c s _ _ _ _ _ ih =>
    cases hs : readQuoted quote s with
    | error stop' =>
      simp only [hs, Except.map, Except.error.injEq] at h
      subst h
      exact (ih hs).trans (List.suffix_cons c s)
    | ok p => simp [hs, Except.map] at h

/-- What is wrong with an argument is a range of it. -/
theorem within_of_dropArgument_eq_error {depth : Nat} {s : List Char} {e : Fault}
    (h : dropArgument depth s = .error e) : e.place.Within s := by
  fun_induction dropArgument depth s with
  | case1 =>
    cases h
    exact Stretch.within_of_tail (List.suffix_refl _) (List.suffix_refl _)
  | case2 => cases h
  | case3 s depth ih => exact (ih h).suffix (List.suffix_cons _ s)
  | case4 depth s _ ih => exact (ih h).suffix (List.suffix_cons _ s)
  | case5 depth q s _ _ _ stop hs =>
    cases h
    exact Stretch.within_of_tail (List.suffix_refl _) (suffix_of_readQuoted_eq_error hs)
  | case6 depth q s _ _ _ v r hs _ ih =>
    exact (ih h).suffix ((readQuoted_suffix hs).1.trans (List.suffix_cons q s))
  | case7 depth s hs =>
    cases h
    exact Stretch.within_of_tail (List.suffix_refl _) List.nil_suffix
  | case8 depth s r hs _ _ _ _ ih =>
    exact (ih h).suffix ((dropEscape_suffix hs).trans (List.suffix_cons _ s))
  | case9 depth c s _ _ _ _ ih => exact (ih h).suffix (List.suffix_cons c s)

/-- An argument is cut off in a string that is. -/
theorem dropArgument_quoted_error {q : Char} (hq : q = '"' ∨ q = '\'') {s stop : List Char}
    (h : readQuoted q s = .error stop) (depth : Nat) :
    dropArgument depth (q :: s) = .error ⟨.expectedString, ⟨q :: s, stop⟩⟩ := by
  have hmark : q ≠ ')' ∧ q ≠ '(' := by rcases hq with rfl | rfl <;> decide
  rw [dropArgument.eq_def]
  simp only [if_neg hmark.1, if_neg hmark.2]
  rw [if_pos (by simpa using hq)]
  split
  · next hs =>
    rw [h] at hs
    cases hs
    rfl
  · next hs => simp [hs] at h

/-- An argument is cut off in an escape that is. -/
theorem dropArgument_escape_error {s : List Char} (h : dropEscape s = none) (depth : Nat) :
    dropArgument depth ('\\' :: s) = .error ⟨.expectedEscape, ⟨'\\' :: s, []⟩⟩ := by
  rw [dropArgument.eq_def]
  dsimp only
  rw [if_neg (by decide), if_neg (by decide), if_neg (by decide), if_pos rfl]
  split
  · rfl
  · next hs => simp [hs] at h

end SelectorAlgebra.Text

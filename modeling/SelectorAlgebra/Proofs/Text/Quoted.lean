import SelectorAlgebra.Proofs.Text.Name
import SelectorAlgebra.Text.Quoted

/-!
# Values in quotes

A value is read back from the text that writes it, except that the escape of a line feed loses its
meaning inside quotes. Main statement: exactly the values without a line feed survive.
-/

namespace SelectorAlgebra.Text

/-- What is read of a value between quotes: the escape of a line feed is read as the letter that it
starts with. -/
def requote (v : List Char) : List Char :=
  v.flatMap fun c ↦ if c = '\n' then ['a', ' '] else [c]

theorem requote_cons (c : Char) (v : List Char) :
    requote (c :: v) = (if c = '\n' then ['a', ' '] else [c]) ++ requote v := rfl

/-- A value survives quotes exactly if it has no line feed. -/
theorem requote_eq_self_iff {v : List Char} : requote v = v ↔ '\n' ∉ v := by
  induction v with
  | nil => simp [requote]
  | cons c v ih =>
    rw [requote_cons]
    split
    · next h =>
      subst h
      simp
    · next h => simp [ih, Ne.symm h]

theorem ofList_requote_eq_iff {v : String} :
    String.ofList (requote v.toList) = v ↔ '\n' ∉ v.toList := by
  rw [← requote_eq_self_iff, ← String.toList_inj, String.toList_ofList]

theorem readQuoted_cons {q c : Char} (hq : c ≠ q) (hb : c ≠ '\\') (hn : c ≠ '\n') (s : List Char) :
    readQuoted q (c :: s) = (readQuoted q s).map fun (v, r) ↦ (c :: v, r) := by
  rw [readQuoted]
  · rw [if_neg hq, if_neg hn]
  all_goals simp [hb]

theorem readQuoted_close {q : Char} (hq : q ≠ '\\') (s : List Char) :
    readQuoted q (q :: s) = .ok ([], s) := by
  rw [readQuoted]
  · rw [if_pos rfl]
  all_goals simp [hq]

theorem readQuoted_escape (q : Char) {c : Char} (hn : c ≠ '\n') (s : List Char) :
    readQuoted q ('\\' :: c :: s) = (readQuoted q s).map fun (v, r) ↦ (c :: v, r) := by
  rw [readQuoted]
  exact hn

/-- The characters inside quotes are read up to the closing quote. -/
theorem readQuoted_quoteChars (v rest : List Char) :
    readQuoted '"' (v.flatMap quoteChar ++ '"' :: rest) = .ok (requote v, rest) := by
  induction v with
  | nil => rfl
  | cons c v ih =>
    rw [List.flatMap_cons, List.append_assoc, requote_cons]
    by_cases hn : c = '\n'
    · have hc : quoteChar '\n' = ['\\', 'a', ' '] := rfl
      subst hn
      simp only [hc, if_true, List.cons_append, List.nil_append]
      rw [readQuoted_escape _ (by decide), readQuoted_cons (by decide) (by decide) (by decide), ih]
      rfl
    · rw [if_neg hn]
      by_cases hq : c = '"' ∨ c = '\\'
      · have hc : quoteChar c = ['\\', c] := by simp [quoteChar, hq]
        simp only [hc, List.cons_append, List.nil_append]
        rw [readQuoted_escape _ hn, ih]
        rfl
      · have hc : quoteChar c = [c] := by simp [quoteChar, hq, hn]
        rw [not_or] at hq
        simp only [hc, List.cons_append, List.nil_append]
        rw [readQuoted_cons hq.1 hq.2 hn, ih]
        rfl

theorem exists_of_map_cons {ε : Type} {c : Char} {v r : List Char}
    {x : Except ε (List Char × List Char)} (h : x.map (fun (v, r) ↦ (c :: v, r)) = .ok (v, r)) :
    ∃ u, x = .ok (u, r) ∧ v = c :: u := by
  cases x with
  | error e => cases h
  | ok p =>
    cases h
    exact ⟨p.1, rfl, rfl⟩

/-- What is read between quotes does not depend on what follows them, and a line feed comes into it
only with a backslash. -/
theorem exists_of_readQuoted {q : Char} {s v r : List Char} (h : readQuoted q s = .ok (v, r)) :
    ∃ w, s = w ++ q :: r ∧ (∀ x, readQuoted q (w ++ q :: x) = .ok (v, x)) ∧
      ('\\' ∉ w → '\n' ∉ v) := by
  fun_induction readQuoted q s generalizing v r with
  | case1 => cases h
  | case2 => cases h
  | case3 s ih =>
    obtain ⟨w, rfl, hw, -⟩ := ih h
    refine ⟨'\\' :: '\n' :: w, rfl, fun x ↦ ?_, fun hm ↦ absurd (.head _) hm⟩
    rw [List.cons_append, List.cons_append, readQuoted]
    exact hw x
  | case4 c s hn ih =>
    obtain ⟨u, hs, rfl⟩ := exists_of_map_cons h
    obtain ⟨w, rfl, hw, -⟩ := ih hs
    refine ⟨'\\' :: c :: w, rfl, fun x ↦ ?_, fun hm ↦ absurd (.head _) hm⟩
    rw [List.cons_append, List.cons_append, readQuoted_escape _ hn, hw]
    rfl
  | case5 s hnil _ hcons =>
    cases h
    have hq : q ≠ '\\' := by
      intro hq
      cases s with
      | nil => exact hnil hq rfl
      | cons d s => exact hcons d s hq rfl
    exact ⟨[], rfl, readQuoted_close hq, fun _ ↦ by simp⟩
  | case6 => cases h
  | case7 c s hnil _ hcons hc hn ih =>
    obtain ⟨u, hs, rfl⟩ := exists_of_map_cons h
    obtain ⟨w, hw, hx, hm⟩ := ih hs
    have hb : c ≠ '\\' := by
      intro hb
      cases s with
      | nil => exact hnil hb rfl
      | cons d s => exact hcons d s hb rfl
    refine ⟨c :: w, by rw [hw, List.cons_append], fun x ↦ ?_, fun hcw ↦ ?_⟩
    · rw [List.cons_append, readQuoted_cons hc hb hn, hx]
      rfl
    · simpa [Ne.symm hn] using hm fun hmem ↦ hcw (.tail _ hmem)

/-! ### Plain names -/

theorem decodeName_cons {c : Char} (hc : c ≠ '\\') (s : List Char) :
    decodeName (c :: s) = c :: decodeName s := by
  conv => lhs; unfold decodeName
  rw [if_neg (by simpa using hc)]

theorem decodeName_of_not_mem {s : List Char} (h : '\\' ∉ s) : decodeName s = s := by
  induction s with
  | nil => rw [decodeName]
  | cons c s ih =>
    rw [List.mem_cons, not_or] at h
    rw [decodeName_cons (Ne.symm h.1), ih h.2]

theorem ne_of_isNameChar {c d : Char} (hc : isNameChar c = true) (hd : isNameChar d = false) :
    c ≠ d := by
  rintro rfl
  simp [hc] at hd

/-- A value that is written without quotes is a name without escapes. -/
theorem isName_of_isPlainName {v : List Char} (h : isPlainName v = true) :
    IsName v ∧ ∀ c ∈ v, isNameChar c = true := by
  have hall : ∀ c ∈ v, isNameChar c = true := by
    unfold isPlainName at h
    split at h
    · rw [Bool.and_eq_true, List.all_eq_true] at h
      refine List.forall_mem_cons.2 ⟨rfl, List.forall_mem_cons.2 ⟨?_, h.2⟩⟩
      exact isNameChar_of_isNameStart h.1
    · rw [Bool.and_eq_true, List.all_eq_true] at h
      exact List.forall_mem_cons.2 ⟨isNameChar_of_isNameStart h.1, h.2⟩
    · cases h
  have hmem : '\\' ∉ v := fun hm ↦ ne_of_isNameChar (hall _ hm) rfl rfl
  refine ⟨⟨startsName_iff.2 ?_, (isNameText_iff_of_not_mem hmem).2 hall⟩, hall⟩
  unfold isPlainName at h
  split at h
  · next c s =>
    rw [Bool.and_eq_true] at h
    exact .inr ⟨_, rfl, .inr ⟨c, s, rfl, .inl h.1⟩⟩
  · next c s _ =>
    rw [Bool.and_eq_true] at h
    exact .inl (.inr ⟨c, s, rfl, h.1⟩)
  · cases h

end SelectorAlgebra.Text

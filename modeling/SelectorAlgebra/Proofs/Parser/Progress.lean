import SelectorAlgebra.Proofs.Parser.Position

/-!
# Progress of parsers

Main statement: no selector is empty, so whoever reads one leaves less than it was given.
-/

namespace SelectorAlgebra.Parser

open Text

variable {s t : List Char}

theorem reads_accept_iff {c : Char} {b : Bool} :
    Reads (accept c) s b t ↔ if b then s = c :: t else s.head? ≠ some c ∧ s = t := by
  unfold Reads accept
  cases s with
  | nil => cases b <;> simp
  | cons d s => by_cases hd : d = c <;> cases b <;> simp [hd]

theorem length_lt_of_reads_name {n : String} (h : Reads name s n t) : t.length < s.length := by
  obtain ⟨hs, ht, -⟩ := reads_name_iff.1 h
  obtain ⟨u, rfl, hu⟩ := isName_of_dropName hs ht
  obtain ⟨c, u, rfl, -⟩ := hu.exists_cons
  simp only [List.cons_append, List.length_cons, List.length_append]
  omega

theorem length_lt_of_reads_typeSelector {x : Simple} (h : Reads typeSelector s x t) :
    t.length < s.length := by
  rw [typeSelector, reads_accept_bind_iff] at h
  rcases h with ⟨u, rfl, h⟩ | ⟨-, h⟩
  · rw [if_pos rfl, reads_accept_bind_iff] at h
    rcases h with ⟨v, rfl, h⟩ | ⟨-, h⟩
    · have := (stays_namespaced.suffix h).length_le
      simp only [List.length_cons]
      omega
    · obtain ⟨-, rfl⟩ := reads_pure_iff.1 h
      exact Nat.lt_succ_self _
  · rw [if_neg (by decide), reads_accept_bind_iff] at h
    rcases h with ⟨v, rfl, h⟩ | ⟨-, h⟩
    · exact Nat.lt_succ_of_le (stays_namespaced.suffix h).length_le
    · rw [if_neg (by decide), reads_bind_iff] at h
      obtain ⟨n, u, hn, h⟩ := h
      refine Nat.lt_of_le_of_lt (List.IsSuffix.length_le ?_) (length_lt_of_reads_name hn)
      rw [reads_rest_bind_iff] at h
      split at h
      · exact (stays_namespaced.suffix (reads_goTo_bind_iff.1 h)).trans (List.tail_suffix u)
      · obtain ⟨-, rfl⟩ := reads_pure_iff.1 h
        exact List.suffix_refl _

section Nested

variable {allow : Allowance} {nested : Parser SelectorList}
  (hstays : ∀ src u, Stays src nested u)

include hstays

/-- A simple selector is not empty. -/
theorem length_lt_of_reads_simple {first : Bool} {x : Simple}
    (h : Reads (simple allow nested first) s x t) : t.length < s.length := by
  have hgoTo {c : Char} {u : List Char} {f : Unit → Parser Simple}
      (h : Reads (goTo u >>= f) (c :: u) x t) (hf : Stays u (f ()) u) :
      t.length < (c :: u).length :=
    Nat.lt_succ_of_le (hf.suffix (reads_goTo_bind_iff.1 h)).length_le
  have hname {c : Char} {u : List Char} {f : String → Simple}
      (h : Reads (goTo u >>= fun _ ↦ do return f (← name)) (c :: u) x t) :
      t.length < (c :: u).length :=
    hgoTo h (.bind .name fun _ _ _ ↦ .pure)
  rw [simple, reads_rest_bind_iff] at h
  split at h
  · exact hgoTo h (.bind stays_attributeSelector fun _ _ _ ↦ .pure)
  · exact hname h
  · exact hname h
  · split at h
    · exact hname h
    · exact absurd h not_reads_fail
  · exact hgoTo h (.bind (stays_pseudo (hstays _)) fun _ _ _ ↦ .pure)
  · next u =>
    unfold parent at h
    split at h
    · exact absurd h not_reads_fail
    · split at h
      · exact absurd h not_reads_fail
      · exact hgoTo (reads_rest_bind_iff.1 h) (.bind .nameChars fun _ _ _ ↦ .pure)
  · exact length_lt_of_reads_typeSelector h
  · exact length_lt_of_reads_typeSelector h
  · split at h
    · exact length_lt_of_reads_typeSelector h
    · exact absurd h not_reads_fail

theorem length_lt_of_reads_compound {c : Compound} (h : Reads (compound allow nested) s c t) :
    t.length < s.length := by
  obtain ⟨x, u, hx, h⟩ := reads_bind_iff.1 h
  have hmore : Stays u (do return x :: (← moreSimples allow nested u.length)) u :=
    .bind (stays_moreSimples (hstays u) _) fun _ _ _ ↦ .pure
  have := (hmore.suffix (reads_rest_bind_iff.1 h)).length_le
  have := length_lt_of_reads_simple hstays hx
  omega

theorem length_lt_of_reads_parts {bound : Nat} {adjacent : Bool} {w : List Part} (hw : w ≠ [])
    (h : Reads (parts allow nested bound adjacent) s w t) : t.length < s.length := by
  cases bound with
  | zero =>
    rw [parts, reads_blanks_bind_iff] at h
    exact absurd (reads_pure_iff.1 h).1.symm hw
  | succ bound =>
    rw [parts, reads_rest_bind_iff, reads_blanks_bind_iff, reads_rest_bind_iff] at h
    refine Nat.lt_of_lt_of_le ?_ (dropBlanks_suffix s).length_le
    split at h
    · next k hk =>
      obtain ⟨v, u, hv, h⟩ := reads_bind_iff.1 (reads_goTo_bind_iff.1 h)
      obtain ⟨-, rfl⟩ := reads_pure_iff.1 h
      refine Nat.lt_of_le_of_lt ((stays_parts (hstays _) bound false).suffix hv).length_le ?_
      cases hu : dropBlanks s with
      | nil => simp [hu] at hk
      | cons c u => exact Nat.lt_succ_self _
    · split at h
      · obtain ⟨c, u, hc, h⟩ := reads_bind_iff.1 h
        obtain ⟨v, r, hv, h⟩ := reads_bind_iff.1 h
        obtain ⟨-, rfl⟩ := reads_pure_iff.1 h
        exact Nat.lt_of_le_of_lt ((stays_parts (hstays _) bound true).suffix hv).length_le
          (length_lt_of_reads_compound hstays hc)
      · exact absurd (reads_pure_iff.1 h).1.symm hw

/-- A complex selector is not empty. -/
theorem length_lt_of_reads_complex {c : Complex} {lineBreak : Bool}
    (h : Reads (complex allow nested lineBreak) s c t) : t.length < s.length :=
  length_lt_of_reads_parts hstays (reads_complex_word_iff.1 h).1.2 (reads_complex_word_iff.1 h).1.1

end Nested

end SelectorAlgebra.Parser

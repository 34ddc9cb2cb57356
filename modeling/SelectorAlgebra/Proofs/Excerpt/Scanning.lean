import SelectorAlgebra.Proofs.Serialization.Word

/-!
# Scanning an excerpt

A part is cut off at the end of a text, which starts with a comma or a closing parenthesis if it is
not empty. Main statement: what is scanned in the text up to a place in front of the cut is scanned
in the same way in what is left of the text.
-/

namespace SelectorAlgebra

theorem Stretch.chars_append_right {s t : List Char} (h : t <:+ s) (r : List Char) :
    chars ⟨s ++ r, t ++ r⟩ = chars ⟨s, t⟩ := by
  obtain ⟨u, rfl⟩ := h
  rw [List.append_assoc, chars_mk_append, chars_mk_append]

namespace Parser

open Text

variable {x y z r : List Char}

/-! ### Behind the cut -/

theorem StartsWithin.endsName_of_complexEnds (hr : StartsWithin complexEnds r) : EndsName r :=
  (hr.mono (by decide)).endsName

theorem StartsWithin.head_eq {c : Char} (hr : StartsWithin complexEnds r) (hc : c ∈ r.head?) :
    c = ',' ∨ c = ')' := by
  simpa [complexEnds] using hr c hc

theorem StartsWithin.not_star (hr : StartsWithin complexEnds r) : ∀ c ∈ r.head?, c ≠ '*' := by
  intro c hc
  rcases hr.head_eq hc with rfl | rfl <;> decide

theorem StartsWithin.head?_append_ne {c : Char} (hr : StartsWithin complexEnds r)
    (hx : x.head? ≠ some c) (hc : c ∉ complexEnds) : (x ++ r).head? ≠ some c := by
  cases x with
  | nil => exact fun h ↦ hc (hr c h)
  | cons d x => exact hx

theorem startsName_of_startsWithin (hr : StartsWithin complexEnds r) : startsName r = false := by
  cases r with
  | nil => rfl
  | cons c r =>
    rcases hr.head_eq rfl with rfl | rfl <;> rfl

/-- A bar that ends a namespace is told without what is behind the cut. -/
theorem startsBar_append (hr : StartsWithin complexEnds r) (x : List Char) :
    startsBar (x ++ r) = startsBar x := by
  match x with
  | [] =>
    cases r with
    | nil => rfl
    | cons c r => rcases hr.head_eq rfl with rfl | rfl <;> rfl
  | [c] =>
    cases r with
    | nil => rfl
    | cons d r =>
      by_cases hc : c = '|'
      · subst hc
        rcases hr.head_eq rfl with rfl | rfl <;> rfl
      · simp [startsBar, hc]
  | c :: d :: x =>
    by_cases hc : c = '|'
    · subst hc
      by_cases hd : d = '='
      · subst hd
        rfl
      · simp [startsBar, hd]
    · simp [startsBar, hc]

theorem continuesCompound_append (hr : StartsWithin complexEnds r) (x : List Char) :
    continuesCompound (x ++ r) = continuesCompound x := by
  cases x with
  | nil =>
    cases r with
    | nil => rfl
    | cons c r => rcases hr.head_eq rfl with rfl | rfl <;> rfl
  | cons c x => rfl

/-- More text does not keep a compound selector from starting. -/
theorem startsCompound_of_prefix (h : startsCompound x = true) (r : List Char) :
    startsCompound (x ++ r) = true := by
  cases x with
  | nil => cases h
  | cons c x =>
    simp only [startsCompound, Bool.or_eq_true, List.cons_append] at h ⊢
    exact h.imp_right fun h ↦ startsName_append h r

/-- An escape takes nothing from behind the cut, where neither a digit nor a blank comes first. -/
theorem dropEscape_append_of_startsWithin (hr : StartsWithin complexEnds r)
    (h : dropEscape x = some y) : dropEscape (x ++ r) = some (y ++ r) := by
  have hblank : ∀ c ∈ r.head?, isBlank c = false := fun c hc ↦ by
    rcases hr.head_eq hc with rfl | rfl <;> rfl
  rcases dropEscape_append h with hclosed | ⟨rfl, m, hopen⟩
  · exact hclosed r
  · rw [hopen, hexRun_eq_nil hr.endsName_of_complexEnds.not_isHexDigit, List.length_nil,
      List.drop_zero, dropBlank_eq_self hblank, List.nil_append]

/-! ### In front of the cut -/

/-- Blanks in front of a cut are blanks without what is behind it. -/
theorem dropBlanks_excerpt (hr : StartsWithin complexEnds r) (h : dropBlanks (x ++ r) = y ++ r) :
    dropBlanks x = y := by
  by_cases hx : dropBlanks x = []
  · have hsuffix := (h ▸ dropBlanks_append_suffix hx r).length_le
    rw [List.length_append] at hsuffix
    have hy : y = [] := List.length_eq_zero_iff.1 (by omega)
    rw [hx, hy]
  · rw [dropBlanks_append hx hr.not_star] at h
    exact List.append_cancel_right h

/-- A name that stops in front of a cut stops there without what is behind it. -/
theorem dropName_excerpt (hr : StartsWithin complexEnds r)
    (h : dropName (x ++ r) = some (y ++ r)) : dropName x = some y := by
  have hends := hr.endsName_of_complexEnds
  fun_induction dropName x generalizing y with
  | case1 =>
    rw [List.nil_append, dropName_of_endsName hends] at h
    have hy : y = [] := List.append_left_eq_self.1 (Option.some.inj h).symm
    rw [hy]
  | case2 c x hc ih =>
    rw [List.cons_append, dropName_cons hc] at h
    exact ih h
  | case3 c x hc hb hx =>
    obtain rfl : x = [] := by
      cases x with
      | nil => rfl
      | cons d x => cases hx
    obtain rfl : c = '\\' := by simpa using hb
    have hhead : r.head? ≠ some '\n' := hr.head?_append_ne (x := []) (by simp) (by decide)
    -- an escape would go past the cut
    cases hu : dropEscape r with
    | none =>
      rw [List.cons_append, List.nil_append, dropName, if_neg hc,
        if_pos (by simpa using hhead)] at h
      split at h
      · cases h
      · next hs => simp [hu] at hs
    | some u =>
      rw [List.cons_append, List.nil_append, dropName_escape hhead hu] at h
      have := (dropName_suffix h).length_le
      have := dropEscape_length hu
      rw [List.length_append] at *
      omega
  | case4 c x hc hb u hu _ ih =>
    obtain ⟨rfl, hx⟩ : c = '\\' ∧ x.head? ≠ some '\n' := by simpa using hb
    rw [List.cons_append, dropName_escape (hr.head?_append_ne hx (by decide))
      (dropEscape_append_of_startsWithin hr hu)] at h
    exact ih h
  | case5 c x hc hb =>
    have hb : ¬ (c == '\\' && (x ++ r).head? != some '\n') = true := by
      intro hc
      obtain ⟨rfl, hne⟩ : c = '\\' ∧ (x ++ r).head? ≠ some '\n' := by simpa using hc
      have hx : x.head? ≠ some '\n' := by
        intro hx
        obtain ⟨u, rfl⟩ := List.head?_eq_some_iff.1 hx
        exact hne rfl
      exact hb (by simpa using hx)
    rw [List.cons_append, dropName, if_neg hc, if_neg hb, ← List.cons_append] at h
    rw [List.append_cancel_right (Option.some.inj h)]

/-- A name in front of a cut starts as one without what is behind it. -/
theorem startsName_excerpt (hs : startsName (x ++ r) = true)
    (h : dropName (x ++ r) = some (y ++ r)) : startsName x = true := by
  obtain ⟨n, hn, hname⟩ := isName_of_dropName hs h
  rw [← List.append_assoc] at hn
  rw [List.append_cancel_right hn]
  exact startsName_append hname.1 y

theorem readQuoted_excerpt {q : Char} {v : List Char}
    (h : readQuoted q (x ++ r) = .ok (v, y ++ r)) : readQuoted q x = .ok (v, y) := by
  obtain ⟨w, hw, hread, -⟩ := exists_of_readQuoted h
  rw [← List.cons_append, ← List.append_assoc] at hw
  rw [List.append_cancel_right hw]
  exact hread y

/-- An argument that ends in front of a cut ends there without what is behind it. -/
theorem dropArgument_excerpt (h : dropArgument 0 (x ++ r) = .ok (y ++ r)) (hy : y ≠ []) :
    dropArgument 0 x = .ok y ∧ Stretch.chars ⟨x ++ r, y ++ r⟩ = Stretch.chars ⟨x, y⟩ := by
  obtain ⟨a, t, hx, ht, ha⟩ := dropArgument_append h
  rw [← List.append_assoc] at hx
  obtain rfl := List.append_cancel_right hx
  refine ⟨?_, Stretch.chars_append_right (List.suffix_append a y) r⟩
  cases y with
  | nil => exact absurd rfl hy
  | cons c y =>
    obtain ⟨rfl, -⟩ := List.cons.inj ht
    exact ha y

/-- The word `of` is told without what is behind the cut. -/
theorem startsOf_append_of_complexEnds (hr : StartsWithin complexEnds r) (hx : x ≠ []) :
    startsOf (x ++ r) = startsOf x := by
  cases r with
  | nil => rw [List.append_nil]
  | cons c r =>
    match x with
    | [a] => rcases hr.head_eq rfl with rfl | rfl <;> simp [startsOf]
    | [a, b] => rcases hr.head_eq rfl with rfl | rfl <;> simp [startsOf, isNameChar, isNameStart]
    | a :: b :: d :: x => simp [startsOf]

theorem length_of_startsOf (h : startsOf x = true) : 2 ≤ x.length := by
  match x with
  | [] | [_] => cases h
  | _ :: _ :: _ => simp

/-- The blanks in indices are passed over. -/
theorem rest_dropIndices_blank {c : Char} (hc : isBlank c = true) (stop s : List Char) :
    (dropIndices stop (c :: s)).rest <:+ dropBlanks s := by
  rw [dropIndices_blank hc]
  split
  · exact List.drop_suffix _ _
  · exact rest_dropIndices_suffix _ _

/-- Indices that end in front of a cut end there without what is behind it. -/
theorem dropIndices_excerpt (hr : StartsWithin complexEnds r) {stop : List Char}
    (h : (dropIndices (stop ++ r) (x ++ r)).rest = z ++ r) (hz : z ≠ []) :
    (dropIndices stop x).rest = z ∧
      (dropIndices (stop ++ r) (x ++ r)).stop = (dropIndices stop x).stop ++ r ∧
      (dropIndices (stop ++ r) (x ++ r)).ofList = (dropIndices stop x).ofList := by
  -- the indices do not end behind the cut, where `z` would be empty
  have hcut {u : List Char} (hu : u <:+ r) : u ≠ z ++ r := by
    rintro rfl
    have hlength := hu.length_le
    rw [List.length_append] at hlength
    exact hz (List.length_eq_zero_iff.1 (by omega))
  have hblanks {stop : List Char} {c : Char} {x : List Char} (hc : isBlank c = true)
      (h : (dropIndices stop (c :: (x ++ r))).rest = z ++ r) : dropBlanks x ≠ [] := by
    intro hx
    exact hcut ((rest_dropIndices_blank hc stop _).trans (dropBlanks_append_suffix hx r)) h
  fun_induction dropIndices stop x with
  | case1 stop => exact absurd h (hcut (rest_dropIndices_suffix _ _))
  | case2 stop x =>
    rw [List.cons_append, dropIndices_close] at h ⊢
    exact ⟨List.append_cancel_right h, rfl, rfl⟩
  | case3 stop c x hclose hc hle hof =>
    have hx := hblanks hc h
    rw [List.cons_append, dropIndices_blank hc, dropBlanks_append hx hr.not_star,
      startsOf_append_of_complexEnds hr hx, if_pos hof] at h ⊢
    rw [List.drop_append_of_le_length (length_of_startsOf hof)] at h
    exact ⟨List.append_cancel_right h, rfl, rfl⟩
  | case4 stop c x hclose hc hle hof ih =>
    have hx := hblanks hc h
    rw [List.cons_append, dropIndices_blank hc, dropBlanks_append hx hr.not_star,
      startsOf_append_of_complexEnds hr hx, if_neg hof] at h ⊢
    exact ih h
  | case5 stop c x hclose hc ih =>
    rw [List.cons_append, dropIndices_cons hclose (by simpa using hc)] at h ⊢
    exact ih h

end Parser

end SelectorAlgebra

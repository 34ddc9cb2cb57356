import SelectorAlgebra.Proofs.Serialization.Pseudo

/-!
# Reading compound selectors back

What the parsers of simple and compound selectors take from the canonical text, with more text
behind it, if the parser of selector lists reads the lists inside back.
-/

namespace SelectorAlgebra

/-- Only pseudo selectors have line breaks. -/
theorem Simple.eraseBreaks_eq_iff {x y : Simple} (hx : ∀ p, x ≠ .pseudo p) :
    y.eraseBreaks = x.eraseBreaks ↔ y = x := by
  cases x with
  | pseudo p => exact absurd rfl (hx p)
  | _ => cases y <;> simp [Simple.eraseBreaks]

theorem Simple.eraseBreaks_eq_pseudo_iff {p : Pseudo} {y : Simple} :
    y.eraseBreaks = (Simple.pseudo p).eraseBreaks ↔
      ∃ q, y = .pseudo q ∧ q.eraseBreaks = p.eraseBreaks := by
  cases y <;> simp [Simple.eraseBreaks]

namespace Parser

open Text

variable {K : List Char → Prop} {nested : Parser SelectorList} {s t r : List Char}

/-! ### Simple selectors -/

theorem startsName_head {c : Char} (h : startsName (c :: s) = true) :
    c ∉ ['[', '.', '#', '%', ':', '&'] := by
  intro hc
  have hnone : ∀ c ∈ ['[', '.', '#', '%', ':', '&'],
      isNameStart c = false ∧ c ≠ '\\' ∧ c ≠ '-' := by
    simp [isNameStart]
  obtain ⟨hstart, hescape, hhyphen⟩ := hnone c hc
  rcases head_of_startsName h with h | h | h
  · rw [hstart] at h
    cases h
  · exact hescape h
  · exact hhyphen h

/-- Where an asterisk, a bar or a name comes next, a type or universal selector is read. -/
theorem reads_simple_type_iff {allow : Allowance} {first : Bool} {x : Simple}
    (h : s.head? = some '*' ∨ s.head? = some '|' ∨ startsName s = true) :
    Reads (simple allow nested first) s x t ↔ Reads typeSelector s x t := by
  have hne {c : Char} {u : List Char} (hs : s = c :: u) :
      c ∉ ['[', '.', '#', '%', ':', '&'] := by
    subst hs
    rcases h with h | h | h
    · obtain rfl := Option.some.inj h
      decide
    · obtain rfl := Option.some.inj h
      decide
    · exact startsName_head h
  rw [simple, reads_rest_bind_iff]
  split
  · exact absurd (by decide) (hne rfl)
  · exact absurd (by decide) (hne rfl)
  · exact absurd (by decide) (hne rfl)
  · exact absurd (by decide) (hne rfl)
  · exact absurd (by decide) (hne rfl)
  · exact absurd (by decide) (hne rfl)
  · exact Iff.rfl
  · exact Iff.rfl
  · next hstar hbar =>
    have hname : startsName s = true := by
      rcases h with h | h | h
      · obtain ⟨u, rfl⟩ := List.head?_eq_some_iff.1 h
        exact absurd rfl (hstar u)
      · obtain ⟨u, rfl⟩ := List.head?_eq_some_iff.1 h
        exact absurd rfl (hbar u)
      · exact h
    rw [if_pos hname]

theorem namespaceChars_head {ns : Option String} (hns : IsNamespace ns) {u : List Char}
    (hu : u.head? = some '*' ∨ u.head? = some '|' ∨ startsName u = true) :
    (namespaceChars ns ++ u).head? = some '*' ∨ (namespaceChars ns ++ u).head? = some '|' ∨
      startsName (namespaceChars ns ++ u) = true := by
  cases ns with
  | none => exact hu
  | some ns =>
    rw [namespaceChars, List.append_assoc]
    rcases hns with hns | hns | hns
    · rw [hns]
      exact .inr (.inl rfl)
    · rw [hns]
      exact .inl rfl
    · exact .inr (.inr (startsName_append hns.1 _))

/-- A mark and a name are read back if the name is. -/
theorem reads_named_iff {f : String → Simple} (hf : Function.Injective f) {n : String}
    (hn : IsName n.toList) (hs : StartsWithin simpleEnds s) :
    Reads (name >>= fun n ↦ pure (f n)) (n.toList ++ s) (f n) t ↔
      t = s ∧ (Text.TakesBlank n.toList → s.head? ≠ some ' ') := by
  rw [← reads_name_append_iff hn hs.nameEnds]
  simp [reads_bind_iff, hf.eq_iff]

/-- A parent selector is read back if its suffix is; a suffix is not empty. -/
theorem reads_parent_iff {suffix : Option String} (hsuffix : suffix ≠ some "") :
    Reads (simple {} nested true) ('&' :: s) (.parent suffix) t ↔
      Reads nameChars s (suffix.getD "") t := by
  change Reads (nameChars >>= fun n ↦ pure (Simple.parent (if n.isEmpty then none else some n)))
    s _ t ↔ _
  have hiff (n : String) :
      Simple.parent (if n.isEmpty then none else some n) = .parent suffix ↔
        n = suffix.getD "" := by
    cases suffix with
    | none => by_cases hn : n = "" <;> simp [hn]
    | some m =>
      have hm : m ≠ "" := fun h ↦ hsuffix (congrArg some h)
      by_cases hn : n = ""
      · simp [hn, hm.symm]
      · simp [hn]
  rw [reads_bind_iff]
  constructor
  · rintro ⟨n, r, hn, h⟩
    obtain ⟨heq, rfl⟩ := reads_pure_iff.1 h
    rwa [← (hiff n).1 heq]
  · intro h
    exact ⟨_, t, h, reads_pure_iff.2 ⟨(hiff _).2 rfl, rfl⟩⟩

theorem reads_parent_suffix_iff {suffix : Option String} (hx : (Simple.parent suffix).Written K)
    (hs : StartsWithin simpleEnds s) :
    Reads (simple {} nested true) ('&' :: ((suffix.getD "").toList ++ s)) (.parent suffix) t ↔
      t = s ∧ ((Simple.parent suffix).TakesBlank → s.head? ≠ some ' ') := by
  have hnonempty : suffix ≠ some "" := by
    rintro rfl
    exact (hx "" rfl).1 rfl
  have hname : IsNameText (suffix.getD "").toList := by
    cases suffix with
    | none => exact isNameText_nil
    | some n => exact (hx n rfl).2.1
  have hblank : Text.TakesBlank (suffix.getD "").toList ↔ (Simple.parent suffix).TakesBlank := by
    cases suffix with
    | none =>
      have hnil : ¬ Text.TakesBlank [] := not_takesBlank_of_not_mem (by simp)
      simpa [Simple.TakesBlank, Simple.lastName] using hnil
    | some n => simp [Simple.TakesBlank, Simple.lastName]
  rw [reads_parent_iff hnonempty, reads_nameChars_append_iff hname hs.nameEnds, hblank]

theorem chars_pseudo (p : Pseudo) : p.chars = ':' :: p.chars.tail := by
  obtain ⟨n, element, a, l⟩ := p
  cases element <;> rfl

/-- Whether a simple selector can be written and the lists in it are read back. -/
structure Ready (K : List Char → Prop) (nested : Parser SelectorList) (x : Simple) : Prop where
  written : x.Written K
  lists : ∀ p, x = .pseudo p → ∀ l ∈ p.selector, ReadsBack nested l

/-! ### Conditions behind each other -/

/-- What may stand behind a compound selector. -/
def compoundEnds : List Char := [' ', ',', ')']

theorem exists_of_follows {x : Simple} (h : x.Follows) :
    ∃ c u, x.chars = c :: u ∧ c ∈ ['[', '.', '#', '%', ':'] := by
  match x with
  | .className n | .id n | .placeholder n | .attribute a => exact ⟨_, _, rfl, by decide⟩
  | .pseudo p => exact ⟨_, _, chars_pseudo p, by decide⟩

theorem startsWithin_simpleEnds {d : Compound} (hd : ∀ x ∈ d, Simple.Follows x)
    (hs : StartsWithin compoundEnds s) : StartsWithin simpleEnds (Compound.chars d ++ s) := by
  cases d with
  | nil => exact hs.mono (by decide)
  | cons x d =>
    obtain ⟨c, u, hx, hc⟩ := exists_of_follows (hd x (.head d))
    rw [Compound.chars, hx]
    apply startsWithin_cons.2
    have hsub : ∀ c ∈ ['[', '.', '#', '%', ':'], c ∈ simpleEnds := by simp [simpleEnds]
    exact hsub c hc

theorem reads_moreSimples_nil_iff {bound : Nat} (hs : StartsWithin compoundEnds s) :
    Reads (moreSimples {} nested bound) s [] t ↔ s = t := by
  have hstop : continuesCompound s = false := by
    cases s with
    | nil => rfl
    | cons c s =>
      have hall : ∀ c ∈ compoundEnds, c ∉ ['[', '.', '#', '%', ':', '&'] := by simp [compoundEnds]
      simpa [continuesCompound] using hall c (startsWithin_cons.1 hs)
  cases bound <;> simp [moreSimples, hstop]

theorem reads_moreSimples_cons_iff {x y : Simple} {e : Compound} {bound : Nat} (hx : x.Follows) :
    Reads (moreSimples {} nested (bound + 1)) (x.chars ++ s) (y :: e) t ↔
      ∃ r, Reads (simple {} nested false) (x.chars ++ s) y r ∧
        Reads (moreSimples {} nested bound) r e t := by
  have hgoes : continuesCompound (x.chars ++ s) = true := by
    obtain ⟨c, u, hchars, hc⟩ := exists_of_follows hx
    have hall : ∀ c ∈ ['[', '.', '#', '%', ':'], c ∈ ['[', '.', '#', '%', ':', '&'] := by simp
    rw [hchars]
    simpa [continuesCompound] using hall c hc
  rw [moreSimples, reads_rest_bind_iff, if_pos hgoes]
  simp [reads_bind_iff]

theorem length_le_chars {d : Compound} (hd : ∀ x ∈ d, Simple.Follows x) :
    d.length ≤ (Compound.chars d).length := by
  induction d with
  | nil => exact Nat.zero_le _
  | cons x d ih =>
    rw [List.forall_mem_cons] at hd
    obtain ⟨c, u, hx, -⟩ := exists_of_follows hd.1
    have := ih hd.2
    rw [Compound.chars, hx]
    simp only [List.length_cons, List.length_append]
    omega

/-- If only the last of some conditions may take the space behind it, it is the last of all. -/
theorem takesBlank_cons_iff {x : Simple} {d : Compound} (hd : ∀ y ∈ d, Simple.Follows y) :
    (Compound.TakesBlank (x :: d) → s.head? ≠ some ' ') ↔
      (x.TakesBlank → (Compound.chars d ++ s).head? ≠ some ' ') ∧
        (Compound.TakesBlank d → s.head? ≠ some ' ') := by
  cases d with
  | nil => simp [Compound.TakesBlank, Compound.chars]
  | cons y d =>
    obtain ⟨c, u, hy, hc⟩ := exists_of_follows (hd y (.head d))
    have hhead : (Compound.chars (y :: d) ++ s).head? ≠ some ' ' := by
      rw [Compound.chars, hy]
      intro h
      obtain rfl := Option.some.inj h
      revert hc
      decide
    have hlast : Compound.TakesBlank (x :: y :: d) ↔ Compound.TakesBlank (y :: d) := by
      simp [Compound.TakesBlank]
    rw [hlast, and_iff_right fun _ ↦ hhead]

theorem legible_cons_iff {x : Simple} {d : Compound} (hd : ∀ y ∈ d, Simple.Follows y) :
    (x.Everywhere .legible ∧ (x.TakesBlank → (Compound.chars d ++ s).head? ≠ some ' ')) ∧
        Compound.Each .legible d ∧ (Compound.TakesBlank d → s.head? ≠ some ' ') ↔
      Compound.Each .legible (x :: d) ∧ (Compound.TakesBlank (x :: d) → s.head? ≠ some ' ') := by
  rw [takesBlank_cons_iff hd, Compound.Each]
  exact and_and_and_comm

/-- Two readings, one behind the other, each of what is expected exactly on a condition. What the
first expects to leave weighs no more than what the second is read from. -/
theorem exists_reads_iff {α : Type} {P Q : List Char → Prop} {a b : α} {l m : List α}
    {u v : List Char} {A B : Prop} (hP : ∀ r, weight u ≤ weight r → (P r ↔ (b = a ∧ r = u) ∧ A))
    (hcost : ∀ r, Q r → weight u ≤ weight r) (hQ : Q u ↔ (m = l ∧ t = v) ∧ B) :
    (∃ r, P r ∧ Q r) ↔ (b :: m = a :: l ∧ t = v) ∧ A ∧ B := by
  constructor
  · rintro ⟨r, hp, hq⟩
    obtain ⟨⟨rfl, rfl⟩, ha⟩ := (hP r (hcost r hq)).1 hp
    obtain ⟨⟨rfl, rfl⟩, hb⟩ := hQ.1 hq
    exact ⟨⟨rfl, rfl⟩, ha, hb⟩
  · rintro ⟨⟨heq, rfl⟩, ha, hb⟩
    obtain ⟨rfl, rfl⟩ := List.cons.inj heq
    exact ⟨u, (hP u (Nat.le_refl _)).2 ⟨⟨rfl, rfl⟩, ha⟩, hQ.2 ⟨⟨rfl, rfl⟩, hb⟩⟩

theorem exists_of_eraseBreaks_cons {x : Simple} {d e : Compound}
    (h : Compound.eraseBreaks e = Compound.eraseBreaks (x :: d)) :
    ∃ y e', e = y :: e' ∧ y.eraseBreaks = x.eraseBreaks ∧
      Compound.eraseBreaks e' = Compound.eraseBreaks d := by
  cases e with
  | nil => cases h
  | cons y e =>
    obtain ⟨hy, he⟩ := List.cons.inj h
    exact ⟨y, e, rfl, hy, he⟩

section Lists

variable (hnested : ∀ r, Takes nested r 0 fun l ↦ weight (SelectorList.chars l))

include hnested

/-- A simple selector is read back exactly if it is legible and what it ends with does not take the
space behind it. -/
theorem reads_simple_iff {x y : Simple} {first : Bool} (hready : Ready K nested x)
    (hw : weight s ≤ weight t) (hfirst : first = false → x.Follows) (hs : StartsWithin simpleEnds s)
    (hy : y.eraseBreaks = x.eraseBreaks) :
    Reads (simple {} nested first) (x.chars ++ s) y t ↔
      (y = x ∧ t = s) ∧ x.Everywhere .legible ∧ (x.TakesBlank → s.head? ≠ some ' ') := by
  obtain ⟨hx, hl⟩ := hready
  match x with
  | .pseudo p =>
    obtain ⟨q, rfl, hq⟩ := Simple.eraseBreaks_eq_pseudo_iff.1 hy
    have hread : Reads (simple {} nested first) (':' :: p.chars.tail ++ s) (.pseudo q) t ↔
        Reads (pseudo nested) (p.chars.tail ++ s) q t := by
      change Reads (pseudo nested >>= fun p ↦ pure (Simple.pseudo p)) (p.chars.tail ++ s) _ t ↔ _
      simp [reads_bind_iff]
    rw [Simple.chars, chars_pseudo p, hread, reads_pseudo_iff hnested hx (hl p rfl) hs hw hq]
    simp
  | .universal ns =>
    obtain rfl := (Simple.eraseBreaks_eq_iff (by simp)).1 hy
    have htext : (Simple.universal ns).chars ++ s = namespaceChars ns ++ '*' :: s := by
      simp [Simple.chars]
    rw [htext, reads_simple_type_iff (namespaceChars_head hx (.inl rfl)), reads_universal_iff hx hs]
    simp [Simple.Everywhere, Shape.legible, Simple.Legible, Simple.TakesBlank, Simple.lastName]
  | .type n =>
    obtain rfl := (Simple.eraseBreaks_eq_iff (by simp)).1 hy
    have hhead := namespaceChars_head hx.1.ns (.inr (.inr (startsName_append hx.1.name.1 s)))
    rw [← List.append_assoc] at hhead
    have hread : Reads (simple {} nested first) (n.chars ++ s) (.type n) t ↔
        Reads typeSelector (n.chars ++ s) (.type n) t := reads_simple_type_iff hhead
    rw [Simple.chars, hread, reads_type_iff hx.1 hs]
    simp [Simple.Everywhere, Shape.legible, Simple.Legible, Simple.TakesBlank, Simple.lastName]
  | .className n =>
    obtain rfl := (Simple.eraseBreaks_eq_iff (by simp)).1 hy
    change Reads (name >>= fun n ↦ pure (Simple.className n)) (n.toList ++ s) _ t ↔ _
    rw [reads_named_iff (fun _ _ ↦ Simple.className.inj) hx.1 hs]
    simp [Simple.Everywhere, Shape.legible, Simple.Legible, Simple.TakesBlank, Simple.lastName]
  | .id n =>
    obtain rfl := (Simple.eraseBreaks_eq_iff (by simp)).1 hy
    change Reads (name >>= fun n ↦ pure (Simple.id n)) (n.toList ++ s) _ t ↔ _
    rw [reads_named_iff (fun _ _ ↦ Simple.id.inj) hx.1 hs]
    simp [Simple.Everywhere, Shape.legible, Simple.Legible, Simple.TakesBlank, Simple.lastName]
  | .placeholder n =>
    obtain rfl := (Simple.eraseBreaks_eq_iff (by simp)).1 hy
    change Reads (name >>= fun n ↦ pure (Simple.placeholder n)) (n.toList ++ s) _ t ↔ _
    rw [reads_named_iff (fun _ _ ↦ Simple.placeholder.inj) hx.1 hs]
    simp [Simple.Everywhere, Shape.legible, Simple.Legible, Simple.TakesBlank, Simple.lastName]
  | .attribute a =>
    obtain rfl := (Simple.eraseBreaks_eq_iff (by simp)).1 hy
    have hread : Reads (simple {} nested first) ((Simple.attribute a).chars ++ s) (.attribute a) t ↔
        Reads attributeSelector (a.chars.tail ++ s) a t := by
      change Reads (attributeSelector >>= fun a ↦ pure (Simple.attribute a)) (a.chars.tail ++ s) _ t
        ↔ _
      simp [reads_bind_iff]
    rw [hread, reads_attributeSelector_iff hx.1 hx.2]
    simp [Simple.Everywhere, Shape.legible, Simple.Legible, Simple.TakesBlank, Simple.lastName]
  | .parent suffix =>
    obtain rfl := (Simple.eraseBreaks_eq_iff (by simp)).1 hy
    obtain rfl : first = true := by
      by_contra h
      exact hfirst (Bool.eq_false_iff.2 h)
    rw [Simple.chars, List.cons_append, reads_parent_suffix_iff hx hs]
    simp [Simple.Everywhere, Shape.legible, Simple.Legible]

/-! ### Compound selectors -/

/-- Conditions are read back one after the other. -/
theorem reads_moreSimples_iff {d e : Compound} {bound : Nat}
    (hready : ∀ x ∈ d, Ready K nested x) (hfollows : ∀ x ∈ d, Simple.Follows x)
    (hbound : d.length ≤ bound) (hs : StartsWithin compoundEnds s) (hw : weight s ≤ weight t)
    (he : Compound.eraseBreaks e = Compound.eraseBreaks d) :
    Reads (moreSimples {} nested bound) (Compound.chars d ++ s) e t ↔
      (e = d ∧ t = s) ∧ Compound.Each .legible d ∧
        (Compound.TakesBlank d → s.head? ≠ some ' ') := by
  induction d generalizing e bound t with
  | nil =>
    obtain rfl : e = [] := by
      cases e with
      | nil => rfl
      | cons y e => cases he
    rw [Compound.chars, List.nil_append, reads_moreSimples_nil_iff hs]
    simp [Compound.Each, Compound.TakesBlank, eq_comm]
  | cons x d ih =>
    obtain ⟨y, e, rfl, hy, he⟩ := exists_of_eraseBreaks_cons he
    rw [List.forall_mem_cons] at hready hfollows
    obtain ⟨bound, rfl⟩ := Nat.exists_eq_add_of_le' (Nat.one_le_of_lt (Nat.lt_of_succ_le hbound))
    have hsimple (r : List Char) (hr : weight (Compound.chars d ++ s) ≤ weight r) :
        Reads (simple {} nested false) (x.chars ++ (Compound.chars d ++ s)) y r ↔ _ :=
      reads_simple_iff hnested hready.1 hr (fun _ ↦ hfollows.1)
        (startsWithin_simpleEnds hfollows.2 hs) hy
    have hcost (r : List Char) (hr : Reads (moreSimples {} nested bound) r e t) :
        weight (Compound.chars d ++ s) ≤ weight r :=
      (takes_moreSimples hnested bound).weight_le hr (Compound.weight_of_eraseBreaks he) hw
    have hmore := ih hready.2 hfollows.2 (Nat.le_of_succ_le_succ hbound) hw he
    rw [Compound.chars, List.append_assoc, reads_moreSimples_cons_iff hfollows.1,
      exists_reads_iff hsimple hcost hmore, legible_cons_iff hfollows.2]

/-- A compound selector is read back exactly if it is legible and its last name does not take the
space behind it. -/
theorem reads_compound_iff {c e : Compound} (hready : ∀ x ∈ c, Ready K nested x)
    (hc : Compound.Written c) (hs : StartsWithin compoundEnds s) (hw : weight s ≤ weight t)
    (he : Compound.eraseBreaks e = Compound.eraseBreaks c) :
    Reads (compound {} nested) (Compound.chars c ++ s) e t ↔
      (e = c ∧ t = s) ∧ Compound.Each .legible c ∧
        (Compound.TakesBlank c → s.head? ≠ some ' ') := by
  obtain ⟨x, d, rfl, hfollows⟩ := hc
  obtain ⟨y, e, rfl, hy, he⟩ := exists_of_eraseBreaks_cons he
  rw [List.forall_mem_cons] at hready
  have hread : Reads (compound {} nested) (Compound.chars (x :: d) ++ s) (y :: e) t ↔
      ∃ r, Reads (simple {} nested true) (x.chars ++ (Compound.chars d ++ s)) y r ∧
        Reads (moreSimples {} nested r.length) r e t := by
    rw [compound, Compound.chars, List.append_assoc, reads_bind_iff]
    simp only [reads_rest_bind_iff]
    simp [reads_bind_iff]
  have hsimple (r : List Char) (hr : weight (Compound.chars d ++ s) ≤ weight r) :
      Reads (simple {} nested true) (x.chars ++ (Compound.chars d ++ s)) y r ↔ _ :=
    reads_simple_iff hnested hready.1 hr (by simp) (startsWithin_simpleEnds hfollows hs) hy
  have hcost (r : List Char) (hr : Reads (moreSimples {} nested r.length) r e t) :
      weight (Compound.chars d ++ s) ≤ weight r :=
    (takes_moreSimples hnested _).weight_le hr (Compound.weight_of_eraseBreaks he) hw
  have hbound : d.length ≤ (Compound.chars d ++ s).length := by
    have := length_le_chars hfollows
    rw [List.length_append]
    omega
  have hmore := reads_moreSimples_iff hnested hready.2 hfollows hbound hs hw he
  rw [hread, exists_reads_iff hsimple hcost hmore, legible_cons_iff hfollows]

end Lists

end Parser

end SelectorAlgebra

import SelectorAlgebra.Proofs.Excerpt.Simple

/-!
# Selectors in an excerpt

Repetitions in an excerpt may have another bound than in the text, and nesting another depth, as
long as there is room for what is read. Main statement: a complex selector is read from the part of
the text that it takes.
-/

namespace SelectorAlgebra.Parser

open Text

variable {α : Type} {r s t : List Char} {ends : Prop}

theorem startsCompound_of_reads_compound {allow : Allowance} {nested : Parser SelectorList}
    {c : Compound} (h : Reads (compound allow nested) s c t) : startsCompound s = true := by
  obtain ⟨x, u, hx, -⟩ := reads_bind_iff.1 h
  rw [simple, reads_rest_bind_iff] at hx
  split at hx
  case h_9 =>
    split at hx
    case isFalse => exact absurd hx not_reads_fail
    case isTrue hstarts =>
      cases s with
      | nil => cases hstarts
      | cons c s => simp [startsCompound, hstarts]
  all_goals rfl

theorem reads_moreSimples_stop {allow : Allowance} {nested : Parser SelectorList} {bound : Nat}
    (hs : continuesCompound s = false) : Reads (moreSimples allow nested bound) s [] s := by
  cases bound <;> simp [moreSimples, hs]

/-- A bound that has room for a character is not used up. -/
theorem exists_eq_succ_of_length_le {c : Char} {x : List Char} {bound : Nat}
    (h : (c :: x ++ r).length ≤ bound + r.length) : ∃ b, bound = b + 1 := by
  apply Nat.exists_eq_add_of_le'
  rw [List.cons_append, List.length_cons, List.length_append] at h
  omega

namespace Excerpts

section Nested

variable {allow : Allowance} {nested nested' : Parser SelectorList} {n : Nat}
  (hr : StartsWithin complexEnds r)

include hr

/-- A line break is told without what is behind `r`, if there is something behind the blanks. -/
theorem lineBreak_bind (f g : Bool → Parser α) (hstays : ∀ b src v, Stays src (f b) v)
    (hf : ∀ b u, u <:+ s → Excerpts r False (f b) (g b) u) :
    Excerpts r False (rest >>= fun s ↦ Parser.blanks >>= fun _ ↦ f (blanksBreakLine s))
      (rest >>= fun s ↦ Parser.blanks >>= fun _ ↦ g (blanksBreakLine s)) s := by
  refine of_front (.rest_bind (.bind .blanks fun _ _ _ ↦ hstays _ s _)) fun x hx ↦ rest_bind ?_
  by_cases hblanks : dropBlanks x = []
  · refine (blanks hr).bind_reads fun _ v hv _ ↦ of_length_le (hstays _ v v) ?_
    obtain rfl : dropBlanks (x ++ r) = v := by cases hv; rfl
    exact (dropBlanks_append_suffix hblanks r).length_le
  · rw [blanksBreakLine_append hblanks hr.not_star]
    exact (blanks hr).bind fun _ v hv ↦ hf _ v (hx ▸ hv)

/-- Where no condition follows, none is taken, whatever the bound. -/
theorem moreSimples_stop {x : List Char} {bound bound' : Nat} (hx : continuesCompound x = false) :
    Excerpts r ends (moreSimples allow nested bound) (moreSimples allow nested' bound')
      (x ++ r) := by
  have hstop : continuesCompound (x ++ r) = false := by rwa [continuesCompound_append hr]
  refine of_reads (reads_moreSimples_stop hstop) (List.suffix_refl _) fun y hy ↦ ?_
  obtain rfl := List.append_cancel_right hy
  exact reads_moreSimples_stop hx

/-- Where nothing is in front of `r`, no part is taken, whatever the bound. -/
theorem parts_stop {bound bound' : Nat} {adjacent : Bool} :
    Excerpts r ends (parts allow nested bound adjacent) (parts allow nested' bound' adjacent)
      ([] ++ r) := by
  refine of_reads ((reads_parts_nil_iff hr).2 rfl) (List.suffix_refl _) fun y hy ↦ ?_
  obtain rfl : [] = y := List.append_cancel_right hy
  exact (reads_parts_nil_iff (by simp [StartsWithin])).2 rfl

variable (hstays : ∀ src u, Stays src nested u)
  (hnested : ∀ u, u.length < n → Excerpts r False nested nested' u)

include hstays hnested

/-! ### Compound selectors -/

/-- Repetitions end where there is nothing more to take, if their bounds have room for the text. -/
theorem moreSimples {bound bound' : Nat} (hs : s.length ≤ n) (hbound : s.length ≤ bound)
    (hbound' : s.length ≤ bound' + r.length) :
    Excerpts r ends (moreSimples allow nested bound) (moreSimples allow nested' bound') s := by
  induction bound generalizing s bound' with
  | zero =>
    refine of_front (stays_moreSimples (hstays s) 0) fun x hx ↦ moreSimples_stop hr ?_
    have hnil : x ++ r = [] := hx ▸ List.length_eq_zero_iff.1 (Nat.le_zero.1 hbound)
    rw [(List.append_eq_nil_iff.1 hnil).1]
    rfl
  | succ bound ih =>
    refine of_front (stays_moreSimples (hstays s) _) fun x hx ↦ ?_
    cases hgoes : continuesCompound x with
    | false => exact moreSimples_stop hr hgoes
    | true =>
      obtain ⟨bound', rfl⟩ : ∃ b, bound' = b + 1 := by
        cases x with
        | nil => cases hgoes
        | cons c x => exact exists_eq_succ_of_length_le (hx ▸ hbound')
      refine rest_bind ?_
      rw [continuesCompound_append hr, if_pos hgoes, if_pos hgoes, ← hx]
      refine (simple hr hstays hnested hs).bind_reads fun y u hy hu ↦ ?_
      have hlt := length_lt_of_reads_simple hstays hy
      exact (ih (by omega) (by omega) (by omega)).bind fun _ _ _ ↦ .pure

theorem compound (hs : s.length ≤ n) :
    Excerpts r ends (compound allow nested) (compound allow nested') s := by
  refine (simple hr hstays hnested hs).bind fun x u hu ↦ ?_
  refine of_front (.rest_bind (.bind (stays_moreSimples (hstays u) _) fun _ _ _ ↦ .pure))
    fun y hy ↦ .rest_bind ?_
  have := hu.length_le
  rw [hy] at this
  refine (moreSimples hr hstays hnested (by omega) (Nat.le_refl _) ?_).bind fun _ _ _ ↦ .pure
  rw [List.length_append]

/-! ### Complex selectors -/

/-- One part is taken in an excerpt as in the text, if those behind it are. -/
theorem parts_step {bound bound' : Nat} {adjacent : Bool} {c : Char} {x : List Char}
    (hs : (c :: x ++ r).length ≤ n)
    (hmore : ∀ u b, u.length < (c :: x ++ r).length →
      Excerpts r ends (parts allow nested bound b) (parts allow nested' bound' b) u) :
    Excerpts r ends (parts allow nested (bound + 1) adjacent)
      (parts allow nested' (bound' + 1) adjacent) (c :: x ++ r) := by
  have hparts (u : List Char) (b : Bool) (t : List Char) :
      Stays u (parts allow nested bound b) t :=
    stays_parts (hstays u) bound b
  refine rest_bind (blanks_bind hr (fun u ↦ stays_part (hstays u) (hparts u)) fun z hz ↦
    rest_bind ?_)
  have hle := hz.length_le
  cases z with
  | nil =>
    obtain ⟨hnone, hstop⟩ := stops_of_startsWithin hr
    have hnil : startsCompound [] = false := rfl
    rw [List.nil_append, hnone]
    simp only [hstop, hnil, List.head?_nil, Option.bind_none, Bool.and_false, Bool.false_eq_true,
      if_false]
    exact .pure
  | cons d z =>
    have hlong : (d :: z ++ r).head?.bind Combinator.ofSymbol? = Combinator.ofSymbol? d := rfl
    have hshort : (d :: z).head?.bind Combinator.ofSymbol? = Combinator.ofSymbol? d := rfl
    rw [hlong, hshort]
    cases hk : Combinator.ofSymbol? d with
    | some k => exact goTo_bind ((hmore _ false hle).bind fun _ _ _ ↦ .pure)
    | none =>
      dsimp only
      have hlength : (d :: z ++ r).length < (c :: x ++ r).length ↔
          (d :: z).length < (c :: x).length := by
        rw [List.length_append, List.length_append, Nat.add_lt_add_iff_right]
      rw [decide_eq_decide.2 hlength]
      cases !adjacent || decide ((d :: z).length < (c :: x).length) with
      | false => exact .pure
      | true =>
        simp only [Bool.true_and]
        refine ite ?_ .pure (fun h ↦ startsCompound_of_prefix h r) fun w y h ↦ ?_
        · refine (compound hr hstays hnested (hle.trans hs)).bind_reads fun e u he hu ↦ ?_
          have hlt := length_lt_of_reads_compound hstays he
          exact (hmore u true (by omega)).bind fun _ _ _ ↦ .pure
        · obtain ⟨e, u, he, -⟩ := reads_bind_iff.1 h
          exact startsCompound_of_reads_compound he

theorem parts {bound bound' : Nat} {adjacent : Bool} (hs : s.length ≤ n)
    (hbound : s.length ≤ bound) (hbound' : s.length ≤ bound' + r.length) :
    Excerpts r ends (parts allow nested bound adjacent) (parts allow nested' bound' adjacent)
      s := by
  induction bound generalizing s bound' adjacent with
  | zero =>
    refine of_front (stays_parts (hstays s) 0 adjacent) fun x hx ↦ ?_
    have hnil : x ++ r = [] := hx ▸ List.length_eq_zero_iff.1 (Nat.le_zero.1 hbound)
    obtain rfl := (List.append_eq_nil_iff.1 hnil).1
    exact parts_stop hr
  | succ bound ih =>
    refine of_front (stays_parts (hstays s) _ adjacent) fun x hx ↦ ?_
    cases x with
    | nil => exact parts_stop hr
    | cons c x =>
      rw [hx] at hs hbound hbound'
      obtain ⟨bound', rfl⟩ := exists_eq_succ_of_length_le hbound'
      exact parts_step hr hstays hnested hs fun u b hu ↦ ih (by omega) (by omega) (by omega)

theorem complex {lineBreak : Bool} (hs : s.length ≤ n) :
    Excerpts r ends (complex allow nested lineBreak) (complex allow nested' lineBreak) s := by
  refine of_front (stays_complex (hstays s) lineBreak) fun x hx ↦ rest_bind ?_
  rw [hx] at hs
  refine (parts hr hstays hnested hs (Nat.le_refl _) ?_).bind fun w u _ ↦ ?_
  · rw [List.length_append]
  · split
    · exact .failSince
    · dsimp only
      split
      · exact notice_bind .pure
      · exact .pure

/-! ### Selector lists -/

theorem moreMembers {bound bound' : Nat} (hs : s.length ≤ n) (hbound : s.length ≤ bound)
    (hbound' : s.length ≤ bound' + r.length) :
    Excerpts r False (moreMembers allow nested bound) (moreMembers allow nested' bound') s := by
  induction bound generalizing s bound' with
  | zero => exact of_length_le (stays_moreMembers (hstays s) 0) (by omega)
  | succ bound ih =>
    cases bound' with
    | zero => exact of_length_le (stays_moreMembers (hstays s) _) (by omega)
    | succ bound' =>
    refine (blanks hr).bind fun _ t ht ↦ accept.bind_reads fun b u hb hu ↦ ?_
    have hle := ht.length_le
    cases b with
    | false => exact .pure
    | true =>
    obtain rfl := reads_accept_iff.1 hb
    rw [List.length_cons] at hle
    refine lineBreak_bind hr
      (fun b ↦ do
        let c ← Parser.complex allow nested b
        return c :: (← Parser.moreMembers allow nested bound))
      (fun b ↦ do
        let c ← Parser.complex allow nested' b
        return c :: (← Parser.moreMembers allow nested' bound')) (fun b src v ↦ ?_) fun b v hv ↦ ?_
    · exact .bind (stays_complex (hstays src) b) fun _ _ _ ↦
        .bind (stays_moreMembers (hstays src) bound) fun _ _ _ ↦ .pure
    · have := hv.length_le
      refine (complex hr hstays hnested (by omega)).bind fun c w hw ↦ ?_
      have := hw.length_le
      exact (ih (by omega) (by omega) (by omega)).bind fun _ _ _ ↦ .pure

theorem members (hs : s.length ≤ n) :
    Excerpts r False (members allow nested) (members allow nested') s := by
  refine (blanks hr).bind fun _ t ht ↦
    (complex hr hstays hnested (ht.length_le.trans hs)).bind fun c u hu ↦ ?_
  refine of_front (.rest_bind (.bind (stays_moreMembers (hstays u) _) fun _ _ _ ↦ .pure))
    fun y hy ↦ .rest_bind ?_
  have := (hu.trans ht).length_le
  rw [hy] at this
  refine (moreMembers hr hstays hnested (this.trans hs) (Nat.le_refl _) ?_).bind fun _ _ _ ↦ .pure
  rw [List.length_append]

end Nested

variable {allow : Allowance} {depth depth' : Nat}

/-- No more depth is needed than the excerpt has characters. -/
theorem list (hr : StartsWithin complexEnds r) (hs : s.length ≤ depth' + r.length) :
    Excerpts r False (list allow depth) (list allow depth') s := by
  induction depth generalizing s depth' with
  | zero => exact .fail
  | succ depth ih =>
    cases depth' with
    | zero => exact of_length_le (stays_list _) (by omega)
    | succ depth' =>
      exact members hr (fun _ _ ↦ stays_list depth) (fun u hu ↦ ih (by omega))
        (Nat.le_refl s.length)

theorem nestedList (hr : StartsWithin complexEnds r) :
    Excerpts r False (Parser.list allow depth) (nestedList allow) s := by
  refine of_front (stays_list depth) fun x _ ↦ fun l t h ↦ ?_
  have hlist : Excerpts r False (Parser.list allow depth) (Parser.list allow (x.length + 1))
      (x ++ r) := list hr (by rw [List.length_append]; omega)
  obtain ⟨hsuffix, hread⟩ := hlist l t h
  refine ⟨hsuffix, fun y z hy hz hne ↦ reads_nestedList_iff.2 ?_⟩
  obtain rfl := List.append_cancel_right hy
  exact hread x z rfl hz hne

end Excerpts

/-- A complex selector that is followed by a comma, a closing parenthesis or nothing is read in the
same way from the text that it takes. -/
theorem reads_complex_excerpt {allow : Allowance} {depth : Nat} {lineBreak : Bool} {c : Complex}
    {x : List Char} (hr : StartsWithin complexEnds r)
    (h : Reads (complex allow (list allow depth) lineBreak) (x ++ r) c r) :
    Reads (complex allow (nestedList allow) lineBreak) x c [] := by
  have hcomplex : Excerpts r True (complex allow (list allow depth) lineBreak)
      (complex allow (nestedList allow) lineBreak) (x ++ r) :=
    .complex hr (fun _ _ ↦ stays_list depth) (fun _ _ ↦ .nestedList hr) (Nat.le_refl _)
  exact (hcomplex c r h).2 x [] rfl rfl fun _ ↦ trivial

end SelectorAlgebra.Parser

import SelectorAlgebra.Covering.Alignment
import Mathlib.Data.List.Infix

/-!
# What the search for an alignment decides

The search is compared with the relation that it stands for: the components of a path are put on
components of another, each behind a gap, until both paths are used up. A memo whose answers are
right stays so through every step, since the lengths of two suffixes tell what they are, and so the
search finds what it would find without one. Main statement: for paths that end without a combinator
it succeeds exactly if the relation holds.
-/

namespace SelectorAlgebra.Alignment

/-! ### What may be passed over -/

@[simp] theorem gapAllowed_nil (k : Option Combinator) : gapAllowed k [] = true := rfl

/-- Where no combinator stands in front, anything may be passed over. -/
@[simp] theorem gapAllowed_none (gap : Path) : gapAllowed none gap = true := by
  simp [gapAllowed]

@[simp] theorem gapAllowed_child (gap : Path) : gapAllowed (some .child) gap = gap.isEmpty := by
  simp [gapAllowed]

@[simp] theorem gapAllowed_nextSibling (gap : Path) :
    gapAllowed (some .nextSibling) gap = gap.isEmpty := by
  simp [gapAllowed]

@[simp] theorem gapAllowed_followingSibling (gap : Path) :
    gapAllowed (some .followingSibling) gap =
      gap.all fun d ↦ Combinator.covers (some .followingSibling) d.next := by
  cases gap <;> simp [gapAllowed]

/-- What may be passed over in front of the last component is what may be passed over anywhere. -/
theorem finalGapAllowed_eq (previous : Option Combinator) (q : Path) :
    finalGapAllowed previous q = gapAllowed previous q.dropLast := by
  rcases previous with _ | _ | _ | _ <;> simp [finalGapAllowed]

/-! ### The relation -/

/-- The first path can be put on the second, where a combinator stands in front of the first. -/
inductive Aligned (covers : Comparison) : Option Combinator → Path → Path → Prop where
  /-- Nothing is left on either side. -/
  | nil (previous : Option Combinator) : Aligned covers previous [] []
  /-- The first component is put on one behind a gap, and the rest on what follows. -/
  | cons {previous : Option Combinator} {c : Component} {p : Path} (gap : Path) {d : Component}
      {q : Path} (fit : fits covers previous c gap d = true) (rest : Aligned covers c.next p q) :
      Aligned covers previous (c :: p) (gap ++ d :: q)

variable {covers : Comparison} {previous : Option Combinator} {c : Component} {p q : Path}

theorem fits_iff {d : Component} {gap : Path} : fits covers previous c gap d = true ↔
    (gapAllowed previous gap = true ∧ Combinator.covers c.next d.next = true) ∧
      covers c.compound d.compound gap = true := by
  rw [fits, Bool.and_eq_true, Bool.and_eq_true]

/-- An empty path is put on an empty path only. -/
theorem aligned_nil_iff : Aligned covers previous [] q ↔ q = [] := by
  constructor
  · intro h
    cases h
    rfl
  · rintro rfl
    exact .nil previous

/-- A path that has a component is put on another at some component of the other. -/
theorem aligned_cons_iff : Aligned covers previous (c :: p) q ↔
    ∃ gap d r, q = gap ++ d :: r ∧ fits covers previous c gap d = true ∧
      Aligned covers c.next p r := by
  constructor
  · intro h
    cases h with
    | cons gap fit rest => exact ⟨gap, _, _, rfl, fit, rest⟩
  · rintro ⟨gap, d, r, rfl, fit, rest⟩
    exact .cons gap fit rest

theorem aligned_single_iff {d : Component} :
    Aligned covers previous [c] [d] ↔ fits covers previous c [] d = true := by
  rw [aligned_cons_iff]
  constructor
  · rintro ⟨gap, e, r, heq, fit, rest⟩
    obtain rfl := aligned_nil_iff.1 rest
    cases gap with
    | nil =>
      cases heq
      exact fit
    | cons _ _ => simp at heq
  · intro fit
    exact ⟨[], d, [], rfl, fit, .nil _⟩

/-- A path is put on one that is at least as long. -/
theorem Aligned.length_le (h : Aligned covers previous p q) : p.length ≤ q.length := by
  induction h with
  | nil => exact Nat.le_refl 0
  | cons gap _ _ ih =>
    rw [List.length_append, List.length_cons, List.length_cons]
    omega

/-- A path that has components is put on one that has. -/
theorem Aligned.ne_nil (h : Aligned covers previous p q) (hp : p ≠ []) : q ≠ [] := by
  cases h with
  | nil => exact absurd rfl hp
  | cons => simp

/-- An alignment asks for compound selectors of the two paths only, behind gaps of the second. -/
theorem Aligned.mono {covers' : Comparison} (h : Aligned covers previous p q)
    (hc : ∀ c ∈ p, ∀ d ∈ q, ∀ gap, gap ⊆ q →
      covers c.compound d.compound gap = true → covers' c.compound d.compound gap = true) :
    Aligned covers' previous p q := by
  induction h with
  | nil previous => exact .nil previous
  | cons gap fit rest ih =>
    refine .cons gap ?_ (ih fun c hc' d hd g hg ↦ hc c (.tail _ hc') d (by simp [hd]) g ?_)
    · rw [fits_iff] at fit ⊢
      exact ⟨fit.1, hc _ (.head _) _ (by simp) gap (by simp) fit.2⟩
    · exact fun e he ↦ List.mem_append_right _ (.tail _ (hg he))

/-! ### What the search finds -/

/-- The first path has places on the second as the search looks for them: the last component goes on
the last one without a look at the gap in front of it, which the component before has looked at. -/
inductive Found (covers : Comparison) : Option Combinator → Path → Path → Prop where
  /-- The last component is put on the last one. -/
  | last {previous : Option Combinator} {c d : Component} {gap : Path}
      (compounds : covers c.compound d.compound gap = true) :
      Found covers previous [c] (gap ++ [d])
  /-- A component before the last is put on one behind a gap, and the rest on what follows. -/
  | cons {previous : Option Combinator} {c : Component} {p : Path} (gap : Path) {d : Component}
      {q : Path} (fit : fits covers previous c gap d = true)
      (final : p.length = 1 → finalGapAllowed c.next q = true) (rest : Found covers c.next p q) :
      Found covers previous (c :: p) (gap ++ d :: q)

theorem Found.ne_nil (h : Found covers previous p q) : p ≠ [] ∧ q ≠ [] := by
  cases h <;> simp

theorem Found.length_le (h : Found covers previous p q) : p.length ≤ q.length := by
  induction h with
  | last => simp
  | cons gap _ _ _ ih =>
    rw [List.length_append, List.length_cons, List.length_cons]
    omega

/-- A single component is found on the last component of the other path. -/
theorem found_single_iff : Found covers previous [c] q ↔
    (q.getLast?.any fun d ↦ covers c.compound d.compound q.dropLast) = true := by
  constructor
  · intro h
    cases h with
    | last compounds => simpa using compounds
    | cons _ _ _ rest => exact absurd rfl rest.ne_nil.1
  · intro h
    obtain rfl | ⟨gap, d, rfl⟩ := List.eq_nil_or_concat' q
    · simp at h
    · exact .last (by simpa using h)

/-- A component may be put on another behind a gap, and the components after it are found on the
rest. -/
structure Goes (covers : Comparison) (previous : Option Combinator) (c : Component) (p gap : Path)
    (d : Component) (rest : Path) : Prop where
  fit : fits covers previous c gap d = true
  final : p.length = 1 → finalGapAllowed c.next rest = true
  found : Found covers c.next p rest

/-- A path of several components is found where its first component goes. -/
theorem found_cons_iff (hp : p ≠ []) : Found covers previous (c :: p) q ↔
    ∃ gap d r, q = gap ++ d :: r ∧ r ≠ [] ∧ Goes covers previous c p gap d r := by
  constructor
  · intro h
    cases h with
    | last => exact absurd rfl hp
    | cons gap fit final rest => exact ⟨gap, _, _, rfl, rest.ne_nil.2, fit, final, rest⟩
  · rintro ⟨gap, d, r, rfl, -, ⟨fit, final, rest⟩⟩
    exact .cons gap fit final rest

/-- What is found asks for compound selectors of the two paths only, behind gaps of the second. -/
theorem Found.mono {covers' : Comparison} (h : Found covers previous p q)
    (hc : ∀ c ∈ p, ∀ d ∈ q, ∀ gap, gap ⊆ q →
      covers c.compound d.compound gap = true → covers' c.compound d.compound gap = true) :
    Found covers' previous p q := by
  induction h with
  | last compounds => exact .last (hc _ (.head _) _ (by simp) _ (by simp) compounds)
  | cons gap fit final rest ih =>
    refine .cons gap ?_ final (ih fun c hc' d hd g hg ↦ hc c (.tail _ hc') d (by simp [hd]) g ?_)
    · rw [fits_iff] at fit ⊢
      exact ⟨fit.1, hc _ (.head _) _ (by simp) gap (by simp) fit.2⟩
    · exact fun e he ↦ List.mem_append_right _ (.tail _ (hg he))

/-- Nothing is written after the last component of a path. -/
def EndsPlain (p : Path) : Prop :=
  ∀ c, p.getLast? = some c → c.next = none

theorem EndsPlain.of_suffix {r : Path} (h : EndsPlain q) (hr : r <:+ q) : EndsPlain r := by
  obtain ⟨front, rfl⟩ := hr
  intro c hc
  exact h c (by simp [List.getLast?_append, hc])

/-- The search finds what can be put on the other path, where the gap in front of a single component
has been looked at. -/
theorem found_iff_aligned (hp : EndsPlain p) (hq : EndsPlain q) (hne : p ≠ [])
    (hfinal : p.length = 1 → gapAllowed previous q.dropLast = true) :
    Found covers previous p q ↔ Aligned covers previous p q := by
  constructor
  · intro h
    clear hne
    induction h with
    | @last previous c d gap compounds =>
      have hgap : gapAllowed previous gap = true := by simpa using hfinal rfl
      have hk : Combinator.covers c.next d.next = true := by
        rw [hp c rfl, hq d (by simp)]
        rfl
      exact .cons gap (fits_iff.2 ⟨⟨hgap, hk⟩, compounds⟩) (.nil _)
    | @cons previous c p gap d q fit final rest ih =>
      refine .cons gap fit (ih (hp.of_suffix (List.suffix_cons c p)) (hq.of_suffix ?_) fun h ↦ ?_)
      · exact (List.suffix_cons d q).trans (List.suffix_append gap _)
      · rw [← finalGapAllowed_eq, final h]
  · intro h
    induction h with
    | nil => exact absurd rfl hne
    | @cons previous c p gap d q fit rest ih =>
      cases p with
      | nil =>
        obtain rfl := aligned_nil_iff.1 rest
        exact .last (fits_iff.1 fit).2
      | cons c' p =>
        have hp' := hp.of_suffix (List.suffix_cons c (c' :: p))
        have hq' := hq.of_suffix ((List.suffix_cons d q).trans (List.suffix_append gap _))
        have hfinal' (h : (c' :: p).length = 1) : gapAllowed c.next q.dropLast = true := by
          obtain rfl : p = [] := by simpa using h
          obtain ⟨gap', e, r, rfl, fit', rest'⟩ := aligned_cons_iff.1 rest
          obtain rfl := aligned_nil_iff.1 rest'
          simpa using (fits_iff.1 fit').1.1
        refine .cons gap fit (fun h ↦ ?_) (ih hp' hq' (by simp) hfinal')
        rw [finalGapAllowed_eq, hfinal' h]

/-! ### The memo -/

/-- A search answers a question: from a memo of which an invariant holds it gives the right answer,
and the invariant holds of the memo that it leaves. -/
def Decides (invariant : Memo → Prop) (s : StateM Memo Bool) (question : Prop) : Prop :=
  ∀ memo, invariant memo →
    ((s.run memo).run.1 = true ↔ question) ∧ invariant (s.run memo).run.2

section Decides

variable {invariant : Memo → Prop} {s t : StateM Memo Bool} {question other : Prop}

theorem Decides.of_iff (h : Decides invariant s question) (hiff : question ↔ other) :
    Decides invariant s other :=
  fun memo hmemo ↦ ⟨(h memo hmemo).1.trans hiff, (h memo hmemo).2⟩

theorem Decides.pure {b : Bool} (h : b = true ↔ question) : Decides invariant (pure b) question :=
  fun _ hmemo ↦ ⟨h, hmemo⟩

/-- A second search is made only where the first fails. -/
theorem Decides.orElse (hs : Decides invariant s question) (ht : Decides invariant t other) :
    Decides invariant (do if ← s then return true else t) (question ∨ other) := by
  intro memo hmemo
  obtain ⟨hanswer, hkept⟩ := hs memo hmemo
  rw [StateT.run_bind]
  cases hb : (s.run memo).run.1 with
  | true =>
    simp only [Id.run_bind, hb, if_true]
    exact ⟨iff_of_true rfl (.inl (hanswer.1 hb)), hkept⟩
  | false =>
    have hno : ¬question := fun h ↦ by simp [hanswer.2 h] at hb
    obtain ⟨hanswer', hkept'⟩ := ht _ hkept
    simp only [Id.run_bind, hb, Bool.false_eq_true, if_false]
    exact ⟨hanswer'.trans (or_iff_right hno).symm, hkept'⟩

/-- Attempts at the components of a path answer whether one of them succeeds. -/
theorem Decides.succeedsAt {attempt : Path → Component → Path → StateM Memo Bool} {gap q : Path}
    {success : Path → Component → Path → Prop}
    (h : ∀ g d r, q = g ++ d :: r → Decides invariant (attempt (gap ++ g) d r)
      (success (gap ++ g) d r)) :
    Decides invariant (Alignment.succeedsAt attempt gap q)
      (∃ g d r, q = g ++ d :: r ∧ r ≠ [] ∧ success (gap ++ g) d r) := by
  induction q generalizing gap with
  | nil => exact .pure (by simp)
  | cons d q ih =>
    cases q with
    | nil => exact .pure (by simp [List.cons_eq_append_iff])
    | cons e q =>
      have hfirst : Decides invariant (attempt gap d (e :: q)) (success gap d (e :: q)) := by
        simpa only [List.append_nil] using h [] d (e :: q) rfl
      have hlater (g : Path) (x : Component) (r : Path) (hq : e :: q = g ++ x :: r) :
          Decides invariant (attempt (gap ++ [d] ++ g) x r) (success (gap ++ [d] ++ g) x r) := by
        simpa using h (d :: g) x r (by rw [hq, List.cons_append])
      refine (hfirst.orElse (ih hlater)).of_iff ?_
      constructor
      · rintro (hd | ⟨g, x, r, hq, hr, hx⟩)
        · exact ⟨[], d, e :: q, rfl, by simp, by simpa only [List.append_nil] using hd⟩
        · exact ⟨d :: g, x, r, by rw [hq, List.cons_append], hr, by simpa using hx⟩
      · rintro ⟨g, x, r, hq, hr, hx⟩
        cases g with
        | nil =>
          cases hq
          exact .inl (by simpa only [List.append_nil] using hx)
        | cons y g =>
          obtain ⟨rfl, htail⟩ := List.cons.inj hq
          exact .inr ⟨g, x, r, htail, hr, by simpa using hx⟩

end Decides

/-- The answers of a memo are right: what is kept under the lengths of two suffixes and a combinator
is whether the one suffix is found on the other. -/
def Right (covers : Comparison) (p q : Path) (memo : Memo) : Prop :=
  ∀ r s, r <:+ p → s <:+ q → ∀ previous answer,
    memo.lookup ⟨r.length, s.length, previous⟩ = some answer →
      (answer = true ↔ Found covers previous r s)

/-- A right answer is kept under the lengths of the two suffixes, which tell what they are. -/
theorem Right.insert {memo : Memo} {r s : Path} {answer : Bool} (h : Right covers p q memo)
    (hr : r <:+ p) (hs : s <:+ q) (hanswer : answer = true ↔ Found covers previous r s) :
    Right covers p q ((⟨r.length, s.length, previous⟩, answer) :: memo) := by
  intro r' s' hr' hs' previous' answer' hlookup
  rw [List.lookup_cons] at hlookup
  split at hlookup
  · rename_i hkey
    simp only [beq_iff_eq, Key.mk.injEq] at hkey
    obtain ⟨hlr, hls, rfl⟩ := hkey
    obtain rfl : r' = r := (List.suffix_of_suffix_length_le hr' hr hlr.le).eq_of_length hlr
    obtain rfl : s' = s := (List.suffix_of_suffix_length_le hs' hs hls.le).eq_of_length hls
    obtain rfl := Option.some.inj hlookup
    exact hanswer
  · exact h r' s' hr' hs' previous' answer' hlookup

/-- A search that answers a question about two suffixes may be answered from the memo. -/
theorem Decides.remembered {s : StateM Memo Bool} {r t : Path} (hr : r <:+ p) (ht : t <:+ q)
    (h : Decides (Right covers p q) s (Found covers previous r t)) :
    Decides (Right covers p q) (Alignment.remembered ⟨r.length, t.length, previous⟩ s)
      (Found covers previous r t) := by
  intro memo hmemo
  cases hlookup : memo.lookup ⟨r.length, t.length, previous⟩ with
  | some answer =>
    have hrun : ((Alignment.remembered ⟨r.length, t.length, previous⟩ s).run memo).run =
        (answer, memo) := by
      simp [Alignment.remembered, hlookup]
    rw [hrun]
    exact ⟨hmemo r t hr ht previous answer hlookup, hmemo⟩
  | none =>
    obtain ⟨hanswer, hkept⟩ := h memo hmemo
    have hrun : ((Alignment.remembered ⟨r.length, t.length, previous⟩ s).run memo).run =
        ((s.run memo).run.1, (⟨r.length, t.length, previous⟩, (s.run memo).run.1) ::
          (s.run memo).run.2) := by
      simp [Alignment.remembered, hlookup]
    rw [hrun]
    exact ⟨hanswer, hkept.insert hr ht hanswer⟩

/-- The search answers for suffixes of two paths whether the one is found on the other. -/
theorem search_decides {r t : Path} (hr : r <:+ p) (ht : t <:+ q)
    (previous : Option Combinator) :
    Decides (Right covers p q) (search covers r t previous) (Found covers previous r t) := by
  induction r generalizing t previous with
  | nil => exact .pure (iff_of_false (by simp) fun h ↦ h.ne_nil.1 rfl)
  | cons c r ih =>
    rw [search]
    by_cases hlength : t.length < r.length + 1
    · rw [if_pos hlength]
      exact .pure (iff_of_false (by simp) fun h ↦ by
        have := h.length_le
        rw [List.length_cons] at this
        omega)
    rw [if_neg hlength]
    cases hempty : r.isEmpty with
    | true =>
      obtain rfl := List.isEmpty_iff.1 hempty
      exact .pure found_single_iff.symm
    | false =>
      have hne : r ≠ [] := by simpa using hempty
      rw [if_neg (by simp)]
      have hrest := (List.suffix_cons c r).trans hr
      have hgoes : (∃ g d s, t = g ++ d :: s ∧ s ≠ [] ∧ Goes covers previous c r ([] ++ g) d s) ↔
          Found covers previous (c :: r) t := (found_cons_iff hne).symm
      refine (Decides.succeedsAt fun g d s hq ↦ ?_).of_iff hgoes
      have hs : s <:+ q := by
        subst hq
        exact ((List.suffix_cons d s).trans (List.suffix_append g _)).trans ht
      rw [List.nil_append]
      cases hfit : fits covers previous c g d with
      | false => exact .pure (iff_of_false (by simp) fun h ↦ by simp [h.fit] at hfit)
      | true =>
        cases hfinal : (r.length == 1 && !finalGapAllowed c.next s) with
        | true =>
          simp only [Bool.and_eq_true, beq_iff_eq, Bool.not_eq_true'] at hfinal
          exact .pure (iff_of_false (by simp) fun h ↦ by simp [h.final hfinal.1] at hfinal)
        | false =>
          have hallowed (h : r.length = 1) : finalGapAllowed c.next s = true := by
            simpa [h] using hfinal
          exact (Decides.remembered hrest hs (ih hrest hs c.next)).of_iff
            ⟨fun h ↦ ⟨hfit, hallowed, h⟩, fun h ↦ h.found⟩

/-- The search succeeds exactly if the first path is found on the second. -/
theorem aligned_iff_found (p q : Path) : aligned covers p q = true ↔ Found covers none p q := by
  have hright : Right covers p q [] := by simp [Right]
  exact (Decides.remembered (List.suffix_refl p) (List.suffix_refl q)
    (search_decides (List.suffix_refl p) (List.suffix_refl q) none) [] hright).1

/-- The search succeeds exactly if the first path can be put on the second, where both end without a
combinator. -/
theorem aligned_eq_true_iff (hp : EndsPlain p) (hq : EndsPlain q) (hne : p ≠ []) :
    aligned covers p q = true ↔ Aligned covers none p q :=
  (aligned_iff_found p q).trans (found_iff_aligned hp hq hne fun _ ↦ gapAllowed_none _)

/-- The search depends only on how compound selectors of the two paths are compared. -/
theorem aligned_congr {covers' : Comparison} (h : ∀ c ∈ p, ∀ d ∈ q, ∀ gap, gap ⊆ q →
    covers c.compound d.compound gap = covers' c.compound d.compound gap) :
    aligned covers p q = aligned covers' p q := by
  rw [Bool.eq_iff_iff, aligned_iff_found, aligned_iff_found]
  constructor
  · exact fun ha ↦ ha.mono fun c hc d hd gap hg hk ↦ (h c hc d hd gap hg) ▸ hk
  · exact fun ha ↦ ha.mono fun c hc d hd gap hg hk ↦ (h c hc d hd gap hg) ▸ hk

end SelectorAlgebra.Alignment

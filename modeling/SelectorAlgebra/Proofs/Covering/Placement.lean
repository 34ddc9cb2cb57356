import SelectorAlgebra.Proofs.Covering.FixedPoint

/-!
# Places of an alignment

An alignment put in terms of positions. Main statement: a path covers another that is not the same
exactly if neither holds combinators that are no relation and there are increasing positions in the
second path, the last one at its end, that respect the compound selectors, the combinators and what
the combinators let be passed over.
-/

namespace SelectorAlgebra

namespace Alignment

variable {covers : Comparison} {previous : Option Combinator} {c : Component} {p q : Path}

/-- What a combinator lets be passed over between the elements that it joins: anything after white
space, nothing after `>` and `+`, and siblings that follow each other after `~`. -/
def Permits : Option Combinator → Path → Prop
  | none, _ => True
  | some .child, gap => gap = []
  | some .nextSibling, gap => gap = []
  | some .followingSibling, gap =>
    ∀ d ∈ gap, d.next = some .followingSibling ∨ d.next = some .nextSibling

/-- The test of a gap is what its combinator lets be passed over. -/
theorem gapAllowed_iff (k : Option Combinator) (gap : Path) :
    gapAllowed k gap = true ↔ Permits k gap := by
  match k with
  | none => simp [Permits]
  | some .child => simp [Permits]
  | some .nextSibling => simp [Permits]
  | some .followingSibling =>
    have hc (k : Option Combinator) : Combinator.covers (some .followingSibling) k = true ↔
        k = some .followingSibling ∨ k = some .nextSibling := by
      rcases k with _ | ⟨_ | _ | _⟩ <;> decide
    simp only [gapAllowed_followingSibling, Permits, List.all_eq_true, hc]

/-- The components strictly between the places of two neighbours, the second of which is the `i`-th;
in front of the first place where there is no neighbour. -/
def between (q : Path) (place : Nat → Nat) (i : Nat) : Path :=
  (q.take (place i)).drop (match i with | 0 => 0 | j + 1 => place j + 1)

/-- Places on which the components of a path may be put: they increase up to the last one there is,
each compound selector covers the one at its place behind the gap in front of it, and each
combinator covers the one at its place and permits the gap after it. -/
structure IsPlacement (covers : Comparison) (p q : Path) (place : Nat → Nat) : Prop where
  increasing : ∀ i, i + 1 < p.length → place i < place (i + 1)
  last : place (p.length - 1) + 1 = q.length
  compounds : ∀ i c d, p[i]? = some c → q[place i]? = some d →
    covers c.compound d.compound (between q place i) = true
  combinators : ∀ i c d, i + 1 < p.length → p[i]? = some c → q[place i]? = some d →
    Combinator.covers c.next d.next = true
  gaps : ∀ i c, i + 1 < p.length → p[i]? = some c → Permits c.next (between q place (i + 1))

/-- The places of a path whose first component stands behind a gap, from those of the rest. -/
def shift (n : Nat) (place : Nat → Nat) : Nat → Nat
  | 0 => n
  | i + 1 => n + 1 + place i

theorem between_zero {gap : Path} {place : Nat → Nat} (h : place 0 = gap.length) (q : Path) :
    between (gap ++ q) place 0 = gap := by
  simp [between, h]

private theorem between_shift (gap : Path) (d : Component) (q : Path) (place : Nat → Nat) (i : Nat) :
    between (gap ++ d :: q) (shift gap.length place) (i + 1) = between q place i := by
  have ht (k : Nat) : (gap ++ d :: q).take (gap.length + 1 + k) = gap ++ d :: q.take k := by
    rw [Nat.add_assoc, List.take_length_add_append, Nat.add_comm, List.take_succ_cons]
  have hd (k : Nat) (r : Path) : (gap ++ d :: r).drop (gap.length + 1 + k) = r.drop k := by
    rw [Nat.add_assoc, List.drop_length_add_append, Nat.add_comm, List.drop_succ_cons]
  cases i with
  | zero => simp [between, shift, ht]
  | succ i => simp only [between, shift, ht, Nat.add_assoc _ (place i), hd]

private theorem getElem?_shift (gap : Path) (d : Component) (q : Path) (place : Nat → Nat) (i : Nat) :
    (gap ++ d :: q)[shift gap.length place (i + 1)]? = q[place i]? := by
  rw [shift, List.getElem?_append_right (by omega)]
  simp [show gap.length + 1 + place i - gap.length = place i + 1 by omega]

/-- Where the first component stands behind a gap, a path is placed exactly if that component fits
there and the rest is placed on what follows. -/
theorem isPlacement_shift_iff {c' d : Component} {gap : Path} {place : Nat → Nat} :
    IsPlacement covers (c :: c' :: p) (gap ++ d :: q) (shift gap.length place) ↔
      (covers c.compound d.compound gap = true ∧ Combinator.covers c.next d.next = true ∧
        Permits c.next (between q place 0)) ∧ IsPlacement covers (c' :: p) q place := by
  have hgap : between (gap ++ d :: q) (shift gap.length place) 0 = gap := between_zero rfl _
  have hd : (gap ++ d :: q)[shift gap.length place 0]? = some d := by simp [shift]
  have hlast : shift gap.length place ((c :: c' :: p).length - 1) + 1 = (gap ++ d :: q).length ↔
      place ((c' :: p).length - 1) + 1 = q.length := by
    simp only [List.length_cons, Nat.add_sub_cancel, shift, List.length_append]
    omega
  constructor
  · intro h
    refine ⟨⟨?covers, ?combinator, ?gap⟩, ?increasing, ?last, ?compounds, ?combinators, ?gaps⟩
    case covers => simpa only [hgap] using h.compounds 0 c d rfl hd
    case combinator => exact h.combinators 0 c d (by simp) rfl hd
    case gap => simpa only [between_shift] using h.gaps 0 c (by simp) rfl
    case increasing =>
      intro i hi
      have := h.increasing (i + 1) (by simpa using hi)
      simp only [shift] at this
      omega
    case last => exact hlast.1 h.last
    case compounds =>
      intro i a b ha hb
      rw [← between_shift gap d]
      exact h.compounds (i + 1) a b ha (by rwa [getElem?_shift])
    case combinators =>
      intro i a b hi ha hb
      exact h.combinators (i + 1) a b (by simpa using hi) ha (by rwa [getElem?_shift])
    case gaps =>
      intro i a hi ha
      rw [← between_shift gap d]
      exact h.gaps (i + 1) a (by simpa using hi) ha
  · rintro ⟨⟨hc, hk, hg⟩, h⟩
    refine ⟨?increasing, hlast.2 h.last, ?compounds, ?combinators, ?gaps⟩
    case increasing =>
      rintro (_ | i) hi
      · simp only [shift]
        omega
      · have := h.increasing i (by simpa using hi)
        simp only [shift]
        omega
    case compounds =>
      rintro (_ | i) a b ha hb
      · cases ha
        cases hd.symm.trans hb
        rwa [hgap]
      · rw [between_shift]
        exact h.compounds i a b ha (by rwa [getElem?_shift] at hb)
    case combinators =>
      rintro (_ | i) a b hi ha hb
      · cases ha
        cases hd.symm.trans hb
        exact hk
      · exact h.combinators i a b (by simpa using hi) ha (by rwa [getElem?_shift] at hb)
    case gaps =>
      rintro (_ | i) a hi ha
      · cases ha
        rwa [between_shift]
      · rw [between_shift]
        exact h.gaps i a (by simpa using hi) ha

/-- Only the places of components matter. -/
theorem IsPlacement.congr {place place' : Nat → Nat} (h : IsPlacement covers p q place)
    (he : ∀ i < p.length, place i = place' i) (hp : p ≠ []) : IsPlacement covers p q place' := by
  have hb (i : Nat) (hi : i < p.length) : between q place i = between q place' i := by
    cases i with
    | zero => simp only [between, he 0 hi]
    | succ i => simp only [between, he _ hi, he i (by omega)]
  have hl {i : Nat} {a : Component} (ha : p[i]? = some a) : i < p.length :=
    (List.getElem?_eq_some_iff.1 ha).1
  have h0 := List.length_pos_iff.2 hp
  refine ⟨fun i hi ↦ ?_, ?_, fun i a b ha hq ↦ ?_, fun i a b hi ha hq ↦ ?_, fun i a hi ha ↦ ?_⟩
  · rw [← he _ hi, ← he i (by omega)]
    exact h.increasing i hi
  · rw [← he _ (by omega)]
    exact h.last
  · rw [← hb i (hl ha)]
    exact h.compounds i a b ha (by rwa [he i (hl ha)])
  · exact h.combinators i a b hi ha (by rwa [he i (hl ha)])
  · rw [← hb _ hi]
    exact h.gaps i a hi ha

/-- Places increase by one at least from each component to the next. -/
theorem IsPlacement.add_le {place : Nat → Nat} (h : IsPlacement covers p q place) {i j : Nat}
    (hj : i + j < p.length) : place i + j ≤ place (i + j) := by
  induction j with
  | zero => simp
  | succ j ih =>
    have h1 := ih (by omega)
    have h2 := h.increasing (i + j) hj
    simp only [Nat.add_assoc] at h2
    omega

/-- Every place is a position of the second path. -/
theorem IsPlacement.lt_length {place : Nat → Nat} (h : IsPlacement covers p q place) {i : Nat}
    (hi : i < p.length) : place i < q.length := by
  have h1 := h.add_le (i := i) (j := p.length - 1 - i) (by omega)
  have h2 := h.last
  rw [show i + (p.length - 1 - i) = p.length - 1 by omega] at h1
  omega

/-- A path of one component is placed on the last component of the other. -/
theorem isPlacement_singleton_iff {d : Component} {gap : Path} {place : Nat → Nat} :
    IsPlacement covers [c] (gap ++ [d]) place ↔
      place 0 = gap.length ∧ covers c.compound d.compound gap = true := by
  constructor
  · intro h
    have h0 : place 0 = gap.length := by simpa using h.last
    exact ⟨h0, between_zero h0 _ ▸ h.compounds 0 c d rfl (by simp [h0])⟩
  · rintro ⟨h0, hc⟩
    refine ⟨by simp, by simp [h0], ?_, by simp, by simp⟩
    rintro (_ | i) a b ha hd
    · cases ha
      rw [h0, List.getElem?_concat_length] at hd
      cases hd
      rwa [between_zero h0]
    · simp at ha

/-- A path of two components or more is placed with the first one behind a gap and the others on what
follows. -/
theorem IsPlacement.exists_shift {c' : Component} {place : Nat → Nat}
    (h : IsPlacement covers (c :: c' :: p) q place) :
    ∃ gap d r place', q = gap ++ d :: r ∧ place 0 = gap.length ∧
      IsPlacement covers (c :: c' :: p) (gap ++ d :: r) (shift gap.length place') := by
  have hlt : place 0 < q.length := h.lt_length (by simp)
  obtain ⟨gap, d, r, rfl, hn⟩ : ∃ gap d r, q = gap ++ d :: r ∧ place 0 = gap.length :=
    ⟨q.take (place 0), q[place 0], q.drop (place 0 + 1), by simp, by simp; omega⟩
  refine ⟨gap, d, r, fun i ↦ place (i + 1) - (gap.length + 1), rfl, hn,
    h.congr (fun i hi ↦ ?_) (by simp)⟩
  cases i with
  | zero => exact hn
  | succ i =>
    have := h.add_le (i := 0) (j := i + 1) (by simpa using hi)
    simp only [Nat.zero_add] at this
    simp only [shift]
    omega

/-- Alignments of paths that end without a combinator are given by places. -/
theorem aligned_iff_exists_isPlacement (hp : EndsPlain (c :: p)) (hq : EndsPlain q) :
    Aligned covers previous (c :: p) q ↔
      ∃ place, IsPlacement covers (c :: p) q place ∧ Permits previous (between q place 0) := by
  induction p generalizing previous c q with
  | nil =>
    have hc : c.next = none := hp c rfl
    constructor
    · intro h
      obtain ⟨gap, d, r, rfl, fit, rest⟩ := aligned_cons_iff.1 h
      obtain rfl := aligned_nil_iff.1 rest
      rw [fits_iff, gapAllowed_iff] at fit
      exact ⟨fun _ ↦ gap.length, isPlacement_singleton_iff.2 ⟨rfl, fit.2⟩,
        by simpa [between] using fit.1.1⟩
    · rintro ⟨place, h, hg⟩
      have hne : q ≠ [] := by
        rintro rfl
        cases h.last
      obtain ⟨gap, d, rfl⟩ := (List.eq_nil_or_concat' q).resolve_left hne
      obtain ⟨h0, hcovers⟩ := isPlacement_singleton_iff.1 h
      have hd : d.next = none := hq d (by simp)
      refine .cons gap ?_ (.nil _)
      rw [fits_iff, gapAllowed_iff, hc, hd]
      exact ⟨⟨between_zero h0 _ ▸ hg, rfl⟩, hcovers⟩
  | cons c' p ih =>
    have hp' := hp.of_suffix (List.suffix_cons c (c' :: p))
    have hrest {gap r : Path} {d : Component} (he : q = gap ++ d :: r) : EndsPlain r :=
      hq.of_suffix (he ▸ (List.suffix_cons d r).trans (List.suffix_append gap _))
    constructor
    · intro h
      obtain ⟨gap, d, r, he, fit, rest⟩ := aligned_cons_iff.1 h
      obtain ⟨place, hplace, hg⟩ := (ih hp' (hrest he)).1 rest
      rw [fits_iff, gapAllowed_iff] at fit
      refine ⟨shift gap.length place, he ▸ isPlacement_shift_iff.2 ⟨⟨fit.2, fit.1.2, hg⟩, hplace⟩, ?_⟩
      rw [he, between_zero rfl]
      exact fit.1.1
    · rintro ⟨place, h, hg⟩
      obtain ⟨gap, d, r, place', he, h0, hs⟩ := h.exists_shift
      obtain ⟨⟨hc, hk, hgap⟩, hplace⟩ := isPlacement_shift_iff.1 hs
      rw [he, between_zero h0] at hg
      rw [he]
      refine .cons gap ?_ ((ih hp' (hrest he)).2 ⟨place', hplace, hgap⟩)
      rw [fits_iff, gapAllowed_iff]
      exact ⟨⟨hg, hk⟩, hc⟩

end Alignment

/-- A path covers another exactly if it is the same path or the search for an alignment, which is
made only for paths that hold at most one combinator in each place and none at the end, has
places to find. -/
theorem Path.covers_iff_exists_isPlacement (p q : Path) :
    Path.covers p q = true ↔ (p ≠ [] ∧ Path.same p q = true) ∨
      (p ≠ [] ∧ q ≠ [] ∧
        (∀ c, p.getLast? = some c → c.combinators = []) ∧
        (∀ d, q.getLast? = some d → d.combinators = []) ∧
        (∀ c ∈ p, c.combinators.length ≤ 1) ∧ (∀ d ∈ q, d.combinators.length ≤ 1) ∧
        ∃ place, Alignment.IsPlacement Compound.coversBehind p q place) := by
  have hwhole : Covering.whole.compound = Compound.coversBehind :=
    funext fun c ↦ funext₂ fun d parents ↦ (Compound.coversBehind_eq c d parents).symm
  have hlast (r : Path) : r.getLast?.any (·.combinators.isEmpty) = true ↔
      r ≠ [] ∧ ∀ c, r.getLast? = some c → c.combinators = [] := by
    cases r with
    | nil => simp
    | cons c r => simp [List.getLast?_cons]
  have hmulti (r : Path) : (!r.hasMultipleCombinators) = true ↔
      ∀ c ∈ r, c.combinators.length ≤ 1 := by
    simp [Path.hasMultipleCombinators]
  rw [Path.covers_eq, Covering.coversPath]
  simp only [Bool.or_eq_true, Bool.and_eq_true, hlast, hmulti, hwhole, Bool.not_eq_true',
    List.isEmpty_eq_false_iff]
  apply or_congr_right
  have hnext {r : Path} (h : ∀ c, r.getLast? = some c → c.combinators = []) :
      Alignment.EndsPlain r := fun c hc ↦ by simp [Component.next, h c hc]
  constructor
  · rintro ⟨⟨⟨⟨⟨hp, hp'⟩, hq, hq'⟩, hm⟩, hm'⟩, h⟩
    obtain ⟨c, r, rfl⟩ := List.exists_cons_of_ne_nil hp
    rw [Alignment.aligned_eq_true_iff (hnext hp') (hnext hq') hp,
      Alignment.aligned_iff_exists_isPlacement (hnext hp') (hnext hq')] at h
    obtain ⟨place, hplace, -⟩ := h
    exact ⟨hp, hq, hp', hq', hm, hm', place, hplace⟩
  · rintro ⟨hp, hq, hp', hq', hm, hm', place, hplace⟩
    obtain ⟨c, r, rfl⟩ := List.exists_cons_of_ne_nil hp
    refine ⟨⟨⟨⟨⟨hp, hp'⟩, hq, hq'⟩, hm⟩, hm'⟩, ?_⟩
    rw [Alignment.aligned_eq_true_iff (hnext hp') (hnext hq') hp,
      Alignment.aligned_iff_exists_isPlacement (hnext hp') (hnext hq')]
    exact ⟨place, hplace, trivial⟩

end SelectorAlgebra

import SelectorAlgebra.Parser.Basic
import SelectorAlgebra.Proofs.Parser.Reads
import SelectorAlgebra.Proofs.Source.Slice
import SelectorAlgebra.Scanner.Basic

/-!
# What scanners yield

A scanner that stands where some end of the text is left does what a reading of that end tells, with
the offsets of ends in place of the ends. There is one rule for each way to build a scanner, and
each rule asks of a slice or a move that it is made between ends of the text. Main statement: a loop
yields what its rounds lead to, if no round but the last leaves the text as it is.
-/

namespace SelectorAlgebra.Scanner

open Text

variable {α β σ : Type} {src s r : List Char}

/-! ### Sequences of scanners -/

section Sequence

variable {q : Scanner α} {f : α → Scanner β} {n m : Nat} {a : α} {e : Halt}

/-- A sequence stops where its first scanner does. -/
theorem bind_eq_of_error (h : (q src n).result = .error e) :
    (q >>= f) src n = ⟨(q src n).positions, (q src n).notices, .error e⟩ := by
  change andThen q f src n = _
  unfold andThen
  split
  · next hq => rw [hq] at h ⊢; cases h; rfl
  · next hq => rw [hq] at h; cases h

/-- What a sequence does whose first scanner takes a value. -/
theorem bind_eq_of_ok (h : (q src n).result = .ok (a, m)) :
    (q >>= f) src n = ⟨(q src n).positions ++ (f a src m).positions,
      (q src n).notices ++ (f a src m).notices, (f a src m).result⟩ := by
  change andThen q f src n = _
  unfold andThen
  split
  · next hq => rw [hq] at h; cases h
  · next hq => rw [hq] at h ⊢; cases h; rfl

end Sequence

instance : LawfulMonad Scanner := LawfulMonad.mk' _
  (fun q ↦ by
    funext text n
    change (q >>= pure) text n = q text n
    cases h : (q text n).result with
    | error e => rw [bind_eq_of_error h, ← h]
    | ok x =>
      rw [bind_eq_of_ok h]
      simp only [pure, value, List.append_nil, ← h])
  (fun _ _ ↦ rfl)
  (fun q f g ↦ by
    funext text n
    cases h : (q text n).result with
    | error e =>
      have hqf : ((q >>= f) text n).result = .error e := by rw [bind_eq_of_error h]
      rw [bind_eq_of_error hqf, bind_eq_of_error h, bind_eq_of_error h]
    | ok x =>
      have hqf : ((q >>= f) text n).result = (f x.1 text x.2).result := by rw [bind_eq_of_ok h]
      cases hf : (f x.1 text x.2).result with
      | error e =>
        rw [bind_eq_of_error (hqf.trans hf), bind_eq_of_ok h, bind_eq_of_ok h, bind_eq_of_error hf]
      | ok y =>
        rw [bind_eq_of_ok (hqf.trans hf), bind_eq_of_ok h, bind_eq_of_ok h, bind_eq_of_ok hf]
        simp only [List.append_assoc])

/-! ### What is yielded -/

/-- Whether a scan of a text does what a reading of an end of it tells: it only comes to offsets of
later ends, each no less than those before, it does not crash, and it gives what the reading
gives. -/
structure Follows (src s : List Char) (x : Scan α) (y : Reading α) : Prop where
  ordered : (offset src s :: x.positions).Pairwise (· ≤ ·)
  boundaries : ∀ o ∈ x.positions, ∃ t, t <:+ s ∧ o = offset src t
  notices : x.notices = y.notices.map fun n ↦ (offset src n.start, offset src n.stop)
  fault : ∀ e, y.result = .error e →
    x.result = .error (.fault e.fault (offset src e.place.start) (offset src e.place.stop))
  value : ∀ a r, y.result = .ok (a, r) → x.result = .ok (a, offset src r) ∧ r <:+ s ∧
    ∀ o ∈ x.positions, o ≤ offset src r

/-- What follows a reading does not crash. -/
theorem Follows.result_ne_crash {x : Scan α} {y : Reading α} (h : Follows src s x y) :
    x.result ≠ .error .crash := by
  cases hy : y.result with
  | error e => simp [h.fault e hy]
  | ok v => simp [(h.value v.1 v.2 hy).1]

/-- Whether a scanner does what a reading of an end of the text tells, if it stands where that end
is left. -/
def Yields (src : List Char) (q : Scanner α) (s : List Char) (y : Reading α) : Prop :=
  s <:+ src → Follows src s (q src (offset src s)) y

namespace Yields

variable {q : Scanner α} {f : α → Scanner β} {a : α} {y : Reading β} {notices : List Stretch}

/-- A sequence fails where its first scanner does. -/
theorem bind_error {e : Fault} (hq : Yields src q s ⟨notices, .error e⟩) :
    Yields src (q >>= f) s ⟨notices, .error e⟩ := by
  intro hs
  have hq := hq hs
  rw [bind_eq_of_error (hq.fault e rfl)]
  exact ⟨hq.ordered, hq.boundaries, hq.notices, fun e' h ↦ by cases h; rfl, fun _ _ h ↦ by cases h⟩

/-- After a scanner that takes a value, a sequence goes on where that leaves the text. -/
theorem bind_value (hq : Yields src q s ⟨notices, .ok (a, r)⟩)
    (hf : r <:+ s → Yields src (f a) r y) :
    Yields src (q >>= f) s ⟨notices ++ y.notices, y.result⟩ := by
  intro hs
  have hq := hq hs
  obtain ⟨hvalue, hr, hle⟩ := hq.value a r rfl
  have hf := hf hr (hr.trans hs)
  have hlater := List.pairwise_cons.1 hf.ordered
  rw [bind_eq_of_ok hvalue]
  refine ⟨?_, fun o ho ↦ ?_, ?_, fun e h ↦ hf.fault e h, fun b t h ↦ ?_⟩
  · rw [← List.cons_append, List.pairwise_append]
    refine ⟨hq.ordered, hlater.2, fun o ho o' ho' ↦ Nat.le_trans ?_ (hlater.1 o' ho')⟩
    rcases List.mem_cons.1 ho with rfl | ho
    · exact offset_le hr
    · exact hle o ho
  · rcases List.mem_append.1 ho with ho | ho
    · exact hq.boundaries o ho
    · obtain ⟨t, ht, rfl⟩ := hf.boundaries o ho
      exact ⟨t, ht.trans hr, rfl⟩
  · dsimp only
    rw [hq.notices, hf.notices, List.map_append]
  · obtain ⟨hvalue, ht, hle'⟩ := hf.value b t h
    refine ⟨hvalue, ht.trans hr, fun o ho ↦ ?_⟩
    rcases List.mem_append.1 ho with ho | ho
    · exact Nat.le_trans (hle o ho) (offset_le ht)
    · exact hle' o ho

/-- After a scanner that reports nothing, a sequence does what its second scanner does. -/
theorem andThen (hq : Yields src q s ⟨[], .ok (a, r)⟩) (hf : r <:+ s → Yields src (f a) r y) :
    Yields src (q >>= f) s y :=
  hq.bind_value hf

/-- A sequence yields what a sequence of parsers makes of a text, if its scanners do what the parsers
do. -/
theorem bind {p : Parser α} {g : α → Parser β} {t : List Char} (hq : Yields src q s (p t))
    (hf : ∀ a r, Parser.Reads p t a r → r <:+ s → Yields src (f a) r (g a r)) :
    Yields src (q >>= f) s ((p >>= g) t) := by
  cases h : (p t).result with
  | error e =>
    have heq : p t = ⟨(p t).notices, .error e⟩ := by rw [← h]
    rw [Parser.bind_eq_of_error h]
    rw [heq] at hq
    exact hq.bind_error
  | ok x =>
    obtain ⟨a, r⟩ := x
    have heq : p t = ⟨(p t).notices, .ok (a, r)⟩ := by rw [← h]
    rw [Parser.Reads.bind_eq h]
    rw [heq] at hq
    exact hq.bind_value (hf a r h)

end Yields

variable {a : α} {y : Reading β}

theorem yields_pure : Yields src (pure a) s ⟨[], .ok (a, s)⟩ := by
  intro _
  refine ⟨List.pairwise_singleton _ _, by simp [pure, value], rfl, by simp, fun b r h ↦ ?_⟩
  cases h
  exact ⟨rfl, List.suffix_refl _, by simp [pure, value]⟩

/-! ### Places and slices -/

theorem yields_position_bind {f : Nat → Scanner β} (hf : Yields src (f (offset src s)) s y) :
    Yields src (position >>= f) s y := hf

theorem yields_source_bind {f : List Char → Scanner β} (hf : Yields src (f src) s y) :
    Yields src (source >>= f) s y := hf

theorem yields_require {o : Option α} (ho : o = some a) :
    Yields src (require o) s ⟨[], .ok (a, s)⟩ := by
  rw [ho]
  exact yields_pure

theorem yields_moveTo (h : r <:+ s) : Yields src (moveTo (offset src r)) s ⟨[], .ok ((), r)⟩ := by
  intro _
  refine ⟨by simpa [moveTo] using offset_le h, fun o ho ↦ ⟨r, h, ?_⟩, rfl, by simp, fun a t ht ↦ ?_⟩
  · simpa [moveTo] using ho
  · cases ht
    exact ⟨rfl, h, by simp [moveTo]⟩

/-- Going forward by the size of what comes next passes it. -/
theorem yields_advance (u : List Char) :
    Yields src (advance (byteSize u)) (u ++ r) ⟨[], .ok ((), r)⟩ := by
  intro hs
  have hmove : Yields src (moveTo (offset src r)) (u ++ r) _ :=
    yields_moveTo (List.suffix_append u r)
  rw [← offset_add u hs] at hmove
  exact hmove hs

theorem yields_rest : Yields src rest s ⟨[], .ok (s, s)⟩ := fun hs ↦
  yields_require (sliceFrom_offset hs) hs

theorem yields_slice {t : List Char} (ht : t <:+ src) (hr : r <:+ t) :
    Yields src (slice (offset src t) (offset src r)) s ⟨[], .ok (Stretch.chars ⟨t, r⟩, s)⟩ :=
  yields_require (slice_offset ht hr)

/-! ### Characters -/

theorem yields_peek : Yields src peek s ⟨[], .ok (s.head?, s)⟩ :=
  yields_rest.andThen fun _ ↦ yields_pure

theorem yields_peekAt {i : Nat} : Yields src (peekAt i) s ⟨[], .ok (s[i]?, s)⟩ :=
  yields_rest.andThen fun _ ↦ yields_pure

theorem yields_consume {c : Char} : Yields src consume (c :: r) ⟨[], .ok (some c, r)⟩ :=
  yields_peek.andThen fun _ ↦ (yields_advance [c]).andThen fun _ ↦ yields_pure

theorem yields_consume_nil : Yields src consume [] ⟨[], .ok (none, [])⟩ :=
  yields_peek.andThen fun _ ↦ yields_pure

theorem yields_bump {c : Char} : Yields src bump (c :: r) ⟨[], .ok ((), r)⟩ :=
  yields_consume.andThen fun _ ↦ yields_pure

theorem yields_accept {c : Char} : Yields src (accept c) s (Parser.accept c s) := by
  refine yields_peek.andThen fun _ ↦ ?_
  cases s with
  | nil => exact yields_pure
  | cons d r =>
    simp only [Parser.accept, List.head?_cons, Option.some.injEq]
    split
    · exact yields_bump.andThen fun _ ↦ yields_pure
    · exact yields_pure

/-! ### Faults and notices -/

theorem yields_halt {fault : SyntaxFault} (place : Stretch) :
    Yields src (halt (.fault fault (offset src place.start) (offset src place.stop)) : Scanner β) s
      ⟨[], .error ⟨fault, place⟩⟩ := by
  intro _
  refine ⟨by simp [halt], by simp [halt], rfl, fun e h ↦ ?_, fun _ _ h ↦ ?_⟩
  · cases h
    rfl
  · cases h

/-- A fault is about what has been taken, or about the next character, whose end is an offset of the
text. -/
theorem yields_failSince {start : List Char} {fault : SyntaxFault} (hstart : start <:+ src)
    (hs : s <:+ start) : Yields src (failSince (offset src start) fault : Scanner β) s
      (Parser.failSince start fault s) := by
  refine yields_position_bind ?_
  unfold Parser.failSince
  by_cases hlt : s.length < start.length
  · rw [if_pos ((offset_lt_iff hstart hs).2 hlt), if_pos hlt]
    exact yields_halt ⟨start, s⟩
  · rw [if_neg (mt (offset_lt_iff hstart hs).1 hlt), if_neg hlt]
    have hslice : Yields src (sliceFrom (offset src start)) s ⟨[], .ok (start, s)⟩ :=
      yields_require (sliceFrom_offset hstart)
    refine hslice.andThen fun _ ↦ ?_
    have hnext : offset src start + start.head?.elim 0 Char.utf8Size = offset src start.tail := by
      cases start with
      | nil => rfl
      | cons c t => exact offset_cons_add hstart
    dsimp only
    rw [hnext]
    exact yields_halt ⟨start, start.tail⟩

theorem yields_failSince_of_lt {start : List Char} {fault : SyntaxFault} (hstart : start <:+ src)
    (hs : s <:+ start) (hlt : s.length < start.length) :
    Yields src (failSince (offset src start) fault : Scanner β) s
      ⟨[], .error ⟨fault, ⟨start, s⟩⟩⟩ := by
  have h : Yields src (failSince (offset src start) fault : Scanner β) s _ :=
    yields_failSince hstart hs
  rwa [Parser.failSince, if_pos hlt] at h

theorem yields_failSince_self {fault : SyntaxFault} (hs : s <:+ src) :
    Yields src (failSince (offset src s) fault : Scanner β) s (Parser.fail fault s) := by
  have h : Yields src (failSince (offset src s) fault : Scanner β) s _ :=
    yields_failSince hs (List.suffix_refl s)
  rwa [Parser.failSince, if_neg (Nat.lt_irrefl _)] at h

theorem yields_fail {fault : SyntaxFault} :
    Yields src (fail fault : Scanner β) s (Parser.fail fault s) := fun hs ↦
  yields_position_bind (yields_failSince_self hs) hs

theorem yields_expect {c : Char} {fault : SyntaxFault} :
    Yields src (expect c fault) s (Parser.expect c fault s) := by
  refine yields_accept.bind fun b _ _ _ ↦ ?_
  cases b with
  | true => exact yields_pure
  | false => exact yields_fail

theorem yields_notice {start : List Char} :
    Yields src (notice (offset src start)) s (Parser.notice start s) := by
  intro _
  refine ⟨by simp [notice], by simp [notice], rfl, fun e h ↦ ?_, fun a r h ↦ ?_⟩
  · cases h
  · cases h
    exact ⟨rfl, List.suffix_refl _, by simp [notice]⟩

/-! ### Loops -/

/-- What holds of each round, if it holds of what comes after it where a round leaves less of the
text, holds of a loop. -/
theorem yields_loop {round : σ → Scanner (Round σ α)} {motive : σ → List Char → Scanner α → Prop}
    (step : ∀ {next : σ → Scanner α} {state s},
      (∀ {state' r}, r.length < s.length → motive state' r (next state')) →
        motive state s (round state >>= proceed next))
    {state : σ} {y : Reading α} (h : ∀ {q : Scanner α}, motive state s q → Yields src q s y) :
    Yields src (loop round state) s y := by
  have hiterate (bound : Nat) (state : σ) (s : List Char) (hbound : s.length < bound) :
      motive state s (iterate round bound state) := by
    induction bound generalizing state s with
    | zero => exact absurd hbound (Nat.not_lt_zero _)
    | succ bound ih => exact step fun hr ↦ ih _ _ (by omega)
  intro hs
  have hlength := Nat.le_trans hs.length_le (length_le_byteSize src)
  exact yields_source_bind (h (hiterate _ state s (Nat.lt_succ_of_le hlength))) hs

end SelectorAlgebra.Scanner

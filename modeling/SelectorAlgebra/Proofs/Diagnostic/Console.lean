import SelectorAlgebra.Diagnostic.Console
import Mathlib.Data.List.Basic
import Mathlib.Data.List.Induction

/-!
# What a console shows

A run of a console is a sequence of calls. The console tells warnings apart by one text, in which
`@` stands between the message and the place. Main statement: a warning is passed over exactly if,
since the console was last cleared, there has been one with the same message and the same place, or
one with another message and another place that make up the same text. Messages for those who look
for errors are always shown and change nothing.
-/

namespace SelectorAlgebra

namespace Warning

/-- The place that is shown with a warning. -/
def place? (w : Warning) : Option String :=
  w.span.map Span.place

/-- Whether two warnings are shown with the same message and the same place. -/
def Alike (v w : Warning) : Prop :=
  v.message = w.message ∧ v.place? = w.place?

/-- Whether the `@` behind the message of a warning stands inside the place of another, and the two
warnings make up the same text. -/
def Clash (v w : Warning) : Prop :=
  ∃ p q x, (v.place? = some p ∧ w.place? = some q) ∧
    v.message = w.message ++ "@" ++ x ∧ q = x ++ "@" ++ p

end Warning

/-- A place ends with the digits of its column. -/
theorem Span.exists_place_eq (s : Span) :
    ∃ front c, s.place.toList = front ++ [c] ∧ c ≠ '@' := by
  obtain ⟨digits, c, hd⟩ :=
    (List.eq_nil_or_concat' (Nat.toDigits 10 (s.start.column + 1))).resolve_left
      Nat.toDigits_ne_nil
  have hc : c.isDigit = true :=
    Nat.isDigit_of_mem_toDigits (by decide) (by decide)
      (hd ▸ List.mem_append_right _ (List.mem_singleton_self c))
  refine ⟨(s.url.getD "-" ++ ":" ++ toString (s.start.line + 1) ++ ":").toList ++ digits, c, ?_, ?_⟩
  · rw [place, String.toList_append, Nat.toString_eq_repr (n := s.start.column + 1),
      Nat.toList_repr, hd, List.append_assoc]
  · rintro rfl
    cases hc

namespace Console

/-- Where two texts with a mark in them agree, the marks stand at the same place, or the front of
one goes on with the back of the other. -/
private theorem append_at_eq_iff {m n p q : List Char} :
    m ++ '@' :: p = n ++ '@' :: q ↔
      (m = n ∧ p = q) ∨ (∃ x, m = n ++ '@' :: x ∧ q = x ++ '@' :: p) ∨
        ∃ x, n = m ++ '@' :: x ∧ p = x ++ '@' :: q := by
  rw [List.append_eq_append_iff]
  constructor
  · rintro (⟨x, rfl, h⟩ | ⟨x, rfl, h⟩)
    · cases x with
      | nil => exact .inl ⟨by simp, by simpa using h⟩
      | cons c x =>
        obtain ⟨rfl, rfl⟩ := List.cons.inj h
        exact .inr (.inr ⟨x, rfl, rfl⟩)
    · cases x with
      | nil => exact .inl ⟨by simp, by simpa using h.symm⟩
      | cons c x =>
        obtain ⟨rfl, rfl⟩ := List.cons.inj h
        exact .inr (.inl ⟨x, rfl, rfl⟩)
  · rintro (⟨rfl, rfl⟩ | ⟨x, rfl, rfl⟩ | ⟨x, rfl, rfl⟩)
    · exact .inl ⟨[], by simp⟩
    · exact .inr ⟨'@' :: x, rfl, rfl⟩
    · exact .inl ⟨'@' :: x, rfl, rfl⟩

/-- A text that ends with `@` is no text with a place at its end. -/
private theorem append_at_ne_place (m n : List Char) (s : Span) :
    m ++ ['@'] ≠ n ++ '@' :: s.place.toList := by
  obtain ⟨front, c, hs, hc⟩ := s.exists_place_eq
  rw [hs, ← List.cons_append, ← List.append_assoc]
  intro h
  exact hc (List.singleton_inj.1 (List.append_inj' h rfl).2).symm

theorem toList_key (w : Warning) :
    (key w).toList = w.message.toList ++ '@' :: (w.place?.getD "").toList := by
  simp [key, Warning.place?]

/-- The console takes two warnings for one exactly if they are alike or clash. -/
theorem key_eq_key_iff {v w : Warning} : key v = key w ↔ v.Alike w ∨ v.Clash w ∨ w.Clash v := by
  rw [← String.toList_inj, toList_key, toList_key]
  obtain ⟨m, s, _⟩ := v
  obtain ⟨n, t, _⟩ := w
  cases s with
  | none =>
    cases t with
    | none => simp [Warning.Alike, Warning.Clash, Warning.place?, String.toList_inj]
    | some t => simpa [Warning.Alike, Warning.Clash, Warning.place?] using append_at_ne_place _ _ t
  | some s =>
    cases t with
    | none =>
      simpa [Warning.Alike, Warning.Clash, Warning.place?] using (append_at_ne_place _ _ s).symm
    | some t =>
      have hclash {m n p q : String} : (∃ x, m.toList = n.toList ++ '@' :: x ∧
          q.toList = x ++ '@' :: p.toList) ↔ ∃ x, m = n ++ "@" ++ x ∧ q = x ++ "@" ++ p := by
        constructor
        · rintro ⟨x, hm, hq⟩
          exact ⟨String.ofList x, by simp [← String.toList_inj, hm],
            by simp [← String.toList_inj, hq]⟩
        · rintro ⟨x, rfl, rfl⟩
          exact ⟨x.toList, by simp, by simp⟩
      simp only [Warning.place?, Option.map_some, Option.getD_some, append_at_eq_iff, hclash,
        String.toList_inj]
      simp only [Warning.Alike, Warning.Clash, Warning.place?, Option.map_some, Option.some.injEq,
        exists_and_left, exists_eq_left', and_assoc]

/-! ### Runs -/

/-- What a console is asked to do. -/
inductive Call where
  | warn (w : Warning)
  | debug (message : String) (span : Option Span)
  | clear

/-- Whether a call is a message for those who look for errors. -/
def Call.isDebug : Call → Bool
  | .debug _ _ => true
  | _ => false

/-- The console after a call and the text that it writes. -/
def step (c : Console) : Call → Console × String
  | .warn w => c.warn w
  | .debug message span => (c, debug message span)
  | .clear => (c.clear, "")

/-- The console after calls. -/
def after (c : Console) (calls : List Call) : Console :=
  calls.foldl (fun c call ↦ (c.step call).1) c

/-- Calls in order, each with the text that is written for it. -/
def transcript (c : Console) : List Call → List (Call × String)
  | [] => []
  | call :: calls => (call, (c.step call).2) :: transcript (c.step call).1 calls

/-- Whether a warning is among the calls since the console was last cleared. -/
def Warned (calls : List Call) (v : Warning) : Prop :=
  ∃ earlier later, calls = earlier ++ .warn v :: later ∧ .clear ∉ later

theorem not_warned_nil (v : Warning) : ¬ Warned [] v := by
  rintro ⟨earlier, later, h, -⟩
  simp at h

theorem warned_concat_iff {calls : List Call} {call : Call} {v : Warning} :
    Warned (calls ++ [call]) v ↔ call = .warn v ∨ (call ≠ .clear ∧ Warned calls v) := by
  constructor
  · rintro ⟨earlier, later, h, hclear⟩
    rcases List.eq_nil_or_concat' later with rfl | ⟨later, last, rfl⟩
    · exact .inl (List.singleton_inj.1 (List.append_inj' h rfl).2)
    · rw [← List.cons_append, ← List.append_assoc] at h
      obtain ⟨rfl, hlast⟩ := List.append_inj' h rfl
      obtain rfl := List.singleton_inj.1 hlast
      simp only [List.mem_append, List.mem_singleton, not_or] at hclear
      exact .inr ⟨Ne.symm hclear.2, earlier, later, rfl, hclear.1⟩
  · rintro (rfl | ⟨hclear, earlier, later, rfl, hlater⟩)
    · exact ⟨calls, [], rfl, List.not_mem_nil⟩
    · exact ⟨earlier, later ++ [call], by simp, by simp [hlater, Ne.symm hclear]⟩

theorem after_concat (c : Console) (calls : List Call) (call : Call) :
    c.after (calls ++ [call]) = ((c.after calls).step call).1 := by
  simp [after]

theorem mem_seen_step_iff {c : Console} {call : Call} {k : String} :
    k ∈ (c.step call).1.seen ↔
      (∃ v, call = .warn v ∧ key v = k) ∨ (call ≠ .clear ∧ k ∈ c.seen) := by
  cases call with
  | warn w =>
    simp only [step, warn, List.contains_iff_mem]
    split
    · next h => simpa using fun hk ↦ hk ▸ h
    · simp [eq_comm]
  | debug message span => simp [step]
  | clear => simp [step, clear]

/-- The console keeps the keys of the warnings since it was last cleared. -/
theorem mem_seen_after_iff {colour : Bool} {calls : List Call} {k : String} :
    k ∈ (after ⟨colour, []⟩ calls).seen ↔ ∃ v, Warned calls v ∧ key v = k := by
  induction calls using List.reverseRecOn with
  | nil => simp [after, not_warned_nil]
  | append_singleton calls call ih =>
    rw [after_concat, mem_seen_step_iff, ih]
    simp only [warned_concat_iff]
    grind

theorem getElem?_transcript (c : Console) (before later : List Call) (call : Call) :
    (transcript c (before ++ call :: later))[before.length]? =
      some (call, ((c.after before).step call).2) := by
  induction before generalizing c with
  | nil => rfl
  | cons first before ih => exact ih (c.step first).1

theorem render_ne_empty (colour : Bool) (w : Warning) : render colour w ≠ "" := by
  simp [render]

theorem transcript_filter (c : Console) (calls : List Call) :
    (transcript c calls).filter (fun x ↦ !x.1.isDebug) =
      transcript c (calls.filter fun call ↦ !call.isDebug) := by
  induction calls generalizing c with
  | nil => rfl
  | cons call calls ih =>
    cases call with
    | debug message span => simpa [transcript, Call.isDebug, step] using ih c
    | warn _ | clear =>
      rw [transcript, List.filter_cons_of_pos rfl, List.filter_cons_of_pos rfl, transcript, ih]

/-- On a console that has shown nothing, a warning is passed over exactly if since the console was
last cleared there has been one that is alike or clashes with it. Other messages are always shown,
and what else is shown does not depend on them. -/
theorem transcript_shows_once (colour : Bool) (before later : List Call) :
    (∀ w, (transcript ⟨colour, []⟩ (before ++ .warn w :: later))[before.length]? =
        some (.warn w, "") ↔ ∃ v, Warned before v ∧ (v.Alike w ∨ v.Clash w ∨ w.Clash v)) ∧
      (∀ message span, ∃ text, text ≠ "" ∧
        (transcript ⟨colour, []⟩ (before ++ .debug message span :: later))[before.length]? =
          some (.debug message span, text)) ∧
      (transcript ⟨colour, []⟩ (before ++ later)).filter (fun x ↦ !x.1.isDebug) =
        transcript ⟨colour, []⟩ ((before ++ later).filter fun call ↦ !call.isDebug) := by
  refine ⟨fun w ↦ ?_, fun message span ↦ ⟨debug message span, ?_, ?_⟩, transcript_filter _ _⟩
  · rw [getElem?_transcript]
    have hseen : ((after ⟨colour, []⟩ before).warn w).2 = "" ↔
        key w ∈ (after ⟨colour, []⟩ before).seen := by
      simp only [warn, List.contains_iff_mem]
      split <;> simp_all [render_ne_empty]
    simp only [step, Option.some.injEq, Prod.mk.injEq, true_and, hseen, mem_seen_after_iff,
      key_eq_key_iff]
  · cases span <;> simp [debug]
  · rw [getElem?_transcript]
    rfl

/-- A warning can be passed over though its message has not been shown and neither has its place:
`a` at `x@y:1:1` is taken for `a@x` at `y:1:1`. -/
theorem not_transcript_shows_once :
    ¬ ∀ (colour : Bool) (before later : List Call) (w : Warning),
      (transcript ⟨colour, []⟩ (before ++ .warn w :: later))[before.length]? =
        some (.warn w, "") ↔ ∃ v, Warned before v ∧ v.Alike w := by
  intro h
  let shown : Warning := ⟨"a", some (Span.ofOffsets ['s'] (some "x@y") 0 1), false⟩
  let passed : Warning := ⟨"a@x", some (Span.ofOffsets ['s'] (some "y") 0 1), false⟩
  have hpassed : (transcript ⟨false, []⟩ ([.warn shown] ++ .warn passed :: []))[1]? =
      some (.warn passed, "") := by
    rw [show 1 = [Call.warn shown].length from rfl, getElem?_transcript]
    have hkey : key passed = key shown := by decide +kernel
    simp [after, step, warn, hkey]
  obtain ⟨v, hv, halike⟩ := (h false [.warn shown] [] passed).1 hpassed
  rw [← List.nil_append [Call.warn shown], warned_concat_iff] at hv
  rcases hv with hv | ⟨-, hv⟩
  · cases hv
    exact absurd halike.1 (by decide)
  · exact not_warned_nil v hv

end Console

end SelectorAlgebra

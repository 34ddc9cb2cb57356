import SelectorAlgebra.Proofs.Excerpt.Scanning
import SelectorAlgebra.Proofs.Parser.Progress

/-!
# Reading with more text behind

Another text is put behind a text, which starts with a comma or a closing parenthesis if it is not
empty. What is read from the text by itself is read in the same way from both. There is one rule for
each way to build a parser. Main statement: the rule for a sequence, in which what the first parser
leaves has to be what it may leave.
-/

namespace SelectorAlgebra.Parser

open Text

variable {α β : Type} {r s t u : List Char} {ok : List Char → Prop}

/-- Whether blanks at the end of a text stop in front of `r`, wherever they start. -/
def BlanksStop (r s : List Char) : Prop :=
  ∀ u, u <:+ s → dropBlanks (u ++ r) = dropBlanks u ++ r

/-- Whether what `p` reads from a text is read by `q` with `r` behind the text, if what is left of
the text may be left. -/
def Extends (r : List Char) (ok : List Char → Prop) (p q : Parser α) (s : List Char) : Prop :=
  BlanksStop r s → ∀ a t, Reads p s a t → t <:+ s ∧ (ok t → Reads q (s ++ r) a (t ++ r))

theorem BlanksStop.suffix (h : BlanksStop r s) (ht : t <:+ s) : BlanksStop r t :=
  fun u hu ↦ h u (hu.trans ht)

theorem blanksStop_nil (s : List Char) : BlanksStop [] s := by
  intro u _
  rw [List.append_nil, List.append_nil]

theorem dropBlanks_append_of_isBlank (hs : ∀ c ∈ s, isBlank c = true) (t : List Char) :
    dropBlanks (s ++ t) = dropBlanks t := by
  induction s with
  | nil => rfl
  | cons c s ih =>
    rw [List.forall_mem_cons] at hs
    rw [List.cons_append, dropBlanks_cons_of_isBlank hs.1, ih hs.2]

/-- Blanks stop in front of a comma, unless they are a comment that takes it in. -/
theorem blanksStop_of_isCommentFree (hs : IsCommentFree s) (hr : StartsWithin complexEnds r) :
    BlanksStop r s := by
  intro u hu
  by_cases hu' : dropBlanks u = []
  · have hblank : ∀ c ∈ u, isBlank c = true := by
      rw [dropBlanks_of_isCommentFree (hs.part hu.isInfix)] at hu'
      exact List.dropWhile_eq_nil_iff.1 hu'
    rw [hu', List.nil_append, dropBlanks_append_of_isBlank hblank,
      dropBlanks_of_startsTight hr.startsTight]
  · exact dropBlanks_append hu' hr.not_star

/-! ### Scanning -/

/-- A name ends where it did. -/
theorem dropName_extend (hr : StartsWithin complexEnds r) (h : dropName s = some t) :
    dropName (s ++ r) = some (t ++ r) := by
  fun_induction dropName s with
  | case1 =>
    cases h
    exact dropName_of_endsName hr.endsName_of_complexEnds
  | case2 c s hc ih =>
    rw [List.cons_append, dropName_cons hc]
    exact ih h
  | case3 => cases h
  | case4 c s hc hb u hu _ ih =>
    obtain ⟨rfl, hs⟩ : c = '\\' ∧ s.head? ≠ some '\n' := by simpa using hb
    rw [List.cons_append,
      dropName_escape (hr.head?_append_ne hs (by decide)) (dropEscape_append_of_startsWithin hr hu)]
    exact ih h
  | case5 c s hc hb =>
    cases h
    have hb : ¬ (c == '\\' && (s ++ r).head? != some '\n') = true := by
      cases s with
      | nil =>
        have hc : c ≠ '\\' := by simpa using hb
        simp [hc]
      | cons d s => exact hb
    rw [List.cons_append, dropName, if_neg hc, if_neg hb]

/-- Indices that end in front of the end of a text end there. -/
theorem dropIndices_extend (hr : StartsWithin complexEnds r) {stop : List Char}
    (h : (dropIndices stop s).rest ≠ []) :
    dropIndices (stop ++ r) (s ++ r) = ⟨(dropIndices stop s).stop ++ r,
      (dropIndices stop s).rest ++ r, (dropIndices stop s).ofList⟩ := by
  fun_induction dropIndices stop s with
  | case1 stop => exact absurd rfl h
  | case2 stop s => rw [List.cons_append, dropIndices_close]
  | case3 stop c s hclose hc hle hof =>
    have hs : dropBlanks s ≠ [] := fun hs ↦ by simp [hs, startsOf] at hof
    rw [List.cons_append, dropIndices_blank hc, dropBlanks_append hs hr.not_star,
      startsOf_append_of_complexEnds hr hs, if_pos hof,
      List.drop_append_of_le_length (length_of_startsOf hof)]
  | case4 stop c s hclose hc hle hof ih =>
    have hs : dropBlanks s ≠ [] := fun hs ↦ by simp [hs, dropIndices] at h
    rw [List.cons_append, dropIndices_blank hc, dropBlanks_append hs hr.not_star,
      startsOf_append_of_complexEnds hr hs, if_neg hof]
    exact ih h
  | case5 stop c s hclose hc ih =>
    rw [List.cons_append, dropIndices_cons hclose (by simpa using hc)]
    exact ih h

namespace Extends

variable {p q : Parser α}

theorem of_not_reads (h : ∀ a t, ¬ Reads p s a t) : Extends r ok p q s :=
  fun _ a t ht ↦ absurd ht (h a t)

theorem pure {a : α} : Extends r ok (pure a) (pure a) s := by
  intro _ b t h
  obtain ⟨rfl, rfl⟩ := reads_pure_iff.1 h
  exact ⟨List.suffix_refl s, fun _ ↦ reads_pure_iff.2 ⟨rfl, rfl⟩⟩

theorem fail {fault : SyntaxFault} : Extends r ok (fail fault) q s :=
  of_not_reads fun _ _ ↦ not_reads_fail

/-- What comes first has to leave what it may, and it does where what comes next would not end as it
may if it did not. -/
theorem bind_within {first : List Char → Prop} {f g : α → Parser β} (hp : Extends r first p q s)
    (hf : ∀ a u, Reads p s a u → u <:+ s → Extends r ok (f a) (g a) u)
    (hfirst : ∀ a u b t, Reads (f a) u b t → ok t → first u) :
    Extends r ok (p >>= f) (q >>= g) s := by
  intro hs b t h
  obtain ⟨a, u, ha, hb⟩ := reads_bind_iff.1 h
  obtain ⟨hu, hread⟩ := hp hs a u ha
  obtain ⟨ht, hmore⟩ := hf a u ha hu (hs.suffix hu) b t hb
  refine ⟨ht.trans hu, fun hok ↦ reads_bind_iff.2 ⟨a, u ++ r, ?_, hmore hok⟩⟩
  exact hread (hfirst a u b t hb hok)

/-- A sequence goes on with what its first parser leaves, whatever that is. -/
theorem bind_reads {f g : α → Parser β} (hp : Extends r (fun _ ↦ True) p q s)
    (hf : ∀ a u, Reads p s a u → u <:+ s → Extends r ok (f a) (g a) u) :
    Extends r ok (p >>= f) (q >>= g) s :=
  hp.bind_within hf fun _ _ _ _ _ _ ↦ trivial

theorem bind {f g : α → Parser β} (hp : Extends r (fun _ ↦ True) p q s)
    (hf : ∀ a u, u <:+ s → Extends r ok (f a) (g a) u) : Extends r ok (p >>= f) (q >>= g) s :=
  hp.bind_reads fun a u _ ↦ hf a u

/-- What is made of a value does not matter. -/
theorem bind_pure {f : α → β} (hp : Extends r ok p q s) :
    Extends r ok (p >>= fun a ↦ Pure.pure (f a)) (q >>= fun a ↦ Pure.pure (f a)) s := by
  refine hp.bind_within (fun _ _ _ _ ↦ .pure) fun a u b t h hok ↦ ?_
  obtain ⟨-, rfl⟩ := reads_pure_iff.1 h
  exact hok

theorem rest_bind {f g : List Char → Parser β} (h : Extends r ok (f s) (g (s ++ r)) s) :
    Extends r ok (rest >>= f) (rest >>= g) s := h

theorem goTo_bind {f g : Unit → Parser β} (hu : u <:+ s) (h : Extends r ok (f ()) (g ()) u) :
    Extends r ok (goTo u >>= f) (goTo (u ++ r) >>= g) s := by
  intro hs b t ht
  obtain ⟨hsuffix, hread⟩ := h (hs.suffix hu) b t (reads_goTo_bind_iff.1 ht)
  exact ⟨hsuffix.trans hu, fun hok ↦ reads_goTo_bind_iff.2 (hread hok)⟩

theorem blanks : Extends r ok blanks blanks s := by
  intro hs a t h
  cases h
  refine ⟨dropBlanks_suffix s, fun _ ↦ ?_⟩
  rw [← hs s (List.suffix_refl s)]
  rfl

theorem accept {c : Char} (hr : StartsWithin complexEnds r) (hc : c ∉ complexEnds) :
    Extends r ok (accept c) (accept c) s := by
  intro _ b t h
  rw [reads_accept_iff] at h ⊢
  cases b with
  | true =>
    obtain rfl : s = c :: t := h
    exact ⟨List.suffix_cons c t, fun _ ↦ rfl⟩
  | false =>
    obtain ⟨hs, rfl⟩ : s.head? ≠ some c ∧ s = t := h
    exact ⟨List.suffix_refl s, fun _ ↦ ⟨hr.head?_append_ne hs hc, rfl⟩⟩

theorem expect {c : Char} {fault : SyntaxFault} :
    Extends r ok (expect c fault) (expect c fault) s := by
  intro _ b t h
  obtain rfl : s = c :: t := by simpa [Parser.expect] using h
  exact ⟨List.suffix_cons c t, fun _ ↦ by simp [Parser.expect]⟩

theorem nameChars (hr : StartsWithin complexEnds r) : Extends r ok nameChars nameChars s := by
  intro _ n t h
  obtain ⟨ht, rfl⟩ := reads_nameChars_iff.1 h
  refine ⟨dropName_suffix ht, fun _ ↦ reads_nameChars_iff.2 ⟨dropName_extend hr ht, ?_⟩⟩
  rw [List.append_assoc]

theorem name (hr : StartsWithin complexEnds r) : Extends r ok name name s := by
  intro _ n t h
  obtain ⟨hstarts, ht, rfl⟩ := reads_name_iff.1 h
  refine ⟨dropName_suffix ht, fun _ ↦ reads_name_iff.2
    ⟨startsName_append hstarts r, dropName_extend hr ht, ?_⟩⟩
  rw [List.append_assoc]

theorem quoted : Extends r ok quoted quoted s := by
  intro _ v t h
  obtain ⟨q, u, rfl, hread⟩ := reads_quoted_iff.1 h
  refine ⟨(readQuoted_suffix hread).1.trans (List.suffix_cons q u), fun _ ↦ ?_⟩
  obtain ⟨w, rfl, hw, -⟩ := exists_of_readQuoted hread
  exact reads_quoted_iff.2 ⟨q, w ++ q :: (t ++ r), by simp, hw (t ++ r)⟩

theorem rawArgument : Extends r ok rawArgument rawArgument s := by
  intro _ a t h
  obtain ⟨ht, ha⟩ := reads_rawArgument_iff.1 h
  obtain ⟨w, u, rfl, rfl, hw⟩ := dropArgument_append ht
  have hsuffix : ')' :: u <:+ w ++ ')' :: u := List.suffix_append w _
  refine ⟨hsuffix, fun _ ↦ reads_rawArgument_iff.2 ⟨?_, ?_⟩⟩
  · rw [List.append_assoc]
    exact hw (u ++ r)
  · rw [Stretch.chars_append_right hsuffix]
    exact ha

end Extends

end SelectorAlgebra.Parser

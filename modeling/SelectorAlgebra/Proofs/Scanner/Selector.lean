import SelectorAlgebra.Parser.Selector
import SelectorAlgebra.Proofs.Scanner.Simple
import SelectorAlgebra.Scanner.Selector

/-!
# What scanners of selectors yield

Main statement: a selector that is the whole text is scanned as the parser of such a text reads it,
so that no slice is out of range, no loop runs on, and what is given and reported is the same.
-/

namespace SelectorAlgebra.Scanner

open Text

attribute [local instance] Parser.lawfulMonad

variable {src s t r : List Char}

/-! ### Drafts of complex selectors -/

namespace Draft

/-- A part is put at the end. -/
def add (d : Draft) : Part → Draft
  | .combinator k => d.addCombinator k
  | .compound c => d.addCompound c

/-- The complex selector of what has been taken. -/
def toComplex (d : Draft) (lineBreak : Bool) : Complex :=
  ⟨d.leading, d.path, lineBreak⟩

/-- Whether a compound selector may not be put right behind the draft. -/
def adjacent (d : Draft) : Bool :=
  d.last.isSome && d.combinators.isEmpty

/-- Whether nothing follows the leading combinators of a draft without a compound selector. -/
def IsTight (d : Draft) : Prop :=
  d.last = none → d.components = [] ∧ d.combinators = []

theorem isTight_add (d : Draft) (x : Part) (hd : d.IsTight) : (d.add x).IsTight := by
  cases x with
  | combinator k =>
    cases hlast : d.last with
    | none => simpa [add, addCombinator, IsTight, hlast] using hd hlast
    | some l => simp [add, addCombinator, IsTight, hlast]
  | compound c => cases hlast : d.last <;> simp [add, addCompound, IsTight, hlast]

theorem adjacent_addCombinator {d : Draft} {k : Combinator} :
    (d.addCombinator k).adjacent = false := by
  cases hlast : d.last <;> simp [addCombinator, adjacent, hlast]

theorem adjacent_addCompound {d : Draft} {c : Compound} (hd : d.IsTight) :
    (d.addCompound c).adjacent = true := by
  cases hlast : d.last with
  | none => simp [addCompound, adjacent, hlast, (hd hlast).2]
  | some l => simp [addCompound, adjacent, hlast]

/-- A part that is put at the end is the last part of the complex selector. -/
theorem word_add {d : Draft} (hd : d.IsTight) (x : Part) (lineBreak : Bool) :
    ((d.add x).toComplex lineBreak).word = (d.toComplex lineBreak).word ++ [x] := by
  cases x with
  | combinator k =>
    cases hlast : d.last with
    | none =>
      simp [add, addCombinator, toComplex, Complex.word, path, hlast, (hd hlast).1]
    | some l => simp [add, addCombinator, toComplex, Complex.word, path, hlast]
  | compound c =>
    cases hlast : d.last with
    | none => simp [add, addCompound, toComplex, Complex.word, path, hlast, (hd hlast)]
    | some l => simp [add, addCompound, toComplex, Complex.word, path, hlast]

theorem word_foldl_add {d : Draft} (hd : d.IsTight) (w : List Part) (lineBreak : Bool) :
    ((w.foldl add d).toComplex lineBreak).word = (d.toComplex lineBreak).word ++ w := by
  induction w generalizing d with
  | nil => rw [List.foldl_nil, List.append_nil]
  | cons x w ih =>
    rw [List.foldl_cons, ih (isTight_add d x hd), word_add hd, List.append_assoc]
    rfl

/-- Parts that are put one behind the other make the complex selector of these parts. -/
theorem toComplex_foldl_add (w : List Part) (lineBreak : Bool) :
    (w.foldl add {}).toComplex lineBreak = Complex.ofWord w lineBreak := by
  have hword := @word_foldl_add {} (fun _ ↦ ⟨rfl, rfl⟩) w lineBreak
  rw [← Complex.ofWord_word ((w.foldl add {}).toComplex lineBreak), hword]
  rfl

end Draft

/-! ### Complex selectors -/

theorem yields_startsCompound {c : Char} : Yields src (startsCompound c) (c :: s)
    ⟨[], .ok (Parser.startsCompound (c :: s), c :: s)⟩ := by
  rw [startsCompound, Parser.startsCompound]
  split
  · next hc =>
    rw [decide_eq_true hc, Bool.true_or]
    exact yields_pure
  · next hc =>
    rw [decide_eq_false hc, Bool.false_or]
    exact yields_startsName

/-- Something stands between compound selectors where the offset has grown or there is a
combinator. -/
theorem separated_iff {d : Draft} (hs : s <:+ src) (ht : t <:+ s) :
    (d.last.isNone || (decide (offset src s < offset src t) || !d.combinators.isEmpty)) =
      (!d.adjacent || decide (t.length < s.length)) := by
  have hmove : decide (offset src s < offset src t) = decide (t.length < s.length) :=
    decide_eq_decide.2 (offset_lt_iff hs ht)
  rw [hmove, Draft.adjacent]
  cases d.last <;> cases d.combinators.isEmpty <;> simp

/-- The end of a complex selector, from what has been taken since a place. -/
def finish (start : List Char) (lineBreak : Bool) (d : Draft) : Parser Complex :=
  if d.leading.isEmpty && d.path.isEmpty then Parser.failSince start .expectedSelector
  else do
    let c := d.toComplex lineBreak
    if c.hasMultipleCombinators then Parser.notice start
    return c

theorem finish_foldl_add (w : List Part) (lineBreak : Bool) :
    finish s lineBreak (w.foldl Draft.add {}) =
      if w.isEmpty then Parser.failSince s .expectedSelector
      else do
        let c := Complex.ofWord w lineBreak
        if c.hasMultipleCombinators then Parser.notice s
        return c := by
  have hword := Draft.toComplex_foldl_add w lineBreak
  have hempty : ((w.foldl Draft.add {}).leading.isEmpty && (w.foldl Draft.add {}).path.isEmpty) =
      w.isEmpty := by
    have hleading := congrArg Complex.leading hword
    have hpath := congrArg Complex.components hword
    dsimp only [Draft.toComplex] at hleading hpath
    rw [hleading, hpath]
    cases w with
    | nil => rfl
    | cons x w => cases x <;> rfl
  rw [finish, hempty, hword]

/-! ### Selector lists -/

/-- What is left of a list: a member and those behind it, with the members before them in front. -/
def remainingMembers (allow : Allowance) (nested : Parser SelectorList)
    (state : SelectorList × Bool) (n : List Char → Nat) : Parser SelectorList := do
  let c ← Parser.complex allow nested state.2
  let t ← Parser.rest
  return state.1 ++ c :: (← Parser.moreMembers allow nested (n t))

section Nested

variable {allow : Allowance} {nested : Scanner SelectorList} {nested' : Parser SelectorList}
  {bound : Nat} (hnested : ∀ s : List Char, s.length < bound → Yields src nested s (nested' s))
  (hstays : ∀ text s, Parser.Stays text nested' s)

include hnested hstays

/-- A further simple selector is taken where the parser takes one. -/
theorem yields_compoundRound {simples : Compound} {next : Compound → Scanner Compound} {n : Nat}
    (hs : s.length ≤ bound) (hn : s.length ≤ n)
    (ih : ∀ simples r n, r.length < s.length → r.length ≤ n → Yields src (next simples) r
      ((do return simples ++ (← Parser.moreSimples allow nested' n)) r)) :
    Yields src (compoundRound allow nested simples >>= proceed next) s
      ((do return simples ++ (← Parser.moreSimples allow nested' n)) s) := by
  rw [compoundRound, bind_assoc]
  refine yields_peek.andThen fun _ ↦ ?_
  cases n with
  | zero =>
    obtain rfl := List.length_eq_zero_iff.1 (Nat.le_zero.1 hn)
    rw [Parser.moreSimples, pure_bind, List.append_nil]
    exact yields_pure
  | succ n =>
    have hmore : (s.head?.any fun c ↦ c ∈ ['[', '.', '#', '%', ':', '&']) =
        Parser.continuesCompound s := by cases s <;> rfl
    rw [Parser.moreSimples, bind_assoc, Parser.rest_bind_apply, hmore]
    split
    · simp only [bind_assoc, pure_bind]
      refine (yields_simple hnested hs).bind fun x r hx _ ↦ ?_
      have hlength := Parser.length_lt_of_reads_simple hstays hx
      have hnext := ih (simples ++ [x]) r n hlength (by omega)
      simpa only [proceed, List.append_assoc, List.singleton_append] using hnext
    · rw [pure_bind, pure_bind, List.append_nil]
      exact yields_pure

theorem yields_compound (hs : s.length ≤ bound) :
    Yields src (compound allow nested) s (Parser.compound allow nested' s) := by
  refine (yields_simple hnested hs).bind fun x r _ hr ↦ ?_
  have hloop {n : Nat} (hn : r.length ≤ n) : Yields src (loop (compoundRound allow nested) [x]) r
      ((do return [x] ++ (← Parser.moreSimples allow nested' n)) r) :=
    yields_loop (motive := fun simples s q ↦ s.length ≤ bound → ∀ n, s.length ≤ n → Yields src q s
        ((do return simples ++ (← Parser.moreSimples allow nested' n)) s))
      (fun ih hs n hn ↦ yields_compoundRound hnested hstays hs hn fun _ _ n hr ↦
        ih hr (by omega) n)
      fun h ↦ h (Nat.le_trans hr.length_le hs) n hn
  rw [Parser.rest_bind_apply]
  exact hloop (Nat.le_refl _)

/-- A part of a complex selector is taken where the parser takes one. -/
theorem yields_complexRound {d : Draft} {next : Draft → Scanner Draft} {n : Nat}
    (hd : d.IsTight) (hs : s.length ≤ bound) (hn : s.length ≤ n)
    (ih : ∀ d r n, Draft.IsTight d → r.length < s.length → r.length ≤ n → Yields src (next d) r
      ((do return (← Parser.parts allow nested' n d.adjacent).foldl Draft.add d) r)) :
    Yields src (complexRound allow nested d >>= proceed next) s
      ((do return (← Parser.parts allow nested' n d.adjacent).foldl Draft.add d) s) := by
  intro hsrc
  rw [complexRound, bind_assoc]
  refine yields_position_bind ?_ hsrc
  rw [bind_assoc]
  refine yields_blanks.andThen fun ht ↦ ?_
  rw [bind_assoc]
  refine yields_position_bind ?_
  rw [bind_assoc, separated_iff hsrc ht]
  refine yields_peek.andThen fun _ ↦ ?_
  cases n with
  | zero =>
    obtain rfl := List.length_eq_zero_iff.1 (Nat.le_zero.1 hn)
    rw [Parser.parts, bind_assoc, Parser.blanks_bind_apply, dropBlanks, pure_bind]
    exact yields_pure
  | succ n =>
    rw [Parser.parts, bind_assoc, Parser.rest_bind_apply, bind_assoc, Parser.blanks_bind_apply,
      bind_assoc, Parser.rest_bind_apply]
    generalize dropBlanks s = t at ht
    cases t with
    | nil =>
      have hno : ((!d.adjacent || decide (([] : List Char).length < s.length)) &&
          Parser.startsCompound []) = false := Bool.and_false _
      simp only [List.head?_nil, Option.bind_none, hno, Bool.false_eq_true, if_false, pure_bind]
      exact yields_pure
    | cons c t =>
      have hlength := ht.length_le
      rw [List.length_cons] at hlength
      simp only [List.head?_cons, Option.bind_some]
      cases hk : Combinator.ofSymbol? c with
      | some k =>
        simp only [bind_assoc, pure_bind, List.tail_cons, List.foldl_cons]
        refine yields_bump.andThen fun _ ↦ ?_
        have hnext := ih (d.addCombinator k) t n (Draft.isTight_add d (.combinator k) hd)
          (by omega) (by omega)
        rw [Draft.adjacent_addCombinator] at hnext
        exact hnext
      | none =>
        cases !d.adjacent || decide ((c :: t).length < s.length) with
        | false =>
          simp only [Bool.false_and, Bool.false_eq_true, if_false, pure_bind]
          exact yields_pure
        | true =>
          simp only [Bool.true_and, if_true, bind_assoc]
          refine yields_startsCompound.andThen fun _ ↦ ?_
          split
          · simp only [bind_assoc, pure_bind, List.foldl_cons]
            have hbound := Nat.le_trans ht.length_le hs
            refine (yields_compound hnested hstays hbound).bind fun e r he _ ↦ ?_
            have hless := Parser.length_lt_of_reads_compound hstays he
            rw [List.length_cons] at hless
            have hnext := ih (d.addCompound e) r n (Draft.isTight_add d (.compound e) hd)
              (by omega) (by omega)
            rw [Draft.adjacent_addCompound hd] at hnext
            exact hnext
          · simp only [pure_bind]
            exact yields_pure

theorem yields_complexLoop (hs : s.length ≤ bound) :
    Yields src (loop (complexRound allow nested) {}) s
      ((do return (← Parser.parts allow nested' s.length false).foldl Draft.add {}) s) :=
  yields_loop (motive := fun d s q ↦ s.length ≤ bound → d.IsTight → ∀ n, s.length ≤ n →
      Yields src q s
        ((do return (← Parser.parts allow nested' n d.adjacent).foldl Draft.add d) s))
    (fun ih hs hd n hn ↦ yields_complexRound hnested hstays hd hs hn fun _ _ n hd hr ↦
      ih hr (by omega) hd n)
    fun h ↦ h hs (fun _ ↦ ⟨rfl, rfl⟩) s.length (Nat.le_refl _)

theorem yields_complex {lineBreak : Bool} (hs : s.length ≤ bound) :
    Yields src (complex allow nested lineBreak) s (Parser.complex allow nested' lineBreak s) := by
  intro hsrc
  refine yields_position_bind ?_ hsrc
  have hread : Parser.complex allow nested' lineBreak s =
      ((do return (← Parser.parts allow nested' s.length false).foldl Draft.add {} :
        Parser Draft) >>= finish s lineBreak) s := by
    rw [bind_assoc]
    refine congrArg (fun g ↦ (Parser.parts allow nested' s.length false >>= g) s) (funext fun w ↦ ?_)
    exact (finish_foldl_add w lineBreak).symm
  rw [hread]
  refine (yields_complexLoop hnested hstays hs).bind fun d r _ hr ↦ ?_
  unfold finish
  split
  · exact yields_failSince hsrc hr
  · change Yields src (do
      let c := d.toComplex lineBreak
      if c.hasMultipleCombinators then notice (offset src s)
      return c) r _
    dsimp only
    split
    · exact yields_notice.bind fun _ _ _ _ ↦ yields_pure
    · exact yields_pure

/-- A member of a list is taken, and another one behind a comma. -/
theorem yields_memberRound {state : SelectorList × Bool}
    {next : SelectorList × Bool → Scanner SelectorList} {n : List Char → Nat}
    (hs : s.length ≤ bound) (hn : ∀ r : List Char, r.length < s.length → r.length ≤ n r)
    (ih : ∀ (state : SelectorList × Bool) (r : List Char) (n : List Char → Nat),
      r.length < s.length → (∀ t : List Char, t.length < r.length → t.length ≤ n t) →
        Yields src (next state) r (remainingMembers allow nested' state n r)) :
    Yields src (memberRound allow nested state >>= proceed next) s
      (remainingMembers allow nested' state n s) := by
  rw [memberRound, bind_assoc]
  refine (yields_complex hnested hstays hs).bind fun c r hc _ ↦ ?_
  have hr := Parser.length_lt_of_reads_complex hstays hc
  rw [Parser.rest_bind_apply, bind_assoc]
  refine yields_blanks.andThen fun ht ↦ ?_
  rw [bind_assoc]
  cases hnr : n r with
  | zero =>
    obtain rfl := List.length_eq_zero_iff.1 (Nat.le_zero.1 (hnr ▸ hn r hr))
    rw [dropBlanks, Parser.moreMembers, pure_bind]
    exact yields_accept.andThen fun _ ↦ yields_pure
  | succ m =>
    rw [Parser.moreMembers, bind_assoc, Parser.blanks_bind_apply, bind_assoc]
    refine yields_accept.bind fun comma u hcomma _ ↦ ?_
    cases comma with
    | false => exact yields_pure
    | true =>
      simp only [if_true, bind_assoc, pure_bind]
      refine yields_blanks.andThen fun hu ↦ ?_
      have hdrop := ht.length_le
      rw [show dropBlanks r = ',' :: u by simpa using Parser.reads_accept_iff.1 hcomma,
        List.length_cons] at hdrop
      have hlength := hu.length_le
      have hbound := hn r hr
      have hnext := ih (state.1 ++ [c], blanksBreakLine u) (dropBlanks u) (fun _ ↦ m) (by omega)
        fun t htu ↦ by omega
      simp only [remainingMembers, List.append_assoc, List.singleton_append] at hnext
      exact hnext

theorem yields_members (ht : dropBlanks t = dropBlanks s) (hs : (dropBlanks s).length ≤ bound) :
    Yields src (members allow nested) s (Parser.members allow nested' t) := by
  refine yields_blanks.andThen fun _ ↦ ?_
  rw [Parser.members, Parser.blanks_bind_apply, ht]
  exact yields_loop (motive := fun state s q ↦ s.length ≤ bound → ∀ n : List Char → Nat,
      (∀ r : List Char, r.length < s.length → r.length ≤ n r) →
        Yields src q s (remainingMembers allow nested' state n s))
    (fun ih hs n hn ↦ yields_memberRound hnested hstays hs hn fun _ _ n hr ↦ ih hr (by omega) n)
    fun h ↦ h hs List.length fun _ _ ↦ Nat.le_refl _

end Nested

/-! ### Nested lists and whole texts -/

variable {allow : Allowance}

/-- Lists are scanned to a depth that the text has no room for, whatever that depth is. -/
theorem yields_list {depth depth' : Nat} (ht : dropBlanks t = dropBlanks s)
    (hdepth : (dropBlanks s).length < depth) (hdepth' : (dropBlanks s).length < depth') :
    Yields src (list allow depth) s (Parser.list allow depth' t) := by
  induction depth generalizing s t depth' with
  | zero => exact absurd hdepth (Nat.not_lt_zero _)
  | succ depth ih =>
    obtain ⟨depth', rfl⟩ := Nat.exists_eq_add_one.2 (Nat.zero_lt_of_lt hdepth')
    refine yields_members (fun u (hu : u.length < (dropBlanks s).length) ↦ ih rfl ?_ ?_)
      (fun _ _ ↦ Parser.stays_list depth') ht (Nat.le_refl _)
    all_goals
      have := (dropBlanks_suffix u).length_le
      omega

theorem yields_nestedList (ht : dropBlanks t = dropBlanks s) :
    Yields src (nestedList allow) s (Parser.nestedList allow t) := by
  intro hs
  have hsrc := Nat.le_trans hs.length_le (length_le_byteSize src)
  have hdrop := (dropBlanks_suffix s).length_le
  have hdrop' := (dropBlanks_suffix t).length_le
  rw [ht] at hdrop'
  exact yields_source_bind (yields_list ht (by omega) (by omega)) hs

/-- Behind what is read, both ask for the end of the text. -/
theorem yields_ending {α : Type} {a : α} : Yields src (do ending; return a) s ((do
    Parser.blanks
    match ← Parser.rest with
    | [] => return a
    | c :: _ => Parser.fail (.unexpected c)) s) := by
  rw [ending, bind_assoc, Parser.blanks_bind_apply, Parser.rest_bind_apply]
  refine yields_blanks.andThen fun _ ↦ ?_
  rw [bind_assoc]
  refine yields_peek.andThen fun _ ↦ ?_
  cases dropBlanks s with
  | nil => exact yields_pure
  | cons c r =>
    have hfail : Yields src (fail (.unexpected c) : Scanner Unit) (c :: r)
      ⟨[], .error ⟨.unexpected c, ⟨c :: r, r⟩⟩⟩ := yields_fail
    exact hfail.bind_error

theorem yields_whole {α : Type} {q : Scanner α} {p : Parser α}
    (hq : ∀ {s}, Yields src q s (p s)) : Yields src (whole q) s (Parser.whole p s) :=
  yields_blanks.andThen fun _ ↦ hq.bind fun _ _ _ _ ↦ yields_ending

/-- A list passes the blanks in front of it itself. -/
theorem yields_wholeList :
    Yields src (wholeList allow) s (Parser.whole (Parser.nestedList allow) s) := by
  rw [Parser.whole, Parser.blanks_bind_apply]
  exact (yields_nestedList (dropBlanks_dropBlanks s)).bind fun _ _ _ _ ↦ yields_ending

end SelectorAlgebra.Scanner

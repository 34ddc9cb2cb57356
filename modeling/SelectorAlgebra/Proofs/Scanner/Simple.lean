import SelectorAlgebra.Parser.Simple
import SelectorAlgebra.Proofs.Parser.Progress
import SelectorAlgebra.Proofs.Scanner.Text
import SelectorAlgebra.Scanner.Simple

/-!
# What scanners of simple selectors yield

Main statement: a simple selector is scanned as its parser reads it, if the selector lists in it
are.
-/

namespace SelectorAlgebra.Scanner

open Text

variable {src s r : List Char}

/-! ### Type selectors -/

theorem startsBar_iff : Parser.startsBar s = true ↔ ∃ t, s = '|' :: t ∧ t.head? ≠ some '=' := by
  unfold Parser.startsBar
  split
  · simp
  · next t h =>
    have hne : t.head? ≠ some '=' := fun ht ↦ by
      obtain ⟨u, rfl⟩ := List.head?_eq_some_iff.1 ht
      exact h u rfl
    simpa using hne
  · next h => simpa using fun t hs ↦ (h t hs).elim

theorem yields_startsBar : Yields src startsBar s ⟨[], .ok (Parser.startsBar s, s)⟩ := by
  refine yields_peek.andThen fun _ ↦ ?_
  split
  · next hbar =>
    obtain ⟨t, rfl⟩ := List.head?_eq_some_iff.1 hbar
    have hstarts : Parser.startsBar ('|' :: t) = (('|' :: t)[1]? != some '=') := by
      rw [Bool.eq_iff_iff, startsBar_iff]
      cases t <;> simp
    rw [hstarts]
    exact yields_peekAt.andThen fun _ ↦ yields_pure
  · next hbar =>
    have hno : Parser.startsBar s = false := by
      rw [← Bool.not_eq_true, startsBar_iff]
      rintro ⟨t, rfl, -⟩
      exact hbar rfl
    rw [hno]
    exact yields_pure

theorem yields_namespaced {ns : String} :
    Yields src (namespaced ns) s (Parser.namespaced ns s) := by
  refine yields_accept.bind fun b _ _ _ ↦ ?_
  cases b with
  | true => exact yields_pure
  | false => exact yields_name.bind fun _ _ _ _ ↦ yields_pure

/-- Behind a bar that ends a namespace, both go on after it. -/
theorem yields_bar {α : Type} {q q' : Scanner α} {p p' : Parser α}
    (hq : ∀ {t}, Yields src q t (p t)) (hq' : Yields src q' s (p' s)) :
    Yields src (do if ← startsBar then bump; q else q') s
      ((do
        let s ← Parser.rest
        if Parser.startsBar s then
          Parser.goTo s.tail
          p
        else p') s) := by
  refine yields_startsBar.andThen fun _ ↦ ?_
  rw [Parser.rest_bind_apply]
  split
  · next hbar =>
    obtain ⟨t, rfl, -⟩ := startsBar_iff.1 hbar
    exact yields_bump.andThen fun _ ↦ hq
  · exact hq'

theorem yields_typeSelector : Yields src typeSelector s (Parser.typeSelector s) := by
  refine yields_accept.bind fun star _ _ _ ↦ ?_
  cases star with
  | true =>
    refine yields_accept.bind fun bar _ _ _ ↦ ?_
    cases bar with
    | true => exact yields_namespaced
    | false => exact yields_pure
  | false =>
    refine yields_accept.bind fun bar _ _ _ ↦ ?_
    cases bar with
    | true => exact yields_namespaced
    | false => exact yields_name.bind fun n _ _ _ ↦ yields_bar yields_namespaced yields_pure

/-! ### Attribute selectors -/

theorem yields_attributeName : Yields src attributeName s (Parser.attributeName s) := by
  have hname (f : String → QualifiedName) {t : List Char} : Yields src (do return f (← name)) t
      ((do return f (← Parser.name)) t) := yields_name.bind fun _ _ _ _ ↦ yields_pure
  refine yields_accept.bind fun star _ _ _ ↦ ?_
  cases star with
  | true => exact yields_expect.bind fun _ _ _ _ ↦ hname _
  | false => exact yields_bar (hname _) (yields_name.bind fun n _ _ _ ↦
      yields_bar (hname _) yields_pure)

theorem ofSymbol?_eq_some_iff {symbol : List Char} {o : AttributeOperator} :
    AttributeOperator.ofSymbol? symbol = some o ↔ symbol = o.symbol := by
  constructor
  · intro h
    unfold AttributeOperator.ofSymbol? at h
    split at h <;> cases h <;> rfl
  · rintro rfl
    exact AttributeOperator.ofSymbol?_symbol o

/-- How many characters an operator is guessed to have. -/
def operatorSize (s : List Char) : Nat := if s.head? = some '=' then 1 else 2

/-- Where an operator stands, its size was guessed right, in characters and in bytes. -/
theorem byteSize_symbol {o : AttributeOperator} (h : s.take (operatorSize s) = o.symbol) :
    byteSize o.symbol = operatorSize s := by
  have hbytes : byteSize o.symbol = o.symbol.length := by cases o <;> rfl
  have hlength : o.symbol.length ≤ operatorSize s := by
    rw [← h]
    exact List.length_take_le _ s
  have htwo : operatorSize s ≤ 2 := by
    unfold operatorSize
    split <;> omega
  rw [hbytes]
  cases o with
  | equals =>
    obtain ⟨t, rfl⟩ : ∃ t, s = '=' :: t := by
      cases s with
      | nil => simp [AttributeOperator.symbol] at h
      | cons c t =>
        refine ⟨t, ?_⟩
        unfold operatorSize at h
        split at h <;> simp_all [AttributeOperator.symbol]
    rfl
  | _ => exact Nat.le_antisymm hlength htwo

/-- A slice of the guessed size is an operator where that many characters are, and otherwise it is
none or there is no such slice. -/
theorem ofSymbol?_slice (hs : s <:+ src) :
    AttributeOperator.ofSymbol? ((Text.slice src (offset src s)
      (offset src s + operatorSize s)).getD []) =
        AttributeOperator.ofSymbol? (s.take (operatorSize s)) := by
  refine Option.ext fun o ↦ ?_
  rw [ofSymbol?_eq_some_iff, ofSymbol?_eq_some_iff, slice_offset_add hs]
  constructor
  · intro h
    cases hslice : sliceTo s (operatorSize s) with
    | none => rw [hslice] at h; cases o <;> cases h
    | some t =>
      rw [hslice, Option.getD_some] at h
      obtain ⟨u, hu, hsize⟩ := sliceTo_eq_some hslice
      have hlength : operatorSize s = o.symbol.length := by
        rw [← hsize, h]
        cases o <;> rfl
      rw [hlength, hu, h, List.take_left]
  · intro h
    have hcut : o.symbol ++ s.drop (operatorSize s) = s := by rw [← h, List.take_append_drop]
    have hslice := sliceTo_append o.symbol (s.drop (operatorSize s))
    rw [hcut, byteSize_symbol h] at hslice
    rw [hslice, Option.getD_some]

theorem yields_attributeOperator :
    Yields src attributeOperator s (Parser.attributeOperator s) := by
  intro hs
  refine yields_position_bind (yields_peek.andThen fun _ ↦ yields_source_bind ?_) hs
  have hsymbol := ofSymbol?_slice hs
  rw [operatorSize] at hsymbol
  dsimp only
  rw [hsymbol, Parser.attributeOperator, Parser.rest_bind_apply]
  cases h : AttributeOperator.ofSymbol? (s.take (if s.head? = some '=' then 1 else 2)) with
  | some o =>
    have htake := ofSymbol?_eq_some_iff.1 h
    have hcut : o.symbol ++ s.drop (operatorSize s) = s := by
      rw [← htake, operatorSize, List.take_append_drop]
    have hpass : Yields src (advance (byteSize o.symbol)) (o.symbol ++ s.drop (operatorSize s))
      ⟨[], .ok ((), s.drop (operatorSize s))⟩ := yields_advance o.symbol
    rw [hcut, byteSize_symbol htake] at hpass
    exact hpass.andThen fun _ ↦ yields_pure
  | none => exact yields_failSince_self hs

theorem attributeValue_cons {c : Char} (hdouble : c ≠ '"') (hsingle : c ≠ '\'') :
    Parser.attributeValue (c :: s) =
      (do return String.ofList (decodeName (← Parser.name).toList) : Parser String) (c :: s) := by
  rw [Parser.attributeValue, Parser.rest_bind_apply]
  simp [hdouble, hsingle]

theorem yields_attributeValue : Yields src attributeValue s (Parser.attributeValue s) := by
  have hname {t : List Char} : Yields src (do return String.ofList (decodeName (← name).toList)) t
      ((do return String.ofList (decodeName (← Parser.name).toList)) t) :=
    yields_name.bind fun _ _ _ _ ↦ yields_pure
  refine yields_peek.andThen fun _ ↦ ?_
  cases s with
  | nil => exact hname
  | cons c s =>
    by_cases hdouble : c = '"'
    · subst hdouble
      exact yields_quoted (.inl rfl)
    · by_cases hsingle : c = '\''
      · subst hsingle
        exact yields_quoted (.inr rfl)
      · rw [attributeValue_cons hdouble hsingle]
        simp only [List.head?_cons]
        split
        · next h => cases h; exact absurd rfl hdouble
        · next h => cases h; exact absurd rfl hsingle
        · exact hname

theorem yields_attributeModifier :
    Yields src attributeModifier s (Parser.attributeModifier s) := by
  refine yields_peek.andThen fun _ ↦ ?_
  rw [Parser.attributeModifier, Parser.rest_bind_apply]
  cases s with
  | nil => exact yields_pure
  | cons c s =>
    dsimp only [List.head?_cons]
    split
    · exact yields_bump.andThen fun _ ↦ yields_blanks.andThen fun _ ↦ yields_pure
    · exact yields_pure

/-- The scanner takes the opening bracket itself. -/
theorem yields_attributeSelector :
    Yields src attributeSelector ('[' :: s) (Parser.attributeSelector s) := by
  refine yields_bump.andThen fun _ ↦ yields_blanks.andThen fun _ ↦ ?_
  refine yields_attributeName.bind fun n _ _ _ ↦ yields_blanks.andThen fun _ ↦ ?_
  refine yields_accept.bind fun close _ _ _ ↦ ?_
  cases close with
  | true => exact yields_pure
  | false =>
    refine yields_attributeOperator.bind fun o _ _ _ ↦ yields_blanks.andThen fun _ ↦ ?_
    refine yields_attributeValue.bind fun v _ _ _ ↦ yields_blanks.andThen fun _ ↦ ?_
    exact yields_attributeModifier.bind fun m _ _ _ ↦ yields_expect.bind fun _ _ _ _ ↦ yields_pure

/-! ### Parent selectors -/

/-- Name characters are passed, and what the parser takes is what stands between the ends. -/
theorem yields_nameChars_bind {α : Type} {f : Unit → Scanner α} {g : String → Parser α}
    (hf : ∀ r, r <:+ s → Yields src (f ()) r (g (String.ofList (Stretch.chars ⟨s, r⟩)) r)) :
    Yields src (nameChars >>= f) s ((Parser.nameChars >>= g) s) := by
  have hpass : Yields src nameChars s (nameReading s) := yields_nameChars
  rw [nameReading] at hpass
  cases h : dropName s with
  | none =>
    have hread : Parser.nameChars s = ⟨[], .error ⟨.expectedEscape, ⟨['\\'], []⟩⟩⟩ := by
      rw [Parser.nameChars, h]
    rw [h] at hpass
    rw [Parser.bind_eq_of_error (congrArg Reading.result hread), hread]
    exact hpass.bind_error
  | some r =>
    have hread : Parser.nameChars s = ⟨[], .ok (String.ofList (Stretch.chars ⟨s, r⟩), r)⟩ := by
      rw [Parser.nameChars, h]
    rw [h] at hpass
    rw [Parser.Reads.bind_eq (congrArg Reading.result hread), hread]
    exact hpass.andThen (hf r)

theorem yields_parent {allow : Allowance} {first : Bool} :
    Yields src (parent allow first) ('&' :: s) (Parser.parent allow first ('&' :: s)) := by
  intro hs
  refine yields_position_bind ?_ hs
  unfold Parser.parent
  split
  · exact yields_failSince_self hs
  · split
    · exact yields_failSince_self hs
    · have hsrc : s <:+ src := (List.suffix_cons '&' s).trans hs
      refine yields_bump.andThen fun _ ↦ yields_position_bind ?_
      rw [Parser.rest_bind_apply, Parser.goTo_bind_apply]
      refine yields_nameChars_bind fun r hr ↦ yields_position_bind ?_
      obtain ⟨u, rfl⟩ := hr
      have hmove := offset_lt_iff hsrc (List.suffix_append u r)
      rw [Stretch.chars_mk_append]
      cases u with
      | nil =>
        rw [if_neg (by simp)]
        exact yields_pure
      | cons c u =>
        have hsuffix : ¬ (String.ofList (c :: u)).isEmpty = true := by simp
        rw [if_pos (hmove.2 (by rw [List.length_append, List.length_cons]; omega)), if_neg hsuffix]
        refine (yields_slice hsrc (List.suffix_append (c :: u) r)).andThen fun _ ↦ ?_
        rw [Stretch.chars_mk_append]
        exact yields_pure

/-! ### Pseudo selectors and simple selectors -/

theorem simple_cons_of_not_mem {allow : Allowance} {nested : Parser SelectorList} {first : Bool}
    {c : Char} (hc : c ∉ ['[', '.', '#', '%', ':', '&', '*', '|']) :
    Parser.simple allow nested first (c :: s) =
      (if Text.startsName (c :: s) then Parser.typeSelector
        else Parser.fail .expectedSelector : Parser Simple) (c :: s) := by
  rw [Parser.simple, Parser.rest_bind_apply]
  simp only [List.mem_cons, List.not_mem_nil, or_false, not_or] at hc
  simp [hc]

section Nested

variable {allow : Allowance} {nested : Scanner SelectorList} {nested' : Parser SelectorList}
  {bound : Nat} (hnested : ∀ s : List Char, s.length < bound → Yields src nested s (nested' s))

include hnested

theorem yields_indices (hs : s.length < bound) :
    Yields src (indices nested) s (Parser.indices nested' s) := by
  intro hsrc
  have hloop : Yields src (loop indicesRound (offset src s)) s (indicesReading src s s) :=
    yields_indicesLoop
  refine yields_position_bind (hloop.andThen fun hrest ↦ ?_) hsrc
  rw [Parser.indices, Parser.rest_bind_apply, Parser.goTo_bind_apply]
  have hbetween {t : List Char} (ht : t <:+ s) := yields_indicesBetween hsrc
    (stop_dropIndices_suffix s) ht
  cases hof : (dropIndices s s).ofList with
  | true =>
    refine yields_blanks.andThen fun ht ↦ ?_
    have ht := ht.trans hrest
    by_cases hempty : (trim (Stretch.chars ⟨s, (dropIndices s s).stop⟩)).isEmpty = true
    · simp only [if_pos hempty, if_true, Parser.blanks_bind_apply] at hbetween ⊢
      exact (hbetween ht).bind_error
    · simp only [if_neg hempty, if_true, Parser.blanks_bind_apply] at hbetween ⊢
      exact (hbetween ht).andThen fun _ ↦
        (hnested _ (Nat.lt_of_le_of_lt ht.length_le hs)).bind fun _ _ _ _ ↦ yields_pure
  | false =>
    by_cases hempty : (trim (Stretch.chars ⟨s, (dropIndices s s).stop⟩)).isEmpty = true
    · simp only [if_pos hempty] at hbetween ⊢
      exact (hbetween hrest).bind_error
    · simp only [if_neg hempty] at hbetween ⊢
      exact (hbetween hrest).andThen fun _ ↦ yields_pure

theorem yields_argument {n : String} {element : Bool} (hs : s.length < bound) :
    Yields src (argument nested n element) s (Parser.argument nested' n element s) := by
  unfold argument Parser.argument
  dsimp only
  split
  · split
    · exact (yields_indices hnested hs).bind fun _ _ _ _ ↦ yields_pure
    · exact (hnested s hs).bind fun _ _ _ _ ↦ yields_pure
  · exact yields_rawArgument.bind fun _ _ _ _ ↦ yields_pure

/-- The scanner takes the colon itself. -/
theorem yields_pseudo (hs : s.length < bound) :
    Yields src (pseudo nested) (':' :: s) (Parser.pseudo nested' s) := by
  refine yields_bump.andThen fun _ ↦ yields_accept.bind fun element _ _ h₁ ↦ ?_
  refine yields_name.bind fun n _ _ h₂ ↦ yields_accept.bind fun paren _ _ h₃ ↦ ?_
  cases paren with
  | true =>
    refine yields_blanks.andThen fun h₄ ↦ ?_
    have hlength := (h₄.trans (h₃.trans (h₂.trans h₁))).length_le
    refine (yields_argument hnested (Nat.lt_of_le_of_lt hlength hs)).bind fun p _ _ _ ↦ ?_
    exact yields_blanks.andThen fun _ ↦ yields_expect.bind fun _ _ _ _ ↦ yields_pure
  | false => exact yields_pure

theorem yields_simple {first : Bool} (hs : s.length ≤ bound) :
    Yields src (simple allow nested first) s (Parser.simple allow nested' first s) := by
  intro hsrc
  refine yields_position_bind (yields_peek.andThen fun _ ↦ ?_) hsrc
  have hname {α : Type} (f : String → α) {c : Char} {t : List Char} :
      Yields src (do bump; return f (← name)) (c :: t)
        ((do Parser.goTo t; return f (← Parser.name)) (c :: t)) :=
    yields_bump.andThen fun _ ↦ yields_name.bind fun _ _ _ _ ↦ yields_pure
  cases s with
  | nil => exact yields_failSince_self hsrc
  | cons c t =>
    dsimp only [List.head?_cons]
    split
    · next h =>
      cases h
      exact yields_attributeSelector.bind fun _ _ _ _ ↦ yields_pure
    · next h => cases h; exact hname _
    · next h => cases h; exact hname _
    · next h =>
      cases h
      rw [Parser.simple, Parser.rest_bind_apply]
      cases hallow : allow.placeholder with
      | true => exact hname _
      | false => exact yields_failSince_self hsrc
    · next h =>
      cases h
      exact (yields_pseudo hnested hs).bind fun _ _ _ _ ↦ yields_pure
    · next h => cases h; exact yields_parent
    · next h => cases h; exact yields_typeSelector
    · next h => cases h; exact yields_typeSelector
    · next hc =>
      rw [simple_cons_of_not_mem (by simp_all)]
      refine yields_startsName.andThen fun _ ↦ ?_
      split
      · exact yields_typeSelector
      · exact yields_failSince_self hsrc
    · next h => cases h

end Nested

end SelectorAlgebra.Scanner

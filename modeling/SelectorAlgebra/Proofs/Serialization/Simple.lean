import SelectorAlgebra.Proofs.Parser.Reads
import SelectorAlgebra.Proofs.Selector.Written
import SelectorAlgebra.Proofs.Text.Quoted
import SelectorAlgebra.Selector.Text

/-!
# Reading names and attribute selectors back

What the parsers of names, type selectors and attribute selectors take from the canonical text, with
more text behind it. A name is taken up to its end unless it takes the space behind it too, and a
value comes back with its line feeds replaced.
-/

namespace SelectorAlgebra

namespace Parser

open Text

variable {α β : Type} {s t u r : List Char}

/-- Whether a text is empty or starts with one of some characters. -/
def StartsWithin (cs : List Char) (s : List Char) : Prop := ∀ c ∈ s.head?, c ∈ cs

theorem StartsWithin.mono {cs ds : List Char} (h : StartsWithin cs s) (hcs : cs ⊆ ds) :
    StartsWithin ds s := fun c hc ↦ hcs (h c hc)

theorem startsWithin_cons {cs : List Char} {c : Char} : StartsWithin cs (c :: s) ↔ c ∈ cs := by
  simp [StartsWithin]

/-! ### Names -/

/-- What may stand behind a name: a space or a sign. -/
def nameEnds : List Char :=
  [' ', ',', ')', '(', '[', ']', '.', '#', '%', ':', '|', '=', '~', '^', '$', '*']

theorem StartsWithin.endsName (h : StartsWithin nameEnds s) : EndsName s := by
  intro c hc
  have hall : ∀ c ∈ nameEnds, isNameChar c = false ∧ c ≠ '\\' := by
    simp [nameEnds, isNameChar, isNameStart]
  exact hall c (h c hc)

theorem StartsWithin.eq_space {c : Char} (h : StartsWithin nameEnds s) (hc : c ∈ s.head?)
    (hblank : isBlank c = true) : c = ' ' := by
  have hall : ∀ c ∈ nameEnds, isBlank c = true → c = ' ' := by simp [nameEnds, isBlank]
  exact hall c (h c hc) hblank

/-- A name is read back from its text if it does not take the space behind it. -/
theorem reads_nameChars_append_iff {n : String} (hn : IsNameText n.toList)
    (hs : StartsWithin nameEnds s) : Reads nameChars (n.toList ++ s) n t ↔
      t = s ∧ (Text.TakesBlank n.toList → s.head? ≠ some ' ') := by
  rw [reads_nameChars_iff]
  constructor
  · rintro ⟨hdrop, happend⟩
    obtain rfl := List.append_cancel_left happend
    refine ⟨rfl, fun htakes hspace ↦ ?_⟩
    obtain ⟨s, rfl⟩ := List.head?_eq_some_iff.1 hspace
    exact not_takesBlank_of_dropName hn hdrop htakes
  · rintro ⟨rfl, htakes⟩
    refine ⟨dropName_append_of_endsName hn hs.endsName fun h c hc ↦ ?_, rfl⟩
    by_contra hblank
    obtain rfl := hs.eq_space hc (Bool.not_eq_false _ ▸ hblank)
    exact htakes h hc

theorem reads_name_append_iff {n : String} (hn : IsName n.toList)
    (hs : StartsWithin nameEnds s) : Reads name (n.toList ++ s) n t ↔
      t = s ∧ (Text.TakesBlank n.toList → s.head? ≠ some ' ') := by
  rw [← reads_nameChars_append_iff hn.2 hs, reads_name_iff, reads_nameChars_iff]
  simp [startsName_append hn.1 s]

/-- A name is read back if no space is behind it. -/
theorem reads_name_append {n : String} (hn : IsName n.toList) (hs : StartsWithin nameEnds s)
    (hspace : s.head? ≠ some ' ') : Reads name (n.toList ++ s) n s :=
  (reads_name_append_iff hn hs).2 ⟨rfl, fun _ ↦ hspace⟩

/-! ### Type selectors -/

/-- What may stand behind a simple selector. -/
def simpleEnds : List Char := [' ', ',', ')', '[', '.', '#', '%', ':']

theorem StartsWithin.nameEnds (h : StartsWithin simpleEnds s) : StartsWithin nameEnds s :=
  h.mono (by decide)

theorem StartsWithin.head_ne {c : Char} {cs : List Char} (h : StartsWithin cs s) (hc : c ∉ cs) :
    s.head? ≠ some c := fun hs ↦ hc (h c hs)

theorem startsBar_cons (h : s.head? ≠ some '=') : startsBar ('|' :: s) = true := by
  cases s with
  | nil => rfl
  | cons c s =>
    unfold startsBar
    split
    · next heq =>
      cases heq
      exact absurd rfl h
    · rfl
    · next hne => exact absurd rfl (hne _)

theorem startsBar_eq_false (h : s.head? ≠ some '|') : startsBar s = false := by
  unfold startsBar
  split
  · rfl
  · exact absurd rfl h
  · rfl

/-- A type selector goes on behind its namespace. -/
theorem reads_typeSelector_namespace_iff {ns : String} {x : Simple} (hns : IsNamespace (some ns))
    (hs : s.head? ≠ some '=') : Reads typeSelector (ns.toList ++ '|' :: s) x t ↔
      Reads (namespaced ns) s x t := by
  rcases hns with hns | hns | hns
  · obtain rfl : ns = "" := String.toList_inj.1 hns
    simp [typeSelector]
  · obtain rfl : ns = "*" := String.toList_inj.1 hns
    simp [typeSelector]
  · have hread : Reads name (ns.toList ++ '|' :: s) ns ('|' :: s) :=
      reads_name_append hns (startsWithin_cons.2 (by decide)) (by simp)
    have hstar := IsName.head_append_ne hns ('|' :: s) (c := '*') rfl (by decide)
    have hbar := IsName.head_append_ne hns ('|' :: s) (c := '|') rfl (by decide)
    rw [typeSelector, reads_accept_bind_of_ne hstar]
    simp only [Bool.false_eq_true, if_false]
    rw [reads_accept_bind_of_ne hbar]
    simp only [Bool.false_eq_true, if_false]
    rw [hread.bind_iff, reads_rest_bind_iff, if_pos (startsBar_cons hs)]
    rfl

theorem not_reads_namespaced {ns : String} {n : String} :
    ¬ Reads (namespaced ns) s (.type ⟨none, n⟩) t := by
  simp [namespaced]

theorem reads_universal_iff {ns : Option String} (hns : IsNamespace ns)
    (hs : StartsWithin simpleEnds s) :
    Reads typeSelector (namespaceChars ns ++ '*' :: s) (.universal ns) t ↔ t = s := by
  cases ns with
  | none =>
    change Reads typeSelector ('*' :: s) _ t ↔ _
    rw [typeSelector, reads_accept_bind_cons, if_pos rfl,
      reads_accept_bind_of_ne (hs.head_ne (by decide))]
    simp [eq_comm]
  | some ns =>
    rw [namespaceChars, List.append_assoc]
    change Reads typeSelector (ns.toList ++ '|' :: '*' :: s) _ t ↔ _
    rw [reads_typeSelector_namespace_iff hns (by simp), namespaced, reads_accept_bind_cons]
    simp [eq_comm]

theorem reads_type_iff {n : QualifiedName} (hn : n.Written) (hs : StartsWithin simpleEnds s) :
    Reads typeSelector (n.chars ++ s) (.type n) t ↔
      t = s ∧ (Text.TakesBlank n.name.toList → s.head? ≠ some ' ') := by
  obtain ⟨ns, n⟩ := n
  obtain ⟨hns, hname⟩ := hn
  have hhead {c : Char} (hc : isNameChar c = false) (hb : c ≠ '\\') :
      (n.toList ++ s).head? ≠ some c := IsName.head_append_ne hname s hc hb
  have hread := reads_name_append_iff (t := t) hname hs.nameEnds
  rw [← hread]
  cases ns with
  | none =>
    change Reads typeSelector (n.toList ++ s) _ t ↔ _
    rw [typeSelector, reads_accept_bind_of_ne (hhead rfl (by decide)), if_neg (by decide),
      reads_accept_bind_of_ne (hhead rfl (by decide)), if_neg (by decide), reads_bind_iff]
    constructor
    · rintro ⟨m, r, hm, h⟩
      rw [reads_rest_bind_iff] at h
      split at h
      · exact absurd h not_reads_namespaced
      · obtain ⟨hmn, rfl⟩ := reads_pure_iff.1 h
        cases hmn
        exact hm
    · intro h
      obtain ⟨rfl, -⟩ := hread.1 h
      refine ⟨n, t, h, ?_⟩
      rw [reads_rest_bind_iff, startsBar_eq_false (hs.head_ne (by decide))]
      exact reads_pure_iff.2 ⟨rfl, rfl⟩
  | some ns =>
    rw [QualifiedName.chars, namespaceChars, List.append_assoc, List.append_assoc]
    change Reads typeSelector (ns.toList ++ '|' :: (n.toList ++ s)) _ t ↔ _
    rw [reads_typeSelector_namespace_iff hns (hhead rfl (by decide)), namespaced,
      reads_accept_bind_of_ne (hhead rfl (by decide))]
    simp

/-! ### Attribute selectors -/

/-- The name of an attribute is read back in front of a bracket or an operator. -/
theorem reads_attributeName {n : QualifiedName} (hn : n.Written)
    (hs : StartsWithin nameEnds s) (hspace : s.head? ≠ some ' ') (hbar : startsBar s = false) :
    Reads attributeName (n.chars ++ s) n s := by
  obtain ⟨ns, n⟩ := n
  obtain ⟨hns, hname⟩ := hn
  have hread : Reads name (n.toList ++ s) n s := reads_name_append hname hs hspace
  have hhead {c : Char} (hc : isNameChar c = false) (hb : c ≠ '\\') :
      (n.toList ++ s).head? ≠ some c := IsName.head_append_ne hname s hc hb
  have hgoes : startsBar ('|' :: (n.toList ++ s)) = true :=
    startsBar_cons (hhead rfl (by decide))
  cases ns with
  | none =>
    change Reads attributeName (n.toList ++ s) _ s
    rw [attributeName, reads_accept_bind_of_ne (hhead rfl (by decide)), if_neg (by decide),
      reads_rest_bind_iff, startsBar_eq_false (hhead rfl (by decide)), if_neg (by decide),
      hread.bind_iff, reads_rest_bind_iff, hbar]
    exact reads_pure_iff.2 ⟨rfl, rfl⟩
  | some ns =>
    rw [QualifiedName.chars, namespaceChars, List.append_assoc, List.append_assoc]
    change Reads attributeName (ns.toList ++ '|' :: (n.toList ++ s)) _ s
    rcases hns with hns | hns | hns
    · obtain rfl : ns = "" := String.toList_inj.1 hns
      change Reads attributeName ('|' :: (n.toList ++ s)) _ s
      rw [attributeName, reads_accept_bind_of_ne (by simp), if_neg (by decide),
        reads_rest_bind_iff, if_pos hgoes, reads_goTo_bind_iff, List.tail_cons, hread.bind_iff]
      exact reads_pure_iff.2 ⟨rfl, rfl⟩
    · obtain rfl : ns = "*" := String.toList_inj.1 hns
      change Reads attributeName ('*' :: '|' :: (n.toList ++ s)) _ s
      rw [attributeName, reads_accept_bind_cons, if_pos rfl, reads_expect_bind_iff]
      exact ⟨_, rfl, hread.bind_iff.2 (reads_pure_iff.2 ⟨rfl, rfl⟩)⟩
    · have hbar : Reads name (ns.toList ++ '|' :: (n.toList ++ s)) ns ('|' :: (n.toList ++ s)) :=
        reads_name_append hns (startsWithin_cons.2 (by decide)) (by simp)
      have hne {c : Char} (hc : isNameChar c = false) (hb : c ≠ '\\') :
          (ns.toList ++ '|' :: (n.toList ++ s)).head? ≠ some c :=
        IsName.head_append_ne hns _ hc hb
      rw [attributeName, reads_accept_bind_of_ne (hne rfl (by decide)), if_neg (by decide),
        reads_rest_bind_iff, startsBar_eq_false (hne rfl (by decide)), if_neg (by decide),
        hbar.bind_iff, reads_rest_bind_iff, if_pos hgoes, reads_goTo_bind_iff, List.tail_cons,
        hread.bind_iff]
      exact reads_pure_iff.2 ⟨rfl, rfl⟩

theorem reads_attributeOperator (o : AttributeOperator) (s : List Char) :
    Reads attributeOperator (o.symbol ++ s) o s := by
  cases o <;> simp [attributeOperator, AttributeOperator.symbol, AttributeOperator.ofSymbol?]

/-- A value is read back from its text with its line feeds replaced. -/
theorem reads_attributeValue (v : String) (hs : StartsWithin [' ', ']'] s) :
    Reads attributeValue (writeValue v.toList ++ s) (String.ofList (requote v.toList)) s := by
  unfold writeValue
  split
  · next hplain =>
    obtain ⟨hname, hchars⟩ := isName_of_isPlainName hplain
    have hhead {c : Char} (hc : isNameChar c = false) (hb : c ≠ '\\') :
        (v.toList ++ s).head? ≠ some c := IsName.head_append_ne hname s hc hb
    have hmem {c : Char} (hc : isNameChar c = false) : c ∉ v.toList :=
      fun h ↦ ne_of_isNameChar (hchars c h) hc rfl
    have hread : Reads name (v.toList ++ s) v s := by
      refine (reads_name_append_iff hname (hs.mono (by decide))).2 ⟨rfl, fun h ↦ ?_⟩
      exact absurd h (not_takesBlank_of_not_mem (hmem rfl))
    rw [attributeValue, reads_rest_bind_iff]
    split
    · next heq => exact absurd (congrArg List.head? heq) (hhead rfl (by decide))
    · next heq => exact absurd (congrArg List.head? heq) (hhead rfl (by decide))
    · rw [hread.bind_iff, decodeName_of_not_mem (hmem rfl),
        requote_eq_self_iff.2 (hmem rfl)]
      exact reads_pure_iff.2 ⟨rfl, rfl⟩
  · have hquote : quote v.toList ++ s = '"' :: (v.toList.flatMap quoteChar ++ '"' :: s) := by
      simp [quote]
    rw [hquote, attributeValue, reads_rest_bind_iff]
    refine reads_quoted_iff.2 ⟨_, _, rfl, ?_⟩
    rw [readQuoted_quoteChars, String.toList_ofList]

theorem writeValue_startsTight (v s : List Char) : StartsTight (writeValue v ++ s) := by
  unfold writeValue
  split
  · next hplain => exact IsName.startsTight_append (isName_of_isPlainName hplain).1 s
  · exact startsTight_cons rfl (by decide) _

theorem QualifiedName.startsTight_append {n : QualifiedName} (hn : n.Written) (s : List Char) :
    StartsTight (n.chars ++ s) := by
  obtain ⟨ns, n⟩ := n
  obtain ⟨hns, hname⟩ := hn
  cases ns with
  | none => exact IsName.startsTight_append hname s
  | some ns =>
    rw [QualifiedName.chars, namespaceChars, List.append_assoc, List.append_assoc]
    rcases hns with hns | hns | hns
    · obtain rfl : ns = "" := String.toList_inj.1 hns
      exact startsTight_cons rfl (by decide) _
    · obtain rfl : ns = "*" := String.toList_inj.1 hns
      exact startsTight_cons rfl (by decide) _
    · exact IsName.startsTight_append hns _

/-- The text of a modifier. -/
def modifierChars : Option Char → List Char
  | some m => [' ', m]
  | none => []

theorem reads_attributeModifier {m : Option Char} (hm : ∀ c ∈ m, c.isAlpha = true)
    (s : List Char) : Reads attributeModifier (dropBlanks (modifierChars m ++ ']' :: s)) m
      (']' :: s) := by
  have hbracket : dropBlanks (']' :: s) = ']' :: s :=
    dropBlanks_of_startsTight (startsTight_cons rfl (by decide) s)
  cases m with
  | none =>
    rw [modifierChars, List.nil_append, hbracket, attributeModifier, reads_rest_bind_iff]
    simp
  | some c =>
    have hc : c.isAlpha = true := hm c rfl
    have hstart : dropBlanks (c :: ']' :: s) = c :: ']' :: s := by
      refine dropBlanks_of_startsTight (startsTight_cons (Bool.eq_false_iff.2 fun h ↦ ?_) ?_ _)
      · have hname := isNameChar_of_isBlank h
        simp [isNameChar, isNameStart, hc] at hname
      · rintro rfl
        cases hc
    change Reads attributeModifier (dropBlanks (' ' :: c :: ']' :: s)) _ _
    rw [dropBlanks_cons_of_isBlank rfl, hstart, attributeModifier, reads_rest_bind_iff]
    simp [hc, hbracket]

/-- Behind its name and its operator an attribute selector has a value, maybe a modifier, and the
closing bracket. -/
theorem reads_attributeSelector_test_iff {n : QualifiedName} (hn : n.Written)
    (o : AttributeOperator) {a : AttributeSelector} (hs : StartsTight s) :
    Reads attributeSelector (n.chars ++ (o.symbol ++ s)) a t ↔
      ∃ v u, Reads attributeValue s v u ∧
        ∃ m, Reads attributeModifier (dropBlanks u) m (']' :: t) ∧ a = ⟨n, some o, some v, m⟩ := by
  have hsymbol : StartsWithin nameEnds (o.symbol ++ s) ∧
      (o.symbol ++ s).head? ≠ some ' ' ∧ (o.symbol ++ s).head? ≠ some ']' ∧
      startsBar (o.symbol ++ s) = false ∧ StartsTight (o.symbol ++ s) := by
    cases o <;> exact ⟨startsWithin_cons.2 (by decide), by simp [AttributeOperator.symbol],
      by simp [AttributeOperator.symbol], rfl, startsTight_cons rfl (by decide) _⟩
  obtain ⟨hwithin, hspace, hbracket, hbar, htight⟩ := hsymbol
  rw [attributeSelector, reads_blanks_bind_iff,
    dropBlanks_of_startsTight (QualifiedName.startsTight_append hn _),
    (reads_attributeName hn hwithin hspace hbar).bind_iff, reads_blanks_bind_iff,
    dropBlanks_of_startsTight htight, reads_accept_bind_of_ne hbracket, if_neg (by decide),
    (reads_attributeOperator o _).bind_iff, reads_blanks_bind_iff, dropBlanks_of_startsTight hs,
    reads_bind_iff]
  refine exists_congr fun v ↦ exists_congr fun u ↦ and_congr_right fun _ ↦ ?_
  rw [reads_blanks_bind_iff, reads_bind_iff]
  refine exists_congr fun m ↦ ?_
  simp only [reads_expect_bind_iff, reads_pure_iff]
  constructor
  · rintro ⟨_, hm, _, rfl, rfl, rfl⟩
    exact ⟨hm, rfl⟩
  · rintro ⟨hm, rfl⟩
    exact ⟨_, hm, t, rfl, rfl, rfl⟩

/-- An attribute selector is read back with the line feeds in its value replaced. -/
theorem reads_attributeSelector {K : List Char → Prop} {a : AttributeSelector}
    (hname : a.name.Written) (htest : a.HasWrittenTest K) (s : List Char) :
    Reads attributeSelector (a.chars.tail ++ s)
      { a with value := a.value.map fun v ↦ String.ofList (requote v.toList) } s := by
  obtain ⟨n, o, v, m⟩ := a
  match o, v, m with
  | none, none, none =>
    have htext : (AttributeSelector.chars ⟨n, none, none, none⟩).tail ++ s =
        n.chars ++ ']' :: s := by
      simp [AttributeSelector.chars]
    have hread : Reads attributeName (n.chars ++ ']' :: s) n (']' :: s) :=
      reads_attributeName hname (startsWithin_cons.2 (by decide)) (by simp) rfl
    rw [htext, attributeSelector, reads_blanks_bind_iff,
      dropBlanks_of_startsTight (QualifiedName.startsTight_append hname _), hread.bind_iff,
      reads_blanks_bind_iff,
      dropBlanks_of_startsTight (startsTight_cons rfl (by decide) s), reads_accept_bind_cons]
    exact reads_pure_iff.2 ⟨rfl, rfl⟩
  | some o, some v, m =>
    have htext : (AttributeSelector.chars ⟨n, some o, some v, m⟩).tail ++ s =
        n.chars ++ (o.symbol ++ (writeValue v.toList ++ (modifierChars m ++ ']' :: s))) := by
      cases m <;> simp [AttributeSelector.chars, modifierChars]
    have hends : StartsWithin [' ', ']'] (modifierChars m ++ ']' :: s) := by
      cases m <;> exact startsWithin_cons.2 (by simp)
    rw [htext]
    exact (reads_attributeSelector_test_iff hname o (writeValue_startsTight _ _)).2
      ⟨_, _, reads_attributeValue v hends, m, reads_attributeModifier htest.2 s, rfl⟩

theorem reads_attributeSelector_iff {K : List Char → Prop} {a : AttributeSelector}
    (hname : a.name.Written) (htest : a.HasWrittenTest K) :
    Reads attributeSelector (a.chars.tail ++ s) a t ↔
      t = s ∧ ∀ v ∈ a.value, '\n' ∉ v.toList := by
  rw [(reads_attributeSelector hname htest s).iff, and_comm]
  apply and_congr_right
  intro _
  obtain ⟨n, o, v, m⟩ := a
  cases v with
  | none => simp
  | some v => simp [AttributeSelector.mk.injEq, eq_comm (a := v), ofList_requote_eq_iff]

end Parser

end SelectorAlgebra

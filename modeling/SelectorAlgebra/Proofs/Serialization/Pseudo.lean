import SelectorAlgebra.Proofs.Parser.Written
import SelectorAlgebra.Proofs.Serialization.Legible
import SelectorAlgebra.Proofs.Serialization.Simple
import SelectorAlgebra.Proofs.Serialization.Weight
import SelectorAlgebra.Selector.Equality

/-!
# Reading pseudo selectors back

What the parser of pseudo selectors takes from the canonical text, with more text behind it, if the
parser of selector lists reads the list inside back.
-/

namespace SelectorAlgebra

namespace Parser

open Text

variable {nested : Parser SelectorList} {s t r : List Char}

theorem startsTight_close (s : List Char) : StartsTight (')' :: s) :=
  startsTight_cons rfl (by decide) s

/-! ### Arguments -/

/-- An argument is read without the white space in front of the parenthesis that ends it. -/
theorem reads_rawArgument_append_iff {a : String} {z : List Char}
    (hlast : ∀ c ∈ a.toList.getLast?, isSpace c = false) (hz : ∀ c ∈ z, isSpace c = true) :
    Reads rawArgument (a.toList ++ (z ++ ')' :: s)) a r ↔
      r = ')' :: s ∧ IsArgument (a.toList ++ z) := by
  constructor
  · intro h
    obtain ⟨y, v, hyv, rfl, hargument, hy, -⟩ := exists_of_reads_rawArgument h
    have hrest : z ++ ')' :: s = y ++ ')' :: v := List.append_cancel_left hyv
    have hspaces := congrArg (List.takeWhile isSpace) hrest
    rw [List.takeWhile_append_of_pos hz, List.takeWhile_append_of_pos hy] at hspaces
    obtain rfl : z = y := List.append_cancel_right hspaces
    exact ⟨(List.append_cancel_left hrest).symm, hargument⟩
  · rintro ⟨rfl, hargument⟩
    rw [reads_rawArgument_iff, ← List.append_assoc, Stretch.chars_mk_append]
    exact ⟨(isArgument_iff s).1 hargument, (trimEnd_append hlast hz).symm⟩

/-- Indices without a list are read back in front of a parenthesis. -/
theorem reads_indices_close_iff {a : String} {l : Option SelectorList}
    (ha : IsTrimmed a.toList) (hne : a.toList ≠ []) :
    Reads (indices nested) (a.toList ++ ')' :: s) (a, l) r ↔
      isIndices a.toList = true ∧ l = none ∧ r = ')' :: s := by
  have hends : EndsIndices (')' :: s) := .inl ⟨s, rfl⟩
  rw [reads_indices_iff, trim_stop_iff ha hne hends, and_assoc, and_iff_right hne]
  apply and_congr_right
  intro h
  rw [dropIndices_append h hne hends, dropIndices_close]
  simp

/-- Indices with a list are read back if the list is. -/
theorem reads_indices_of_iff {a : String} {l : Option SelectorList}
    (ha : IsTrimmed a.toList) (hne : a.toList ≠ []) :
    Reads (indices nested) (a.toList ++ ' ' :: 'o' :: 'f' :: ' ' :: s) (a, l) r ↔
      isIndices a.toList = true ∧ ∃ m, Reads nested (dropBlanks s) m r ∧ l = some m := by
  have hends : EndsIndices (' ' :: 'o' :: 'f' :: ' ' :: s) := .inr ⟨s, rfl⟩
  have hblanks : dropBlanks ('o' :: 'f' :: ' ' :: s) = 'o' :: 'f' :: ' ' :: s :=
    dropBlanks_cons rfl rfl
  have hstarts : startsOf ('o' :: 'f' :: ' ' :: s) = true := rfl
  rw [reads_indices_iff, trim_stop_iff ha hne hends, and_assoc, and_iff_right hne]
  apply and_congr_right
  intro h
  rw [dropIndices_append h hne hends, dropIndices_blank rfl, hblanks, if_pos hstarts]
  have hspace : dropBlanks (' ' :: s) = dropBlanks s := dropBlanks_cons_of_isBlank rfl
  simp only [if_true, List.drop_succ_cons, List.drop_zero, hspace]

/-! ### Arguments by the kind of the name -/

section Argument

variable {n : String} {element : Bool} {q : Pseudo}

theorem reads_argument_raw_iff
    (h : (PseudoKind.ofName (Pseudo.normalize n)).takesSelector element = false) :
    Reads (argument nested n element) s q r ↔
      ∃ a, Reads rawArgument s a r ∧ q = ⟨n, element, some a, none⟩ := by
  unfold argument
  dsimp only
  rw [if_neg (by simp [h])]
  simp [reads_bind_iff, eq_comm]

theorem reads_argument_indices_iff
    (h : (PseudoKind.ofName (Pseudo.normalize n)).takesSelector element = true)
    (hkind : PseudoKind.ofName (Pseudo.normalize n) = .counting) :
    Reads (argument nested n element) s q r ↔
      ∃ a l, Reads (indices nested) s (a, l) r ∧ q = ⟨n, element, some a, l⟩ := by
  unfold argument
  dsimp only
  rw [if_pos h, if_pos hkind, reads_bind_iff]
  constructor
  · rintro ⟨⟨a, l⟩, u, ha, hq⟩
    obtain ⟨rfl, rfl⟩ := reads_pure_iff.1 hq
    exact ⟨a, l, ha, rfl⟩
  · rintro ⟨a, l, ha, rfl⟩
    exact ⟨(a, l), r, ha, reads_pure_iff.2 ⟨rfl, rfl⟩⟩

theorem reads_argument_list_iff
    (h : (PseudoKind.ofName (Pseudo.normalize n)).takesSelector element = true)
    (hkind : PseudoKind.ofName (Pseudo.normalize n) ≠ .counting) :
    Reads (argument nested n element) s q r ↔
      ∃ l, Reads nested s l r ∧ q = ⟨n, element, none, some l⟩ := by
  unfold argument
  dsimp only
  rw [if_pos h, if_neg hkind]
  simp [reads_bind_iff, eq_comm]

/-- What is read as an argument has the name and the colons that it is read for, and some
argument. -/
theorem Reads.argument (h : Reads (argument nested n element) s q r) :
    (q.name = n ∧ q.element = element) ∧ (q.argument ≠ none ∨ q.selector ≠ none) := by
  cases hselector : (PseudoKind.ofName (Pseudo.normalize n)).takesSelector element with
  | false =>
    obtain ⟨a, -, rfl⟩ := (reads_argument_raw_iff hselector).1 h
    simp
  | true =>
    by_cases hkind : PseudoKind.ofName (Pseudo.normalize n) = .counting
    · obtain ⟨a, l, -, rfl⟩ := (reads_argument_indices_iff hselector hkind).1 h
      simp
    · obtain ⟨l, -, rfl⟩ := (reads_argument_list_iff hselector hkind).1 h
      simp

end Argument

/-! ### Behind the colons -/

/-- Takes a pseudo selector whose colons have been taken. -/
def namedPseudo (nested : Parser SelectorList) (element : Bool) : Parser Pseudo := do
  let n ← name
  if ← accept '(' then
    blanks
    let p ← argument nested n element
    blanks
    expect ')' .expectedParenthesis
    return p
  else return ⟨n, element, none, none⟩

theorem pseudo_eq : pseudo nested = (accept ':' >>= namedPseudo nested) := rfl

/-- A pseudo selector without argument is read back if its name is. -/
theorem reads_namedPseudo_iff {n : String} {element : Bool} (hn : IsName n.toList)
    (hs : StartsWithin simpleEnds s) :
    Reads (namedPseudo nested element) (n.toList ++ s) ⟨n, element, none, none⟩ t ↔
      t = s ∧ (Text.TakesBlank n.toList → s.head? ≠ some ' ') := by
  rw [← reads_name_append_iff hn hs.nameEnds, namedPseudo, reads_bind_iff]
  constructor
  · rintro ⟨m, r, hm, h⟩
    rcases reads_accept_bind_iff.1 h with ⟨u, rfl, hopen⟩ | ⟨-, hclosed⟩
    · rw [if_pos rfl, reads_blanks_bind_iff, reads_bind_iff] at hopen
      obtain ⟨q, v, hq, hopen⟩ := hopen
      rw [reads_blanks_bind_iff, reads_expect_bind_iff] at hopen
      obtain ⟨_, -, hopen⟩ := hopen
      obtain ⟨rfl, -⟩ := reads_pure_iff.1 hopen
      simpa using hq.argument.2
    · obtain ⟨hmn, rfl⟩ := reads_pure_iff.1 hclosed
      cases hmn
      exact hm
  · intro h
    obtain ⟨rfl, -⟩ := (reads_name_append_iff hn hs.nameEnds).1 h
    refine ⟨n, t, h, ?_⟩
    rw [reads_accept_bind_of_ne (hs.head_ne (by decide))]
    exact reads_pure_iff.2 ⟨rfl, rfl⟩

/-- A pseudo selector with an argument is read back if the argument is. -/
theorem reads_namedPseudo_open_iff {n : String} {element : Bool} {q : Pseudo}
    (hn : IsName n.toList) : Reads (namedPseudo nested element) (n.toList ++ '(' :: s) q t ↔
      ∃ r, Reads (argument nested n element) (dropBlanks s) q r ∧ dropBlanks r = ')' :: t := by
  have hread : Reads name (n.toList ++ '(' :: s) n ('(' :: s) :=
    reads_name_append hn (startsWithin_cons.2 (by decide)) (by simp)
  rw [namedPseudo, hread.bind_iff, reads_accept_bind_cons, if_pos rfl, reads_blanks_bind_iff,
    reads_bind_iff]
  simp only [reads_blanks_bind_iff, reads_expect_bind_iff, reads_pure_iff]
  constructor
  · rintro ⟨p, r, hp, u, hu, rfl, rfl⟩
    exact ⟨r, hp, hu⟩
  · rintro ⟨r, hp, hu⟩
    exact ⟨q, r, hp, t, hu, rfl, rfl⟩

/-! ### Pseudo selectors -/

theorem reads_pseudo_name_iff {n : String} {element : Bool} {q : Pseudo} (hn : IsName n.toList) :
    Reads (pseudo nested) ((if element then [':'] else []) ++ (n.toList ++ s)) q t ↔
      Reads (namedPseudo nested element) (n.toList ++ s) q t := by
  cases element with
  | true =>
    change Reads (pseudo nested) (':' :: (n.toList ++ s)) q t ↔ _
    rw [pseudo_eq, reads_accept_bind_cons]
  | false =>
    change Reads (pseudo nested) (n.toList ++ s) q t ↔ _
    rw [pseudo_eq, reads_accept_bind_of_ne (IsName.head_append_ne hn s rfl (by decide))]

/-- Whether a parser reads a selector list back from its text in front of a parenthesis: if it reads
the list up to line breaks and leaves no less than the parenthesis and what is behind, it reads the
list itself, which is legible. -/
structure ReadsBack (nested : Parser SelectorList) (l : SelectorList) : Prop where
  tight : ∀ s, StartsTight (SelectorList.chars l ++ s)
  reads_iff : ∀ {s t m}, StartsWithin [')'] s → weight s ≤ weight t →
    SelectorList.eraseBreaks m = SelectorList.eraseBreaks l →
      (Reads nested (SelectorList.chars l ++ s) m t ↔
        (m = l ∧ t = s) ∧ SelectorList.Each .legible l)

/-- A pseudo selector that takes no selectors is read with its argument. -/
theorem reads_namedPseudo_raw_iff {n a : String} {element : Bool} {z : List Char}
    (hn : IsName n.toList) (hlast : ∀ c ∈ a.toList.getLast?, isSpace c = false)
    (hz : ∀ c ∈ z, isSpace c = true) (htight : StartsTight (a.toList ++ (z ++ ')' :: s)))
    (hkind : (PseudoKind.ofName (Pseudo.normalize n)).takesSelector element = false) :
    Reads (namedPseudo nested element) (n.toList ++ '(' :: (a.toList ++ (z ++ ')' :: s)))
      ⟨n, element, some a, none⟩ t ↔ t = s ∧ IsArgument (a.toList ++ z) := by
  rw [reads_namedPseudo_open_iff hn, dropBlanks_of_startsTight htight]
  simp only [reads_argument_raw_iff hkind]
  constructor
  · rintro ⟨r, ⟨b, hb, hab⟩, hr⟩
    cases hab
    obtain ⟨rfl, hargument⟩ := (reads_rawArgument_append_iff hlast hz).1 hb
    rw [dropBlanks_of_startsTight (startsTight_close s)] at hr
    exact ⟨(List.cons.inj hr).2.symm, hargument⟩
  · rintro ⟨rfl, hargument⟩
    refine ⟨')' :: t, ⟨a, (reads_rawArgument_append_iff hlast hz).2 ⟨rfl, hargument⟩, rfl⟩, ?_⟩
    exact dropBlanks_of_startsTight (startsTight_close t)

theorem startsTight_argument {K : List Char → Prop} {a : List Char}
    (ha : Pseudo.WrittenArgument K a) (s : List Char) : StartsTight (a ++ ')' :: s) := by
  by_cases hne : a = []
  · rw [hne]
    exact startsTight_close s
  · exact ha.tight.append hne (by simp)

theorem reads_pseudo_raw_iff {K : List Char → Prop} {n a : String} {element : Bool}
    (hn : IsName n.toList) (ha : Pseudo.WrittenArgument K a.toList)
    (hkind : (PseudoKind.ofName (Pseudo.normalize n)).takesSelector element = false) :
    Reads (namedPseudo nested element) (n.toList ++ '(' :: (a.toList ++ ')' :: s))
      ⟨n, element, some a, none⟩ t ↔ t = s ∧ IsArgument a.toList := by
  have hread : Reads (namedPseudo nested element) (n.toList ++ '(' :: (a.toList ++ ')' :: s))
      ⟨n, element, some a, none⟩ t ↔ t = s ∧ IsArgument (a.toList ++ []) :=
    reads_namedPseudo_raw_iff (z := []) hn ha.last (by simp) (startsTight_argument ha s) hkind
  rwa [List.append_nil] at hread

/-- Indices that do not start with a comment start tight. -/
theorem startsTight_indices {K : List Char → Prop} {a : List Char} (ha : Pseudo.WrittenIndices K a)
    (hcomment : startsComment a = false) (ht : s.head? ≠ some '*') : StartsTight (a ++ s) := by
  refine StartsTight.append ⟨fun c hc ↦ ?_, hcomment⟩ ha.ne_nil ht
  exact Bool.eq_false_iff.2 fun h ↦ by simpa [ha.trimmed.1 c hc] using isSpace_of_isBlank h

/-- What is left in front of a parenthesis weighs no less than the parenthesis and what is behind
it. -/
theorem weight_of_dropBlanks (hr : dropBlanks r = ')' :: t) (hw : weight s ≤ weight t) :
    weight (')' :: s) ≤ weight r := by
  have := weight_dropBlanks_le r
  rw [hr, weight_cons] at this
  rw [weight_cons]
  omega

/-- Indices that start with a comment are not read back. -/
theorem startsComment_of_reads {a : String} {m : Option SelectorList} {u : List Char}
    (hnested : ∀ r, Takes nested r 0 fun l ↦ weight (SelectorList.chars l))
    (hu : weight (indicesChars a m) + weight u = weight (a.toList ++ s))
    (h : Reads (indices nested) (dropBlanks (a.toList ++ s)) (a, m) r)
    (hr : weight u ≤ weight r) : startsComment a.toList = false := by
  apply Bool.eq_false_iff.2
  intro hcomment
  have hstarts : startsComment (a.toList ++ s) = true := by
    obtain ⟨v, hv⟩ := startsComment_iff.1 hcomment
    rw [hv]
    rfl
  have hlt := weight_dropBlanks_lt hstarts
  have hle : weight (indicesChars a m) + weight r ≤ _ := takes_indices hnested (a, m) r h
  omega

section Lists

variable (hnested : ∀ r, Takes nested r 0 fun l ↦ weight (SelectorList.chars l))

include hnested

section Counting

variable {K : List Char → Prop} {n a : String} {element : Bool}
  (hn : IsName n.toList) (ha : Pseudo.WrittenIndices K a.toList)
  (htakes : (PseudoKind.ofName (Pseudo.normalize n)).takesSelector element = true)
  (hkind : PseudoKind.ofName (Pseudo.normalize n) = .counting)

include hn ha htakes hkind

theorem reads_pseudo_indices_iff (hw : weight s ≤ weight t) :
    Reads (namedPseudo nested element) (n.toList ++ '(' :: (a.toList ++ ')' :: s))
      ⟨n, element, some a, none⟩ t ↔
      t = s ∧ startsComment a.toList = false ∧ isIndices a.toList = true := by
  rw [reads_namedPseudo_open_iff hn]
  simp only [reads_argument_indices_iff htakes hkind]
  constructor
  · rintro ⟨r, ⟨b, l, hb, hab⟩, hr⟩
    cases hab
    have hcomment : startsComment a.toList = false := by
      refine startsComment_of_reads hnested ?_ hb (weight_of_dropBlanks hr hw)
      rw [weight_append]
      rfl
    rw [dropBlanks_of_startsTight (startsTight_indices ha hcomment (by simp))] at hb
    obtain ⟨hindices, -, rfl⟩ := (reads_indices_close_iff ha.trimmed ha.ne_nil).1 hb
    rw [dropBlanks_of_startsTight (startsTight_close s)] at hr
    exact ⟨(List.cons.inj hr).2.symm, hcomment, hindices⟩
  · rintro ⟨rfl, hcomment, hindices⟩
    rw [dropBlanks_of_startsTight (startsTight_indices ha hcomment (by simp))]
    refine ⟨')' :: t, ⟨a, none, ?_, rfl⟩, dropBlanks_of_startsTight (startsTight_close t)⟩
    exact (reads_indices_close_iff ha.trimmed ha.ne_nil).2 ⟨hindices, rfl, rfl⟩

theorem reads_pseudo_of_iff {l m : SelectorList} (hl : ReadsBack nested l)
    (hw : weight s ≤ weight t)
    (hm : SelectorList.eraseBreaks m = SelectorList.eraseBreaks l) :
    Reads (namedPseudo nested element) (n.toList ++ '(' ::
        (a.toList ++ ' ' :: 'o' :: 'f' :: ' ' :: (SelectorList.chars l ++ ')' :: s)))
      ⟨n, element, some a, some m⟩ t ↔ (m = l ∧ t = s) ∧
        (startsComment a.toList = false ∧ isIndices a.toList = true) ∧
          SelectorList.Each .legible l := by
  have hclose : StartsWithin [')'] (')' :: s) := startsWithin_cons.2 (.head _)
  rw [reads_namedPseudo_open_iff hn]
  simp only [reads_argument_indices_iff htakes hkind]
  constructor
  · rintro ⟨r, ⟨b, k, hb, hab⟩, hr⟩
    cases hab
    have hrest := weight_of_dropBlanks hr hw
    have hcomment : startsComment a.toList = false := by
      refine startsComment_of_reads hnested ?_ hb hrest
      rw [indicesChars, weight_append, weight_append, SelectorList.weight_of_eraseBreaks hm]
      simp only [weight_append, weight_cons, weight_nil]
      omega
    rw [dropBlanks_of_startsTight (startsTight_indices ha hcomment (by simp))] at hb
    obtain ⟨hindices, k, hk, hmk⟩ := (reads_indices_of_iff ha.trimmed ha.ne_nil).1 hb
    cases hmk
    rw [dropBlanks_of_startsTight (hl.tight _), hl.reads_iff hclose hrest hm] at hk
    obtain ⟨⟨rfl, rfl⟩, heach⟩ := hk
    rw [dropBlanks_of_startsTight (startsTight_close s)] at hr
    exact ⟨⟨rfl, (List.cons.inj hr).2.symm⟩, ⟨hcomment, hindices⟩, heach⟩
  · rintro ⟨⟨rfl, rfl⟩, ⟨hcomment, hindices⟩, heach⟩
    rw [dropBlanks_of_startsTight (startsTight_indices ha hcomment (by simp))]
    refine ⟨')' :: t, ⟨a, some m, ?_, rfl⟩, dropBlanks_of_startsTight (startsTight_close t)⟩
    refine (reads_indices_of_iff ha.trimmed ha.ne_nil).2 ⟨hindices, m, ?_, rfl⟩
    rw [dropBlanks_of_startsTight (hl.tight _), hl.reads_iff hclose (Nat.le_refl _) rfl]
    exact ⟨⟨rfl, rfl⟩, heach⟩

end Counting

omit hnested in
theorem reads_pseudo_list_iff {n : String} {element : Bool} {l m : SelectorList}
    (hn : IsName n.toList)
    (htakes : (PseudoKind.ofName (Pseudo.normalize n)).takesSelector element = true)
    (hkind : PseudoKind.ofName (Pseudo.normalize n) ≠ .counting) (hl : ReadsBack nested l)
    (hw : weight s ≤ weight t)
    (hm : SelectorList.eraseBreaks m = SelectorList.eraseBreaks l) :
    Reads (namedPseudo nested element) (n.toList ++ '(' :: (SelectorList.chars l ++ ')' :: s))
      ⟨n, element, none, some m⟩ t ↔ (m = l ∧ t = s) ∧ SelectorList.Each .legible l := by
  have hclose : StartsWithin [')'] (')' :: s) := startsWithin_cons.2 (.head _)
  rw [reads_namedPseudo_open_iff hn, dropBlanks_of_startsTight (hl.tight _)]
  simp only [reads_argument_list_iff htakes hkind]
  constructor
  · rintro ⟨r, ⟨k, hk, hmk⟩, hr⟩
    cases hmk
    rw [hl.reads_iff hclose (weight_of_dropBlanks hr hw) hm] at hk
    obtain ⟨⟨rfl, rfl⟩, heach⟩ := hk
    rw [dropBlanks_of_startsTight (startsTight_close s)] at hr
    exact ⟨⟨rfl, (List.cons.inj hr).2.symm⟩, heach⟩
  · rintro ⟨⟨rfl, rfl⟩, heach⟩
    refine ⟨')' :: t, ⟨m, ?_, rfl⟩, dropBlanks_of_startsTight (startsTight_close t)⟩
    exact (hl.reads_iff hclose (Nat.le_refl _) rfl).2 ⟨⟨rfl, rfl⟩, heach⟩

end Lists

theorem counts_iff {n : String} {element : Bool} {a : Option String} {l : Option SelectorList}
    (hkind : PseudoKind.ofName (Pseudo.normalize n) = .counting) :
    Pseudo.Counts ⟨n, element, a, l⟩ ↔
      (PseudoKind.ofName (Pseudo.normalize n)).takesSelector element = true := by
  change PseudoKind.ofName (Pseudo.normalize n) = .counting ∧ element = false ↔ _
  rw [hkind]
  cases element <;> decide

theorem not_counts {n : String} {element : Bool} {a : Option String} {l : Option SelectorList}
    (htakes : (PseudoKind.ofName (Pseudo.normalize n)).takesSelector element = false) :
    ¬ Pseudo.Counts ⟨n, element, a, l⟩ := by
  intro h
  have hkind : PseudoKind.ofName (Pseudo.normalize n) = .counting := h.1
  rw [counts_iff hkind, htakes] at h
  cases h

/-- Without line breaks, pseudo selectors differ only in their lists. -/
theorem Pseudo.eraseBreaks_eq_iff {n : String} {element : Bool} {a : Option String}
    {l : Option SelectorList} {q : Pseudo} :
    q.eraseBreaks = Pseudo.eraseBreaks ⟨n, element, a, l⟩ ↔ ∃ m, q = ⟨n, element, a, m⟩ ∧
      m.map SelectorList.eraseBreaks = l.map SelectorList.eraseBreaks := by
  obtain ⟨n', element', a', m⟩ := q
  cases m <;> cases l <;> simp [Pseudo.eraseBreaks, and_assoc, eq_comm]

theorem reads_pseudo_tail_iff {p q : Pseudo} {u : List Char} (hn : IsName p.name.toList)
    (hu : p.chars = (if p.element then [':', ':'] else [':']) ++ p.name.toList ++ u) :
    Reads (pseudo nested) (p.chars.tail ++ s) q t ↔
      Reads (namedPseudo nested p.element) (p.name.toList ++ (u ++ s)) q t := by
  have htail : p.chars.tail ++ s =
      (if p.element then [':'] else []) ++ (p.name.toList ++ (u ++ s)) := by
    rw [hu]
    cases p.element <;> simp
  rw [htail, reads_pseudo_name_iff hn]

/-- A pseudo selector is read back exactly if it is legible and what it ends with does not take the
space behind it. -/
theorem reads_pseudo_iff {K : List Char → Prop} {p q : Pseudo}
    (hnested : ∀ r, Takes nested r 0 fun l ↦ weight (SelectorList.chars l))
    (hp : (Simple.pseudo p).Written K) (hl : ∀ l ∈ p.selector, ReadsBack nested l)
    (hs : StartsWithin simpleEnds s) (hw : weight s ≤ weight t)
    (hq : q.eraseBreaks = p.eraseBreaks) :
    Reads (pseudo nested) (p.chars.tail ++ s) q t ↔ (q = p ∧ t = s) ∧
      (Simple.pseudo p).Everywhere .legible ∧
        ((Simple.pseudo p).TakesBlank → s.head? ≠ some ' ') := by
  obtain ⟨n, element, a, l⟩ := p
  obtain ⟨⟨hn, -⟩, hargument⟩ := hp
  obtain ⟨m, rfl, hm⟩ := Pseudo.eraseBreaks_eq_iff.1 hq
  match a, l with
  | none, none =>
    obtain rfl : m = none := by simpa using hm
    rw [reads_pseudo_tail_iff hn (u := []) (by simp [Pseudo.chars]), List.nil_append,
      reads_namedPseudo_iff hn hs]
    simp [Simple.everywhere_pseudo_iff, Shape.legible, Simple.Legible, Pseudo.HasLegibleArgument,
      Simple.TakesBlank, Simple.lastName]
  | some a, none =>
    obtain rfl : m = none := by simpa using hm
    have hiff {P : Prop} : (t = s ∧ P) ↔
        (((⟨n, element, some a, none⟩ : Pseudo) = ⟨n, element, some a, none⟩ ∧ t = s) ∧ P ∧
          ((Simple.pseudo ⟨n, element, some a, none⟩).TakesBlank → s.head? ≠ some ' ')) := by
      simp [Simple.TakesBlank, Simple.lastName]
    rw [reads_pseudo_tail_iff hn (u := '(' :: a.toList ++ [')']) rfl, ← hiff]
    have htext : '(' :: a.toList ++ [')'] ++ s = '(' :: (a.toList ++ ')' :: s) := by simp
    rw [htext]
    rcases hargument with ⟨htakes, hkind, ha⟩ | ⟨htakes, ha⟩
    · have hcounts := (counts_iff (a := some a) (l := none) hkind).2 htakes
      rw [reads_pseudo_indices_iff hnested hn ha htakes hkind hw]
      simp [Simple.everywhere_pseudo_iff, Shape.legible, Simple.Legible, Pseudo.HasLegibleArgument,
        hcounts]
    · rw [reads_pseudo_raw_iff hn ha htakes]
      simp [Simple.everywhere_pseudo_iff, Shape.legible, Simple.Legible, Pseudo.HasLegibleArgument,
        not_counts htakes]
  | none, some l =>
    obtain ⟨m, rfl, herase⟩ : ∃ k, m = some k ∧
        SelectorList.eraseBreaks k = SelectorList.eraseBreaks l := by simpa using hm
    obtain ⟨htakes, hkind⟩ := hargument
    have htext : '(' :: SelectorList.chars l ++ [')'] ++ s =
        '(' :: (SelectorList.chars l ++ ')' :: s) := by simp
    rw [reads_pseudo_tail_iff hn (u := '(' :: SelectorList.chars l ++ [')']) rfl, htext,
      reads_pseudo_list_iff hn htakes hkind (hl l rfl) hw herase]
    simp [Simple.everywhere_pseudo_iff, Shape.legible, Simple.Legible, Pseudo.HasLegibleArgument,
      Simple.TakesBlank, Simple.lastName]
  | some a, some l =>
    obtain ⟨m, rfl, herase⟩ : ∃ k, m = some k ∧
        SelectorList.eraseBreaks k = SelectorList.eraseBreaks l := by simpa using hm
    obtain ⟨htakes, hkind, ha⟩ := hargument
    have hcounts := (counts_iff (a := some a) (l := some l) hkind).2 htakes
    have htext : '(' :: a.toList ++ [' ', 'o', 'f', ' '] ++ SelectorList.chars l ++ [')'] ++ s =
        '(' :: (a.toList ++ ' ' :: 'o' :: 'f' :: ' ' :: (SelectorList.chars l ++ ')' :: s)) := by
      simp
    rw [reads_pseudo_tail_iff hn
      (u := '(' :: a.toList ++ [' ', 'o', 'f', ' '] ++ SelectorList.chars l ++ [')']) rfl, htext,
      reads_pseudo_of_iff hnested hn ha htakes hkind (hl l rfl) hw herase]
    simp [Simple.everywhere_pseudo_iff, Shape.legible, Simple.Legible, Pseudo.HasLegibleArgument,
      Simple.TakesBlank, Simple.lastName, hcounts]

end Parser

end SelectorAlgebra

import Mathlib.Data.List.TakeWhile
import SelectorAlgebra.Proofs.Covering.FixedPoint
import SelectorAlgebra.Proofs.Selector.Written

/-!
# The rules of covering as statements

When a rule says yes, put in terms of the parts of the two sides: how a compound selector is split
at its pseudo-element, what each of its conditions asks for, and when paths are searched at all.
Every later argument about covering takes these statements and leaves the definitions of the rules
closed.
-/

namespace SelectorAlgebra

/-! ### Names in compound selectors -/

/-- The types that a compound selector names, in order. -/
def Compound.typeNames (c : Compound) : List QualifiedName :=
  c.filterMap fun | .type n => some n | _ => none

/-- The ids that a compound selector names, in order. -/
def Compound.idNames (c : Compound) : List String :=
  c.filterMap fun | .id n => some n | _ => none

/-! ### Selectors by themselves -/

/-- The shape of selectors in which no complex selector is bogus, nested ones included. -/
def Shape.proper : Shape where
  complex c := c.isBogus = false

/-- A path of a selector by itself: no combinator follows the last component, and each place holds
at most one. -/
structure Path.IsProper (p : Path) : Prop where
  ends : ∃ front c, p = front ++ [⟨c, []⟩]
  single : ∀ d ∈ p, d.combinators.length ≤ 1

theorem Path.IsProper.ne_nil {p : Path} (h : p.IsProper) : p ≠ [] := by
  obtain ⟨front, c, rfl⟩ := h.ends
  simp

theorem Path.IsProper.append {p q : Path} (hp : ∀ d ∈ p, d.combinators.length ≤ 1)
    (hq : q.IsProper) : (p ++ q).IsProper where
  ends := by
    obtain ⟨front, c, rfl⟩ := hq.ends
    exact ⟨p ++ front, c, by simp⟩
  single := List.forall_mem_append.2 ⟨hp, hq.single⟩

theorem Path.IsProper.tail {c : Component} {p : Path} (h : Path.IsProper (c :: p)) (hp : p ≠ []) :
    p.IsProper where
  ends := by
    obtain ⟨front, d, rfl⟩ := (List.eq_nil_or_concat' p).resolve_left hp
    obtain ⟨front', e, he⟩ := h.ends
    rw [← List.cons_append] at he
    exact ⟨front, e, by rw [(List.append_inj' he rfl).2]⟩
  single := fun d hd ↦ h.single d (.tail _ hd)

theorem Path.hasMultipleCombinators_eq_false_iff {p : Path} :
    Path.hasMultipleCombinators p = false ↔ ∀ d ∈ p, d.combinators.length ≤ 1 := by
  simp [Path.hasMultipleCombinators]

/-- Whether a path ends with a component that no combinator follows. -/
theorem Path.getLast?_any_iff {p : Path} :
    p.getLast?.any (·.combinators.isEmpty) = true ↔ ∃ front c, p = front ++ [⟨c, []⟩] := by
  rw [Option.any_eq_true]
  constructor
  · rintro ⟨⟨c, ks⟩, hd, hks⟩
    obtain rfl : ks = [] := List.isEmpty_iff.1 hks
    obtain ⟨front, rfl⟩ := List.getLast?_eq_some_iff.1 hd
    exact ⟨front, c, rfl⟩
  · rintro ⟨front, c, rfl⟩
    exact ⟨⟨c, []⟩, by simp, rfl⟩

theorem Path.isProper_iff {p : Path} : p.IsProper ↔
    p.getLast?.any (·.combinators.isEmpty) = true ∧ Path.hasMultipleCombinators p = false := by
  rw [Path.getLast?_any_iff, Path.hasMultipleCombinators_eq_false_iff]
  exact ⟨fun h ↦ ⟨h.ends, h.single⟩, fun h ↦ ⟨h.1, h.2⟩⟩

/-- A complex selector that is not bogus is a path of a selector by itself. -/
theorem Complex.isBogus_eq_false_iff {c : Complex} :
    c.isBogus = false ↔ c.leading = [] ∧ Path.IsProper c.components := by
  have hlast : c.components.getLast?.all (fun l ↦ !l.combinators.isEmpty) = false ↔
      ∃ front d, c.components = front ++ [⟨d, []⟩] := by
    rw [← Path.getLast?_any_iff]
    cases c.components.getLast? <;> simp
  simp only [Complex.isBogus, Complex.hasMultipleCombinators, Bool.or_eq_false_iff, hlast,
    Path.hasMultipleCombinators_eq_false_iff, Bool.not_eq_false', List.isEmpty_iff]
  constructor
  · rintro ⟨⟨hnil, hends⟩, -, hsingle⟩
    exact ⟨hnil, hends, hsingle⟩
  · rintro ⟨hnil, hends, hsingle⟩
    exact ⟨⟨hnil, hends⟩, by simp [hnil], hsingle⟩

/-! ### Lists, complex selectors and paths -/

/-- Complex selectors without leading combinators cover each other as their paths do. -/
theorem Complex.covers_iff {c d : Complex} : c.covers d = true ↔
    (c.leading = [] ∧ d.leading = []) ∧ Path.covers c.components d.components = true := by
  rw [Complex.covers_eq, Covering.complex, Bool.and_eq_true, Bool.and_eq_true, List.isEmpty_iff,
    List.isEmpty_iff]
  rfl

/-- A list covers another if each member of the other is covered by some member. -/
theorem Covering.list_iff {r : Covering} {k l : SelectorList} :
    r.list k l = true ↔ ∀ d ∈ l, ∃ c ∈ k, r.complex c d = true := by
  simp only [Covering.list, List.all_eq_true, List.any_eq_true]

theorem Covering.list_iff_covers {k l : SelectorList} :
    whole.list k l = true ↔ SelectorList.covers k l = true := by
  rw [SelectorList.covers_eq, Covering.list]
  simp only [Complex.covers_eq]

theorem SelectorList.covers_iff {k l : SelectorList} :
    SelectorList.covers k l = true ↔ ∀ d ∈ l, ∃ c ∈ k, c.covers d = true := by
  simp only [SelectorList.covers_eq, List.all_eq_true, List.any_eq_true]

theorem Path.IsProper.endsPlain {p : Path} (h : p.IsProper) : Alignment.EndsPlain p := by
  obtain ⟨front, c, rfl⟩ := h.ends
  intro d hd
  obtain rfl : (⟨c, []⟩ : Component) = d := by simpa using hd
  rfl

/-- A path covers another exactly if it is the same, or both are paths of selectors by themselves
and the first can be put on the second. -/
theorem Covering.coversPath_iff {r : Covering} {p q : Path} : r.coversPath p q = true ↔
    (p ≠ [] ∧ Path.same p q = true) ∨ ((p.IsProper ∧ q.IsProper) ∧
      Alignment.Aligned r.compound none p q) := by
  rw [Covering.coversPath]
  simp only [Bool.or_eq_true, Bool.and_eq_true, Bool.not_eq_true', List.isEmpty_eq_false_iff]
  apply or_congr_right
  have hsearch (hp : p.IsProper) (hq : q.IsProper) : Alignment.aligned r.compound p q = true ↔
      Alignment.Aligned r.compound none p q :=
    Alignment.aligned_eq_true_iff hp.endsPlain hq.endsPlain hp.ne_nil
  constructor
  · rintro ⟨⟨⟨⟨hp, hq⟩, hp'⟩, hq'⟩, h⟩
    have hp := Path.isProper_iff.2 ⟨hp, hp'⟩
    have hq := Path.isProper_iff.2 ⟨hq, hq'⟩
    exact ⟨⟨hp, hq⟩, (hsearch hp hq).1 h⟩
  · rintro ⟨⟨hp, hq⟩, h⟩
    have h := (hsearch hp hq).2 h
    obtain ⟨hp, hp'⟩ := Path.isProper_iff.1 hp
    obtain ⟨hq, hq'⟩ := Path.isProper_iff.1 hq
    exact ⟨⟨⟨⟨hp, hq⟩, hp'⟩, hq'⟩, h⟩

theorem Path.covers_iff_aligned {p q : Path} : Path.covers p q = true ↔
    (p ≠ [] ∧ Path.same p q = true) ∨ ((p.IsProper ∧ q.IsProper) ∧
      Alignment.Aligned Compound.coversBehind none p q) := by
  have hwhole : Covering.whole.compound = Compound.coversBehind :=
    funext fun c ↦ funext₂ fun d parents ↦ (Compound.coversBehind_eq c d parents).symm
  rw [Path.covers_eq, Covering.coversPath_iff, hwhole]

/-- A path covers one component exactly if it is one component itself, and its compound selector is
the same or covers the other. -/
theorem Path.covers_single_iff {p : Path} {d : Compound} : Path.covers p [⟨d, []⟩] = true ↔
    ∃ c, p = [⟨c, []⟩] ∧ (Compound.same c d = true ∨ Compound.covers c d = true) := by
  have hproper (c : Compound) : Path.IsProper [⟨c, []⟩] := ⟨⟨[], c, rfl⟩, by simp⟩
  have hfits (c : Compound) : Alignment.fits Compound.coversBehind none ⟨c, []⟩ [] ⟨d, []⟩ =
      Compound.covers c d := rfl
  rw [Path.covers_iff_aligned]
  constructor
  · rintro (⟨hp, hsame⟩ | ⟨⟨hp, -⟩, haligned⟩)
    · obtain ⟨⟨c, ks⟩, q, rfl⟩ := List.exists_cons_of_ne_nil hp
      simp only [Path.same, Bool.and_eq_true, beq_iff_eq] at hsame
      obtain ⟨⟨hc, rfl⟩, hq⟩ := hsame
      cases q with
      | nil => exact ⟨c, rfl, .inl hc⟩
      | cons e q => simp [Path.same] at hq
    · obtain ⟨front, c, rfl⟩ := hp.ends
      have hlength := haligned.length_le
      obtain rfl : front = [] := by
        rw [← List.length_eq_zero_iff]
        simpa using hlength
      exact ⟨c, rfl, .inr ((hfits c).symm.trans (Alignment.aligned_single_iff.1 haligned))⟩
  · rintro ⟨c, rfl, hsame | hcovers⟩
    · exact .inl ⟨by simp, by simp [Path.same, hsame]⟩
    · exact .inr ⟨⟨hproper c, hproper d⟩, Alignment.aligned_single_iff.2 ((hfits c).trans hcovers)⟩

/-- Where no combinator occurs, the compound selectors decide. -/
theorem Complex.covers_component_iff {c d : Compound} {b b' : Bool} :
    Complex.covers ⟨[], [⟨c, []⟩], b⟩ ⟨[], [⟨d, []⟩], b'⟩ = true ↔
      Compound.same c d = true ∨ Compound.covers c d = true := by
  simp [Complex.covers_iff, Path.covers_single_iff]

namespace Covering

variable {r : Covering} {c d : Compound} {parents : Path}

/-! ### Compound selectors -/

theorem atPseudoElement_eq_none_iff :
    atPseudoElement c = none ↔ ∀ s ∈ c, s.isPseudoElement = false := by
  unfold atPseudoElement
  split
  · next h => simpa using List.dropWhile_eq_nil_iff.1 h
  · next e after h =>
    have hmem : e ∈ c := (List.dropWhile_sublist _).subset (h ▸ List.mem_cons_self)
    have he := List.head_dropWhile_not (fun s : Simple ↦ !s.isPseudoElement) (l := c) (by simp [h])
    simp only [h, List.head_cons, Bool.not_eq_false'] at he
    simp only [reduceCtorEq, false_iff, not_forall]
    exact ⟨e, hmem, by simp [he]⟩

/-- A compound selector is split at its first pseudo-element. -/
theorem atPseudoElement_eq_some_iff {before after : Compound} {e : Simple} :
    atPseudoElement c = some (before, e, after) ↔ c = before ++ e :: after ∧
      (∀ s ∈ before, s.isPseudoElement = false) ∧ e.isPseudoElement = true := by
  constructor
  · intro h
    have hbefore : ∀ s ∈ c.takeWhile (fun s ↦ !s.isPseudoElement), s.isPseudoElement = false :=
      fun s hs ↦ by simpa using List.mem_takeWhile_imp hs
    unfold atPseudoElement at h
    split at h
    · cases h
    · next he =>
      cases h
      have hhead := List.head_dropWhile_not (fun s : Simple ↦ !s.isPseudoElement) (l := c)
        (by simp [he])
      refine ⟨?_, hbefore, by simpa [he] using hhead⟩
      rw [← he, List.takeWhile_append_dropWhile]
  · rintro ⟨rfl, hbefore, he⟩
    have hdrop : (before ++ e :: after).dropWhile (fun s ↦ !s.isPseudoElement) = e :: after := by
      rw [List.dropWhile_append_of_pos (by simpa using hbefore)]
      simp [he]
    have htake : (before ++ e :: after).takeWhile (fun s ↦ !s.isPseudoElement) = before := by
      rw [List.takeWhile_append_of_pos (by simpa using hbefore)]
      simp [he]
    simp only [atPseudoElement, hdrop, htake]

/-- What is split at a pseudo-element keeps its shape. -/
theorem each_of_atPseudoElement {σ : Shape} {before after : Compound} {e : Simple}
    (h : atPseudoElement c = some (before, e, after)) (hc : Compound.Each σ c) :
    Compound.Each σ before ∧ e.Everywhere σ ∧ Compound.Each σ after := by
  obtain ⟨rfl, -, -⟩ := atPseudoElement_eq_some_iff.1 h
  simp only [Compound.each_iff, List.forall_mem_append, List.forall_mem_cons] at hc ⊢
  exact hc

/-- What stands before the pseudo-elements of two compound selectors, the pseudo-elements and what
stands after them cover each other; or neither has one, and the conditions do. -/
inductive Compared (r : Covering) (c d : Compound) (parents : Path) : Prop
  | conditions (hc : atPseudoElement c = none) (hd : atPseudoElement d = none)
      (h : r.coversConditions c d parents = true) : Compared r c d parents
  | element {before after before' after' : Compound} {e e' : Simple}
      (hc : atPseudoElement c = some (before, e, after))
      (hd : atPseudoElement d = some (before', e', after')) (he : r.coversSimple e e' = true)
      (hbefore : r.coversConditions before before' parents = true)
      (hafter : r.coversConditions after after' parents = true) : Compared r c d parents

/-- A compound selector covers another exactly if no element can match the other or the two compare
part by part. -/
theorem compound_iff :
    r.compound c d parents = true ↔ isUnsatisfiable d = true ∨ r.Compared c d parents := by
  rw [compound, Bool.or_eq_true]
  apply or_congr_right
  constructor
  · intro h
    split at h
    · next before e after before' e' after' hc hd =>
      simp only [Bool.and_eq_true] at h
      exact .element hc hd h.1.1 h.1.2 h.2
    · next hc hd => exact .conditions hc hd h
    · cases h
  · intro h
    cases h with
    | conditions hc hd h => simpa only [hc, hd] using h
    | element hc hd he hbefore hafter => simp only [hc, hd, he, hbefore, hafter, Bool.and_true]

/-! ### Conditions -/

/-- A simple selector covers one that is the same. -/
theorem coversSimple_of_same {s t : Simple} (h : s.same t = true) : r.coversSimple s t = true := by
  have hsame : r.sameOrArgument s t = true := by rw [sameOrArgument, h, Bool.true_or]
  cases s with
  | universal ns =>
    cases t with
    | universal m =>
      rw [Simple.same, beq_iff_eq] at h
      simp [coversSimple, h]
    | _ => simp [Simple.same] at h
  | type _ | pseudo _ => simp only [coversSimple, hsame, Bool.true_or]
  | _ => exact hsame

/-- A compound selector as conditions are compared with it: an empty one stands for any element. -/
def subject (d : Compound) : Compound :=
  if d.isEmpty then [.universal (some "*")] else d

theorem subject_ne_nil : subject d ≠ [] := by
  unfold subject
  split
  · simp
  · next h => simpa using h

theorem subject_of_ne_nil (h : d ≠ []) : subject d = d := by
  rw [subject, if_neg (by simpa using h)]

theorem mem_subject_iff {s : Simple} (hs : s ≠ .universal (some "*")) :
    s ∈ subject d ↔ s ∈ d := by
  cases d with
  | nil => simpa [subject] using hs
  | cons t d => rw [subject_of_ne_nil (List.cons_ne_nil t d)]

/-- What asks only that there be some element is `*|*`. -/
theorem eq_of_coversSimple_anything {s : Simple}
    (hs : ∀ p l, s = .pseudo p → p.selector = some l → p.isClass = false)
    (h : r.coversSimple s (.universal (some "*")) = true) : s = .universal (some "*") := by
  cases s with
  | universal ns => simpa [coversSimple] using h
  | pseudo p =>
    cases hl : p.selector with
    | none => simp [coversSimple, sameOrArgument, Simple.same, coversArgument, hl] at h
    | some l =>
      simp [coversSimple, sameOrArgument, Simple.same, coversArgument, hl, hs p l rfl hl] at h
  | _ => simp [coversSimple, sameOrArgument, Simple.same, coversArgument] at h

/-- A condition covers a compound selector: a pseudo-class with a list by the rule of its kind, and
any other if it covers one of its conditions. -/
inductive CoversCondition (r : Covering) (d : Compound) (parents : Path) : Simple → Prop
  | list {p : Pseudo} {l : SelectorList} (hl : p.selector = some l) (hclass : p.isClass = true)
      (h : r.coversCompound p l d parents = true) : CoversCondition r d parents (.pseudo p)
  | some {s t : Simple}
      (hs : ∀ p l, s = .pseudo p → p.selector = .some l → p.isClass = false) (ht : t ∈ d)
      (h : r.coversSimple s t = true) : CoversCondition r d parents s

theorem coversConditions_iff : r.coversConditions c d parents = true ↔
    ∀ s ∈ c, r.CoversCondition (subject d) parents s := by
  have hsome (s : Simple) (hs : ∀ p l, s = .pseudo p → p.selector = some l → p.isClass = false) :
      (subject d).any (r.coversSimple s) = true ↔ r.CoversCondition (subject d) parents s := by
    rw [List.any_eq_true]
    constructor
    · exact fun ⟨t, ht, h⟩ ↦ .some hs ht h
    · rintro (⟨hl, hclass, -⟩ | ⟨-, ht, h⟩)
      · cases (hs _ _ rfl hl).symm.trans hclass
      · exact ⟨_, ht, h⟩
  rw [coversConditions, List.all_eq_true]
  refine forall₂_congr fun s _ ↦ ?_
  cases s with
  | pseudo p =>
    cases hl : p.selector with
    | none =>
      simp only [hl]
      refine hsome _ ?_
      rintro q l ⟨⟩ hq
      cases hl.symm.trans hq
    | some l =>
      simp only [hl]
      split
      · next hclass =>
        constructor
        · exact .list hl hclass
        · intro h
          cases h with
          | list hl' _ h =>
            cases hl.symm.trans hl'
            exact h
          | some hs => cases hclass.symm.trans (hs _ _ rfl hl)
      · next hclass =>
        refine hsome _ ?_
        rintro q l ⟨⟩ -
        exact Bool.eq_false_iff.2 hclass
  | _ =>
    refine hsome _ ?_
    rintro q l ⟨⟩

/-- The lists of the pseudo selectors of a name. -/
theorem mem_arguments_iff {name : String} {isClass : Bool} {l : SelectorList} :
    l ∈ arguments c name isClass ↔
      ∃ p, .pseudo p ∈ c ∧ (p.isClass = isClass ∧ p.name = name) ∧ p.selector = some l := by
  rw [arguments, List.mem_filterMap]
  constructor
  · rintro ⟨s, hs, h⟩
    cases s with
    | pseudo p =>
      simp only [Option.ite_none_right_eq_some, Bool.and_eq_true, beq_iff_eq] at h
      exact ⟨p, hs, h⟩
    | _ => cases h
  · rintro ⟨p, hp, hname, hl⟩
    exact ⟨.pseudo p, hp, by simp [hname, hl]⟩

/-- How a simple selector excludes a complex selector with a subject: as another type or id than one
of the subject, or as a negation of the same name with a list that covers the complex selector. -/
inductive Excludes (r : Covering) (name : String) (c : Complex) (d : Compound) : Simple → Prop
  | type {m n : QualifiedName} (hn : .type n ∈ d) (hne : m ≠ n) : Excludes r name c d (.type m)
  | id {m n : String} (hn : .id n ∈ d) (hne : m ≠ n) : Excludes r name c d (.id m)
  | pseudo {q : Pseudo} {l : SelectorList} (hname : q.name = name) (hl : q.selector = some l)
      (h : r.list l [c] = true) : Excludes r name c d (.pseudo q)

theorem excludes_iff {name : String} {c : Complex} {t : Simple} :
    r.excludes name c d t = true ↔ r.Excludes name c d t := by
  constructor
  · intro h
    cases t with
    | type m =>
      obtain ⟨s, hs, hne⟩ := List.any_eq_true.1 h
      cases s with
      | type n => exact .type hs (by simpa using hne)
      | _ => cases hne
    | id m =>
      obtain ⟨s, hs, hne⟩ := List.any_eq_true.1 h
      cases s with
      | id n => exact .id hs (by simpa using hne)
      | _ => cases hne
    | pseudo q =>
      rw [excludes, Bool.and_eq_true, beq_iff_eq, Option.any_eq_true] at h
      obtain ⟨hname, l, hl, h⟩ := h
      exact .pseudo hname hl h
    | _ => cases h
  · intro h
    cases h with
    | type hn hne => exact List.any_eq_true.2 ⟨_, hn, by simpa using hne⟩
    | id hn hne => exact List.any_eq_true.2 ⟨_, hn, by simpa using hne⟩
    | pseudo hname hl h => simp [excludes, hname, hl, h]

/-! ### Compound selectors that no element can match -/

theorem mem_typeNames_iff {n : QualifiedName} : n ∈ Compound.typeNames c ↔ .type n ∈ c := by
  rw [Compound.typeNames, List.mem_filterMap]
  constructor
  · rintro ⟨s, hs, h⟩
    cases s <;> cases h
    exact hs
  · intro h
    exact ⟨.type n, h, rfl⟩

theorem mem_idNames_iff {n : String} : n ∈ Compound.idNames c ↔ .id n ∈ c := by
  rw [Compound.idNames, List.mem_filterMap]
  constructor
  · rintro ⟨s, hs, h⟩
    cases s <;> cases h
    exact hs
  · intro h
    exact ⟨.id n, h, rfl⟩

/-- Each type and each id is compared with the first one. -/
theorem isUnsatisfiable_eq : isUnsatisfiable c =
    ((Compound.typeNames c).head?.any (fun m ↦ (Compound.typeNames c).any fun n ↦
      m.ns == n.ns && m.name != n.name) ||
    (Compound.idNames c).head?.any fun m ↦ (Compound.idNames c).any (m != ·)) := rfl

/-- A compound selector is taken for one that no element can match exactly if two of its ids differ,
or one of its types contradicts the first. -/
theorem isUnsatisfiable_iff : isUnsatisfiable c = true ↔
    (∃ m n, .id m ∈ c ∧ .id n ∈ c ∧ m ≠ n) ∨
      ∃ m n, (Compound.typeNames c).head? = some m ∧ .type n ∈ c ∧
        m.ns = n.ns ∧ m.name ≠ n.name := by
  rw [isUnsatisfiable_eq, Bool.or_comm, Bool.or_eq_true]
  simp only [Option.any_eq_true, List.any_eq_true, Bool.and_eq_true, beq_iff_eq, bne_iff_ne,
    mem_typeNames_iff, mem_idNames_iff]
  apply or_congr
  · constructor
    · rintro ⟨m, hm, n, hn, hne⟩
      exact ⟨m, n, mem_idNames_iff.1 (List.mem_of_head? hm), hn, hne⟩
    · rintro ⟨m, n, hm, hn, hne⟩
      -- if two ids differ, one of them differs from the first
      have hids := List.ne_nil_of_mem (mem_idNames_iff.2 hm)
      refine ⟨(Compound.idNames c).head hids, List.head?_eq_some_head hids, ?_⟩
      by_cases hhead : (Compound.idNames c).head hids = m
      · exact ⟨n, hn, hhead ▸ hne⟩
      · exact ⟨m, hm, hhead⟩
  · constructor
    · rintro ⟨m, hm, n, hn, h⟩
      exact ⟨m, n, hm, hn, h⟩
    · rintro ⟨m, n, hm, hn, h⟩
      exact ⟨m, hm, n, hn, h⟩

/-- Two ids that differ are found wherever they stand. -/
theorem isUnsatisfiable_of_ids {m n : String} (hm : .id m ∈ c) (hn : .id n ∈ c) (hne : m ≠ n) :
    isUnsatisfiable c = true :=
  isUnsatisfiable_iff.2 (.inl ⟨m, n, hm, hn, hne⟩)

/-- What no element can match has two types or two ids with different names. -/
theorem exists_of_isUnsatisfiable (h : isUnsatisfiable c = true) :
    (∃ m n, .type m ∈ c ∧ .type n ∈ c ∧ m.name ≠ n.name) ∨
      ∃ m n, .id m ∈ c ∧ .id n ∈ c ∧ m ≠ n := by
  rcases isUnsatisfiable_iff.1 h with hids | ⟨m, n, hm, hn, -, hne⟩
  · exact .inr hids
  · exact .inl ⟨m, n, mem_typeNames_iff.1 (List.mem_of_head? hm), hn, hne⟩

/-- Where all types are one, it takes two ids to make a compound selector that no element can
match. -/
theorem isUnsatisfiable_iff_of_types (hc : ∀ m n, .type m ∈ c → .type n ∈ c → m = n) :
    isUnsatisfiable c = true ↔ ∃ m n, .id m ∈ c ∧ .id n ∈ c ∧ m ≠ n := by
  constructor
  · intro h
    refine (exists_of_isUnsatisfiable h).resolve_left ?_
    rintro ⟨m, n, hm, hn, hne⟩
    exact hne (by rw [hc m n hm hn])
  · rintro ⟨m, n, hm, hn, hne⟩
    exact isUnsatisfiable_of_ids hm hn hne

/-- In a compound selector that is read only the first condition can be a type. -/
theorem eq_of_type_mem_of_written (hc : Compound.Written c) {m n : QualifiedName}
    (hm : .type m ∈ c) (hn : .type n ∈ c) : m = n := by
  obtain ⟨s, d, rfl, hfollows⟩ := hc
  have hfirst {k : QualifiedName} (hk : .type k ∈ s :: d) : .type k = s :=
    (List.mem_cons.1 hk).resolve_right fun hk ↦ (hfollows (.type k) hk).elim
  exact Simple.type.inj ((hfirst hm).trans (hfirst hn).symm)

theorem isUnsatisfiable_iff_of_written (hc : Compound.Written c) :
    isUnsatisfiable c = true ↔ ∃ m n, .id m ∈ c ∧ .id n ∈ c ∧ m ≠ n :=
  isUnsatisfiable_iff_of_types fun _ _ ↦ eq_of_type_mem_of_written hc

end Covering

/-- Where there are no types, ids and pseudo-elements the conditions decide. -/
theorem Compound.covers_iff_coversConditions {c d : Compound}
    (hc : ∀ s ∈ c, s.isPseudoElement = false)
    (hd : ∀ s ∈ d, s.isPseudoElement = false ∧ (∀ n, s ≠ .type n) ∧ ∀ n, s ≠ .id n) :
    Compound.covers c d = true ↔ Covering.whole.coversConditions c d [] = true := by
  have hsatisfiable : Covering.isUnsatisfiable d ≠ true := by
    intro h
    rcases Covering.exists_of_isUnsatisfiable h with ⟨m, -, hm, -⟩ | ⟨m, -, hm, -⟩
    · exact (hd _ hm).2.1 m rfl
    · exact (hd _ hm).2.2 m rfl
  have hcnone := Covering.atPseudoElement_eq_none_iff.2 hc
  have hdnone := Covering.atPseudoElement_eq_none_iff.2 fun s hs ↦ (hd s hs).1
  rw [Compound.covers, Compound.coversBehind_eq, Covering.compound_iff]
  constructor
  · intro h
    cases h.resolve_left hsatisfiable with
    | conditions _ _ h => exact h
    | element hsome => cases hcnone.symm.trans hsome
  · exact fun h ↦ .inr (.conditions hcnone hdnone h)

end SelectorAlgebra

import Mathlib.Algebra.Order.BigOperators.Group.List
import Mathlib.Algebra.Order.Ring.Nat
import Mathlib.Data.List.Induction
import SelectorAlgebra.Proofs.Selector.Everywhere
import SelectorAlgebra.Proofs.Selector.Text
import SelectorAlgebra.Proofs.Source.Span
import SelectorAlgebra.Proofs.Specificity.Sum

/-!
# Weights within a limit

A machine word holds weights up to a limit, and the sum of two ranges is lost if an end of it is
past the limit. Main statement: a selector whose names are not empty weighs at most fifty times the
size of its text, so all sums that are taken on the way to its weight, the partial ones included,
stay within a limit of fifty times that size.
-/

namespace SelectorAlgebra

variable {limit : ℕ}

namespace Specificity

/-- Whether both ends of a range are within a limit. -/
def AtMost (limit : ℕ) (s : Specificity) : Prop := s.min ≤ limit ∧ s.max ≤ limit

instance (limit : ℕ) (s : Specificity) : Decidable (s.AtMost limit) :=
  inferInstanceAs (Decidable (_ ∧ _))

/-- The sum of two ranges, unless it is past a limit. -/
def addWithin (limit : ℕ) (s t : Specificity) : Option Specificity :=
  if (s + t).AtMost limit then some (s + t) else none

end Specificity

/-! ### Weights by sums within a limit -/

/-- The weight of a pseudo-class with a selector list, if the one sum that it takes is within a
limit. -/
def PseudoKind.weighWithin (limit : ℕ) (kind : PseudoKind) (members : List Specificity) :
    Option Specificity :=
  match kind with
  | counting => Specificity.addWithin limit .ofClass (.hull members)
  | _ => some (kind.weigh members)

mutual

/-- The weight of a simple selector, if all sums on the way are within a limit. -/
def Simple.weighWithin (limit : ℕ) : Simple → Option Specificity
  | .pseudo p => p.weighWithin limit
  | s => some s.specificity

/-- The weight of a pseudo selector; a pseudo-element does not ask what its list weighs. -/
def Pseudo.weighWithin (limit : ℕ) : Pseudo → Option Specificity
  | ⟨name, element, argument, selector⟩ =>
    let bare : Pseudo := ⟨name, element, argument, none⟩
    match selector with
    | none => some bare.specificity
    | some l =>
      if bare.isClass then do bare.kind.weighWithin limit (← SelectorList.weighMembers limit l)
      else some .ofType

/-- The weights of the members of a list. -/
def SelectorList.weighMembers (limit : ℕ) : SelectorList → Option (List Specificity)
  | [] => some []
  | c :: l => do
    let weight ← c.weighWithin limit
    return weight :: (← SelectorList.weighMembers limit l)

/-- The weight of a complex selector. -/
def Complex.weighWithin (limit : ℕ) : Complex → Option Specificity
  | ⟨_, p, _⟩ => Path.weighBehind limit .zero p

/-- The weights of the components of a path, added from left to right to what is in front. -/
def Path.weighBehind (limit : ℕ) : Specificity → Path → Option Specificity
  | front, [] => some front
  | front, ⟨c, _⟩ :: p => do
    let weight ← Compound.weighBehind limit .zero c
    Path.weighBehind limit (← front.addWithin limit weight) p

/-- The weights of the conditions of a compound selector, added from left to right to what is in
front. -/
def Compound.weighBehind (limit : ℕ) : Specificity → Compound → Option Specificity
  | front, [] => some front
  | front, s :: c => do
    let weight ← s.weighWithin limit
    Compound.weighBehind limit (← front.addWithin limit weight) c

end

/-- The range of the weights of all members of a list. -/
def SelectorList.weighWithin (limit : ℕ) (l : SelectorList) : Option Specificity :=
  Specificity.hull <$> SelectorList.weighMembers limit l

/-- The shape of selectors in which the sums at all parts are within a limit and give the weights of
the parts. -/
def Shape.weighed (limit : ℕ) : Shape where
  simple s := s.weighWithin limit = some s.specificity
  compound c := Compound.weighBehind limit .zero c = some (Compound.specificity c)
  complex c := c.weighWithin limit = some c.specificity
  list l := SelectorList.weighWithin limit l = some (SelectorList.specificity l)

namespace Specificity

variable {s t : Specificity}

theorem AtMost.mono {m n : ℕ} (h : s.AtMost m) (hmn : m ≤ n) : s.AtMost n :=
  ⟨Nat.le_trans h.1 hmn, Nat.le_trans h.2 hmn⟩

theorem AtMost.add {m n : ℕ} (hs : s.AtMost m) (ht : t.AtMost n) : (s + t).AtMost (m + n) :=
  ⟨Nat.add_le_add hs.1 ht.1, Nat.add_le_add hs.2 ht.2⟩

theorem AtMost.of_add_left (h : (s + t).AtMost limit) : s.AtMost limit :=
  ⟨Nat.le_trans (Nat.le_add_right _ _) h.1, Nat.le_trans (Nat.le_add_right _ _) h.2⟩

theorem addWithin_eq (h : (s + t).AtMost limit) : s.addWithin limit t = some (s + t) :=
  if_pos h

theorem atMost_hull {l : List Specificity} (h : ∀ s ∈ l, s.AtMost limit) :
    (hull l).AtMost limit := by
  cases l with
  | nil => exact ⟨Nat.zero_le _, Nat.zero_le _⟩
  | cons s l =>
    rw [List.forall_mem_cons] at h
    refine List.foldlRecOn l _ h.1 fun u hu t ht ↦ ?_
    exact ⟨Nat.le_trans (Nat.min_le_left _ _) hu.1, Nat.max_le.2 ⟨hu.2, (h.2 t ht).2⟩⟩

theorem atMost_heaviest {l : List Specificity} (h : ∀ s ∈ l, s.AtMost limit) :
    (heaviest l).AtMost limit := by
  refine List.foldlRecOn l _ ⟨Nat.zero_le _, Nat.zero_le _⟩ fun u hu t ht ↦ ?_
  exact ⟨Nat.max_le.2 ⟨hu.1, (h t ht).1⟩, Nat.max_le.2 ⟨hu.2, (h t ht).2⟩⟩

end Specificity

/-- A pseudo-class with a list weighs at most what a class weighs more than each of its members. -/
theorem PseudoKind.atMost_weigh {kind : PseudoKind} {members : List Specificity}
    (h : ∀ s ∈ members, s.AtMost limit) : (kind.weigh members).AtMost (10 + limit) := by
  have hclass : Specificity.ofClass.AtMost 10 := ⟨Nat.le_refl _, Nat.le_refl _⟩
  have hhull := Specificity.atMost_hull h
  have hle := Nat.le_add_left limit 10
  cases kind with
  | negation => exact (Specificity.atMost_heaviest h).mono hle
  | weightless => exact ⟨Nat.zero_le _, Nat.zero_le _⟩
  | counting => exact hclass.add hhull
  | matching | relational | current | slotted | plain => exact hhull.mono hle

/-! ### Lengths of parts -/

theorem SelectorList.length_chars_le {l : SelectorList} {c : Complex} (h : c ∈ l) :
    c.chars.length ≤ (SelectorList.chars l).length := by
  have hmore {l : SelectorList} (h : c ∈ l) :
      c.chars.length ≤ (SelectorList.moreChars l).length := by
    induction l with
    | nil => cases h
    | cons d l ih =>
      rw [SelectorList.moreChars, List.length_append, List.length_append]
      rcases List.mem_cons.1 h with rfl | h
      · omega
      · have := ih h
        omega
  cases l with
  | nil => cases h
  | cons d l =>
    rw [SelectorList.chars, List.length_append]
    rcases List.mem_cons.1 h with rfl | h
    · exact Nat.le_add_right _ _
    · exact Nat.le_add_left_of_le (hmore h)

theorem Pseudo.length_chars_pos (p : Pseudo) : 0 < p.chars.length := by
  obtain ⟨name, element, argument, selector⟩ := p
  cases element <;> cases argument <;> cases selector <;> exact Nat.succ_pos _

/-- A pseudo selector is longer than its list by the parentheses. -/
theorem Pseudo.length_chars_le {p : Pseudo} {l : SelectorList} (hl : p.selector = some l) :
    (SelectorList.chars l).length + 2 ≤ p.chars.length := by
  obtain ⟨name, element, argument, _⟩ := p
  obtain rfl := hl
  cases argument with
  | none | some _ =>
    simp only [Pseudo.chars, List.length_append, List.length_cons, List.length_nil]
    omega

theorem Compound.length_chars (c : Compound) :
    (Compound.chars c).length = (c.map fun s ↦ s.chars.length).sum := by
  induction c with
  | nil => rfl
  | cons s c ih => rw [Compound.chars, List.length_append, ih, List.map_cons, List.sum_cons]

/-- A complex selector is at least as long as its compound selectors together. -/
theorem Complex.sum_length_le (c : Complex) :
    (c.components.map fun d ↦ (Compound.chars d.compound).length).sum ≤ c.chars.length := by
  obtain ⟨leading, components, lineBreak⟩ := c
  have htexts : (components.map fun d ↦ (Compound.chars d.compound).length).sum ≤
      (Path.texts components).flatten.length := by
    induction components with
    | nil => exact Nat.le_refl _
    | cons d p ih =>
      obtain ⟨c, ks⟩ := d
      simp only [Path.texts, List.flatten_cons, List.length_append, List.map_cons, List.sum_cons]
      omega
  have hspaced :=
    length_flatten_le_spaced (leading.map (fun k ↦ [k.symbol]) ++ Path.texts components)
  rw [List.flatten_append, List.length_append] at hspaced
  rw [Complex.chars]
  exact htexts.trans ((Nat.le_add_left _ _).trans hspaced)

theorem Complex.length_chars_le {c : Complex} {d : Component} (hd : d ∈ c.components) :
    (Compound.chars d.compound).length ≤ c.chars.length :=
  (List.le_sum_of_mem (List.mem_map.2 ⟨d, hd, rfl⟩)).trans c.sum_length_le

theorem Compound.length_chars_le {c : Compound} {s : Simple} (hs : s ∈ c) :
    s.chars.length ≤ (Compound.chars c).length :=
  Compound.length_chars c ▸ List.le_sum_of_mem (List.mem_map_of_mem hs)

/-! ### Weight and size of the text -/

/-- The shape of selectors whose names are not empty. -/
def Shape.named : Shape where
  simple
    | .type n => n.name ≠ ""
    | .className n | .id n | .placeholder n => n ≠ ""
    | .attribute a => a.name.name ≠ ""
    | .pseudo p => p.name ≠ ""
    | .universal _ | .parent _ => True

theorem length_toList_pos {n : String} (h : n ≠ "") : 0 < n.toList.length := by
  rwa [List.length_pos_iff, ne_eq, String.toList_eq_nil_iff]

/-- What is put together from parts weighs at most fifty times their length if each part does. -/
theorem Specificity.atMost_sum {ι : Type} {w : ι → Specificity} {length : ι → ℕ} {l : List ι}
    (h : ∀ i ∈ l, (w i).AtMost (50 * length i)) :
    (sum (l.map w)).AtMost (50 * (l.map length).sum) := by
  induction l with
  | nil => exact ⟨Nat.le_refl _, Nat.le_refl _⟩
  | cons i l ih =>
    rw [List.forall_mem_cons] at h
    rw [List.map_cons, List.map_cons, List.sum_cons, Nat.mul_add]
    exact h.1.add (ih h.2)

theorem Compound.atMost_specificity {c : Compound}
    (h : ∀ s ∈ c, s.specificity.AtMost (50 * s.chars.length)) :
    (Compound.specificity c).AtMost (50 * (Compound.chars c).length) := by
  rw [Compound.specificity_eq, Compound.length_chars]
  exact Specificity.atMost_sum h

theorem Complex.atMost_specificity {c : Complex}
    (h : ∀ d ∈ c.components, ∀ s ∈ d.compound, s.specificity.AtMost (50 * s.chars.length)) :
    c.specificity.AtMost (50 * c.chars.length) := by
  rw [Complex.specificity_eq, Path.specificity_eq]
  refine (Specificity.atMost_sum fun d hd ↦ ?_).mono (Nat.mul_le_mul_left 50 c.sum_length_le)
  exact Compound.atMost_specificity (h d hd)

theorem Pseudo.atMost_specificity {p : Pseudo} (h : ∀ l, p.selector = some l →
    ∀ c ∈ l, c.specificity.AtMost (50 * c.chars.length)) :
    p.specificity.AtMost (50 * p.chars.length) := by
  have hpos := p.length_chars_pos
  have hexact {n : ℕ} (hn : n ≤ 50 * p.chars.length) :
      (Specificity.exact n).AtMost (50 * p.chars.length) := ⟨hn, hn⟩
  cases hclass : p.isClass with
  | false =>
    rw [Pseudo.specificity_of_element hclass]
    exact hexact (by omega)
  | true =>
    cases hl : p.selector with
    | none =>
      rw [Pseudo.specificity_of_bare hclass hl]
      exact hexact (by omega)
    | some l =>
      have hmembers : ∀ s ∈ l.map Complex.specificity,
          s.AtMost (50 * (SelectorList.chars l).length) := by
        intro s hs
        obtain ⟨c, hc, rfl⟩ := List.mem_map.1 hs
        exact (h l hl c hc).mono (Nat.mul_le_mul_left 50 (SelectorList.length_chars_le hc))
      have hlength := Pseudo.length_chars_le hl
      rw [Pseudo.specificity_of_list hclass hl]
      exact (PseudoKind.atMost_weigh hmembers).mono (by omega)

theorem Simple.atMost_specificity {s : Simple} (hname : Shape.named.simple s)
    (h : ∀ p, s = .pseudo p → p.specificity.AtMost (50 * p.chars.length)) :
    s.specificity.AtMost (50 * s.chars.length) := by
  have hexact {n : ℕ} (hn : n ≤ 50 * s.chars.length) :
      (Specificity.exact n).AtMost (50 * s.chars.length) := ⟨hn, hn⟩
  match s with
  | .pseudo p => exact h p rfl
  | .universal _ | .parent _ => exact hexact (Nat.zero_le _)
  | .type n =>
    have := length_toList_pos hname
    refine hexact ?_
    simp only [Simple.chars, QualifiedName.chars, List.length_append]
    omega
  | .className _ | .placeholder _ =>
    refine hexact ?_
    simp only [Simple.chars, List.length_cons]
    omega
  | .attribute _ =>
    refine hexact ?_
    simp only [Simple.chars, AttributeSelector.chars, List.length_cons, List.length_append]
    omega
  | .id _ =>
    have := length_toList_pos hname
    refine hexact ?_
    simp only [Simple.chars, List.length_cons]
    omega

theorem inductionStep_atMost : InductionStep
    (fun s ↦ s.Everywhere .named → s.specificity.AtMost (50 * s.chars.length))
    (fun c ↦ c.Everywhere .named → c.specificity.AtMost (50 * c.chars.length)) where
  simple s ih h := by
    refine Simple.atMost_specificity h.simple ?_
    rintro p rfl
    exact Pseudo.atMost_specificity fun l hl c hc ↦ ih p rfl l hl c hc (h.member hl hc)
  complex c ih h := by
    exact Complex.atMost_specificity fun d hd s hs ↦ ih d hd s hs (h.condition hd hs)

theorem SelectorList.atMost_specificity {l : SelectorList} (h : SelectorList.Each .named l) :
    (SelectorList.specificity l).AtMost (50 * (SelectorList.chars l).length) := by
  rw [SelectorList.specificity, SelectorList.memberSpecificities_eq_map]
  refine Specificity.atMost_hull fun s hs ↦ ?_
  obtain ⟨c, hc, rfl⟩ := List.mem_map.1 hs
  have hmember := Complex.induction inductionStep_atMost c (SelectorList.each_iff.1 h c hc)
  exact hmember.mono (Nat.mul_le_mul_left 50 (SelectorList.length_chars_le hc))

/-! ### Sums within a limit -/

theorem Compound.weighBehind_eq {front : Specificity} {c : Compound}
    (hc : ∀ s ∈ c, s.weighWithin limit = some s.specificity)
    (h : (front + Compound.specificity c).AtMost limit) :
    Compound.weighBehind limit front c = some (front + Compound.specificity c) := by
  induction c generalizing front with
  | nil => exact congrArg some (add_zero front).symm
  | cons s c ih =>
    rw [List.forall_mem_cons] at hc
    rw [Compound.specificity, ← add_assoc] at h ⊢
    rw [Compound.weighBehind, hc.1, ← ih hc.2 h]
    change (front.addWithin limit s.specificity >>= fun sum ↦ Compound.weighBehind limit sum c) = _
    rw [Specificity.addWithin_eq h.of_add_left]
    rfl

theorem Path.weighBehind_eq {front : Specificity} {p : Path}
    (hp : ∀ d ∈ p, Compound.weighBehind limit .zero d.compound =
      some (Compound.specificity d.compound))
    (h : (front + Path.specificity p).AtMost limit) :
    Path.weighBehind limit front p = some (front + Path.specificity p) := by
  induction p generalizing front with
  | nil => exact congrArg some (add_zero front).symm
  | cons d p ih =>
    obtain ⟨c, ks⟩ := d
    rw [List.forall_mem_cons] at hp
    rw [Path.specificity, ← add_assoc] at h ⊢
    rw [Path.weighBehind, hp.1, ← ih hp.2 h]
    change (front.addWithin limit (Compound.specificity c) >>= fun sum ↦
      Path.weighBehind limit sum p) = _
    rw [Specificity.addWithin_eq h.of_add_left]
    rfl

/-- The first sum is that with nothing in front. -/
theorem Compound.weighBehind_zero {c : Compound}
    (hc : ∀ s ∈ c, s.weighWithin limit = some s.specificity)
    (h : (Compound.specificity c).AtMost limit) :
    Compound.weighBehind limit .zero c = some (Compound.specificity c) := by
  rw [← zero_add (Compound.specificity c)] at h ⊢
  exact Compound.weighBehind_eq hc h

theorem Complex.weighWithin_eq {c : Complex}
    (hc : ∀ d ∈ c.components, Compound.weighBehind limit .zero d.compound =
      some (Compound.specificity d.compound))
    (h : c.specificity.AtMost limit) : c.weighWithin limit = some c.specificity := by
  obtain ⟨leading, components, lineBreak⟩ := c
  rw [Complex.specificity, ← zero_add (Path.specificity components)] at h ⊢
  exact Path.weighBehind_eq hc h

theorem SelectorList.weighMembers_eq {l : SelectorList}
    (h : ∀ c ∈ l, c.weighWithin limit = some c.specificity) :
    SelectorList.weighMembers limit l = some (SelectorList.memberSpecificities l) := by
  induction l with
  | nil => rfl
  | cons c l ih =>
    rw [List.forall_mem_cons] at h
    rw [SelectorList.weighMembers, h.1, ih h.2]
    rfl

theorem SelectorList.weighWithin_eq {l : SelectorList}
    (h : ∀ c ∈ l, c.weighWithin limit = some c.specificity) :
    SelectorList.weighWithin limit l = some (SelectorList.specificity l) := by
  rw [SelectorList.weighWithin, SelectorList.weighMembers_eq h]
  rfl

theorem PseudoKind.weighWithin_eq {kind : PseudoKind} {members : List Specificity}
    (h : (kind.weigh members).AtMost limit) :
    kind.weighWithin limit members = some (kind.weigh members) := by
  cases kind with
  | counting => exact Specificity.addWithin_eq h
  | _ => rfl

theorem Pseudo.weighWithin_eq {p : Pseudo} (hl : ∀ l, p.selector = some l →
      ∀ c ∈ l, c.weighWithin limit = some c.specificity) (h : p.specificity.AtMost limit) :
    p.weighWithin limit = some p.specificity := by
  obtain ⟨name, element, argument, _ | l⟩ := p
  · rfl
  · have hmembers := SelectorList.weighMembers_eq (hl l rfl)
    simp only [Pseudo.weighWithin, Pseudo.specificity, hmembers] at h ⊢
    split
    · next hclass =>
      rw [if_pos hclass] at h
      exact PseudoKind.weighWithin_eq h
    · rfl

theorem inductionStep_weighed (limit : ℕ) : InductionStep
    (fun s ↦ s.Everywhere .named → 50 * s.chars.length ≤ limit → s.Everywhere (.weighed limit))
    (fun c ↦ c.Everywhere .named → 50 * c.chars.length ≤ limit →
      c.Everywhere (.weighed limit)) where
  simple s ih h hlimit := by
    match s with
    | .pseudo p =>
      have hmembers : ∀ l, p.selector = some l → ∀ c ∈ l, c.Everywhere (.weighed limit) := by
        intro l hl c hc
        have hc' := SelectorList.length_chars_le hc
        have hl' := Pseudo.length_chars_le hl
        rw [Simple.chars] at hlimit
        exact ih p rfl l hl c hc (h.member hl hc) (by omega)
      have hweights (l : SelectorList) (hl : p.selector = some l) (c : Complex) (hc : c ∈ l) :
          c.weighWithin limit = some c.specificity :=
        (hmembers l hl c hc).complex
      have hbound := Simple.induction inductionStep_atMost _ h
      refine Simple.everywhere_pseudo_iff.2
        ⟨Pseudo.weighWithin_eq hweights (hbound.mono hlimit), fun l hl ↦ ?_⟩
      exact ⟨SelectorList.weighWithin_eq (hweights l hl), SelectorList.each_iff.2 (hmembers l hl)⟩
    | .universal _ | .type _ | .className _ | .id _ | .attribute _ | .placeholder _
    | .parent _ => rfl
  complex c ih h hlimit := by
    have hlength (d : Component) (hd : d ∈ c.components) :
        50 * (Compound.chars d.compound).length ≤ limit :=
      (Nat.mul_le_mul_left 50 (Complex.length_chars_le hd)).trans hlimit
    have hconditions (d : Component) (hd : d ∈ c.components) :
        ∀ s ∈ d.compound, s.Everywhere (.weighed limit) := fun s hs ↦
      ih d hd s hs (h.condition hd hs)
        ((Nat.mul_le_mul_left 50 (Compound.length_chars_le hs)).trans (hlength d hd))
    have hcompounds (d : Component) (hd : d ∈ c.components) :
        Compound.weighBehind limit .zero d.compound = some (Compound.specificity d.compound) := by
      have hbound := Compound.atMost_specificity fun s hs ↦
        Simple.induction inductionStep_atMost s (h.condition hd hs)
      exact Compound.weighBehind_zero (fun s hs ↦ (hconditions d hd s hs).simple)
        (hbound.mono (hlength d hd))
    have hbound := Complex.induction inductionStep_atMost c h
    refine Complex.everywhere_iff.2
      ⟨Complex.weighWithin_eq hcompounds (hbound.mono hlimit), trivial, Path.each_iff.2 ?_⟩
    exact fun d hd ↦ ⟨hcompounds d hd, Compound.each_iff.2 (hconditions d hd)⟩

/-- Where fifty times the length of its text is within a limit, all sums are. -/
theorem SelectorList.everywhere_weighed {l : SelectorList} (h : SelectorList.Each .named l)
    (hlimit : 50 * (SelectorList.chars l).length ≤ limit) :
    SelectorList.Everywhere (.weighed limit) l := by
  have hmembers : ∀ c ∈ l, c.Everywhere (.weighed limit) := fun c hc ↦
    Complex.induction (inductionStep_weighed limit) c (SelectorList.each_iff.1 h c hc)
      ((Nat.mul_le_mul_left 50 (SelectorList.length_chars_le hc)).trans hlimit)
  exact ⟨SelectorList.weighWithin_eq fun c hc ↦ (hmembers c hc).complex,
    SelectorList.each_iff.2 hmembers⟩

/-- A text has no more characters than bytes. -/
theorem length_le_utf8ByteSize (s : List Char) : s.length ≤ (String.ofList s).utf8ByteSize := by
  induction s with
  | nil => exact Nat.zero_le _
  | cons c s ih =>
    have := c.utf8Size_pos
    rw [utf8ByteSize_ofList_cons, List.length_cons]
    omega

/-- A list in which no name is empty weighs at most fifty times the size of its text in bytes; so if
that is no more than 85899345, no sum at any part of it is past what 32 bits hold. -/
theorem SelectorList.max_specificity_le {l : SelectorList} (h : SelectorList.Everywhere .named l) :
    (SelectorList.specificity l).max ≤ 50 * (SelectorList.text l).utf8ByteSize ∧
      ((SelectorList.text l).utf8ByteSize ≤ 85899345 →
        SelectorList.Everywhere (.weighed (2 ^ 32 - 1)) l) := by
  have hsize := length_le_utf8ByteSize (SelectorList.chars l)
  refine ⟨(SelectorList.atMost_specificity h.2).2.trans (Nat.mul_le_mul_left 50 hsize), fun hl ↦ ?_⟩
  apply SelectorList.everywhere_weighed h.2
  rw [SelectorList.text] at hl
  omega

/-- The list `#a:nth-child(2n of :is(.b, #c)), é::slotted(:not(#d))`. -/
theorem SelectorList.max_specificity_le_nested :
    let l : SelectorList :=
      [.ofCompound [.id "a", .pseudo ⟨"nth-child", false, some "2n", some
        [.ofCompound [.pseudo ⟨"is", false, none, some
          [.ofCompound [.className "b"], .ofCompound [.id "c"]]⟩]]⟩],
      .ofCompound [.type ⟨none, "é"⟩, .pseudo ⟨"slotted", true, none, some
        [.ofCompound [.pseudo ⟨"not", false, none, some [.ofCompound [.id "d"]]⟩]]⟩]]
    SelectorList.Everywhere .named l ∧ SelectorList.specificity l = ⟨2, 210⟩ ∧
      (SelectorList.specificity l).max ≤ 50 * (SelectorList.text l).utf8ByteSize ∧
      SelectorList.Everywhere (.weighed (2 ^ 32 - 1)) l := by
  intro l
  have hnamed : SelectorList.Everywhere .named l := by
    simp [l, SelectorList.Everywhere, SelectorList.Each, Complex.Everywhere, Path.Each,
      Compound.Each, Simple.Everywhere, Pseudo.Everywhere, Shape.named, Complex.ofCompound]
  have hsize : (SelectorList.text l).utf8ByteSize ≤ 85899345 := by decide +kernel
  obtain ⟨hmax, hweighed⟩ := max_specificity_le hnamed
  exact ⟨hnamed, by decide +kernel, hmax, hweighed hsize⟩

/-- A sum past the limit is lost. -/
example : Simple.weighWithin 105
    (.pseudo ⟨"nth-child", false, some "2n", some [.ofCompound [.id "a"]]⟩) = none := by decide

end SelectorAlgebra

import SelectorAlgebra.Proofs.Selector.Induction
import SelectorAlgebra.Selector.Parent

/-!
# Properties of all parts of a selector

A shape asks something of each simple selector, compound selector, complex selector and selector
list; a selector has the shape if all its parts do, those inside pseudo selectors too.
-/

namespace SelectorAlgebra

/-- What is asked of the parts of a selector, by their sort. -/
structure Shape where
  simple : Simple → Prop := fun _ ↦ True
  compound : Compound → Prop := fun _ ↦ True
  path : Path → Prop := fun _ ↦ True
  complex : Complex → Prop := fun _ ↦ True
  list : SelectorList → Prop := fun _ ↦ True

variable (σ : Shape)

mutual

/-- A simple selector and all parts of it have a shape. -/
def Simple.Everywhere : Simple → Prop
  | .pseudo p => σ.simple (.pseudo p) ∧ p.Everywhere
  | s => σ.simple s

/-- The selector list of a pseudo selector has a shape. -/
def Pseudo.Everywhere : Pseudo → Prop
  | ⟨_, _, _, none⟩ => True
  | ⟨_, _, _, some l⟩ => σ.list l ∧ SelectorList.Each l

/-- All members of a list have a shape. -/
def SelectorList.Each : SelectorList → Prop
  | [] => True
  | c :: l => c.Everywhere ∧ SelectorList.Each l

/-- A complex selector and all parts of it have a shape. -/
def Complex.Everywhere : Complex → Prop
  | ⟨k, p, b⟩ => σ.complex ⟨k, p, b⟩ ∧ σ.path p ∧ Path.Each p

/-- All components of a path have a shape. -/
def Path.Each : Path → Prop
  | [] => True
  | ⟨c, _⟩ :: p => (σ.compound c ∧ Compound.Each c) ∧ Path.Each p

/-- All conditions of a compound selector have a shape. -/
def Compound.Each : Compound → Prop
  | [] => True
  | s :: c => s.Everywhere ∧ Compound.Each c

end

/-- A selector list and all parts of it have a shape. -/
def SelectorList.Everywhere (l : SelectorList) : Prop := σ.list l ∧ SelectorList.Each σ l

variable {σ τ : Shape}

theorem SelectorList.each_iff {l : SelectorList} :
    SelectorList.Each σ l ↔ ∀ c ∈ l, c.Everywhere σ := by
  induction l with
  | nil => simp [SelectorList.Each]
  | cons c l ih => simp [SelectorList.Each, ih]

theorem Path.each_iff {p : Path} :
    Path.Each σ p ↔ ∀ d ∈ p, σ.compound d.compound ∧ Compound.Each σ d.compound := by
  induction p with
  | nil => simp [Path.Each]
  | cons d p ih =>
    cases d
    simp [Path.Each, ih]

theorem Compound.each_iff {c : Compound} : Compound.Each σ c ↔ ∀ s ∈ c, s.Everywhere σ := by
  induction c with
  | nil => simp [Compound.Each]
  | cons s c ih => simp [Compound.Each, ih]

theorem Complex.everywhere_iff {c : Complex} :
    c.Everywhere σ ↔ σ.complex c ∧ σ.path c.components ∧ Path.Each σ c.components := by
  cases c
  simp [Complex.Everywhere]

theorem Simple.everywhere_pseudo_iff {p : Pseudo} : (Simple.pseudo p).Everywhere σ ↔
    σ.simple (.pseudo p) ∧ ∀ l, p.selector = some l → σ.list l ∧ SelectorList.Each σ l := by
  obtain ⟨_, _, _, _ | l⟩ := p <;> simp [Simple.Everywhere, Pseudo.Everywhere]

/-- A simple selector of a shape has what the shape asks of simple selectors. -/
theorem Simple.Everywhere.simple {s : Simple} (h : s.Everywhere σ) : σ.simple s := by
  cases s with
  | pseudo p => exact (Simple.everywhere_pseudo_iff.1 h).1
  | _ => exact h

theorem Simple.Everywhere.list {p : Pseudo} {l : SelectorList}
    (h : (Simple.pseudo p).Everywhere σ) (hl : p.selector = some l) : l.Everywhere σ :=
  (Simple.everywhere_pseudo_iff.1 h).2 l hl

theorem Simple.Everywhere.member {p : Pseudo} {l : SelectorList} {c : Complex}
    (h : (Simple.pseudo p).Everywhere σ) (hl : p.selector = some l) (hc : c ∈ l) :
    c.Everywhere σ :=
  SelectorList.each_iff.1 (h.list hl).2 c hc

theorem Complex.Everywhere.complex {c : Complex} (h : c.Everywhere σ) : σ.complex c :=
  (Complex.everywhere_iff.1 h).1

theorem Complex.Everywhere.components {c : Complex} (h : c.Everywhere σ) :
    Path.Each σ c.components :=
  (Complex.everywhere_iff.1 h).2.2

theorem Complex.Everywhere.component {c : Complex} {d : Component} (h : c.Everywhere σ)
    (hd : d ∈ c.components) : σ.compound d.compound ∧ Compound.Each σ d.compound :=
  Path.each_iff.1 h.components d hd

theorem Complex.Everywhere.condition {c : Complex} {d : Component} {s : Simple}
    (h : c.Everywhere σ) (hd : d ∈ c.components) (hs : s ∈ d.compound) : s.Everywhere σ :=
  Compound.each_iff.1 (h.component hd).2 s hs

/-- A third shape asks for no more than two shapes together; of a complex selector, all its parts
may be used. -/
structure Shape.Entail (σ τ υ : Shape) : Prop where
  simple : ∀ s, σ.simple s → τ.simple s → υ.simple s := by intros; trivial
  compound : ∀ c, σ.compound c → τ.compound c → υ.compound c := by intros; trivial
  path : ∀ p, σ.path p → τ.path p → υ.path p := by intros; trivial
  complex : ∀ c, Complex.Everywhere σ c → Complex.Everywhere τ c → υ.complex c := by
    intros; trivial
  list : ∀ l, σ.list l → τ.list l → υ.list l := by intros; trivial

variable {υ : Shape}

mutual

theorem Simple.Everywhere.entail (h : Shape.Entail σ τ υ) {s : Simple}
    (hs : s.Everywhere σ) (ht : s.Everywhere τ) : s.Everywhere υ := by
  match s with
  | .pseudo p => exact ⟨h.simple _ hs.1 ht.1, Pseudo.Everywhere.entail h hs.2 ht.2⟩
  | .universal _ | .type _ | .className _ | .id _ | .attribute _ | .placeholder _ | .parent _ =>
    exact h.simple _ hs ht

theorem Pseudo.Everywhere.entail (h : Shape.Entail σ τ υ) {p : Pseudo}
    (hs : p.Everywhere σ) (ht : p.Everywhere τ) : p.Everywhere υ := by
  match p with
  | ⟨_, _, _, none⟩ => trivial
  | ⟨_, _, _, some l⟩ => exact ⟨h.list l hs.1 ht.1, SelectorList.Each.entail h hs.2 ht.2⟩

theorem SelectorList.Each.entail (h : Shape.Entail σ τ υ) {l : SelectorList}
    (hs : SelectorList.Each σ l) (ht : SelectorList.Each τ l) : SelectorList.Each υ l := by
  match l with
  | [] => trivial
  | _ :: _ => exact ⟨Complex.Everywhere.entail h hs.1 ht.1, SelectorList.Each.entail h hs.2 ht.2⟩

theorem Complex.Everywhere.entail (h : Shape.Entail σ τ υ) {c : Complex}
    (hs : c.Everywhere σ) (ht : c.Everywhere τ) : c.Everywhere υ := by
  match c with
  | ⟨_, p, _⟩ =>
    exact ⟨h.complex _ hs ht, h.path p hs.2.1 ht.2.1, Path.Each.entail h hs.2.2 ht.2.2⟩

theorem Path.Each.entail (h : Shape.Entail σ τ υ) {p : Path}
    (hs : Path.Each σ p) (ht : Path.Each τ p) : Path.Each υ p := by
  match p with
  | [] => trivial
  | ⟨c, _⟩ :: _ =>
    exact ⟨⟨h.compound c hs.1.1 ht.1.1, Compound.Each.entail h hs.1.2 ht.1.2⟩,
      Path.Each.entail h hs.2 ht.2⟩

theorem Compound.Each.entail (h : Shape.Entail σ τ υ) {c : Compound}
    (hs : Compound.Each σ c) (ht : Compound.Each τ c) : Compound.Each υ c := by
  match c with
  | [] => trivial
  | _ :: _ => exact ⟨Simple.Everywhere.entail h hs.1 ht.1, Compound.Each.entail h hs.2 ht.2⟩

end

/-! ### The compound selectors in a list -/

/-- The compound selectors in a list: those of the components of its members, and those in the lists
that pseudo selectors carry there. -/
inductive SelectorList.Holds : SelectorList → Compound → Prop
  | component {l : SelectorList} {c : Complex} {d : Component} (hc : c ∈ l)
      (hd : d ∈ c.components) : Holds l d.compound
  | nested {l k : SelectorList} {c : Complex} {d : Component} {p : Pseudo} {b : Compound}
      (hc : c ∈ l) (hd : d ∈ c.components) (hp : .pseudo p ∈ d.compound)
      (hk : p.selector = some k) (h : Holds k b) : Holds l b

theorem SelectorList.Holds.of_mem {l : SelectorList} {c : Complex} {b : Compound}
    (h : SelectorList.Holds [c] b) (hc : c ∈ l) : l.Holds b := by
  cases h with
  | component hmem hd => exact .component (List.mem_singleton.1 hmem ▸ hc) hd
  | nested hmem hd hp hk h => exact .nested (List.mem_singleton.1 hmem ▸ hc) hd hp hk h

theorem inductionStep_holds (P : Compound → Prop) : InductionStep
    (fun s ↦ (∀ p l, s = .pseudo p → p.selector = some l → ∀ b, SelectorList.Holds l b → P b) →
      s.Everywhere { compound := P })
    (fun c ↦ (∀ b, SelectorList.Holds [c] b → P b) → c.Everywhere { compound := P }) where
  simple s ih h := by
    cases s with
    | pseudo p =>
      refine Simple.everywhere_pseudo_iff.2 ⟨trivial, fun l hl ↦ ⟨trivial, ?_⟩⟩
      refine SelectorList.each_iff.2 fun c hc ↦ ih p rfl l hl c hc fun b hb ↦ ?_
      exact h p l rfl hl b (hb.of_mem hc)
    | _ => trivial
  complex c ih h := by
    have hc : c ∈ [c] := List.mem_singleton_self c
    refine Complex.everywhere_iff.2 ⟨trivial, trivial, Path.each_iff.2 fun d hd ↦ ?_⟩
    refine ⟨h _ (.component hc hd), Compound.each_iff.2 fun s hs ↦ ih d hd s hs ?_⟩
    rintro p l rfl hl b hb
    exact h b (.nested hc hd hs hl hb)

/-- A shape that asks something of compound selectors only asks it of all that are in a list. -/
theorem SelectorList.each_iff_forall_holds {P : Compound → Prop} {l : SelectorList} :
    SelectorList.Each { compound := P } l ↔ ∀ c, l.Holds c → P c := by
  constructor
  · intro h c hc
    induction hc with
    | component hc hd => exact ((SelectorList.each_iff.1 h _ hc).component hd).1
    | nested hc hd hp hk _ ih =>
      have hpseudo := (SelectorList.each_iff.1 h _ hc).condition hd hp
      exact ih (hpseudo.list hk).2
  · intro h
    refine SelectorList.each_iff.2 fun c hc ↦ ?_
    apply Complex.induction (inductionStep_holds P) c
    intro b hb
    exact h b (hb.of_mem hc)

/-! ### Selectors without parent selectors -/

/-- Whether a simple selector is something else than a parent selector. -/
def Simple.IsOther (s : Simple) : Prop := ∀ suffix, s ≠ .parent suffix

/-- The shape of selectors without parent selectors. -/
def Shape.withoutParent : Shape where
  simple := Simple.IsOther

mutual

/-- A selector has no parent selector if none of its parts is one. -/
theorem Simple.everywhere_withoutParent_iff {s : Simple} :
    s.Everywhere .withoutParent ↔ s.hasParent = false := by
  match s with
  | .parent suffix => simp [Simple.Everywhere, Shape.withoutParent, Simple.IsOther, Simple.hasParent]
  | .pseudo p =>
    rw [Simple.Everywhere, Pseudo.everywhere_withoutParent_iff, Simple.hasParent]
    exact and_iff_right fun _ h ↦ by cases h
  | .universal _ | .type _ | .className _ | .id _ | .attribute _ | .placeholder _ =>
    simp [Simple.Everywhere, Shape.withoutParent, Simple.IsOther, Simple.hasParent]

theorem Pseudo.everywhere_withoutParent_iff {p : Pseudo} :
    p.Everywhere .withoutParent ↔ p.hasParent = false := by
  match p with
  | ⟨_, _, _, none⟩ => simp [Pseudo.Everywhere, Pseudo.hasParent]
  | ⟨_, _, _, some l⟩ =>
    rw [Pseudo.Everywhere, SelectorList.each_withoutParent_iff, Pseudo.hasParent]
    exact and_iff_right trivial

theorem SelectorList.each_withoutParent_iff {l : SelectorList} :
    SelectorList.Each .withoutParent l ↔ SelectorList.hasParent l = false := by
  match l with
  | [] => simp [SelectorList.Each, SelectorList.hasParent]
  | c :: l =>
    rw [SelectorList.Each, Complex.everywhere_withoutParent_iff, SelectorList.each_withoutParent_iff,
      SelectorList.hasParent, Bool.or_eq_false_iff]

theorem Complex.everywhere_withoutParent_iff {c : Complex} :
    c.Everywhere .withoutParent ↔ c.hasParent = false := by
  match c with
  | ⟨_, p, _⟩ =>
    rw [Complex.Everywhere, Path.each_withoutParent_iff, Complex.hasParent]
    simp [Shape.withoutParent]

theorem Path.each_withoutParent_iff {p : Path} :
    Path.Each .withoutParent p ↔ Path.hasParent p = false := by
  match p with
  | [] => simp [Path.Each, Path.hasParent]
  | ⟨c, _⟩ :: p =>
    rw [Path.Each, Compound.each_withoutParent_iff, Path.each_withoutParent_iff, Path.hasParent,
      Bool.or_eq_false_iff]
    simp [Shape.withoutParent]

theorem Compound.each_withoutParent_iff {c : Compound} :
    Compound.Each .withoutParent c ↔ Compound.hasParent c = false := by
  match c with
  | [] => simp [Compound.Each, Compound.hasParent]
  | s :: c =>
    rw [Compound.Each, Simple.everywhere_withoutParent_iff, Compound.each_withoutParent_iff,
      Compound.hasParent, Bool.or_eq_false_iff]

end

end SelectorAlgebra

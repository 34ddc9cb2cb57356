import SelectorAlgebra.Selector.Equality
import SelectorAlgebra.Selector.PseudoName
import SelectorAlgebra.Covering.Alignment
import SelectorAlgebra.Proofs.Matching.Document
import SelectorAlgebra.Proofs.Selector.Erasure

/-!
# What a selector matches

Whether a selector matches the element at a place of a document. Only the pseudo-classes that say
something about their own subject are given a meaning for their selector lists: those that match
what the list matches, and the negation. Main statements: a path matches as its last compound
selector does at a place that the components before it lead to, and line breaks do not matter.
-/

namespace SelectorAlgebra

variable (f : Forest)

mutual

/-- Whether a simple selector matches the element at a place. -/
def Simple.selects : Simple → Place → Bool
  | .universal ns, x => (f.element? x).any (·.inNamespace ns)
  | .type n, x => (f.element? x).any fun e ↦ e.inNamespace n.ns && e.name == n.name
  | .className n, x => (f.element? x).any (·.classes.contains n)
  | .id n, x => (f.element? x).any (·.id == some n)
  | .attribute a, x => (f.element? x).any (·.attributes a)
  | .placeholder n, x => (f.element? x).any (·.placeholders n)
  | .parent suffix, x => (f.element? x).any (·.parents suffix)
  | .pseudo p, x => p.selects x

/-- Whether a pseudo-class matches the element at a place. -/
def Pseudo.selects : Pseudo → Place → Bool
  | ⟨name, _, argument, none⟩, x => (f.element? x).any (·.pseudoClasses name argument)
  | ⟨name, _, _, some l⟩, x =>
    match PseudoKind.ofName (Pseudo.normalize name) with
    | .matching | .weightless => SelectorList.selects l x
    | .negation => (f.element? x).isSome && !SelectorList.selects l x
    | _ => false

/-- Whether some member of a list matches the element at a place. -/
def SelectorList.selects : SelectorList → Place → Bool
  | [], _ => false
  | c :: l, x => c.selects x || SelectorList.selects l x

/-- Whether a complex selector matches the element at a place; one that is no selector by itself
matches nothing. -/
def Complex.selects : Complex → Place → Bool
  | ⟨k, p, b⟩, x => !Complex.isBogus ⟨k, p, b⟩ && Path.selects p (fun _ ↦ true) x

/-- Whether a path matches the element at a place, where its first component may only stand at the
places of `start`. -/
def Path.selects : Path → (Place → Bool) → Place → Bool
  | [], _, _ => false
  | [⟨c, _⟩], start, x => start x && Compound.selects c x
  | ⟨c, k⟩ :: d :: p, start, x =>
    Path.selects (d :: p)
      (fun y ↦ (y.sources k.head?).any fun z ↦ start z && Compound.selects c z) x

/-- Whether there is an element at a place and all conditions of a compound selector match it. -/
def Compound.selects : Compound → Place → Bool
  | [], x => (f.element? x).isSome
  | s :: c, x => s.selects x && Compound.selects c x

end

variable {f : Forest} {x : Place}

theorem SelectorList.selects_iff {l : SelectorList} :
    SelectorList.selects f l x = true ↔ ∃ c ∈ l, c.selects f x = true := by
  induction l with
  | nil => simp [SelectorList.selects]
  | cons c l ih => simp [SelectorList.selects, ih]

theorem Compound.selects_iff {c : Compound} : Compound.selects f c x = true ↔
    (f.element? x).isSome = true ∧ ∀ s ∈ c, s.selects f x = true := by
  induction c with
  | nil => simp [Compound.selects]
  | cons s c ih =>
    simp only [Compound.selects, Bool.and_eq_true, ih, List.forall_mem_cons]
    tauto

theorem Complex.selects_iff {c : Complex} : c.selects f x = true ↔
    c.isBogus = false ∧ Path.selects f c.components (fun _ ↦ true) x = true := by
  cases c
  simp [Complex.selects]

/-- A pseudo-class with a selector list, by its kind. -/
theorem Pseudo.selects_of_selector {p : Pseudo} {l : SelectorList} (h : p.selector = some l) :
    p.selects f x = match p.kind with
      | .matching | .weightless => SelectorList.selects f l x
      | .negation => (f.element? x).isSome && !SelectorList.selects f l x
      | _ => false := by
  obtain ⟨_, _, _, _⟩ := p
  cases h
  rfl

/-! ### Paths from place to place -/

/-- The places to which a component leads that may stand at some places only. -/
def Component.lead (f : Forest) (start : Place → Bool) (d : Component) (y : Place) : Bool :=
  (y.sources d.next).any fun z ↦ start z && Compound.selects f d.compound z

/-- The places to which the components of a path lead one after the other. -/
def Path.reach (f : Forest) (p : Path) (start : Place → Bool) : Place → Bool :=
  p.foldl (Component.lead f) start

/-- A path matches from where the components in front of it lead to. -/
theorem Path.selects_append (p : Path) {q : Path} (hq : q ≠ []) (start : Place → Bool) :
    Path.selects f (p ++ q) start x = Path.selects f q (Path.reach f p start) x := by
  induction p generalizing start with
  | nil => rfl
  | cons c p ih =>
    obtain ⟨d, r, hr⟩ : ∃ d r, p ++ q = d :: r := List.exists_cons_of_ne_nil (by simp [hq])
    have h := ih (Component.lead f start c)
    cases c
    rw [List.cons_append, hr]
    rw [hr] at h
    exact h

/-- The last compound selector matches at a place that the components before it lead to. -/
theorem Path.selects_concat (p : Path) (d : Component) (start : Place → Bool) :
    Path.selects f (p ++ [d]) start x =
      (Path.reach f p start x && Compound.selects f d.compound x) := by
  rw [Path.selects_append p (by simp)]
  cases d
  rfl

theorem Path.reach_append (p q : Path) (start : Place → Bool) :
    Path.reach f (p ++ q) start = Path.reach f q (Path.reach f p start) :=
  List.foldl_append

/-- A property of places that holds at the start and that the combinators of a path carry on holds
where the path leads to. -/
theorem Path.reach_induction {p : Path} {start : Place → Bool} {P : Place → Prop}
    (h0 : ∀ y, start y = true → P y)
    (hp : ∀ d ∈ p, ∀ y z, z ∈ y.sources d.next → P z → P y) (hx : Path.reach f p start x = true) :
    P x := by
  induction p generalizing start with
  | nil => exact h0 x hx
  | cons c p ih =>
    change Path.reach f p (Component.lead f start c) x = true at hx
    refine ih ?_ (fun d hd ↦ hp d (.tail _ hd)) hx
    intro y hy
    obtain ⟨z, hz, h⟩ := List.any_eq_true.1 hy
    simp only [Bool.and_eq_true] at h
    exact hp c (.head _) y z hz (h0 z h.1)

/-- From more places a path leads to no fewer. -/
theorem Path.reach_mono {p : Path} {start start' : Place → Bool}
    (h : ∀ y, start y = true → start' y = true) (hx : Path.reach f p start x = true) :
    Path.reach f p start' x = true := by
  induction p generalizing start start' with
  | nil => exact h x hx
  | cons c p ih =>
    change Path.reach f p (Component.lead f start c) x = true at hx
    refine ih ?_ hx
    intro y hy
    obtain ⟨z, hz, hm⟩ := List.any_eq_true.1 hy
    simp only [Bool.and_eq_true] at hm
    exact List.any_eq_true.2 ⟨z, hz, by simp [h z hm.1, hm.2]⟩

/-! ### Line breaks -/

mutual

theorem Simple.selects_eraseBreaks (s : Simple) (x : Place) :
    s.eraseBreaks.selects f x = s.selects f x := by
  match s with
  | .pseudo p => exact p.selects_eraseBreaks x
  | .universal _ | .type _ | .className _ | .id _ | .attribute _ | .placeholder _ | .parent _ => rfl

theorem Pseudo.selects_eraseBreaks (p : Pseudo) (x : Place) :
    p.eraseBreaks.selects f x = p.selects f x := by
  match p with
  | ⟨_, _, _, none⟩ => rfl
  | ⟨_, _, _, some l⟩ =>
    simp only [Pseudo.eraseBreaks, Pseudo.selects, SelectorList.selects_eraseBreaks l x]

theorem SelectorList.selects_eraseBreaks (l : SelectorList) (x : Place) :
    SelectorList.selects f (SelectorList.eraseBreaks l) x = SelectorList.selects f l x := by
  match l with
  | [] => rfl
  | c :: l =>
    simp only [SelectorList.eraseBreaks, SelectorList.selects, c.selects_eraseBreaks x,
      SelectorList.selects_eraseBreaks l x]

theorem Complex.selects_eraseBreaks (c : Complex) (x : Place) :
    c.eraseBreaks.selects f x = c.selects f x := by
  match c with
  | ⟨k, p, b⟩ =>
    have h := Complex.isBogus_eraseBreaks ⟨k, p, b⟩
    simp only [Complex.eraseBreaks, Complex.selects] at h ⊢
    rw [h, Path.selects_eraseBreaks p]

theorem Path.selects_eraseBreaks (p : Path) (start : Place → Bool) (x : Place) :
    Path.selects f (Path.eraseBreaks p) start x = Path.selects f p start x := by
  match p with
  | [] => rfl
  | [⟨c, _⟩] => simp only [Path.eraseBreaks, Path.selects, Compound.selects_eraseBreaks c]
  | ⟨c, _⟩ :: ⟨d, k⟩ :: p =>
    have := Path.selects_eraseBreaks (⟨d, k⟩ :: p)
    simp only [Path.eraseBreaks, Path.selects, Compound.selects_eraseBreaks c] at this ⊢
    rw [this]

theorem Compound.selects_eraseBreaks (c : Compound) (x : Place) :
    Compound.selects f (Compound.eraseBreaks c) x = Compound.selects f c x := by
  match c with
  | [] => rfl
  | s :: c =>
    simp only [Compound.eraseBreaks, Compound.selects, s.selects_eraseBreaks x,
      Compound.selects_eraseBreaks c x]

end

theorem Simple.selects_of_same {s t : Simple} (h : s.same t = true) :
    s.selects f x = t.selects f x := by
  rw [← Simple.selects_eraseBreaks, (Simple.same_iff s t).1 h, Simple.selects_eraseBreaks]

theorem Complex.selects_of_same {c d : Complex} (h : c.same d = true) :
    c.selects f x = d.selects f x := by
  rw [← Complex.selects_eraseBreaks, (Complex.same_iff c d).1 h, Complex.selects_eraseBreaks]

end SelectorAlgebra

import SelectorAlgebra.Proofs.Covering.Reflexivity
import SelectorAlgebra.Proofs.Covering.Transitivity
import SelectorAlgebra.Proofs.Matching.Realization

/-!
# Counting siblings

`:nth-child(2n of .a)` counts the siblings that its list matches and takes those with certain
numbers. The rule for such pseudo-classes compares the lists, but what a list matches also decides
how far the others count. Main statement: among lists of classes, a pseudo-class that covers
another is right to do so exactly if both lists count the same siblings, or with each number that is
taken all greater ones are.
-/

namespace SelectorAlgebra

variable {f : Forest} {x : Place} {k l : SelectorList} {m n : List String} {b b' : Bool}

/-! ### Numbers among siblings -/

/-- The places behind a place, under the same parent. -/
def Place.laterSiblings (f : Forest) : Place → List Place
  | [] => []
  | i :: up => (List.range' (i + 1) ((f.below up).length - (i + 1))).map (· :: up)

/-- The siblings that are passed on the way to a place, from the first or from the last. -/
def Place.siblingsBefore (f : Forest) (fromLast : Bool) (x : Place) : List Place :=
  if fromLast then x.laterSiblings f else x.earlierSiblings

/-- The number of a place among the siblings that a list matches. -/
def SelectorList.number (l : SelectorList) (f : Forest) (fromLast : Bool) (x : Place) : ℕ :=
  (x.siblingsBefore f fromLast).countP (SelectorList.selects f l) + 1

/-- Whether a pseudo-class that counts siblings does so from the last. -/
def Pseudo.countsFromLast (p : Pseudo) : Bool :=
  p.normalizedName == "nth-last-child"

/-- Whether a list matches the element at a place and its number, counted as the pseudo-class does,
is one of those given. -/
def Pseudo.SelectsNumbered (p : Pseudo) (numbers : Set ℕ) (l : SelectorList) (f : Forest)
    (x : Place) : Prop :=
  SelectorList.selects f l x = true ∧ SelectorList.number l f p.countsFromLast x ∈ numbers

/-- A list that matches more counts further. -/
theorem SelectorList.number_mono {fromLast : Bool}
    (h : ∀ y, SelectorList.selects f l y = true → SelectorList.selects f k y = true) :
    SelectorList.number l f fromLast x ≤ SelectorList.number k f fromLast x :=
  Nat.succ_le_succ (List.countP_mono_left fun y _ ↦ h y)

/-! ### Lists of classes -/

/-- The compound selector of some classes, as a complex selector. -/
def Complex.ofClasses (names : List String) (lineBreak : Bool) : Complex :=
  ⟨[], [⟨names.map .className, []⟩], lineBreak⟩

/-- The lists of compound selectors that name classes only. -/
def SelectorList.OfClasses (l : SelectorList) : Prop :=
  ∀ c ∈ l, ∃ names lineBreak, c = .ofClasses names lineBreak

/-- Whether some member of a list asks only for classes that are given. -/
def SelectorList.FitsClasses (l : SelectorList) (classes : List String) : Prop :=
  ∃ names lineBreak, .ofClasses names lineBreak ∈ l ∧ names ⊆ classes

theorem Compound.each_classes {σ : Shape} (h : ∀ name, σ.simple (.className name))
    (n : List String) : Compound.Each σ (n.map .className) :=
  Compound.each_iff.2 (List.forall_mem_map.2 fun name _ ↦ h name)

theorem Complex.selects_ofClasses : (Complex.ofClasses n b).selects f x = true ↔
    ∃ e, f.element? x = some e ∧ n ⊆ e.classes := by
  have hselects : (Complex.ofClasses n b).selects f x =
      Compound.selects f (n.map .className) x := rfl
  rw [hselects, Compound.selects_iff, List.forall_mem_map]
  cases he : f.element? x with
  | none => simp
  | some e => simp [Simple.selects, he, List.subset_def]

/-- A list of classes looks at the element itself and nothing else. -/
theorem SelectorList.OfClasses.selects_iff (hl : l.OfClasses) : SelectorList.selects f l x = true ↔
    ∃ e, f.element? x = some e ∧ l.FitsClasses e.classes := by
  rw [SelectorList.selects_iff]
  constructor
  · rintro ⟨c, hc, hselects⟩
    obtain ⟨names, lineBreak, rfl⟩ := hl c hc
    obtain ⟨e, he, hnames⟩ := Complex.selects_ofClasses.1 hselects
    exact ⟨e, he, names, lineBreak, hc, hnames⟩
  · rintro ⟨e, he, names, lineBreak, hc, hnames⟩
    exact ⟨_, hc, Complex.selects_ofClasses.2 ⟨e, he, hnames⟩⟩

theorem Compound.covers_classes :
    Compound.covers (m.map .className) (n.map .className) = true ↔ m ⊆ n := by
  have hm : Compound.Each .withoutLists (m.map .className) :=
    Compound.each_classes (fun _ ↦ trivial) m
  have hn : Compound.Each .withoutLists (n.map .className) :=
    Compound.each_classes (fun _ ↦ trivial) n
  have hclass (name : String) (t : Simple) (ht : t ∈ Covering.subject (n.map .className)) :
      (Simple.className name).covers t = true ↔ t = .className name := by
    have hname : (Simple.className name).Everywhere .withoutLists := trivial
    rw [Simple.covers_iff_generalizes hname
      (Compound.each_iff.1 (Covering.each_subject hn) t ht)]
    constructor
    · intro h
      cases h
      rfl
    · rintro rfl
      exact .refl _
  rw [Compound.covers_iff_coversConditions (by simp [Simple.isPseudoElement])
    (by simp [Simple.isPseudoElement]), Covering.coversConditions_iff_of_withoutLists hm,
    List.forall_mem_map]
  refine forall₂_congr fun name _ ↦ ?_
  have hsubject : .className name ∈ Covering.subject (n.map .className) ↔ name ∈ n := by
    rw [Covering.mem_subject_iff (by simp)]
    simp
  rw [← hsubject]
  constructor
  · rintro ⟨t, ht, h⟩
    obtain rfl := (hclass name t ht).1 h
    exact ht
  · intro hname
    exact ⟨_, hname, (hclass name _ hname).2 rfl⟩

theorem Complex.covers_ofClasses :
    (Complex.ofClasses m b).covers (.ofClasses n b') = true ↔ m ⊆ n := by
  rw [Complex.ofClasses, Complex.ofClasses, Complex.covers_component_iff, Compound.covers_classes]
  refine or_iff_right_of_imp fun hsame ↦ Compound.covers_classes.1 ?_
  exact Compound.coversBehind_of_same (Compound.each_classes (fun _ ↦ trivial) m) hsame

/-- A list of classes covers another exactly if it fits wherever the other does. -/
theorem SelectorList.OfClasses.covers_iff (hk : k.OfClasses) (hl : l.OfClasses) :
    SelectorList.covers k l = true ↔ ∀ classes, l.FitsClasses classes → k.FitsClasses classes := by
  rw [SelectorList.covers_iff]
  constructor
  · rintro h classes ⟨n, b', hn, hclasses⟩
    obtain ⟨c, hc, hcovers⟩ := h _ hn
    obtain ⟨m, b, rfl⟩ := hk c hc
    exact ⟨m, b, hc, List.Subset.trans (Complex.covers_ofClasses.1 hcovers) hclasses⟩
  · intro h d hd
    obtain ⟨n, b', rfl⟩ := hl d hd
    obtain ⟨m, b, hm, hmn⟩ := h n ⟨n, b', hd, List.Subset.refl n⟩
    exact ⟨_, hm, Complex.covers_ofClasses.2 hmn⟩

/-! ### The rule of pseudo-classes that count -/

theorem SelectorList.OfClasses.comparable (hl : l.OfClasses) :
    SelectorList.Each .comparable l := by
  refine SelectorList.each_iff.2 fun c hc ↦ ?_
  obtain ⟨n, b, rfl⟩ := hl c hc
  exact ⟨rfl, trivial, ⟨trivial, Compound.each_classes (fun _ ↦ trivial) n⟩, trivial⟩

/-- A pseudo-class that counts covers the same one with another list exactly if its list covers the
other. -/
theorem Pseudo.covers_withSelector_iff {p : Pseudo} (hclass : p.isClass = true)
    (hkind : p.kind = .counting) (hk : k.OfClasses) :
    Complex.covers (.ofCompound [.pseudo (p.withSelector k)])
      (.ofCompound [.pseudo (p.withSelector l)]) = true ↔ SelectorList.covers k l = true := by
  have hclass' (l : SelectorList) : (p.withSelector l).isClass = true := hclass
  have hkind' : (p.withSelector k).kind = .counting := hkind
  have hcomparable : Compound.Each .comparable [.pseudo (p.withSelector k)] := by
    have htakes : (p.withSelector k).kind.takesSelector p.element = true := by
      rw [hkind', Pseudo.element_of_isClass hclass]
      rfl
    refine ⟨Simple.everywhere_pseudo_iff.2 ⟨fun _ ↦ htakes, ?_⟩, trivial⟩
    rintro _ ⟨⟩
    exact ⟨trivial, hk.comparable⟩
  have hrule : Covering.whole.coversCompound (p.withSelector k) k
      [.pseudo (p.withSelector l)] [] = true ↔ SelectorList.covers k l = true := by
    rw [Covering.coversCompound, hkind', List.any_cons, List.any_nil, Bool.or_false]
    simp [Pseudo.withSelector, Covering.list_iff_covers]
  have hcovers : Compound.covers [.pseudo (p.withSelector k)] [.pseudo (p.withSelector l)] = true ↔
      SelectorList.covers k l = true := by
    rw [Compound.covers_iff_coversConditions (by simp [Simple.isPseudoElement, hclass'])
      (by simp [Simple.isPseudoElement, hclass']), Covering.coversConditions_iff,
      List.forall_mem_singleton, Covering.subject_of_ne_nil (List.cons_ne_nil _ _), ← hrule]
    constructor
    · intro h
      cases h with
      | list hl _ h =>
        cases hl
        exact h
      | some hother => cases (hclass' k).symm.trans (hother _ k rfl rfl)
    · exact .list rfl (hclass' k)
  rw [Complex.ofCompound, Complex.ofCompound, Complex.covers_component_iff, hcovers]
  refine or_iff_right_of_imp fun hsame ↦ hcovers.1 ?_
  exact Compound.coversBehind_of_same hcomparable hsame

/-! ### Rows of siblings -/

/-- On the way to the middle of a row lies one of its two neighbours and, beyond it, one of the two
ends of the row. -/
theorem Place.siblingsBefore_middle {i : ℕ} (hf : f.length = i + 3 + i) (fromLast : Bool) :
    ∃ j ends, List.Perm (Place.siblingsBefore f fromLast [i + 1]) ((j :: ends).map ([·])) ∧
      (j = i ∨ j = i + 2) ∧ ends.length = i ∧
        ∀ j ∈ ends, j < i + 3 + i ∧ ¬ (j = i ∨ j = i + 2) := by
  cases fromLast with
  | false =>
    refine ⟨i, List.range i, ?_, .inl rfl, List.length_range, fun j hj ↦ ?_⟩
    · have hrow : Place.siblingsBefore f false [i + 1] = (List.range (i + 1)).map ([·]) := rfl
      rw [hrow, List.range_succ]
      exact (List.perm_append_singleton _ _).map _
    · have := List.mem_range.1 hj
      omega
  | true =>
    refine ⟨i + 2, List.range' (i + 3) i, ?_, .inr rfl, List.length_range', fun j hj ↦ ?_⟩
    · have hrow : Place.siblingsBefore f true [i + 1] =
          (List.range' (i + 2) (f.length - (i + 2))).map ([·]) := rfl
      rw [hrow, hf, show i + 3 + i - (i + 2) = i + 1 by omega, List.range'_succ]
    · have := List.mem_range'_1.1 hj
      omega

/-- In some document stands an element between two others that all lists match which fit its own
classes: its number tells which of these lists fit the classes of its neighbours. -/
theorem Forest.exists_number (i : ℕ) (own other : List String) : ∃ f x, ∀ l : SelectorList,
    l.OfClasses → l.FitsClasses own → SelectorList.selects f l x = true ∧ ∀ fromLast,
      (l.FitsClasses other → SelectorList.number l f fromLast x = i + 2) ∧
        (¬ l.FitsClasses other → SelectorList.number l f fromLast x = i + 1) := by
  let element (y : Place) : Element :=
    { name := "", classes := if y = [i] ∨ y = [i + 2] then other else own }
  let f := Forest.grid element (i + 3 + i) 1 []
  refine ⟨f, [i + 1], fun l hl hown ↦ ?_⟩
  have hselects (j : ℕ) (hj : j < i + 3 + i) : SelectorList.selects f l [j] = true ↔
      (j = i ∨ j = i + 2 → l.FitsClasses other) := by
    have he : f.element? [j] = some (element [j]) :=
      Forest.element?_grid (List.cons_ne_nil _ _) le_rfl (by simpa using hj)
    rw [hl.selects_iff, he]
    by_cases hj : j = i ∨ j = i + 2
    · simp [element, hj]
    · simp [element, hj, hown]
  refine ⟨(hselects (i + 1) (by omega)).2 (by omega), fun fromLast ↦ ?_⟩
  obtain ⟨j, ends, hperm, hj, hlength, hends⟩ :=
    Place.siblingsBefore_middle (f := f) (i := i) (by simp [f, Forest.grid]) fromLast
  have hcount : ends.countP (fun j ↦ SelectorList.selects f l [j]) = i := by
    rw [← hlength, List.countP_eq_length]
    intro j hj
    obtain ⟨hbound, hother⟩ := hends j hj
    exact (hselects j hbound).2 fun h ↦ absurd h hother
  have hnumber : SelectorList.number l f fromLast [i + 1] =
      i + (if SelectorList.selects f l [j] then 1 else 0) + 1 := by
    rw [SelectorList.number, hperm.countP_eq, List.countP_map, List.countP_cons]
    exact congrArg (· + _ + 1) hcount
  have hneighbour : SelectorList.selects f l [j] = true ↔ l.FitsClasses other := by
    rw [hselects j (by omega)]
    exact forall_prop_of_true hj
  constructor
  · intro hother
    rw [hnumber, if_pos (hneighbour.2 hother)]
  · intro hother
    rw [hnumber, if_neg (hneighbour.not.2 hother)]

/-! ### Soundness of the rule -/

/-- Where a pseudo-class that counts siblings covers the same one with another list, both lists
being of classes, it takes all elements that the other takes exactly if the other list is empty, the
two lists match the same, or with each number all greater ones are taken. -/
theorem Pseudo.selectsNumbered_of_covers_iff {p : Pseudo} (hclass : p.isClass = true)
    (hkind : p.kind = .counting) (hk : k.OfClasses) (hl : l.OfClasses)
    (hcovers : Complex.covers (.ofCompound [.pseudo (p.withSelector k)])
      (.ofCompound [.pseudo (p.withSelector l)]) = true) (numbers : Set ℕ) :
    (∀ f x, p.SelectsNumbered numbers l f x → p.SelectsNumbered numbers k f x) ↔
      l = [] ∨ SelectorList.covers l k = true ∨ ∀ i ∈ numbers, 1 ≤ i → i + 1 ∈ numbers := by
  rw [Pseudo.covers_withSelector_iff hclass hkind hk, hk.covers_iff hl] at hcovers
  rw [hl.covers_iff hk]
  constructor
  · intro hsound
    by_contra hnone
    simp only [not_or, not_forall] at hnone
    obtain ⟨hnil, ⟨other, hkother, hlother⟩, i, hi, hpos, hnext⟩ := hnone
    obtain ⟨c, hc⟩ := List.exists_mem_of_ne_nil l hnil
    obtain ⟨own, b, rfl⟩ := hl c hc
    have hown : l.FitsClasses own := ⟨own, b, hc, List.Subset.refl own⟩
    obtain ⟨i, rfl⟩ := Nat.exists_eq_succ_of_ne_zero (Nat.one_le_iff_ne_zero.1 hpos)
    -- `k` counts a neighbour of the element that `l` does not count
    obtain ⟨f, x, hx⟩ := Forest.exists_number i own other
    obtain ⟨hlx, hlnumber⟩ := hx l hl hown
    obtain ⟨-, hknumber⟩ := hx k hk (hcovers own hown)
    have htaken := (hsound f x ⟨hlx, by rwa [(hlnumber _).2 hlother]⟩).2
    rw [(hknumber _).1 hkother] at htaken
    exact hnext htaken
  · intro hcases f x hx
    have hmatch (y : Place) (hy : SelectorList.selects f l y = true) :
        SelectorList.selects f k y = true := by
      obtain ⟨e, he, hfits⟩ := hl.selects_iff.1 hy
      exact hk.selects_iff.2 ⟨e, he, hcovers _ hfits⟩
    refine ⟨hmatch x hx.1, ?_⟩
    have hle : SelectorList.number l f p.countsFromLast x ≤
        SelectorList.number k f p.countsFromLast x := SelectorList.number_mono hmatch
    rcases hcases with rfl | hback | hupward
    · cases hx.1
    · have hge : SelectorList.number k f p.countsFromLast x ≤
          SelectorList.number l f p.countsFromLast x := by
        apply SelectorList.number_mono
        intro y hy
        obtain ⟨e, he, hfits⟩ := hk.selects_iff.1 hy
        exact hl.selects_iff.2 ⟨e, he, hback _ hfits⟩
      rw [hge.antisymm hle]
      exact hx.2
    · have hall (i : ℕ) (hi : SelectorList.number l f p.countsFromLast x ≤ i) : i ∈ numbers := by
        induction i, hi using Nat.le_induction with
        | base => exact hx.2
        | succ i hi ih => exact hupward i ih ((Nat.le_add_left 1 _).trans hi)
      exact hall _ hle

/-- `:nth-last-child(n+2 of .a)` covers `:nth-last-child(n+2 of .a.b)` and matches what that
does. -/
theorem Pseudo.selectsNumbered_of_covers_upward :
    let p : Pseudo := ⟨"nth-last-child", false, some "n+2", none⟩
    let k : SelectorList := [.ofClasses ["a"] false]
    let l : SelectorList := [.ofClasses ["a", "b"] false]
    Complex.covers (.ofCompound [.pseudo (p.withSelector k)])
        (.ofCompound [.pseudo (p.withSelector l)]) = true ∧
      ∀ f x, p.SelectsNumbered (Set.Ici 2) l f x → p.SelectsNumbered (Set.Ici 2) k f x := by
  intro p k l
  have hk : k.OfClasses := List.forall_mem_singleton.2 ⟨_, _, rfl⟩
  have hl : l.OfClasses := List.forall_mem_singleton.2 ⟨_, _, rfl⟩
  have hcovers : Complex.covers (.ofCompound [.pseudo (p.withSelector k)])
      (.ofCompound [.pseudo (p.withSelector l)]) = true := by decide +kernel
  have hsound := Pseudo.selectsNumbered_of_covers_iff (by decide) (by decide) hk hl hcovers
    (Set.Ici 2)
  exact ⟨hcovers, hsound.2 (.inr (.inr fun i hi _ ↦ Nat.le_succ_of_le hi))⟩

/-- Of three siblings `.a.b`, `.a` and `.a.b` the last is the second of `.a.b` and the third of
`.a`. -/
theorem Pseudo.not_selectsNumbered_of_covers :
    ¬ ∀ (p : Pseudo) (k l : SelectorList), p.isClass = true → p.kind = .counting →
      k.OfClasses → l.OfClasses →
      Complex.covers (.ofCompound [.pseudo (p.withSelector k)])
        (.ofCompound [.pseudo (p.withSelector l)]) = true →
      ∀ (numbers : Set ℕ) f x, p.SelectsNumbered numbers l f x →
        p.SelectsNumbered numbers k f x := by
  intro h
  have htaken := h ⟨"nth-child", false, some "2", none⟩ [.ofClasses ["a"] false]
    [.ofClasses ["a", "b"] false] (by decide) (by decide)
    (List.forall_mem_singleton.2 ⟨_, _, rfl⟩) (List.forall_mem_singleton.2 ⟨_, _, rfl⟩)
    (by decide +kernel) {2}
    [.node { name := "i", classes := ["a", "b"] } [], .node { name := "i", classes := ["a"] } [],
      .node { name := "i", classes := ["a", "b"] } []] [2] ⟨by decide, by decide⟩
  exact absurd htaken.2 (by decide)

end SelectorAlgebra

import Mathlib.Data.List.Forall2

/-!
# Operations that may fail

Rules for sequences of operations that may fail, told from the values that come out of those that do
not.
-/

namespace SelectorAlgebra

variable {ε α β : Type}

theorem bind_eq_ok_iff {x : Except ε α} {f : α → Except ε β} {b : β} :
    (x >>= f) = .ok b ↔ ∃ a, x = .ok a ∧ f a = .ok b := by
  cases x with
  | error e => simp [bind, Except.bind]
  | ok a => simp [bind, Except.bind]

/-- An operation succeeds on all items exactly if it does on each. -/
theorem mapM_eq_ok_iff {f : α → Except ε β} {l : List α} {r : List β} :
    l.mapM f = .ok r ↔ List.Forall₂ (fun a b ↦ f a = .ok b) l r := by
  induction l generalizing r with
  | nil =>
    rw [List.mapM_nil, List.forall₂_nil_left_iff]
    constructor
    · intro h
      cases h
      rfl
    · rintro rfl
      rfl
  | cons a l ih =>
    rw [List.mapM_cons, bind_eq_ok_iff, List.forall₂_cons_left_iff]
    simp only [bind_eq_ok_iff, ih]
    constructor
    · rintro ⟨b, hb, s, hs, h⟩
      cases h
      exact ⟨b, s, hb, hs, rfl⟩
    · rintro ⟨b, s, hb, hs, rfl⟩
      exact ⟨b, hb, s, hs, rfl⟩

/-- What comes out of an operation on all items may be changed item by item. -/
theorem mapM_map_result {γ : Type} (f : α → Except ε β) (g : β → γ) (l : List α) :
    l.mapM (fun a ↦ g <$> f a) = List.map g <$> l.mapM f := by
  induction l with
  | nil => simp
  | cons a l ih => simp [ih]

theorem mapM_congr_left {f g : α → Except ε β} {l : List α} (h : ∀ a ∈ l, f a = g a) :
    l.mapM f = l.mapM g := by
  induction l with
  | nil => rfl
  | cons a l ih =>
    rw [List.forall_mem_cons] at h
    rw [List.mapM_cons, List.mapM_cons, h.1, ih h.2]

theorem mapM_flatMap {γ : Type} (f : β → Except ε γ) (g : α → List β) (l : List α) :
    (l.flatMap g).mapM f = List.flatten <$> l.mapM fun a ↦ (g a).mapM f := by
  induction l with
  | nil => simp
  | cons a l ih => simp [ih, List.mapM_append]

/-- One operation repeated for all items of a list that is not empty succeeds or fails as it does
once. -/
theorem mapM_const_map {γ : Type} {l : List α} (hl : l ≠ []) (x : Except ε β) (f : α → β → γ) :
    l.mapM (fun a ↦ f a <$> x) = (fun b ↦ l.map (f · b)) <$> x := by
  cases x with
  | error e =>
    obtain ⟨a, l, rfl⟩ := List.exists_cons_of_ne_nil hl
    rw [List.mapM_cons]
    rfl
  | ok b => exact List.mapM_pure

theorem exists_of_forall₂ {R : α → β → Prop} {l : List α} {r : List β} (h : List.Forall₂ R l r) :
    ∀ b ∈ r, ∃ a ∈ l, R a b := by
  induction h with
  | nil => simp
  | @cons a b l r hab _ ih =>
    refine List.forall_mem_cons.2 ⟨⟨a, .head _, hab⟩, fun c hc ↦ ?_⟩
    obtain ⟨d, hd, hdc⟩ := ih c hc
    exact ⟨d, .tail _ hd, hdc⟩

theorem exists_of_mapM {f : α → Except ε β} {l : List α} {r : List β}
    (h : l.mapM f = .ok r) : ∀ b ∈ r, ∃ a ∈ l, f a = .ok b :=
  exists_of_forall₂ (mapM_eq_ok_iff.1 h)

/-! ### Changing what comes out -/

section Bimap

variable {δ γ α' β' γ' : Type} {f : ε → δ} {g : α → α'} {h : β → β'} {i : γ → γ'}

/-- What comes out of an operation, changed by one function if it is a value and by another if it is
an error. -/
def bimap (f : ε → δ) (g : α → α') : Except ε α → Except δ α'
  | .ok a => .ok (g a)
  | .error e => .error (f e)

theorem map_bimap {u : α → β} {u' : α' → β'} (hu : ∀ a, u' (g a) = h (u a)) (x : Except ε α) :
    u' <$> bimap f g x = bimap f h (u <$> x) := by
  cases x with
  | error e => rfl
  | ok a => exact congrArg Except.ok (hu a)

/-- What follows an operation may be changed along with its value. -/
theorem bind_bimap {k : α → Except ε β} {k' : α' → Except δ β'}
    (hk : ∀ a, k' (g a) = bimap f h (k a)) (x : Except ε α) :
    (bimap f g x >>= k') = bimap f h (x >>= k) := by
  cases x with
  | error e => rfl
  | ok a => exact hk a

/-- Two operations may be changed before or after their values are put together. -/
theorem bind₂_bimap {u : α → β → γ} {u' : α' → β' → γ'} (hu : ∀ a b, u' (g a) (h b) = i (u a b))
    (x : Except ε α) (y : Except ε β) :
    (do let a ← bimap f g x; return u' a (← bimap f h y)) =
      bimap f i (do let a ← x; return u a (← y)) := by
  apply bind_bimap
  intro a
  rw [← map_eq_pure_bind, ← map_eq_pure_bind]
  exact map_bimap (hu a) y

/-- An operation on all items may be changed item by item. -/
theorem mapM_bimap {k : α → Except ε β} {k' : α' → Except δ β'} {l : List α}
    (hk : ∀ a ∈ l, k' (g a) = bimap f h (k a)) :
    (l.map g).mapM k' = bimap f (List.map h) (l.mapM k) := by
  induction l with
  | nil => rfl
  | cons a l ih =>
    rw [List.forall_mem_cons] at hk
    rw [List.map_cons, List.mapM_cons, List.mapM_cons, hk.1, ih hk.2]
    exact bind₂_bimap (fun _ _ ↦ List.map_cons.symm) _ _

end Bimap

/-! ### When operations fail -/

/-- Whether an operation succeeds exactly if a condition holds, and otherwise fails with an error of
a sort. -/
def Settles (F : ε → Prop) (P : Prop) : Except ε α → Prop
  | .ok _ => P
  | .error e => ¬ P ∧ F e

namespace Settles

variable {F : ε → Prop} {P Q : Prop} {x : Except ε α}

theorem congr (h : Settles F P x) (hPQ : P ↔ Q) : Settles F Q x := by
  rwa [← propext hPQ]

/-- What comes out of an operation may be changed. -/
theorem map {f : α → β} (hx : Settles F P x) : Settles F P (f <$> x) := by
  cases x with
  | error e => exact hx
  | ok a => exact hx

theorem map_iff {f : α → β} : Settles F P (f <$> x) ↔ Settles F P x := by
  cases x <;> rfl

/-- One operation after another succeeds if both do. -/
theorem bind {f : α → Except ε β} (hx : Settles F P x)
    (hf : ∀ a, x = .ok a → Settles F Q (f a)) : Settles F (P ∧ Q) (x >>= f) := by
  cases x with
  | error e => exact ⟨fun h ↦ hx.1 h.1, hx.2⟩
  | ok a => exact (hf a rfl).congr (and_iff_right hx).symm

/-- An operation on all items succeeds if it does on each. -/
theorem mapM {P : α → Prop} {f : α → Except ε β} {l : List α}
    (h : ∀ a ∈ l, Settles F (P a) (f a)) : Settles F (∀ a ∈ l, P a) (l.mapM f) := by
  induction l with
  | nil => exact List.forall_mem_nil P
  | cons a l ih =>
    rw [List.forall_mem_cons] at h ⊢
    rw [List.mapM_cons]
    apply h.1.bind
    intro b _
    rw [← map_eq_pure_bind]
    exact (ih h.2).map

/-- There is an error exactly if the condition fails, and then one of the sort. -/
theorem error_iff (h : Settles F P x) :
    ((∃ e, x = .error e) ↔ ¬ P) ∧ ∀ e, x = .error e → F e := by
  cases x with
  | error e =>
    have hsort : ∀ e', Except.error (α := α) e = .error e' → F e' := by
      rintro _ ⟨⟩
      exact h.2
    exact ⟨iff_of_true ⟨e, rfl⟩ h.1, hsort⟩
  | ok a => exact ⟨iff_of_false (by simp) (not_not_intro h), by simp⟩

end Settles

end SelectorAlgebra

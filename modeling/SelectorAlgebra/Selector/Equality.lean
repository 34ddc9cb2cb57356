import SelectorAlgebra.Selector.Basic

/-!
# Equality up to line breaks

Selectors are compared without their line breaks, at every depth. Main statement: two selectors are
the same exactly if they are equal once all line breaks are erased.
-/

namespace SelectorAlgebra

mutual

/-- Whether two simple selectors are equal up to line breaks. -/
def Simple.same : Simple → Simple → Bool
  | .universal m, .universal n => m == n
  | .type m, .type n => m == n
  | .className m, .className n => m == n
  | .id m, .id n => m == n
  | .attribute m, .attribute n => m == n
  | .placeholder m, .placeholder n => m == n
  | .parent m, .parent n => m == n
  | .pseudo p, .pseudo q => p.same q
  | _, _ => false

/-- Whether two pseudo selectors are equal up to line breaks. -/
def Pseudo.same : Pseudo → Pseudo → Bool
  | ⟨m, e, a, none⟩, ⟨n, f, b, none⟩ => m == n && e == f && a == b
  | ⟨m, e, a, some k⟩, ⟨n, f, b, some l⟩ => m == n && e == f && a == b && SelectorList.same k l
  | _, _ => false

/-- Whether two selector lists are equal up to line breaks. -/
def SelectorList.same : SelectorList → SelectorList → Bool
  | [], [] => true
  | c :: k, d :: l => c.same d && SelectorList.same k l
  | _, _ => false

/-- Whether two complex selectors are equal up to line breaks. -/
def Complex.same : Complex → Complex → Bool
  | ⟨j, p, _⟩, ⟨k, q, _⟩ => j == k && Path.same p q

/-- Whether two paths are equal up to line breaks. -/
def Path.same : Path → Path → Bool
  | [], [] => true
  | ⟨s, j⟩ :: p, ⟨t, k⟩ :: q => Compound.same s t && j == k && Path.same p q
  | _, _ => false

/-- Whether two compound selectors are equal up to line breaks. -/
def Compound.same : Compound → Compound → Bool
  | [], [] => true
  | s :: c, t :: d => s.same t && Compound.same c d
  | _, _ => false

end

/-- For each member of a list, whether it is the same as no member before it and none already
seen. -/
def SelectorList.novelties (seen : SelectorList) : SelectorList → List Bool
  | [] => []
  | c :: l => (!seen.any c.same) :: SelectorList.novelties (c :: seen) l

mutual

/-- A simple selector without line breaks. -/
def Simple.eraseBreaks : Simple → Simple
  | .pseudo p => .pseudo p.eraseBreaks
  | s => s

/-- A pseudo selector without line breaks. -/
def Pseudo.eraseBreaks : Pseudo → Pseudo
  | ⟨m, e, a, none⟩ => ⟨m, e, a, none⟩
  | ⟨m, e, a, some l⟩ => ⟨m, e, a, some (SelectorList.eraseBreaks l)⟩

/-- A selector list without line breaks. -/
def SelectorList.eraseBreaks : SelectorList → SelectorList
  | [] => []
  | c :: l => c.eraseBreaks :: SelectorList.eraseBreaks l

/-- A complex selector without line breaks. -/
def Complex.eraseBreaks : Complex → Complex
  | ⟨k, p, _⟩ => ⟨k, Path.eraseBreaks p, false⟩

/-- A path without line breaks. -/
def Path.eraseBreaks : Path → Path
  | [] => []
  | ⟨s, k⟩ :: p => ⟨Compound.eraseBreaks s, k⟩ :: Path.eraseBreaks p

/-- A compound selector without line breaks. -/
def Compound.eraseBreaks : Compound → Compound
  | [] => []
  | s :: c => s.eraseBreaks :: Compound.eraseBreaks c

end

mutual

/-- Two simple selectors are the same exactly if they are equal without line breaks. -/
theorem Simple.same_iff (s t : Simple) : s.same t = true ↔ s.eraseBreaks = t.eraseBreaks := by
  match s, t with
  | .pseudo p, .pseudo q => simp [Simple.same, Simple.eraseBreaks, Pseudo.same_iff p q]
  | .universal _, t | .type _, t | .className _, t | .id _, t | .attribute _, t
  | .placeholder _, t | .parent _, t =>
    cases t <;> simp [Simple.same, Simple.eraseBreaks]
  | .pseudo p, .universal _ | .pseudo p, .type _ | .pseudo p, .className _ | .pseudo p, .id _
  | .pseudo p, .attribute _ | .pseudo p, .placeholder _ | .pseudo p, .parent _ =>
    simp [Simple.same, Simple.eraseBreaks]

/-- Two pseudo selectors are the same exactly if they are equal without line breaks. -/
theorem Pseudo.same_iff (p q : Pseudo) : p.same q = true ↔ p.eraseBreaks = q.eraseBreaks := by
  match p, q with
  | ⟨_, _, _, none⟩, ⟨_, _, _, none⟩ => simp [Pseudo.same, Pseudo.eraseBreaks, and_assoc]
  | ⟨_, _, _, some k⟩, ⟨_, _, _, some l⟩ =>
    simp [Pseudo.same, Pseudo.eraseBreaks, and_assoc, SelectorList.same_iff k l]
  | ⟨_, _, _, none⟩, ⟨_, _, _, some _⟩ => simp [Pseudo.same, Pseudo.eraseBreaks]
  | ⟨_, _, _, some _⟩, ⟨_, _, _, none⟩ => simp [Pseudo.same, Pseudo.eraseBreaks]

/-- Two selector lists are the same exactly if they are equal without line breaks. -/
theorem SelectorList.same_iff (k l : SelectorList) :
    SelectorList.same k l = true ↔ SelectorList.eraseBreaks k = SelectorList.eraseBreaks l := by
  match k, l with
  | [], [] => simp [SelectorList.same, SelectorList.eraseBreaks]
  | c :: k, d :: l =>
    simp [SelectorList.same, SelectorList.eraseBreaks, Complex.same_iff c d,
      SelectorList.same_iff k l]
  | [], _ :: _ => simp [SelectorList.same, SelectorList.eraseBreaks]
  | _ :: _, [] => simp [SelectorList.same, SelectorList.eraseBreaks]

/-- Two complex selectors are the same exactly if they are equal without line breaks. -/
theorem Complex.same_iff (c d : Complex) : c.same d = true ↔ c.eraseBreaks = d.eraseBreaks := by
  match c, d with
  | ⟨j, p, _⟩, ⟨k, q, _⟩ => simp [Complex.same, Complex.eraseBreaks, Path.same_iff p q]

/-- Two paths are the same exactly if they are equal without line breaks. -/
theorem Path.same_iff (p q : Path) :
    Path.same p q = true ↔ Path.eraseBreaks p = Path.eraseBreaks q := by
  match p, q with
  | [], [] => simp [Path.same, Path.eraseBreaks]
  | ⟨s, j⟩ :: p, ⟨t, k⟩ :: q =>
    simp [Path.same, Path.eraseBreaks, Compound.same_iff s t, Path.same_iff p q]
  | [], ⟨_, _⟩ :: _ => simp [Path.same, Path.eraseBreaks]
  | ⟨_, _⟩ :: _, [] => simp [Path.same, Path.eraseBreaks]

/-- Two compound selectors are the same exactly if they are equal without line breaks. -/
theorem Compound.same_iff (c d : Compound) :
    Compound.same c d = true ↔ Compound.eraseBreaks c = Compound.eraseBreaks d := by
  match c, d with
  | [], [] => simp [Compound.same, Compound.eraseBreaks]
  | s :: c, t :: d =>
    simp [Compound.same, Compound.eraseBreaks, Simple.same_iff s t, Compound.same_iff c d]
  | [], _ :: _ => simp [Compound.same, Compound.eraseBreaks]
  | _ :: _, [] => simp [Compound.same, Compound.eraseBreaks]

end

end SelectorAlgebra

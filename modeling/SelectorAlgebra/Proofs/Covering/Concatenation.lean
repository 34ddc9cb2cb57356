import Mathlib
import SelectorAlgebra.Proofs.Covering.Reflexivity
import SelectorAlgebra.Proofs.Selector.Word

/-!
# Covering and concatenation

When rules are nested or extended, one selector is put behind another. Main statement: where one
selector covers another, it still does after the same selector is put in front of both or behind
both. The alignment goes on through the joint: what is put there is aligned with itself, and the
last component before it may take a combinator, since it is the last one there on both sides.
-/

namespace SelectorAlgebra

/-- A path of a selector by itself stays one when another is put behind it, with a combinator or
none in between. -/
theorem Path.IsProper.join {p q : Path} {c : Compound} {ks : List Combinator}
    (hp : Path.IsProper (p ++ [⟨c, []⟩])) (hks : ks.length ≤ 1) (hq : q.IsProper) :
    Path.IsProper (p ++ [⟨c, ks⟩] ++ q) := by
  refine .append (List.forall_mem_append.2 ⟨fun d hd ↦ ?_, ?_⟩) hq
  · exact hp.single d (List.mem_append_left _ hd)
  · simpa using hks

namespace Complex

variable {a b c d : Complex}

/-- Where one selector is put on another and what follows the one on what follows the other, the
whole is covered. -/
theorem IsAligned.covers_concatenate (front : a.IsAligned b) (force : Bool)
    (hleading : c.leading = d.leading) (hsingle : c.leading.length ≤ 1)
    (hc : Path.IsProper c.components) (hd : Path.IsProper d.components)
    (back : Alignment.Aligned Compound.coversBehind c.leading.head? c.components d.components) :
    (a.concatenate c force).covers (b.concatenate d force) = true := by
  obtain ⟨hleft, hright, -, haligned⟩ := front
  obtain ⟨_, p, lineBreak⟩ := a
  obtain ⟨_, q, lineBreak'⟩ := b
  obtain ⟨rfl, hp⟩ := isBogus_eq_false_iff.1 hleft
  obtain ⟨rfl, hq⟩ := isBogus_eq_false_iff.1 hright
  obtain ⟨p, x, rfl⟩ := hp.ends
  obtain ⟨q, y, rfl⟩ := hq.ends
  rw [concatenate_concat, concatenate_concat, covers_iff, ← hleading, List.nil_append]
  refine ⟨⟨rfl, rfl⟩, Path.covers_iff_aligned.2 (.inr ⟨⟨hp.join hsingle hc, ?_⟩, ?_⟩)⟩
  · exact hq.join hsingle hd
  · rw [List.append_assoc, List.append_assoc, List.singleton_append, List.singleton_append]
    exact haligned.append rfl rfl (Combinator.covers_self _) back

/-- Where one selector covers another, it does so behind every selector by itself, and so it does in
front of every selector that is one by itself but for a combinator it may begin with. -/
theorem concatenate_covers_concatenate (ha : a.Accepted) (hproper : a.Everywhere .proper)
    (h : a.covers b = true) (force : Bool) :
    (∀ c : Complex, c.Accepted → c.Everywhere .proper →
      (c.concatenate a force).covers (c.concatenate b force) = true) ∧
    ∀ d : Complex, d.Accepted → d.leading.length ≤ 1 →
      Complex.Everywhere .proper { d with leading := [] } →
      (a.concatenate d force).covers (b.concatenate d force) = true := by
  have hab := ha.isAligned hproper h
  constructor
  · intro c hc hcproper
    obtain ⟨haleading, hapath⟩ := isBogus_eq_false_iff.1 hab.left
    obtain ⟨hbleading, hbpath⟩ := isBogus_eq_false_iff.1 hab.right
    have hcc : c.IsAligned c :=
      hc.isAligned hcproper (covers_of_same hcproper.complex ((same_iff c c).2 rfl))
    refine hcc.covers_concatenate force (by rw [haleading, hbleading]) (by simp [haleading])
      hapath hbpath ?_
    rw [haleading]
    exact hab.aligned
  · intro d hd hsingle hdproper
    have hdpath := (isBogus_eq_false_iff.1 hdproper.complex).2
    exact hab.covers_concatenate force rfl hsingle hdpath hdpath
      (Path.aligned_of_same (hd.comparable hdproper.components) ((Path.same_iff _ _).2 rfl))

/-- The case of `.a > .b` and `.a.x > .b`, behind `y ~ z` and in front of `+ w`. -/
theorem concatenate_covers_concatenate_joined :
    (Complex.covers
      ⟨[], [⟨[.type ⟨none, "y"⟩], [.followingSibling]⟩, ⟨[.type ⟨none, "z"⟩], []⟩,
        ⟨[.className "a"], [.child]⟩, ⟨[.className "b"], []⟩], false⟩
      ⟨[], [⟨[.type ⟨none, "y"⟩], [.followingSibling]⟩, ⟨[.type ⟨none, "z"⟩], []⟩,
        ⟨[.className "a", .className "x"], [.child]⟩, ⟨[.className "b"], []⟩], false⟩ = true) ∧
    (Complex.covers
      ⟨[], [⟨[.className "a"], [.child]⟩, ⟨[.className "b"], [.nextSibling]⟩,
        ⟨[.type ⟨none, "w"⟩], []⟩], false⟩
      ⟨[], [⟨[.className "a", .className "x"], [.child]⟩, ⟨[.className "b"], [.nextSibling]⟩,
        ⟨[.type ⟨none, "w"⟩], []⟩], false⟩ = true) := by
  have hread : (Complex.parse ".a > .b").result = .ok
      ⟨[], [⟨[.className "a"], [.child]⟩, ⟨[.className "b"], []⟩], false⟩ := by cbv
  have hfront : (Complex.parse "y ~ z").result = .ok
      ⟨[], [⟨[.type ⟨none, "y"⟩], [.followingSibling]⟩, ⟨[.type ⟨none, "z"⟩], []⟩], false⟩ := by cbv
  have hback : (Complex.parse "+ w").result = .ok
      ⟨[.nextSibling], [⟨[.type ⟨none, "w"⟩], []⟩], false⟩ := by cbv
  have h (hproper) := concatenate_covers_concatenate
    (b := ⟨[], [⟨[.className "a", .className "x"], [.child]⟩, ⟨[.className "b"], []⟩], false⟩)
    (.alone hread) hproper (by decide +kernel) false
  have hjoined := And.intro ((h ?_).1 _ (.alone hfront) ?_) ((h ?_).2 _ (.alone hback) (by simp) ?_)
  · simpa [concatenate, trail] using hjoined
  all_goals simp [Complex.Everywhere, Path.Each, Compound.Each, Simple.Everywhere, Shape.proper,
    isBogus, hasMultipleCombinators, Path.hasMultipleCombinators]

end Complex

end SelectorAlgebra

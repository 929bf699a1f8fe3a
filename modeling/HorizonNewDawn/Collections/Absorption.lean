import Mathlib.Order.Basic
import Mathlib.Tactic.Common

/-! # Absorption in a forest

Some elements of a forest are marked, and some of the marks are absorbing: an absorbing mark makes
the marks below it superfluous, and a mark that is not absorbing gives way to any mark below it. What
is left has no two elements above each other (`not_above_of_kept`), there is a kept absorbing element
at or above every absorbing one (`exists_kept_of_absorbing`), and every marked element is kept or
lies above or below a kept one (`exists_kept_of_marked`). -/

namespace Absorption

variable {α : Type} {above : α → α → Prop} {marked absorbing : α → Prop} {a b c : α}

/-- A forest of finite depth: what lies above an element is a chain, and the depth grows downwards. -/
structure Forest (above : α → α → Prop) (depth : α → ℕ) : Prop where
  trans : ∀ {a b c}, above a b → above b c → above a c
  chain : ∀ {a b c}, above a c → above b c → a = b ∨ above a b ∨ above b a
  deeper : ∀ {a b}, above a b → depth a < depth b

/-- A marked element that neither gives way to a mark below it nor is absorbed. -/
structure Kept (above : α → α → Prop) (marked absorbing : α → Prop) (a : α) : Prop where
  isMarked : marked a
  standing : ¬absorbing a → ∀ b, marked b → ¬above a b
  exposed : ∀ b, marked b → absorbing b → ¬above b a

/-- **What is kept has no two elements above each other.** -/
theorem not_above_of_kept (ha : Kept above marked absorbing a)
    (hb : Kept above marked absorbing b) : ¬above a b := by
  intro hab
  by_cases habsorbing : absorbing a
  · exact hb.exposed a ha.isMarked habsorbing hab
  · exact ha.standing habsorbing b hb.isMarked hab

variable {depth : α → ℕ}

/-- **A kept absorbing element stands at or above every absorbing one.** -/
theorem exists_kept_of_absorbing (forest : Forest above depth) (ha : marked a)
    (habsorbing : absorbing a) :
    ∃ r, Kept above marked absorbing r ∧ absorbing r ∧ (r = a ∨ above r a) := by
  -- The element with the least depth above `a` is not absorbed.
  induction hn : depth a using Nat.strongRecOn generalizing a with
  | ind n ih =>
      subst hn
      by_cases hexposed : ∀ b, marked b → absorbing b → ¬above b a
      · exact ⟨a, ⟨ha, fun h => absurd habsorbing h, hexposed⟩, habsorbing, Or.inl rfl⟩
      · push Not at hexposed
        obtain ⟨b, hb, hbabsorbing, hba⟩ := hexposed
        obtain ⟨r, hr, hrabsorbing, hrb⟩ := ih (depth b) (forest.deeper hba) hb hbabsorbing rfl
        refine ⟨r, hr, hrabsorbing, Or.inr ?_⟩
        rcases hrb with rfl | hrb
        · exact hba
        · exact forest.trans hrb hba

/-- What is comparable with an element is comparable with what lies above it. -/
theorem comparable_of_above (forest : Forest above depth) {r p q : α} (hpq : above p q)
    (h : r = q ∨ above r q ∨ above q r) : r = p ∨ above r p ∨ above p r := by
  rcases h with rfl | hrq | hqr
  · exact Or.inr (Or.inr hpq)
  · exact forest.chain hrq hpq
  · exact Or.inr (Or.inr (forest.trans hpq hqr))

/-- **Every marked element is kept, or lies above or below a kept one.** -/
theorem exists_kept_of_marked (forest : Forest above depth) {bound : ℕ}
    (hbound : ∀ b, marked b → depth b ≤ bound) (ha : marked a) :
    ∃ r, Kept above marked absorbing r ∧ (r = a ∨ above r a ∨ above a r) := by
  -- The marks go down at most to the bound, so giving way ends.
  induction hn : bound - depth a using Nat.strongRecOn generalizing a with
  | ind n ih =>
      subst hn
      by_cases habsorbing : absorbing a
      · obtain ⟨r, hr, -, hra⟩ := exists_kept_of_absorbing forest ha habsorbing
        exact ⟨r, hr, hra.imp_right Or.inl⟩
      by_cases hstanding : ∀ b, marked b → ¬above a b
      · by_cases hexposed : ∀ b, marked b → absorbing b → ¬above b a
        · exact ⟨a, ⟨ha, fun _ => hstanding, hexposed⟩, Or.inl rfl⟩
        · push Not at hexposed
          obtain ⟨b, hb, hbabsorbing, hba⟩ := hexposed
          obtain ⟨r, hr, -, hrb⟩ := exists_kept_of_absorbing forest hb hbabsorbing
          refine ⟨r, hr, Or.inr (Or.inl ?_)⟩
          rcases hrb with rfl | hrb
          · exact hba
          · exact forest.trans hrb hba
      · push Not at hstanding
        obtain ⟨b, hb, hab⟩ := hstanding
        have hdeeper := forest.deeper hab
        have hb' := hbound b hb
        obtain ⟨r, hr, hrb⟩ := ih (bound - depth b) (by omega) hb rfl
        exact ⟨r, hr, comparable_of_above forest hab hrb⟩

end Absorption

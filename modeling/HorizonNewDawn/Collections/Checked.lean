import Mathlib.Tactic.Common

/-! # Folds whose steps may fail

A fold over a list whose steps may fail is the plain fold where all of the steps succeed
(`foldlM_ok`), and it succeeds only where each element has been passed (`exists_of_foldlM_ok`). -/

namespace List

variable {α β ε : Type} {f : β → α → β} {step : β → α → Except ε β} {l : List α}

/-- All of the steps succeed. -/
theorem foldlM_ok (h : ∀ a ∈ l, ∀ b, step b a = .ok (f b a)) (b : β) :
    l.foldlM step b = .ok (l.foldl f b) := by
  induction l generalizing b with
  | nil => rfl
  | cons a l ih =>
      rw [foldlM_cons, h a mem_cons_self, foldl_cons]
      exact ih (fun a' ha' => h a' (mem_cons_of_mem a ha')) (f b a)

/-- A fold that succeeds has passed each of its elements. -/
theorem exists_of_foldlM_ok {b c : β} (h : l.foldlM step b = .ok c) :
    ∀ a ∈ l, ∃ b' c', step b' a = .ok c' := by
  induction l generalizing b with
  | nil => simp
  | cons a l ih =>
      rw [foldlM_cons] at h
      cases hstep : step b a with
      | error e =>
          rw [hstep] at h
          cases h
      | ok b' =>
          rw [hstep] at h
          intro a' ha'
          rcases mem_cons.mp ha' with rfl | ha'
          · exact ⟨b, b', hstep⟩
          · exact ih h a' ha'

end List

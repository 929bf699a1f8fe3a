import Mathlib.Tactic.Common

/-! # Scripts

A script is one atomic operation made of several commands. A command that fails aborts the script,
and what the script has done until then stays done: the store is the one the script has come to.
`Script S α` is the monad of such scripts over a store `S`, and `Script.Moves R m` says that `m`
leads from every store to a store related by `R`, whether it comes to its end or not. -/

namespace Program

/-- A script over a store: it answers or is aborted, and changes the store in both cases. -/
abbrev Script (S α : Type) : Type := EStateM Unit S α

namespace Script

variable {S α β : Type} {R : S → S → Prop}

/-- The answer of a script, `none` where it is aborted, and the store it leaves behind. -/
def outcome (m : Script S α) (s : S) : Option α × S :=
  match m s with
  | .ok a s' => (some a, s')
  | .error _ s' => (none, s')

/-- A script that returns. -/
@[simp] theorem outcome_pure (a : α) (s : S) : outcome (pure a) s = (some a, s) := rfl

/-- A script that is aborted. -/
@[simp] theorem outcome_throw (s : S) : outcome (throw () : Script S α) s = (none, s) := rfl

/-- A script that changes the state. -/
@[simp] theorem outcome_modify (f : S → S) (s : S) :
    outcome (modify f) s = (some PUnit.unit, f s) := rfl

/-- Sequencing: an aborted script does not go on. -/
theorem outcome_bind (m : Script S α) (f : α → Script S β) (s : S) :
    outcome (m >>= f) s =
      match outcome m s with
      | (some a, s') => outcome (f a) s'
      | (none, s') => (none, s') := by
  show outcome (EStateM.bind m f) s = _
  unfold outcome EStateM.bind
  cases m s <;> rfl

/-- Every store the script leaves behind is related to the store it started in. -/
def Moves (R : S → S → Prop) (m : Script S α) : Prop := ∀ s, R s (outcome m s).2

namespace Moves

/-- Returning moves nothing. -/
theorem pure (hrefl : ∀ s, R s s) (a : α) : Moves R (Pure.pure a : Script S α) := hrefl

/-- Aborting moves nothing. -/
theorem throw (hrefl : ∀ s, R s s) : Moves R (MonadExcept.throw () : Script S α) := hrefl

/-- A change moves what it changes. -/
theorem modify {f : S → S} (h : ∀ s, R s (f s)) : Moves R (modify f : Script S PUnit) := h

/-- A script that looks at the store and goes on moves as what it goes on with. -/
theorem get_bind {f : S → Script S α} (h : ∀ s, R s (outcome (f s) s).2) :
    Moves R (get >>= f) := by
  intro s
  rw [outcome_bind]
  exact h s

/-- Scripts one after the other. -/
theorem bind (htrans : ∀ s s' s'', R s s' → R s' s'' → R s s'') {m : Script S α}
    {f : α → Script S β} (hm : Moves R m) (hf : ∀ a, Moves R (f a)) : Moves R (m >>= f) := by
  intro s
  have hs := hm s
  rw [outcome_bind]
  cases h : outcome m s with
  | mk r s' =>
      rw [h] at hs
      cases r with
      | none => exact hs
      | some a => exact htrans _ _ _ hs (hf a s')

/-- A loop over a list moves as its body does on the elements of the list. -/
theorem foldlM (hrefl : ∀ s, R s s) (htrans : ∀ s s' s'', R s s' → R s' s'' → R s s'')
    {body : β → α → Script S β} {as : List α} (h : ∀ a ∈ as, ∀ b, Moves R (body b a)) (b : β) :
    Moves R (as.foldlM body b) := by
  induction as generalizing b with
  | nil => exact Moves.pure hrefl b
  | cons a as ih =>
      rw [List.foldlM_cons]
      refine bind htrans (h a List.mem_cons_self b) fun b' => ?_
      exact ih (fun a' ha' => h a' (List.mem_cons_of_mem a ha')) b'

/-- A loop over a list that hands nothing on moves as its body does. -/
theorem forM (hrefl : ∀ s, R s s) (htrans : ∀ s s' s'', R s s' → R s' s'' → R s s'')
    {body : α → Script S PUnit} {as : List α} (h : ∀ a ∈ as, Moves R (body a)) :
    Moves R (as.forM body) := by
  induction as with
  | nil => exact Moves.pure hrefl PUnit.unit
  | cons a as ih =>
      show Moves R (body a >>= fun _ => as.forM body)
      refine bind htrans (h a List.mem_cons_self) fun _ => ?_
      exact ih fun a' ha' => h a' (List.mem_cons_of_mem a ha')

end Moves

end Script

end Program

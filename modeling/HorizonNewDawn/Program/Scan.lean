import Mathlib.Data.Nat.Notation
import Mathlib.Tactic.Common

/-! # Scans

A scan returns, stops with a message, or goes on without end. Its loops are run with a budget of
iterations, and `endless` says that the budget is used up: a loop whose iterations lower a measure
never uses up a budget above it (`loop_ends`), and what holds of the state before every iteration
carries over to the result (`loop_returned`). -/

namespace Program

/-- What a scan comes to. -/
inductive Scan (α : Type)
  | returned (a : α)
  | stopped (message : String)
  | endless
  deriving DecidableEq

/-- What an iteration of a loop does: it goes on with a state, or leaves the loop. -/
inductive Turn (σ α : Type)
  | again (s : σ)
  | done (a : α)
  deriving DecidableEq

namespace Scan

variable {α β σ : Type} {m : Scan α} {f : α → Scan β} {a : α} {b : β}

/-- One scan after the other. -/
def bind (m : Scan α) (f : α → Scan β) : Scan β :=
  match m with
  | .returned a => f a
  | .stopped message => .stopped message
  | .endless => .endless

/-- The scan comes to an end. -/
def Ends (m : Scan α) : Prop := m ≠ .endless

/-- What is returned is handed on. -/
@[simp] theorem bind_returned : (returned a).bind f = f a := rfl

/-- A scan that has stopped stays so. -/
@[simp] theorem bind_stopped {message : String} :
    (stopped message : Scan α).bind f = stopped message := rfl

/-- A scan without an end stays so. -/
@[simp] theorem bind_endless : (endless : Scan α).bind f = endless := rfl

/-- A scan that returns ends. -/
@[simp] theorem ends_returned : (returned a).Ends := nofun

/-- A scan that stops ends. -/
@[simp] theorem ends_stopped {message : String} : (stopped message : Scan α).Ends := nofun

/-- A scan without an end does not. -/
@[simp] theorem not_ends_endless : ¬(endless : Scan α).Ends := fun h => h rfl

/-- A scan that returns has gone through both parts. -/
theorem bind_eq_returned : m.bind f = .returned b ↔ ∃ a, m = .returned a ∧ f a = .returned b := by
  cases m <;> simp

/-- Sequencing is associative. -/
theorem bind_assoc {γ : Type} {g : β → Scan γ} :
    (m.bind f).bind g = m.bind fun a => (f a).bind g := by
  cases m <;> rfl

/-- Two scans end one after the other. -/
theorem Ends.bind (hm : m.Ends) (hf : ∀ a, m = .returned a → (f a).Ends) : (m.bind f).Ends := by
  cases m with
  | returned a => exact hf a rfl
  | stopped message => exact ends_stopped
  | endless => exact absurd rfl hm

/-! ## Loops -/

/-- Run a loop for at most so many iterations. -/
def loop (body : σ → Scan (Turn σ α)) : ℕ → σ → Scan α
  | 0, _ => .endless
  | fuel + 1, s => (body s).bind fun
    | .again s => loop body fuel s
    | .done a => .returned a

variable {body : σ → Scan (Turn σ α)} {fuel : ℕ} {s : σ}

/-- **Loops with a measure** come to an end. -/
theorem loop_ends {μ : σ → ℕ} (h : ∀ s, (body s).Ends)
    (hlower : ∀ s s', body s = .returned (.again s') → μ s' < μ s) (hfuel : μ s < fuel) :
    (loop body fuel s).Ends := by
  induction fuel generalizing s with
  | zero => exact absurd hfuel (Nat.not_lt_zero _)
  | succ fuel ih =>
      rw [loop]
      apply (h s).bind
      intro turn hturn
      cases turn with
      | again s' =>
          have hs' := hlower s s' hturn
          exact ih (by omega)
      | done a => exact ends_returned

/-- **Loops with an invariant** return what an iteration makes of it. -/
theorem loop_returned {I : σ → Prop} {Q : α → Prop}
    (hagain : ∀ s s', I s → body s = .returned (.again s') → I s')
    (hdone : ∀ s a, I s → body s = .returned (.done a) → Q a) (hs : I s)
    (h : loop body fuel s = .returned a) : Q a := by
  induction fuel generalizing s with
  | zero => cases h
  | succ fuel ih =>
      rw [loop] at h
      obtain ⟨turn, hturn, h⟩ := bind_eq_returned.mp h
      cases turn with
      | again s' => exact ih (hagain s s' hs hturn) h
      | done a' =>
          obtain rfl := returned.inj h
          exact hdone s _ hs hturn

end Scan

end Program

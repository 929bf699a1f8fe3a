import HorizonNewDawn.Program.Evaluation
import HorizonNewDawn.Program.History

/-! # Operations that fail

A request to a server may fail before it is carried out or after: then the program sees an exception
in either case and cannot tell which. The fate of the next operation is a part of the store that the
environment may change at any time, so that every pattern of failures is covered. -/

namespace Program

variable {Op : Type} {Ans : Op → Type} {Label Err S α : Type}

/-- What becomes of the next operation: it is answered, it is not carried out, or it is carried out
and its answer is lost. -/
inductive Fate
  | answered
  | unsent
  | unanswered
  deriving DecidableEq

/-- What a program sees of an operation that may fail: `none` is an exception. -/
abbrev Reply (Ans : Op → Type) (o : Op) : Type := Option (Ans o)

/-- An operation under the fate that awaits it. -/
def underFate (fate : S → Fate) (perform : (o : Op) → S → Ans o × S) (o : Op) (s : S) :
    Reply Ans o × S :=
  match fate s with
  | .answered => (some (perform o s).1, (perform o s).2)
  | .unsent => (none, s)
  | .unanswered => (none, (perform o s).2)

namespace Prog

/-- One operation, with `none` for an exception. -/
def attempt (o : Op) : Prog Op (Reply Ans) Label Err (Option (Ans o)) := perform o

/-- The answer of an operation, or the exception in its place. -/
def request (e : Err) (o : Op) : Prog Op (Reply Ans) Label Err (Ans o) :=
  attempt o >>= fun
    | some x => .ret x
    | none => .fail e

/-- An answered operation, alone. -/
theorem eval_request {exec : (o : Op) → S → Reply Ans o × S} {e : Err} {o : Op} {a : Ans o}
    {s s' : S} (h : exec o s = (some a, s')) :
    (request e o : Prog Op (Reply Ans) Label Err (Ans o)).eval exec s = (.returned a, s') := by
  have hattempt : (attempt o : Prog Op (Reply Ans) Label Err (Option (Ans o))).eval exec s =
      (.returned (some a), s') := by
    show (Outcome.returned (exec o s).1, (exec o s).2) = _
    rw [h]
  exact eval_bind_of hattempt

/-- An operation whose failure is an exception, alone. -/
theorem Ends.request {exec : (o : Op) → S → Reply Ans o × S} {e : Err} {o : Op} {s : S}
    {Q : Ans o → S → Prop} {E : Err → S → Prop} (hQ : ∀ a, (exec o s).1 = some a → Q a (exec o s).2)
    (hE : (exec o s).1 = none → E e (exec o s).2) :
    Ends exec (request e o : Prog Op (Reply Ans) Label Err (Ans o)) s Q E := by
  have hattempt : Ends exec (attempt o : Prog Op (Reply Ans) Label Err (Option (Ans o))) s
      (fun r s' => r = (exec o s).1 ∧ s' = (exec o s).2) E := ⟨rfl, rfl⟩
  refine hattempt.bind ?_
  rintro r s' ⟨hr, rfl⟩
  cases r with
  | none => exact hE hr.symm
  | some a => exact hQ a hr.symm

end Prog

variable {fate : S → Fate} {perform : (o : Op) → S → Ans o × S} {D : Discipline Op Label S}
  {E : Err → S → Prop} {Φ : S → Prop} {o : Op} {s : S}

/-- The store after an operation that may fail is the old one, or the one the operation leads to. -/
theorem underFate_store (P : S → Prop) (h : P s) (h' : P (perform o s).2) :
    P (underFate fate perform o s).2 := by
  unfold underFate
  cases fate s with
  | answered => exact h'
  | unsent => exact h
  | unanswered => exact h'

/-- An operation whose failure is noticed. -/
theorem wp_attempt {Q : Option (Ans o) → S → Prop} (hΦ : D.Stable Φ) (hs : Φ s)
    (hok : ∀ s, Φ s → D.assume [] o s → D.ok [] o s)
    (hanswer : ∀ s, Φ s → D.assume [] o s → Q (some (perform o s).1) (perform o s).2)
    (hfail : ∀ s, Φ s → D.assume [] o s → Q none s ∧ Q none (perform o s).2) :
    wp (underFate fate perform) D (Prog.attempt o) Q E s := by
  refine wp_perform_of hΦ hs fun s hs ha => ⟨hok s hs ha, ?_⟩
  unfold underFate
  cases fate s with
  | answered => exact hanswer s hs ha
  | unsent => exact (hfail s hs ha).1
  | unanswered => exact (hfail s hs ha).2

/-- An operation whose failure is an exception. -/
theorem wp_request {e : Err} {Q : Ans o → S → Prop} (hΦ : D.Stable Φ) (hs : Φ s)
    (hok : ∀ s, Φ s → D.assume [] o s → D.ok [] o s)
    (hanswer : ∀ s, Φ s → D.assume [] o s → Q (perform o s).1 (perform o s).2)
    (hfail : ∀ s, Φ s → D.assume [] o s → E e s ∧ E e (perform o s).2) :
    wp (underFate fate perform) D (Prog.request e o) Q E s :=
  wp_bind.mpr (wp_attempt hΦ hs hok hanswer hfail)

/-! ## Recorded runs -/

section Recorded

variable {R : Discipline Op Label (Recorded Op S)} {E : Err → Recorded Op S → Prop}
  {x : Recorded Op S}

/-- An operation of a recorded run whose failure is noticed. -/
theorem wp_recording_attempt {Q : Option (Ans o) → Recorded Op S → Prop}
    (hok : ∀ y, R.rely [] x y → R.assume [] o y → R.ok [] o y)
    (hanswer : ∀ y, R.rely [] x y → R.assume [] o y → fate y.1 = .answered →
      Q (some (perform o y.1).1) ((perform o y.1).2, (o, y.1) :: y.2))
    (hfail : ∀ y, R.rely [] x y → R.assume [] o y → fate y.1 ≠ .answered →
      Q none (recording (underFate fate perform) o y).2) :
    wp (recording (underFate fate perform)) R (Prog.attempt o) Q E x := by
  refine wp_perform.mpr fun y hr ha => ⟨hok y hr ha, ?_⟩
  cases hfate : fate y.1 with
  | answered => simpa [recording, underFate, hfate] using hanswer y hr ha hfate
  | unsent => simpa [recording, underFate, hfate] using hfail y hr ha (by simp [hfate])
  | unanswered => simpa [recording, underFate, hfate] using hfail y hr ha (by simp [hfate])

/-- An operation of a recorded run whose failure is an exception. -/
theorem wp_recording_request {e : Err} {Q : Ans o → Recorded Op S → Prop}
    (hok : ∀ y, R.rely [] x y → R.assume [] o y → R.ok [] o y)
    (hanswer : ∀ y, R.rely [] x y → R.assume [] o y → fate y.1 = .answered →
      Q (perform o y.1).1 ((perform o y.1).2, (o, y.1) :: y.2))
    (hfail : ∀ y, R.rely [] x y → R.assume [] o y → fate y.1 ≠ .answered →
      E e (recording (underFate fate perform) o y).2) :
    wp (recording (underFate fate perform)) R (Prog.request e o) Q E x :=
  wp_bind.mpr (wp_recording_attempt hok hanswer hfail)

end Recorded

end Program

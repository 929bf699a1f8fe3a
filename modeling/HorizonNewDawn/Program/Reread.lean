import HorizonNewDawn.Program.History
import Mathlib

/-! # Reading between two readings of a revision

`Prog.unchanged` reads a revision, runs a body and reads the revision again. Where the two are the same
it returns the result of the body, with the revision; where they differ it starts again, as often as it
is allowed to. A revision that is read again at the end was the current one all the time
(`wp_unchanged`), and it was so at a step of the run. -/

namespace Program

variable {Op : Type} {Ans : Op → Type} {Label Err S α ρ : Type}

/-- The body between two readings of the same revision, tried a number of times; `e` is thrown where
there is no revision, and after the last attempt. -/
def Prog.unchanged [DecidableEq ρ] (revisions : Prog Op Ans Label Err (Option ρ))
    (body : Prog Op Ans Label Err α) (e : Err) : ℕ → Prog Op Ans Label Err (ρ × α)
  | 0 => .fail e
  | attempts + 1 => do
      match ← revisions with
      | none => .fail e
      | some revision =>
          let a ← body
          if (← revisions) = some revision then return (revision, a)
          else Prog.unchanged revisions body e attempts

variable {exec : (o : Op) → S → Ans o × S} {D : Discipline Op Label S} {x : Recorded Op S}

/-- What a program shows of the store its first operation is performed in is shown of a recorded one. -/
theorem wp_first {ls : List Label} {o : Op} {next : Ans o → Prog Op Ans Label Err α}
    {Φ : α → S → Prop}
    (h : ∀ s, D.rely ls x.1 s →
      wp exec D (.op ls o next) (fun a _ => Φ a s) (fun _ _ => True) s) :
    wp (recording exec) D.recorded (.op ls o next)
      (fun a y => ∃ ls o at₁, (o, at₁) ∈ y.2 ∧ D.assume ls o at₁ ∧ Φ a at₁) (fun _ _ => True) x := by
  intro y hr ha
  obtain ⟨hok, hnext⟩ := h y.1 hr.1 y.1 (D.rely_refl ls y.1) ha
  refine ⟨hok, ?_⟩
  have hnext' : wp exec D (next (recording exec o y).1) (fun a _ => Φ a y.1) (fun _ _ => True)
      (recording exec o y).2.1 := hnext
  apply wp_mono _ (fun _ _ _ => trivial) (wp_recording hnext')
  rintro a z ⟨hΦ, hhistory⟩
  exact ⟨ls, o, y.1, hhistory List.mem_cons_self, ha, hΦ⟩

/-- **What is read between two readings of the same revision** is what the revision says, and there was
a step at which it was the current one. `Past` says that a revision has been current, and `Shows` that it
is. -/
theorem wp_unchanged [DecidableEq ρ] {revisions : Prog Op Ans Label Err (Option ρ)}
    {body : Prog Op Ans Label Err α} {e : Err} {attempts : ℕ} {Past Shows : ρ → S → Prop}
    {R : ρ → α → Prop} (hop : ∃ ls o next, revisions = .op ls o next)
    (hstable : ∀ r, D.Stable (Past r))
    (hfirst : ∀ s, wp exec D revisions (fun st s' => ∀ r ∈ st, Past r s') (fun _ _ => True) s)
    (hbody : ∀ s r, Past r s → wp exec D body
      (fun a s' => Past r s' ∧ (Shows r s' → R r a)) (fun _ _ => True) s)
    (hagain : ∀ s r, Past r s → wp exec D revisions
      (fun st _ => st = some r → Shows r s) (fun _ _ => True) s) :
    wp (recording exec) D.recorded (Prog.unchanged revisions body e attempts)
      (fun result y => R result.1 result.2 ∧
        ∃ ls o at₁, (o, at₁) ∈ y.2 ∧ D.assume ls o at₁ ∧ Shows result.1 at₁)
      (fun _ _ => True) x := by
  induction attempts generalizing x with
  | zero => trivial
  | succ attempts ih =>
      have hfirst' : wp (recording exec) D.recorded revisions
          (fun st y => ∀ r ∈ st, Past r y.1) (fun _ _ => True) x :=
        wp_mono (fun _ _ h => h.1) (fun _ _ _ => trivial) (wp_recording (hfirst x.1))
      apply wp_bind_of hfirst'
      intro st y hst
      cases st with
      | none => trivial
      | some r =>
          have hbody' : wp (recording exec) D.recorded body
              (fun a z => Past r z.1 ∧ (Shows r z.1 → R r a)) (fun _ _ => True) y :=
            wp_mono (fun _ _ h => h.1) (fun _ _ _ => trivial)
              (wp_recording (hbody y.1 r (hst r rfl)))
          apply wp_bind_of hbody'
          rintro a z ⟨hpast, hR⟩
          -- The second reading is looked at from the end of the body and from its own first step.
          have hshows : wp (recording exec) D.recorded revisions
              (fun st _ => st = some r → Shows r z.1) (fun _ _ => True) z :=
            wp_mono (fun _ _ h => h.1) (fun _ _ _ => trivial) (wp_recording (hagain z.1 r hpast))
          have hstep : wp (recording exec) D.recorded revisions
              (fun st w => ∃ ls o at₁, (o, at₁) ∈ w.2 ∧ D.assume ls o at₁ ∧
                (st = some r → Shows r at₁)) (fun _ _ => True) z := by
            obtain ⟨ls, o, next, rfl⟩ := hop
            apply wp_first
            intro s hr
            exact hagain s r (hstable r ls z.1 s hr hpast)
          have hboth : wp (recording exec) D.recorded revisions
              (fun st w => (st = some r → Shows r z.1) ∧
                ∃ ls o at₁, (o, at₁) ∈ w.2 ∧ D.assume ls o at₁ ∧ (st = some r → Shows r at₁))
              (fun _ _ => True) z :=
            wp_mono (fun _ _ h => h) (fun _ _ _ => trivial) (wp_and hshows hstep)
          apply wp_bind_of hboth
          rintro st' w ⟨hsame, ls, o, at₁, hmem, hassume, hat₁⟩
          by_cases heq : st' = some r
          · rw [if_pos heq]
            exact ⟨hR (hsame heq), ls, o, at₁, hmem, hassume, hat₁ heq⟩
          · rw [if_neg heq]
            exact ih

end Program

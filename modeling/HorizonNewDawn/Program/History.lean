import HorizonNewDawn.Program.Weakest

/-! # Recording what a program does

Statements about a moment in the middle of a run need the run to be remembered. `recording exec` is
`exec` on stores that carry the operations performed so far, each with the store it was performed
in, the latest first. Recording changes nothing about the program (`wp_recording`), so it is only
looked at where an operation matters. -/

namespace Program

variable {Op : Type} {Ans : Op → Type} {Label Err S α : Type}

/-- A store with the operations performed so far, the latest first. -/
abbrev Recorded (Op S : Type) : Type := S × List (Op × S)

/-- Perform an operation and record it. -/
def recording (exec : (o : Op) → S → Ans o × S) (o : Op) (x : Recorded Op S) :
    Ans o × Recorded Op S :=
  ((exec o x.1).1, (exec o x.1).2, (o, x.1) :: x.2)

/-- The same discipline for recorded stores: the environment records nothing. -/
def Discipline.recorded (D : Discipline Op Label S) :
    Discipline Op Label (Recorded Op S) where
  rely ls x x' := D.rely ls x.1 x'.1 ∧ x'.2 = x.2
  assume ls o x := D.assume ls o x.1
  ok ls o x := D.ok ls o x.1
  rely_refl ls x := ⟨D.rely_refl ls x.1, rfl⟩
  rely_trans ls _ _ _ h h' := ⟨D.rely_trans ls _ _ _ h.1 h'.1, h'.2.trans h.2⟩

variable {exec : (o : Op) → S → Ans o × S} {D : Discipline Op Label S} {Q : α → S → Prop}
  {E : Err → S → Prop} {p : Prog Op Ans Label Err α} {x : Recorded Op S}

/-- An assertion about the store is as stable as before. -/
theorem Discipline.Stable.recorded {Φ : S → Prop} (h : D.Stable Φ) :
    D.recorded.Stable fun x => Φ x.1 := fun ls _ _ hr => h ls _ _ hr.1

/-- **Recording changes nothing**, and adds nothing but the operations the program performs. -/
theorem wp_recording_of_obeys {P : Op → Prop} (hp : Obeys (fun _ => P) (fun _ _ => True) p fun _ => True)
    (h : wp exec D p Q E x.1) :
    wp (recording exec) D.recorded p
      (fun a y => Q a y.1 ∧ ∃ new, y.2 = new ++ x.2 ∧ ∀ e ∈ new, P e.1)
      (fun e y => E e y.1 ∧ ∃ new, y.2 = new ++ x.2 ∧ ∀ e ∈ new, P e.1) x := by
  induction p generalizing x with
  | ret a => exact ⟨h, [], rfl, fun _ h => nomatch h⟩
  | fail e => exact ⟨h, [], rfl, fun _ h => nomatch h⟩
  | stopped => trivial
  | op ls o next ih =>
      intro y hr ha
      obtain ⟨hok, hnext⟩ := h y.1 hr.1 ha
      refine ⟨hok, ?_⟩
      have hgrown : ∀ z : Recorded Op S,
          (∃ new, z.2 = new ++ (recording exec o y).2.2 ∧ ∀ e ∈ new, P e.1) →
            ∃ new, z.2 = new ++ x.2 ∧ ∀ e ∈ new, P e.1 := by
        rintro z ⟨new, hnew, hall⟩
        refine ⟨new ++ [(o, y.1)], ?_, ?_⟩
        · rw [hnew, List.append_assoc]
          exact congrArg (fun h => new ++ (o, y.1) :: h) hr.2
        · intro e he
          rcases List.mem_append.mp he with he | he
          · exact hall e he
          · rw [List.mem_singleton.mp he]
            exact hp.1
      have hih := ih (exec o y.1).1 (x := (recording exec o y).2) (hp.2 _ trivial) hnext
      exact wp_mono (fun _ z hz => ⟨hz.1, hgrown z hz.2⟩) (fun _ z hz => ⟨hz.1, hgrown z hz.2⟩) hih

/-- Recording changes nothing, and takes nothing back. -/
theorem wp_recording_suffix (h : wp exec D p Q E x.1) :
    wp (recording exec) D.recorded p (fun a y => Q a y.1 ∧ x.2 <:+ y.2)
      (fun e y => E e y.1 ∧ x.2 <:+ y.2) x :=
  wp_mono (fun _ _ ⟨hq, new, hnew, _⟩ => ⟨hq, new, hnew.symm⟩)
    (fun _ _ ⟨he, new, hnew, _⟩ => ⟨he, new, hnew.symm⟩)
    (wp_recording_of_obeys (P := fun _ => True) (Obeys.of_true p) h)

/-- Recording changes nothing, and forgets nothing. -/
theorem wp_recording (h : wp exec D p Q E x.1) :
    wp (recording exec) D.recorded p (fun a y => Q a y.1 ∧ x.2 ⊆ y.2)
      (fun e y => E e y.1 ∧ x.2 ⊆ y.2) x :=
  wp_mono (fun _ _ h => ⟨h.1, h.2.subset⟩) (fun _ _ h => ⟨h.1, h.2.subset⟩) (wp_recording_suffix h)

/-- What is shown of recorded runs holds without the record. -/
theorem wp_of_recording (h : wp (recording exec) D.recorded p (fun a y => Q a y.1)
    (fun e y => E e y.1) x) : wp exec D p Q E x.1 := by
  induction p generalizing x with
  | ret a => exact h
  | fail e => exact h
  | stopped => trivial
  | op ls o next ih =>
      intro s hr ha
      obtain ⟨hok, hnext⟩ := h (s, x.2) ⟨hr, rfl⟩ ha
      exact ⟨hok, ih _ hnext⟩

/-- Recording changes nothing for a program that establishes a fact apart from the store. -/
theorem wp_recording_const {F : List (Op × S) → Prop} (hF : ∀ h h', h ⊆ h' → F h → F h')
    (hok : ∀ ls o s, D.assume ls o s → D.ok ls o s) (hx : F x.2) :
    wp (recording exec) D.recorded p (fun _ y => F y.2) (fun _ y => F y.2) x :=
  wp_mono (fun _ _ h => hF _ _ h.2 hx) (fun _ _ h => hF _ _ h.2 hx)
    (wp_recording (Q := fun _ _ => True) (E := fun _ _ => True) (wp_trivial hok))

end Program

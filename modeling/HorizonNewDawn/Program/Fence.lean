import HorizonNewDawn.Program.History
import HorizonNewDawn.Program.Scoped

/-! # Reading under a fence

A reader that takes no lock compares a revision before and after it reads. While it reads, the
store is either still `Fresh` or has become `Stale` for good, and a stale store shows a different
revision in the end. So what the reader establishes when nobody disturbs it holds of what it has
read, or the store is stale by then (`wp_fenced`). -/

namespace Program

variable {Op : Type} {Ans : Op → Type} {Label Err S α : Type}
  {exec : (o : Op) → S → Ans o × S} {D D' : Discipline Op Label S} {Q : α → S → Prop}
  {E : Err → S → Prop} {p : Prog Op Ans Label Err α} {s : S}

/-- A fence: the environment either stays within the discipline `D` of a reader that is not
disturbed, or makes the store stale for good, and so do the operations `P` of the reader. -/
structure Fence (exec : (o : Op) → S → Ans o × S) (D D' : Discipline Op Label S)
    (P : List Label → Op → Prop) (Fresh Stale : S → Prop) : Prop where
  rely : ∀ ls s s', Fresh s → D'.rely ls s s' → D.rely ls s s' ∧ Fresh s' ∨ Stale s'
  stale : D'.Stable Stale
  assume : ∀ ls o s, D'.assume ls o s → D.assume ls o s
  ok : ∀ ls o s, D'.assume ls o s → D'.ok ls o s
  keeps : ∀ ls o s, P ls o → (Fresh s → Fresh (exec o s).2) ∧ (Stale s → Stale (exec o s).2)

variable {P : List Label → Op → Prop} {Fresh Stale : S → Prop} {A : Op → S → Prop}

/-- The discipline whose operations are looked at under a further assumption. -/
def Discipline.assuming (D : Discipline Op Label S) (A : Op → S → Prop) : Discipline Op Label S where
  rely := D.rely
  assume ls o s := D.assume ls o s ∧ A o s
  ok := D.ok
  rely_refl := D.rely_refl
  rely_trans := D.rely_trans

/-- What is established without the assumption is established with it. -/
theorem wp_assuming (h : wp exec D p Q E s) : wp exec (D.assuming A) p Q E s :=
  wp_mono_discipline (D := D) (fun _ _ _ hr => hr) (fun _ _ _ ha => ha.1)
    (fun _ _ _ _ hok => hok) h

/-- A further assumption does no harm. -/
theorem Scoped.wp_assuming {ρ : Type} {p : Scoped Op Ans Label Err ρ α}
    (h : Scoped.wp exec D p Q E s) : Scoped.wp exec (D.assuming A) p Q E s :=
  fun l => Program.wp_assuming (h l)

/-- Recording changes nothing about a scoped program, and forgets nothing. -/
theorem Scoped.wp_recording {ρ : Type} {p : Scoped Op Ans Label Err ρ α} {x : Recorded Op S}
    (h : Scoped.wp exec D p Q E x.1) :
    Scoped.wp (recording exec) D.recorded p (fun a y => Q a y.1 ∧ x.2 ⊆ y.2)
      (fun e y => E e y.1) x := by
  intro l
  apply Program.wp_mono _ (fun _ _ h => h.1) (Program.wp_recording (h l))
  rintro r y ⟨hr, hsub⟩
  cases hresult : r.1 with
  | ok a =>
      rw [hresult] at hr
      exact ⟨hr, hsub⟩
  | error e =>
      rw [hresult] at hr
      exact hr

/-- A record of the commands does no harm. -/
theorem Scoped.Yields.recording {ρ : Type} {p : Scoped Op Ans Label Err ρ α} {x : Recorded Op S}
    (h : Scoped.Yields exec D p Q x.1) :
    Scoped.Yields (Program.recording exec) D.recorded p (fun a y => Q a y.1 ∧ x.2 ⊆ y.2) x := by
  intro l
  apply Program.wp_mono _ (fun _ _ _ => trivial) (Program.wp_recording (h l))
  rintro r y ⟨hr, hsub⟩ a ha
  exact ⟨hr a ha, hsub⟩

/-- A fence is a fence under a further assumption. -/
theorem Fence.assuming (h : Fence exec D D' P Fresh Stale) :
    Fence exec (D.assuming A) (D'.assuming A) P Fresh Stale where
  rely := h.rely
  stale := h.stale
  assume := fun ls o s ha => ⟨h.assume ls o s ha.1, ha.2⟩
  ok := fun ls o s ha => h.ok ls o s ha.1
  keeps := h.keeps

/-- A reader of a stale store leaves it stale. -/
theorem Fence.wp_stale (h : Fence exec D D' P Fresh Stale)
    (hobeys : Obeys P (fun _ _ => True) p fun _ => True) (hs : Stale s) :
    wp exec D' p (fun _ => Stale) (fun _ => Stale) s :=
  wp_mono (fun _ _ h => h.2) (fun _ _ h => h)
    (wp_of_obeys h.stale
      (fun ls o s hP hs ha => ⟨h.ok ls o s ha, trivial, (h.keeps ls o s hP).2 hs⟩) hobeys hs)

/-- A fence is a fence for recorded stores. -/
theorem Fence.recorded (h : Fence exec D D' P Fresh Stale) :
    Fence (recording exec) D.recorded D'.recorded P (fun x => Fresh x.1) fun x => Stale x.1 where
  rely := by
    intro ls x x' hx hr
    rcases h.rely ls x.1 x'.1 hx hr.1 with ⟨hrely, hfresh⟩ | hstale
    · exact Or.inl ⟨⟨hrely, hr.2⟩, hfresh⟩
    · exact Or.inr hstale
  stale := h.stale.recorded
  assume := fun ls o x => h.assume ls o x.1
  ok := fun ls o x => h.ok ls o x.1
  keeps := fun ls o x => h.keeps ls o x.1

/-- **Reading under a fence**: what is established without disturbance holds, or the store has
become stale. -/
theorem wp_fenced (h : Fence exec D D' P Fresh Stale)
    (hobeys : Obeys P (fun _ _ => True) p fun _ => True) (hs : Fresh s) (hwp : wp exec D p Q E s) :
    wp exec D' p (fun a s => Stale s ∨ Fresh s ∧ Q a s) (fun e s => Stale s ∨ Fresh s ∧ E e s)
      s := by
  induction p generalizing s with
  | ret a => exact Or.inr ⟨hs, hwp⟩
  | fail e => exact Or.inr ⟨hs, hwp⟩
  | stopped => trivial
  | op ls o next ih =>
      intro s' hr ha
      refine ⟨h.ok ls o s' ha, ?_⟩
      obtain ⟨hfresh, hstale⟩ := h.keeps ls o s' hobeys.1
      rcases h.rely ls s s' hs hr with ⟨hr', hs'⟩ | hs'
      · exact ih _ (hobeys.2 _ trivial) (hfresh hs') (hwp s' hr' (h.assume ls o s' ha)).2
      · exact wp_mono (fun _ _ => Or.inl) (fun _ _ => Or.inl)
          (h.wp_stale (hobeys.2 _ trivial) (hstale hs'))

end Program

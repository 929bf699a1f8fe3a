import HorizonNewDawn.Program.Basic

/-! # Weakest preconditions under interference

A rely logic for programs over atomic operations. Between two operations of a program the
environment may change the store; a `Discipline` says how (`rely`), under which circumstances an
operation of the program is looked at at all (`assume`) and what has to hold when it is performed
(`ok`). All three may depend on the sections the next operation stands in, so that a discipline can
promise more to a program inside a critical section than outside.

`wp exec D p Q E s` says: started in the store `s`, interleaved with the environment in any way,
every operation of `p` performed under `assume` satisfies `ok`, a result of `p` satisfies `Q` with
the store it is returned in, and an exception satisfies `E`. It is defined by recursion on the
program, so all of its rules are equations or inductions on the program. -/

namespace Program

variable {Op : Type} {Ans : Op → Type} {Label Err S : Type} {α β σ : Type}

/-- What a program may rely on and what it has to ensure at its operations. -/
structure Discipline (Op Label S : Type) where
  /-- The changes the environment may make before an operation in the given sections. -/
  rely : List Label → S → S → Prop
  /-- The circumstances under which an operation is looked at. -/
  assume : List Label → Op → S → Prop
  /-- The obligation at an operation, in the store it is performed in. -/
  ok : List Label → Op → S → Prop
  rely_refl : ∀ ls s, rely ls s s
  rely_trans : ∀ ls s s' s'', rely ls s s' → rely ls s' s'' → rely ls s s''

namespace Discipline

/-- The discipline of a program that stands inside the section `l`. -/
def push (D : Discipline Op Label S) (l : Label) : Discipline Op Label S where
  rely ls := D.rely (l :: ls)
  assume ls := D.assume (l :: ls)
  ok ls := D.ok (l :: ls)
  rely_refl ls := D.rely_refl (l :: ls)
  rely_trans ls := D.rely_trans (l :: ls)

/-- An assertion the environment cannot invalidate. -/
def Stable (D : Discipline Op Label S) (Φ : S → Prop) : Prop :=
  ∀ ls s s', D.rely ls s s' → Φ s → Φ s'

/-- Two stable assertions are stable together. -/
theorem Stable.and {D : Discipline Op Label S} {Φ Ψ : S → Prop} (hΦ : D.Stable Φ)
    (hΨ : D.Stable Ψ) : D.Stable fun s => Φ s ∧ Ψ s :=
  fun ls s s' hr h => ⟨hΦ ls s s' hr h.1, hΨ ls s s' hr h.2⟩

/-- An assertion stays stable inside a section. -/
theorem Stable.push {D : Discipline Op Label S} {Φ : S → Prop} (hΦ : D.Stable Φ) (l : Label) :
    (D.push l).Stable Φ := fun ls => hΦ (l :: ls)

/-- What does not depend on the store is stable. -/
theorem stable_const (D : Discipline Op Label S) (a : Prop) : D.Stable fun _ => a :=
  fun _ _ _ _ h => h

end Discipline

/-- The weakest precondition of a program under interference. -/
def wp (exec : (o : Op) → S → Ans o × S) (D : Discipline Op Label S) :
    Prog Op Ans Label Err α → (α → S → Prop) → (Err → S → Prop) → S → Prop
  | .ret a, Q, _, s => Q a s
  | .fail e, _, E, s => E e s
  | .stopped, _, _, _ => True
  | .op ls o next, Q, E, s => ∀ s', D.rely ls s s' → D.assume ls o s' →
      D.ok ls o s' ∧ wp exec D (next (exec o s').1) Q E (exec o s').2

section Rules

variable {exec : (o : Op) → S → Ans o × S} {D D' : Discipline Op Label S}
  {Q Q' : α → S → Prop} {E E' : Err → S → Prop} {s : S} {p : Prog Op Ans Label Err α}

/-- A program that returns is about its result. -/
@[simp] theorem wp_ret {a : α} :
    wp exec D (.ret a : Prog Op Ans Label Err α) Q E s ↔ Q a s := Iff.rfl

/-- A program that throws is about its exception. -/
@[simp] theorem wp_fail {e : Err} :
    wp exec D (.fail e : Prog Op Ans Label Err α) Q E s ↔ E e s := Iff.rfl

/-- A process that has ended is about nothing. -/
@[simp] theorem wp_stopped :
    wp exec D (.stopped : Prog Op Ans Label Err α) Q E s ↔ True := Iff.rfl

/-- An operation may be given in any store the world leads to, and what follows is about the rest. -/
theorem wp_op {ls : List Label} {o : Op} {next : Ans o → Prog Op Ans Label Err α} :
    wp exec D (.op ls o next) Q E s ↔ ∀ s', D.rely ls s s' → D.assume ls o s' →
      D.ok ls o s' ∧ wp exec D (next (exec o s').1) Q E (exec o s').2 := Iff.rfl

/-- **Sequencing**: the postcondition of the first program is the precondition of the second. -/
@[simp] theorem wp_bind {f : α → Prog Op Ans Label Err β} {Q : β → S → Prop} :
    wp exec D (p >>= f) Q E s ↔ wp exec D p (fun a s => wp exec D (f a) Q E s) E s := by
  induction p generalizing s with
  | ret a => rfl
  | fail e => rfl
  | stopped => rfl
  | op ls o next ih => simp only [Prog.op_bind, wp_op, ih]

/-- A weaker postcondition is established too. -/
theorem wp_mono (hQ : ∀ a s, Q a s → Q' a s) (hE : ∀ e s, E e s → E' e s)
    (h : wp exec D p Q E s) : wp exec D p Q' E' s := by
  induction p generalizing s with
  | ret a => exact hQ a s h
  | fail e => exact hE e s h
  | stopped => trivial
  | op ls o next ih => exact fun s' hr ha => ⟨(h s' hr ha).1, ih _ (h s' hr ha).2⟩

/-- Sequencing, from what the first program establishes. -/
theorem wp_bind_of {f : α → Prog Op Ans Label Err β} {R : β → S → Prop}
    (h : wp exec D p Q E s) (hf : ∀ a s, Q a s → wp exec D (f a) R E s) :
    wp exec D (p >>= f) R E s :=
  wp_bind.mpr (wp_mono hf (fun _ _ h => h) h)

/-- A discipline with less interference, a stronger assumption and a weaker obligation is met. -/
theorem wp_mono_discipline (hr : ∀ ls s s', D'.rely ls s s' → D.rely ls s s')
    (ha : ∀ ls o s, D'.assume ls o s → D.assume ls o s)
    (hok : ∀ ls o s, D'.assume ls o s → D.ok ls o s → D'.ok ls o s) (h : wp exec D p Q E s) :
    wp exec D' p Q E s := by
  induction p generalizing s with
  | ret a => exact h
  | fail e => exact h
  | stopped => trivial
  | op ls o next ih =>
      intro s' hrely hassume
      obtain ⟨h₁, h₂⟩ := h s' (hr ls s s' hrely) (ha ls o s' hassume)
      exact ⟨hok ls o s' hassume h₁, ih _ h₂⟩

/-- Interference before the next operation is already accounted for. -/
theorem wp_of_rely {ls : List Label} {o : Op} {next : Ans o → Prog Op Ans Label Err α} {s' : S}
    (hr : D.rely ls s s') (h : wp exec D (.op ls o next) Q E s) :
    wp exec D (.op ls o next) Q E s' :=
  fun s'' hr' => h s'' (D.rely_trans ls s s' s'' hr hr')

/-- Two postconditions established separately are established together. -/
theorem wp_and (h : wp exec D p Q E s) (h' : wp exec D p Q' E' s) :
    wp exec D p (fun a s => Q a s ∧ Q' a s) (fun e s => E e s ∧ E' e s) s := by
  induction p generalizing s with
  | ret a => exact ⟨h, h'⟩
  | fail e => exact ⟨h, h'⟩
  | stopped => trivial
  | op ls o next ih =>
      exact fun s' hr ha => ⟨(h s' hr ha).1, ih _ (h s' hr ha).2 (h' s' hr ha).2⟩

/-- One operation on its own. -/
theorem wp_perform {o : Op} {Q : Ans o → S → Prop} :
    wp exec D (Prog.perform o : Prog Op Ans Label Err (Ans o)) Q E s ↔
      ∀ s', D.rely [] s s' → D.assume [] o s' →
        D.ok [] o s' ∧ Q (exec o s').1 (exec o s').2 := Iff.rfl

/-- One operation, from a stable assertion. -/
theorem wp_perform_of {o : Op} {Q : Ans o → S → Prop} {Φ : S → Prop} (hΦ : D.Stable Φ) (hs : Φ s)
    (h : ∀ s, Φ s → D.assume [] o s → D.ok [] o s ∧ Q (exec o s).1 (exec o s).2) :
    wp exec D (Prog.perform o : Prog Op Ans Label Err (Ans o)) Q E s :=
  fun s' hr ha => h s' (hΦ [] s s' hr hs) ha

/-- A section hands its promises to the operations inside. -/
theorem wp_inside {l : Label} :
    wp exec D (p.inside l) Q E s ↔ wp exec (D.push l) p Q E s := by
  induction p generalizing s with
  | ret a => rfl
  | fail e => rfl
  | stopped => rfl
  | op ls o next ih => simp only [Prog.inside, wp_op, ih]; rfl

/-- `try … finally …`: the clean-up runs after a result and after an exception. -/
theorem wp_tryFinally {cleanup : Prog Op Ans Label Err Unit} :
    wp exec D (p.tryFinally cleanup) Q E s ↔
      wp exec D p (fun a s => wp exec D cleanup (fun _ s => Q a s) E s)
        (fun e s => wp exec D cleanup (fun _ s => E e s) E s) s := by
  induction p generalizing s with
  | ret a => simp only [Prog.tryFinally, wp_bind, wp_ret]
  | fail e => simp only [Prog.tryFinally, wp_bind, wp_fail]
  | stopped => rfl
  | op ls o next ih => simp only [Prog.tryFinally, wp_op, ih]

/-- `try … finally …`, from what the body establishes. -/
theorem wp_tryFinally_of {cleanup : Prog Op Ans Label Err Unit} {R : α → S → Prop}
    {F : Err → S → Prop} (h : wp exec D p Q E s)
    (hQ : ∀ a s, Q a s → wp exec D cleanup (fun _ s => R a s) F s)
    (hE : ∀ e s, E e s → wp exec D cleanup (fun _ s => F e s) F s) :
    wp exec D (p.tryFinally cleanup) R F s :=
  wp_tryFinally.mpr (wp_mono hQ hE h)

/-- `if` without an alternative. -/
theorem wp_ifThen {c : Prop} [Decidable c] {p : Prog Op Ans Label Err Unit} {Q : Unit → S → Prop}
    (h : c → wp exec D p Q E s) (h' : ¬c → Q () s) : wp exec D (Prog.ifThen c p) Q E s := by
  unfold Prog.ifThen
  split
  · exact h ‹c›
  · exact h' ‹¬c›

/-- `try … catch …`: the handler takes the exceptions over. -/
theorem wp_tryCatch {handler : Err → Prog Op Ans Label Err α} :
    wp exec D (p.tryCatch handler) Q E s ↔
      wp exec D p Q (fun e s => wp exec D (handler e) Q E s) s := by
  induction p generalizing s with
  | ret a => rfl
  | fail e => rfl
  | stopped => rfl
  | op ls o next ih => simp only [Prog.tryCatch, wp_op, ih]

/-- **Loops over a list**: an invariant indexed by the elements still to be visited. -/
theorem wp_forEach {as : List α} {body : α → Prog Op Ans Label Err Unit} {I : List α → S → Prop}
    (h : ∀ a as s, I (a :: as) s → wp exec D (body a) (fun _ s => I as s) E s) (hs : I as s) :
    wp exec D (Prog.forEach as body) (fun _ s => I [] s) E s := by
  induction as generalizing s with
  | nil => exact hs
  | cons a as ih =>
      simp only [Prog.forEach, wp_bind]
      exact wp_mono (fun _ _ => ih) (fun _ _ he => he) (h a as s hs)

/-- Collecting loops over a list: an invariant indexed by the elements still to be visited and the
results collected so far. -/
theorem wp_collect {as : List α} {body : α → Prog Op Ans Label Err β}
    {I : List α → List β → S → Prop}
    (h : ∀ a as bs s, I (a :: as) bs s →
      wp exec D (body a) (fun b s => I as (bs ++ [b]) s) E s)
    {bs : List β} (hs : I as bs s) :
    wp exec D (Prog.collect as body) (fun cs s => I [] (bs ++ cs) s) E s := by
  induction as generalizing s bs with
  | nil => simpa [Prog.collect] using hs
  | cons a as ih =>
      simp only [Prog.collect, wp_bind]
      refine wp_mono (fun b s hb => ?_) (fun _ _ he => he) (h a as bs s hs)
      refine wp_mono (fun cs s hcs => ?_) (fun _ _ he => he) (ih hb)
      simpa using hcs

/-- Collecting loops from the start. -/
theorem wp_collect_nil {as : List α} {body : α → Prog Op Ans Label Err β}
    {I : List α → List β → S → Prop}
    (h : ∀ a as bs s, I (a :: as) bs s →
      wp exec D (body a) (fun b s => I as (bs ++ [b]) s) E s) (hs : I as [] s) :
    wp exec D (Prog.collect as body) (I []) E s :=
  wp_collect h hs

/-- Loops over a list with an accumulator: an invariant indexed by the elements still to be
visited. -/
theorem wp_fold {as : List α} {body : β → α → Prog Op Ans Label Err β}
    {I : List α → β → S → Prop}
    (h : ∀ a as b s, I (a :: as) b s → wp exec D (body b a) (fun b s => I as b s) E s) {b : β}
    (hs : I as b s) : wp exec D (Prog.fold body b as) (fun b s => I [] b s) E s := by
  induction as generalizing b s with
  | nil => exact hs
  | cons a as ih =>
      simp only [Prog.fold, wp_bind]
      exact wp_mono (fun _ _ => ih) (fun _ _ he => he) (h a as b s hs)

/-- Searching loops over a list: what holds while no element has yielded a result. -/
theorem wp_firstSome {as : List α} {body : α → Prog Op Ans Label Err (Option β)}
    {Q : Option β → S → Prop}
    (h : ∀ a ∈ as, ∀ s, Q none s → wp exec D (body a) Q E s) (hs : Q none s) :
    wp exec D (Prog.firstSome as body) Q E s := by
  induction as generalizing s with
  | nil => exact hs
  | cons a as ih =>
      rw [Prog.firstSome]
      refine wp_bind_of (h a List.mem_cons_self s hs) fun r s hr => ?_
      cases r with
      | some b => exact hr
      | none => exact ih (fun a ha => h a (List.mem_cons_of_mem _ ha)) hr

/-- A search without a result has found of every element what its body tells. -/
theorem wp_firstSome_none {as : List α} {body : α → Prog Op Ans Label Err (Option β)}
    {P : α → Prop} {Φ : S → Prop}
    (h : ∀ a ∈ as, ∀ s, Φ s → wp exec D (body a) (fun r s => (r = none → P a) ∧ Φ s) E s)
    (hs : Φ s) :
    wp exec D (Prog.firstSome as body) (fun r s => (r = none → ∀ a ∈ as, P a) ∧ Φ s) E s := by
  induction as generalizing s with
  | nil => exact ⟨fun _ a ha => absurd ha List.not_mem_nil, hs⟩
  | cons a as ih =>
      rw [Prog.firstSome]
      refine wp_bind_of (h a List.mem_cons_self s hs) fun r s hr => ?_
      cases r with
      | some b => exact ⟨fun hnone => by simp at hnone, hr.2⟩
      | none =>
          refine wp_mono (fun r s hrest => ⟨fun hnone b hb => ?_, hrest.2⟩) (fun _ _ he => he)
            (ih (fun a ha => h a (List.mem_cons_of_mem _ ha)) hr.2)
          rcases List.mem_cons.mp hb with rfl | hb
          · exact hr.1 rfl
          · exact hrest.1 hnone b hb

/-- **Bounded loops**: the body keeps the invariant or leaves the loop with the postcondition. -/
theorem wp_iterate {body : σ → Prog Op Ans Label Err (σ ⊕ α)} {I : σ → S → Prop}
    (h : ∀ x s, I x s → wp exec D (body x) (fun r s => Sum.elim (fun x => I x s)
      (fun a => Q a s) r) E s) (fuel : ℕ) {x : σ} (hs : I x s) :
    wp exec D (Prog.iterate fuel body x) Q E s := by
  induction fuel generalizing x s with
  | zero => trivial
  | succ fuel ih =>
      simp only [Prog.iterate, wp_bind]
      refine wp_mono (fun r s hr => ?_) (fun _ _ he => he) (h x s hs)
      cases r with
      | inl x => exact ih hr
      | inr a => exact hr

/-- Where nothing is asked for, every program will do. -/
theorem wp_trivial (hok : ∀ ls o s, D.assume ls o s → D.ok ls o s) :
    wp exec D p (fun _ _ => True) (fun _ _ => True) s := by
  induction p generalizing s with
  | ret a => trivial
  | fail e => trivial
  | stopped => trivial
  | op ls o next ih => exact fun s' _ ha => ⟨hok ls o s' ha, ih _⟩

/-- **From text to behaviour**: a stable assertion that every permitted operation keeps, and whose
answers are then the allowed ones, holds throughout a program that obeys the permission. -/
theorem wp_of_obeys {P : List Label → Op → Prop} {A : (o : Op) → Ans o → Prop} {R : α → Prop}
    {Φ : S → Prop} (hΦ : D.Stable Φ)
    (hstep : ∀ ls o s, P ls o → Φ s → D.assume ls o s →
      D.ok ls o s ∧ A o (exec o s).1 ∧ Φ (exec o s).2)
    (h : Obeys P A p R) (hs : Φ s) :
    wp exec D p (fun a s => R a ∧ Φ s) (fun _ s => Φ s) s := by
  induction p generalizing s with
  | ret a => exact ⟨h, hs⟩
  | fail e => exact hs
  | stopped => trivial
  | op ls o next ih =>
      intro s' hr ha
      obtain ⟨hok, hans, hΦ'⟩ := hstep ls o s' h.1 (hΦ ls s s' hr hs) ha
      exact ⟨hok, ih _ (h.2 _ hans) hΦ'⟩

end Rules

end Program

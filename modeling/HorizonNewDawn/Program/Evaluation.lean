import HorizonNewDawn.Program.Interleaving
import HorizonNewDawn.Program.Scoped

/-! # Programs that run alone

What a program comes to when nothing interferes with it: `eval` runs it to its end over a store.
Such a run is one of the runs of the interleaved semantics (`run_eval`), so what is proved of it is
proved of a process nobody disturbs. -/

namespace Program

variable {Op : Type} {Ans : Op → Type} {Label Err S : Type} {α β : Type}

/-- How a program ends. -/
inductive Outcome (Err α : Type) : Type
  | returned (a : α)
  | thrown (e : Err)
  | stopped
  deriving DecidableEq

namespace Prog

/-- Run a program alone to its end. -/
def eval (exec : (o : Op) → S → Ans o × S) :
    Prog Op Ans Label Err α → S → Outcome Err α × S
  | .ret a, s => (.returned a, s)
  | .fail e, s => (.thrown e, s)
  | .stopped, s => (.stopped, s)
  | .op _ o next, s => (next (exec o s).1).eval exec (exec o s).2

variable {exec : (o : Op) → S → Ans o × S} {p : Prog Op Ans Label Err α} {s : S}

/-- A program that returns. -/
@[simp] theorem eval_ret (a : α) :
    (ret a : Prog Op Ans Label Err α).eval exec s = (.returned a, s) := rfl

/-- A program that throws. -/
@[simp] theorem eval_fail (e : Err) :
    (fail e : Prog Op Ans Label Err α).eval exec s = (.thrown e, s) := rfl

/-- A process that has ended. -/
@[simp] theorem eval_stopped :
    (stopped : Prog Op Ans Label Err α).eval exec s = (.stopped, s) := rfl

/-- An operation and what follows its answer. -/
@[simp] theorem eval_op (ls : List Label) (o : Op) (next : Ans o → Prog Op Ans Label Err α) :
    (op ls o next).eval exec s = (next (exec o s).1).eval exec (exec o s).2 := rfl

/-- Sequencing, where the first program returns. -/
theorem eval_bind_of {f : α → Prog Op Ans Label Err β} {a : α} {s' : S}
    (h : p.eval exec s = (.returned a, s')) : (p >>= f).eval exec s = (f a).eval exec s' := by
  induction p generalizing s with
  | ret b =>
      rw [eval_ret, Prod.mk.injEq, Outcome.returned.injEq] at h
      rw [ret_bind, h.1, h.2]
  | fail e =>
      rw [eval_fail, Prod.mk.injEq] at h
      cases h.1
  | stopped =>
      rw [eval_stopped, Prod.mk.injEq] at h
      cases h.1
  | op ls o next ih =>
      rw [op_bind, eval_op]
      exact ih _ h

/-- Sequencing, where the first program throws. -/
theorem eval_bind_of_thrown {f : α → Prog Op Ans Label Err β} {e : Err} {s' : S}
    (h : p.eval exec s = (.thrown e, s')) : (p >>= f).eval exec s = (.thrown e, s') := by
  induction p generalizing s with
  | ret b =>
      rw [eval_ret, Prod.mk.injEq] at h
      cases h.1
  | fail e' =>
      rw [eval_fail, Prod.mk.injEq, Outcome.thrown.injEq] at h
      rw [fail_bind, eval_fail, h.1, h.2]
  | stopped =>
      rw [eval_stopped, Prod.mk.injEq] at h
      cases h.1
  | op ls o next ih =>
      rw [op_bind, eval_op]
      exact ih _ h

/-- Where a sequence returns, so does its first program. -/
theorem eval_of_bind_returned {f : α → Prog Op Ans Label Err β} {b : β} {s' : S}
    (h : (p >>= f).eval exec s = (.returned b, s')) :
    ∃ a s'', p.eval exec s = (.returned a, s'') ∧ (f a).eval exec s'' = (.returned b, s') := by
  induction p generalizing s with
  | ret a => exact ⟨a, s, rfl, h⟩
  | fail e =>
      rw [fail_bind, eval_fail, Prod.mk.injEq] at h
      cases h.1
  | stopped =>
      rw [stopped_bind, eval_stopped, Prod.mk.injEq] at h
      cases h.1
  | op ls o next ih =>
      rw [op_bind, eval_op] at h
      exact ih _ h

/-- A loop whose iterations leave the store as it is. -/
theorem eval_collect {as : List α} {body : α → Prog Op Ans Label Err β} {f : α → β}
    (h : ∀ a ∈ as, (body a).eval exec s = (.returned (f a), s)) :
    (collect as body).eval exec s = (.returned (as.map f), s) := by
  induction as with
  | nil => rfl
  | cons a as ih =>
      rw [collect, eval_bind_of (h a List.mem_cons_self),
        eval_bind_of (ih fun b hb => h b (List.mem_cons_of_mem a hb))]
      rfl

/-- `try … finally …`, where both parts return. -/
theorem eval_tryFinally_of {cleanup : Prog Op Ans Label Err Unit} {a : α} {s' s'' : S}
    (h : p.eval exec s = (.returned a, s')) (hc : cleanup.eval exec s' = (.returned (), s'')) :
    (p.tryFinally cleanup).eval exec s = (.returned a, s'') := by
  induction p generalizing s with
  | ret b =>
      rw [eval_ret, Prod.mk.injEq, Outcome.returned.injEq] at h
      rw [tryFinally, h.1, h.2, eval_bind_of hc]
      rfl
  | fail e =>
      rw [eval_fail, Prod.mk.injEq] at h
      cases h.1
  | stopped =>
      rw [eval_stopped, Prod.mk.injEq] at h
      cases h.1
  | op ls o next ih =>
      rw [tryFinally, eval_op]
      exact ih _ h

/-- `try … catch …`, where nothing is thrown. -/
theorem eval_tryCatch_of {handler : Err → Prog Op Ans Label Err α} {a : α} {s' : S}
    (h : p.eval exec s = (.returned a, s')) :
    (p.tryCatch handler).eval exec s = (.returned a, s') := by
  induction p generalizing s with
  | ret b => exact h
  | fail e =>
      rw [eval_fail, Prod.mk.injEq] at h
      cases h.1
  | stopped =>
      rw [eval_stopped, Prod.mk.injEq] at h
      cases h.1
  | op ls o next ih =>
      rw [tryCatch, eval_op]
      exact ih _ h

/-- A loop every iteration of which returns and keeps `I`. -/
theorem eval_forEach_of {I : S → Prop} {as : List α} {body : α → Prog Op Ans Label Err Unit}
    (h : ∀ a ∈ as, ∀ s, I s → ∃ s', (body a).eval exec s = (.returned (), s') ∧ I s')
    (hs : I s) : ∃ s', (forEach as body).eval exec s = (.returned (), s') ∧ I s' := by
  induction as generalizing s with
  | nil => exact ⟨s, rfl, hs⟩
  | cons a as ih =>
      obtain ⟨s', hbody, hs'⟩ := h a List.mem_cons_self s hs
      obtain ⟨s'', hrest, hs''⟩ := ih (fun b hb => h b (List.mem_cons_of_mem a hb)) hs'
      exact ⟨s'', by rw [forEach, eval_bind_of hbody, hrest], hs''⟩

/-- A search that keeps `I` finds nothing exactly where every element is in order. -/
theorem eval_firstSome_of {I : S → Prop} {ok : α → Prop} {as : List α}
    {body : α → Prog Op Ans Label Err (Option β)}
    (h : ∀ a ∈ as, ∀ s, I s → ∃ r s', (body a).eval exec s = (.returned r, s') ∧
      (r = none ↔ ok a) ∧ I s') (hs : I s) :
    ∃ r s', (firstSome as body).eval exec s = (.returned r, s') ∧
      (r = none ↔ ∀ a ∈ as, ok a) ∧ I s' := by
  induction as generalizing s with
  | nil => exact ⟨none, s, rfl, by simp, hs⟩
  | cons a as ih =>
      obtain ⟨r, s', hbody, hr, hs'⟩ := h a List.mem_cons_self s hs
      cases r with
      | some b =>
          refine ⟨some b, s', by rw [firstSome, eval_bind_of hbody]; rfl, ?_, hs'⟩
          have hnot : ¬ok a := fun hok => Option.some_ne_none b (hr.mpr hok)
          simp [hnot]
      | none =>
          obtain ⟨r, s'', hrest, hr', hs''⟩ := ih (fun b hb => h b (List.mem_cons_of_mem a hb)) hs'
          refine ⟨r, s'', by rw [firstSome, eval_bind_of hbody, hrest], ?_, hs''⟩
          rw [hr', List.forall_mem_cons, and_iff_right (hr.mp rfl)]

/-- Sections are nothing to a run alone. -/
@[simp] theorem eval_inside (l : Label) : (p.inside l).eval exec s = p.eval exec s := by
  induction p generalizing s with
  | op ls o next ih => exact ih _
  | _ => rfl

/-- Run alone, a program returns, and `Q` holds of its result and the store. -/
def Leads (exec : (o : Op) → S → Ans o × S) (p : Prog Op Ans Label Err α) (s : S)
    (Q : α → S → Prop) : Prop :=
  ∃ a s', p.eval exec s = (.returned a, s') ∧ Q a s'

namespace Leads

variable {Q Q' : α → S → Prop}

/-- A program that returns leads to its postcondition. -/
theorem ret {a : α} (h : Q a s) : Leads exec (ret a : Prog Op Ans Label Err α) s Q :=
  ⟨a, s, rfl, h⟩

/-- The postcondition may be weakened. -/
theorem mono (h : Leads exec p s Q) (hQ : ∀ a s, Q a s → Q' a s) : Leads exec p s Q' := by
  obtain ⟨a, s', heval, ha⟩ := h
  exact ⟨a, s', heval, hQ a s' ha⟩

/-- Sequencing: the second program starts where the first one ends. -/
theorem bind {f : α → Prog Op Ans Label Err β} {R : β → S → Prop} (h : Leads exec p s Q)
    (hf : ∀ a s, Q a s → Leads exec (f a) s R) : Leads exec (p >>= f) s R := by
  obtain ⟨a, s', heval, ha⟩ := h
  obtain ⟨b, s'', heval', hb⟩ := hf a s' ha
  exact ⟨b, s'', by rw [eval_bind_of heval, heval'], hb⟩

/-- A program that leads to a result needs no handler. -/
theorem tryCatch {handler : Err → Prog Op Ans Label Err α} (h : Leads exec p s Q) :
    Leads exec (p.tryCatch handler) s Q := by
  obtain ⟨a, s', heval, ha⟩ := h
  exact ⟨a, s', eval_tryCatch_of heval, ha⟩

/-- A loop over a list, with an invariant on what is still to come. -/
theorem forEach {as : List α} {body : α → Prog Op Ans Label Err Unit} {I : List α → S → Prop}
    (h : ∀ a as s, I (a :: as) s → Leads exec (body a) s fun _ s' => I as s') (hs : I as s) :
    Leads exec (Prog.forEach as body) s fun _ s' => I [] s' := by
  induction as generalizing s with
  | nil => exact ret hs
  | cons a as ih => exact (h a as s hs).bind fun _ s' hs' => ih hs'

end Leads

/-- Run alone, a program returns so that `Q` holds, or throws so that `E` holds. -/
def Ends (exec : (o : Op) → S → Ans o × S) :
    Prog Op Ans Label Err α → S → (α → S → Prop) → (Err → S → Prop) → Prop
  | .ret a, s, Q, _ => Q a s
  | .fail e, s, _, E => E e s
  | .stopped, _, _, _ => False
  | .op _ o next, s, Q, E => Ends exec (next (exec o s).1) (exec o s).2 Q E

namespace Ends

variable {Q Q' : α → S → Prop} {E E' : Err → S → Prop}

/-- The postconditions may be weakened. -/
theorem mono (h : Ends exec p s Q E) (hQ : ∀ a s, Q a s → Q' a s) (hE : ∀ e s, E e s → E' e s) :
    Ends exec p s Q' E' := by
  induction p generalizing s with
  | ret a => exact hQ a s h
  | fail e => exact hE e s h
  | stopped => exact h
  | op ls o next ih => exact ih _ h

/-- Sequencing: the second program starts where the first one has returned. -/
theorem bind {f : α → Prog Op Ans Label Err β} {R : β → S → Prop} (h : Ends exec p s Q E)
    (hf : ∀ a s, Q a s → Ends exec (f a) s R E) : Ends exec (p >>= f) s R E := by
  induction p generalizing s with
  | ret a => exact hf a s h
  | fail e => exact h
  | stopped => exact h
  | op ls o next ih => exact ih _ h

/-- `try … finally …`: the clean-up starts where the body has ended. -/
theorem tryFinally {cleanup : Prog Op Ans Label Err Unit} {R : α → S → Prop} {F : Err → S → Prop}
    (h : Ends exec p s Q E)
    (hQ : ∀ a s, Q a s → Ends exec cleanup s (fun _ s => R a s) F)
    (hE : ∀ e s, E e s → Ends exec cleanup s (fun _ s => F e s) F) :
    Ends exec (p.tryFinally cleanup) s R F := by
  induction p generalizing s with
  | ret a => exact bind (hQ a s h) fun _ _ hs => hs
  | fail e => exact bind (hE e s h) fun _ _ hs => hs
  | stopped => exact h
  | op ls o next ih => exact ih _ h

/-- `try … catch …`: the handler starts where the body has thrown. -/
theorem tryCatch {handler : Err → Prog Op Ans Label Err α} {R : α → S → Prop} {F : Err → S → Prop}
    (h : Ends exec p s Q E) (hQ : ∀ a s, Q a s → R a s)
    (hE : ∀ e s, E e s → Ends exec (handler e) s R F) :
    Ends exec (p.tryCatch handler) s R F := by
  induction p generalizing s with
  | ret a => exact hQ a s h
  | fail e => exact hE e s h
  | stopped => exact h
  | op ls o next ih => exact ih _ h

/-- A loop over a list, with an invariant on what is still to come. -/
theorem forEach {γ : Type} {as : List γ} {body : γ → Prog Op Ans Label Err Unit}
    {I : List γ → S → Prop}
    (h : ∀ a as s, I (a :: as) s → Ends exec (body a) s (fun _ s' => I as s') E) (hs : I as s) :
    Ends exec (Prog.forEach as body) s (fun _ s' => I [] s') E := by
  induction as generalizing s with
  | nil => exact hs
  | cons a as ih => exact bind (h a as s hs) fun _ _ hs' => ih hs'

/-- A search through a list, with an invariant on what has been passed over. -/
theorem firstSome {γ : Type} {as : List γ} {body : γ → Prog Op Ans Label Err (Option β)}
    {I : List γ → S → Prop} {R : Option β → S → Prop}
    (h : ∀ a as s, I (a :: as) s → Ends exec (body a) s
      (fun r s' => if r.isSome then R r s' else I as s') E)
    (hnil : ∀ s, I [] s → R none s) (hs : I as s) :
    Ends exec (Prog.firstSome as body) s R E := by
  induction as generalizing s with
  | nil => exact hnil s hs
  | cons a as ih =>
      refine bind (h a as s hs) fun r s' hr => ?_
      cases r with
      | none => exact ih hr
      | some b => exact hr

/-- What is known of a run may be put together. -/
theorem and (h : Ends exec p s Q E) (h' : Ends exec p s Q' E') :
    Ends exec p s (fun a s => Q a s ∧ Q' a s) (fun e s => E e s ∧ E' e s) := by
  induction p generalizing s with
  | ret a => exact ⟨h, h'⟩
  | fail e => exact ⟨h, h'⟩
  | stopped => exact h
  | op ls o next ih => exact ih _ h h'

/-- Where a run may end so, there is a result or an exception. -/
theorem exists_of (h : Ends exec p s Q E) : (∃ a s, Q a s) ∨ ∃ e s, E e s := by
  induction p generalizing s with
  | ret a => exact Or.inl ⟨a, s, h⟩
  | fail e => exact Or.inr ⟨e, s, h⟩
  | stopped => exact absurd h not_false
  | op ls o next ih => exact ih _ h

/-- How the run ends, as `eval` says it. -/
theorem eval (h : Ends exec p s Q E) :
    (∃ a s', p.eval exec s = (.returned a, s') ∧ Q a s') ∨
      ∃ e s', p.eval exec s = (.thrown e, s') ∧ E e s' := by
  induction p generalizing s with
  | ret a => exact Or.inl ⟨a, s, rfl, h⟩
  | fail e => exact Or.inr ⟨e, s, rfl, h⟩
  | stopped => exact absurd h not_false
  | op ls o next ih => exact ih _ h

end Ends

/-- Every operation of a run alone meets a condition. -/
def Along (exec : (o : Op) → S → Ans o × S) (C : Op → S → Prop) :
    Prog Op Ans Label Err α → S → Prop
  | .op _ o next, s => C o s ∧ (next (exec o s).1).Along exec C (exec o s).2
  | _, _ => True

/-- Where nothing is asked for, every operation will do. -/
theorem along_true (p : Prog Op Ans Label Err α) (s : S) :
    p.Along exec (fun _ _ => True) s := by
  induction p generalizing s with
  | op ls o next ih => exact ⟨trivial, ih _ _⟩
  | _ => trivial

instance decidableAlong {C : Op → S → Prop} [∀ o s, Decidable (C o s)] :
    (p : Prog Op Ans Label Err α) → (s : S) → Decidable (p.Along exec C s)
  | .ret _, _ => isTrue trivial
  | .fail _, _ => isTrue trivial
  | .stopped, _ => isTrue trivial
  | .op _ o next, s =>
      have := decidableAlong (C := C) (next (exec o s).1) (exec o s).2
      inferInstanceAs (Decidable (_ ∧ _))

/-- A run alone is a run without steps of the world. -/
theorem run_eval {world : List Label → S → S → Prop} {cond : List Label → Op → S → Prop}
    {C : Op → S → Prop} (hC : ∀ ls o s, C o s → cond ls o s) {a : α} {s' : S}
    (h : p.eval exec s = (.returned a, s')) (halong : p.Along exec C s) :
    Run exec world cond (p, s) (.ret a, s') := by
  have key : ∀ (x : Prog Op Ans Label Err α × S) (p : Prog Op Ans Label Err α) (s : S),
      Run exec world cond x (p, s) → p.eval exec s = (.returned a, s') → p.Along exec C s →
        Run exec world cond x (.ret a, s') := by
    intro x p
    induction p with
    | ret b =>
        intro s hrun h _
        rw [eval_ret, Prod.mk.injEq, Outcome.returned.injEq] at h
        rwa [← h.1, ← h.2]
    | fail e =>
        intro s _ h _
        rw [eval_fail, Prod.mk.injEq] at h
        cases h.1
    | stopped =>
        intro s _ h _
        rw [eval_stopped, Prod.mk.injEq] at h
        cases h.1
    | op ls o next ih =>
        intro s hrun h halong
        exact ih _ _ (hrun.own (hC ls o s halong.1)) h halong.2
  exact key (p, s) p s (.refl _) h halong

/-- A run in which the world takes a step of its own before every operation. -/
theorem run_eval_amid {world : List Label → S → S → Prop} {cond : List Label → Op → S → Prop}
    (between : Op → S → S) (hworld : ∀ ls o s, world ls s (between o s))
    (hcond : ∀ ls o s, cond ls o (between o s)) {a : α} {s' : S}
    (h : p.eval (fun o s => exec o (between o s)) s = (.returned a, s')) :
    Run exec world cond (p, s) (.ret a, s') := by
  have key : ∀ (x : Prog Op Ans Label Err α × S) (p : Prog Op Ans Label Err α) (s : S),
      Run exec world cond x (p, s) →
        p.eval (fun o s => exec o (between o s)) s = (.returned a, s') →
        Run exec world cond x (.ret a, s') := by
    intro x p
    induction p with
    | ret b =>
        intro s hrun h
        rw [eval_ret, Prod.mk.injEq, Outcome.returned.injEq] at h
        rwa [← h.1, ← h.2]
    | fail e =>
        intro s _ h
        rw [eval_fail, Prod.mk.injEq] at h
        cases h.1
    | stopped =>
        intro s _ h
        rw [eval_stopped, Prod.mk.injEq] at h
        cases h.1
    | op ls o next ih =>
        intro s hrun h
        exact ih _ _ ((hrun.world (hworld ls o s)).own (hcond ls o s)) h
  exact key (p, s) p s (.refl _) h

end Prog

namespace Scoped

variable {ρ : Type} {exec : (o : Op) → S → Ans o × S} {s s' s'' : S}

/-- Run alone, a scoped program yields the result `a`, registers the resources `rs` and ends in the
store `s'`. -/
def EvaluatesTo (exec : (o : Op) → S → Ans o × S) (p : Scoped Op Ans Label Err ρ α) (s : S) (a : α)
    (rs : List ρ) (s' : S) : Prop :=
  ∀ l, (p l).eval exec s = (.returned (.ok a, l ++ rs), s')

namespace EvaluatesTo

/-- A result without a resource. -/
theorem pure (a : α) (s : S) :
    EvaluatesTo exec (Pure.pure a : Scoped Op Ans Label Err ρ α) s a [] s := by
  intro l
  rw [List.append_nil]
  rfl

/-- Programs one after the other, with the resources of both. -/
theorem bind {p : Scoped Op Ans Label Err ρ α} {f : α → Scoped Op Ans Label Err ρ β} {a : α} {b : β}
    {rs rs' : List ρ} (h : EvaluatesTo exec p s a rs s') (hf : EvaluatesTo exec (f a) s' b rs' s'') :
    EvaluatesTo exec (p >>= f) s b (rs ++ rs') s'' := by
  intro l
  show Prog.eval exec (Scoped.bind p f l) s = _
  rw [Scoped.bind, Prog.eval_bind_of (h l)]
  simp only
  rw [hf, List.append_assoc]

/-- A program without resources. -/
theorem lift {p : Prog Op Ans Label Err α} {a : α} (h : p.eval exec s = (.returned a, s')) :
    EvaluatesTo exec (Scoped.lift p : Scoped Op Ans Label Err ρ α) s a [] s' := by
  intro l
  rw [List.append_nil]
  refine Prog.eval_tryCatch_of ?_
  rw [Prog.eval_bind_of h]
  rfl

/-- A resource that is registered. -/
theorem register (r : ρ) (s : S) :
    EvaluatesTo exec (Scoped.register r : Scoped Op Ans Label Err ρ Unit) s () [r] s := fun _ => rfl

/-- A scope cleans up what was registered. -/
theorem scope {cleanup : ρ → Prog Op Ans Label Err Unit} {p : Scoped Op Ans Label Err ρ α} {a : α}
    {rs : List ρ} (h : EvaluatesTo exec p s a rs s')
    (hc : (Prog.forEach rs cleanup).eval exec s' = (.returned (), s'')) :
    (Scoped.scope cleanup p).eval exec s = (.returned a, s'') := by
  rw [Scoped.scope, Prog.eval_bind_of (h [])]
  show Prog.eval exec (Prog.forEach ([] ++ rs) cleanup >>= fun _ => .ret a) s' = _
  rw [List.nil_append, Prog.eval_bind_of hc]
  rfl

end EvaluatesTo

end Scoped

end Program

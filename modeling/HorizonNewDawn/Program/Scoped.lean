import HorizonNewDawn.Program.Weakest

/-! # Programs that register what has to be cleaned up

A `Scoped` program appends resources to a list while it runs. Its exceptions are kept as values, so
that the list survives them, and `Scoped.scope` runs the clean-up of every registered resource, in
the order they were registered, before it returns the result or throws the exception. It is the
meaning of `$keys = []; try { … } finally { foreach ($keys as $key) … }` where the body hands
`$keys` on by reference. -/

namespace Program

variable {Op : Type} {Ans : Op → Type} {Label Err ρ : Type} {α β σ : Type}

/-- A program that appends to a list of resources and hands its exceptions over as values. -/
def Scoped (Op : Type) (Ans : Op → Type) (Label Err ρ α : Type) : Type :=
  List ρ → Prog Op Ans Label Err (Except Err α × List ρ)

namespace Scoped

/-- Sequencing: go on with `f` after a result, stop at an exception. -/
def bind (p : Scoped Op Ans Label Err ρ α) (f : α → Scoped Op Ans Label Err ρ β) :
    Scoped Op Ans Label Err ρ β := fun l => p l >>= fun
  | (.ok a, l) => f a l
  | (.error e, l) => .ret (.error e, l)

instance : Monad (Scoped Op Ans Label Err ρ) where
  pure a l := .ret (.ok a, l)
  bind := bind

/-- Run a program that registers nothing. -/
def lift (p : Prog Op Ans Label Err α) : Scoped Op Ans Label Err ρ α := fun l =>
  (p >>= fun a => .ret (.ok a, l)).tryCatch fun e => .ret (.error e, l)

/-- Register a resource. -/
def register (r : ρ) : Scoped Op Ans Label Err ρ Unit := fun l => .ret (.ok (), l ++ [r])

/-- Run the body and then the clean-up of everything it has registered. -/
def scope (cleanup : ρ → Prog Op Ans Label Err Unit) (p : Scoped Op Ans Label Err ρ α) :
    Prog Op Ans Label Err α := do
  match ← p [] with
  | (.ok a, l) => Prog.forEach l cleanup; return a
  | (.error e, l) => Prog.forEach l cleanup; .fail e

/-- Run the body on the elements of a list, in order, and collect the results. -/
def collect : List α → (α → Scoped Op Ans Label Err ρ β) → Scoped Op Ans Label Err ρ (List β)
  | [], _ => pure []
  | a :: as, body => body a >>= fun b => collect as body >>= fun bs => pure (b :: bs)

/-- A bounded loop, as `Prog.iterate`. -/
def iterate : ℕ → (σ → Scoped Op Ans Label Err ρ (σ ⊕ α)) → σ → Scoped Op Ans Label Err ρ α
  | 0, _, _ => fun _ => .stopped
  | fuel + 1, body, s => body s >>= fun
      | .inl s' => iterate fuel body s'
      | .inr a => pure a

/-! ## Operations a scoped program may perform -/

/-- Under answers allowed by `A`, every operation of the program satisfies `P` and every result
satisfies `R`. -/
def Obeys (P : List Label → Op → Prop) (A : (o : Op) → Ans o → Prop)
    (p : Scoped Op Ans Label Err ρ α) (R : α → Prop) : Prop :=
  ∀ l, Program.Obeys P A (p l) fun r => ∀ a, r.1 = .ok a → R a

namespace Obeys

variable {P : List Label → Op → Prop} {A : (o : Op) → Ans o → Prop} {R : α → Prop}

/-- A program that returns obeys where its result does. -/
theorem pure {a : α} (h : R a) :
    Obeys P A (Pure.pure a : Scoped Op Ans Label Err ρ α) R := by
  intro l b hb
  cases hb
  exact h

/-- Programs that obey, one after the other. -/
theorem bind {p : Scoped Op Ans Label Err ρ α} {f : α → Scoped Op Ans Label Err ρ β}
    {Q : β → Prop} (h : Obeys P A p R) (hf : ∀ a, R a → Obeys P A (f a) Q) :
    Obeys P A (p >>= f) Q := by
  intro l
  refine Program.Obeys.bind (h l) fun r hr => ?_
  obtain ⟨r, l'⟩ := r
  cases r with
  | ok a => exact hf a (hr a rfl) l'
  | error e => intro b hb; cases hb

/-- A program without resources obeys as before. -/
theorem lift {p : Prog Op Ans Label Err α} (h : Program.Obeys P A p R) :
    Obeys P A (Scoped.lift p : Scoped Op Ans Label Err ρ α) R := by
  intro l
  refine Program.Obeys.tryCatch (h.bind fun a ha => ?_) fun e => ?_
  · intro b hb
    cases hb
    exact ha
  · intro b hb
    cases hb

/-- A resource is registered without an operation. -/
theorem register {r : ρ} :
    Obeys P A (Scoped.register r : Scoped Op Ans Label Err ρ Unit) fun _ => True :=
  fun _ _ _ => trivial

/-- A scope obeys what its body and the clean-ups obey. -/
theorem scope {cleanup : ρ → Prog Op Ans Label Err Unit} {p : Scoped Op Ans Label Err ρ α}
    (h : Obeys P A p R) (hc : ∀ r, Program.Obeys P A (cleanup r) fun _ => True) :
    Program.Obeys P A (Scoped.scope cleanup p) R := by
  refine Program.Obeys.bind (h []) fun r hr => ?_
  obtain ⟨r, l⟩ := r
  cases r with
  | ok a =>
      refine Program.Obeys.bind (Program.Obeys.forEach fun r _ => hc r) fun _ _ => ?_
      exact hr a rfl
  | error e =>
      exact Program.Obeys.bind (Program.Obeys.forEach fun r _ => hc r) fun _ _ => trivial

/-- The results of a loop, each of which obeys. -/
theorem collect {as : List α} {body : α → Scoped Op Ans Label Err ρ β} {Q : β → Prop}
    (h : ∀ a ∈ as, Obeys P A (body a) Q) :
    Obeys P A (Scoped.collect as body) fun bs => ∀ b ∈ bs, Q b := by
  induction as with
  | nil => exact Obeys.pure fun b hb => by cases hb
  | cons a as ih =>
      refine Obeys.bind (h a List.mem_cons_self) fun b hb => ?_
      refine Obeys.bind (ih fun c hc => h c (List.mem_cons_of_mem a hc)) fun bs hbs => ?_
      refine Obeys.pure fun c hc => ?_
      rcases List.mem_cons.mp hc with rfl | hc
      · exact hb
      · exact hbs c hc

/-- A loop with an invariant obeys. -/
theorem iterate {body : σ → Scoped Op Ans Label Err ρ (σ ⊕ α)} {I : σ → Prop}
    (h : ∀ s, I s → Obeys P A (body s) (Sum.elim I R)) (fuel : ℕ) {s : σ} (hs : I s) :
    Obeys P A (Scoped.iterate fuel body s) R := by
  induction fuel generalizing s with
  | zero => exact fun _ => trivial
  | succ fuel ih =>
      refine Obeys.bind (h s hs) fun r hr => ?_
      cases r with
      | inl s' => exact ih hr
      | inr a => exact Obeys.pure hr

end Obeys

/-! ## Weakest preconditions -/

/-- The weakest precondition of a scoped program, whatever is registered already. Its exceptions
are values, so the program below never throws. -/
def wp {S : Type} (exec : (o : Op) → S → Ans o × S) (D : Discipline Op Label S)
    (p : Scoped Op Ans Label Err ρ α) (Q : α → S → Prop) (E : Err → S → Prop) (s : S) : Prop :=
  ∀ l, Program.wp exec D (p l) (fun r s => match r.1 with
    | .ok a => Q a s
    | .error e => E e s) (fun _ _ => False) s

section Rules

variable {S : Type} {exec : (o : Op) → S → Ans o × S} {D : Discipline Op Label S}
  {Q : α → S → Prop} {E : Err → S → Prop} {s : S}

/-- A program that returns keeps its postcondition. -/
theorem wp_pure {a : α} (h : Q a s) :
    wp exec D (Pure.pure a : Scoped Op Ans Label Err ρ α) Q E s := fun _ => h

/-- Programs one after the other. -/
theorem wp_bind_of {p : Scoped Op Ans Label Err ρ α} {f : α → Scoped Op Ans Label Err ρ β}
    {R : β → S → Prop} (h : wp exec D p Q E s) (hf : ∀ a s, Q a s → wp exec D (f a) R E s) :
    wp exec D (p >>= f) R E s := by
  intro l
  refine Program.wp_bind_of (h l) fun r s hr => ?_
  obtain ⟨r, l'⟩ := r
  cases r with
  | ok a => exact hf a s hr l'
  | error e => exact hr

/-- A program without resources keeps its postconditions. -/
theorem wp_lift {p : Prog Op Ans Label Err α} (h : Program.wp exec D p Q E s) :
    wp exec D (lift p : Scoped Op Ans Label Err ρ α) Q E s := by
  intro l
  refine wp_tryCatch.mpr (wp_bind.mpr (wp_mono (fun a s ha => ?_) (fun e s he => ?_) h))
  · exact ha
  · exact he

/-- The registration of a resource changes nothing. -/
theorem wp_register {r : ρ} {Q : Unit → S → Prop} (h : Q () s) :
    wp exec D (register r : Scoped Op Ans Label Err ρ Unit) Q E s := fun _ => h

/-- A weaker postcondition is established too. -/
theorem wp_mono {p : Scoped Op Ans Label Err ρ α} {R : α → S → Prop} {F : Err → S → Prop}
    (hQ : ∀ a s, Q a s → R a s) (hE : ∀ e s, E e s → F e s) (h : wp exec D p Q E s) :
    wp exec D p R F s := by
  intro l
  refine Program.wp_mono (fun r s hr => ?_) (fun _ _ h => h) (h l)
  cases h : r.1 with
  | ok a => rw [h] at hr; exact hQ a s hr
  | error e => rw [h] at hr; exact hE e s hr

/-- A scope: every clean-up keeps what the body has established. -/
theorem wp_scope {cleanup : ρ → Prog Op Ans Label Err Unit} {p : Scoped Op Ans Label Err ρ α}
    (h : wp exec D p Q E s)
    (hQ : ∀ a r s, Q a s → Program.wp exec D (cleanup r) (fun _ s => Q a s) E s)
    (hE : ∀ e r s, E e s → Program.wp exec D (cleanup r) (fun _ s => E e s) E s) :
    Program.wp exec D (scope cleanup p) Q E s := by
  refine Program.wp_bind_of (Program.wp_mono (fun _ _ h => h) (fun _ _ h => h.elim) (h []))
    fun r s hr => ?_
  obtain ⟨r, l⟩ := r
  cases r with
  | ok a =>
      exact Program.wp_bind_of (wp_forEach (I := fun _ s => Q a s) (fun r _ s => hQ a r s) hr)
        fun _ _ h => h
  | error e =>
      exact Program.wp_bind_of (wp_forEach (I := fun _ s => E e s) (fun r _ s => hE e r s) hr)
        fun _ _ h => h

/-- Collecting loops: an invariant indexed by the elements still to be visited and the results
collected so far. -/
theorem wp_collect {γ : Type} {as : List γ} {body : γ → Scoped Op Ans Label Err ρ β}
    {I : List γ → List β → S → Prop}
    (h : ∀ a as bs s, I (a :: as) bs s → wp exec D (body a) (fun b s => I as (bs ++ [b]) s) E s)
    {bs : List β} (hs : I as bs s) :
    wp exec D (collect as body) (fun cs s => I [] (bs ++ cs) s) E s := by
  induction as generalizing s bs with
  | nil =>
      apply wp_pure
      rwa [List.append_nil]
  | cons a as ih =>
      apply wp_bind_of (h a as bs s hs)
      intro b s hb
      apply wp_bind_of (ih hb)
      intro cs s hcs
      apply wp_pure
      rwa [List.append_assoc] at hcs

/-- Collecting loops from the start. -/
theorem wp_collect_nil {γ : Type} {as : List γ} {body : γ → Scoped Op Ans Label Err ρ β}
    {I : List γ → List β → S → Prop}
    (h : ∀ a as bs s, I (a :: as) bs s → wp exec D (body a) (fun b s => I as (bs ++ [b]) s) E s)
    (hs : I as [] s) : wp exec D (collect as body) (I []) E s :=
  wp_collect h hs

/-- Bounded loops: an invariant of the state of the loop. -/
theorem wp_iterate {body : σ → Scoped Op Ans Label Err ρ (σ ⊕ α)} {I : σ → S → Prop}
    (h : ∀ x s, I x s → wp exec D (body x) (fun r s => Sum.elim (fun x => I x s)
      (fun a => Q a s) r) E s) (fuel : ℕ) {x : σ} (hs : I x s) :
    wp exec D (iterate fuel body x) Q E s := by
  induction fuel generalizing x s with
  | zero => exact fun _ => trivial
  | succ fuel ih =>
      apply wp_bind_of (h x s hs)
      intro r s hr
      cases r with
      | inl x => exact ih hr
      | inr a => exact wp_pure hr

end Rules

/-! ## Results only -/

/-- What a scoped program establishes where it yields a result; nothing is said of exceptions. -/
def Yields {S : Type} (exec : (o : Op) → S → Ans o × S) (D : Discipline Op Label S)
    (p : Scoped Op Ans Label Err ρ α) (Q : α → S → Prop) (s : S) : Prop :=
  ∀ l, Program.wp exec D (p l) (fun r s => ∀ a, r.1 = .ok a → Q a s) (fun _ _ => True) s

namespace Yields

variable {S : Type} {exec : (o : Op) → S → Ans o × S} {D : Discipline Op Label S}
  {Q : α → S → Prop} {s : S}

/-- A result that meets the postcondition. -/
theorem pure {a : α} (h : Q a s) :
    Yields exec D (Pure.pure a : Scoped Op Ans Label Err ρ α) Q s := by
  intro l b hb
  cases hb
  exact h

/-- What holds after a program holds of what it yields. -/
theorem of_wp {p : Scoped Op Ans Label Err ρ α} {E : Err → S → Prop} (h : wp exec D p Q E s) :
    Yields exec D p Q s := by
  intro l
  refine Program.wp_mono (fun r s hr a ha => ?_) (fun _ _ _ => trivial) (h l)
  rw [ha] at hr
  exact hr

/-- A program without resources yields what it returns. -/
theorem lift {p : Prog Op Ans Label Err α} {E : Err → S → Prop}
    (h : Program.wp exec D p Q E s) :
    Yields exec D (lift p : Scoped Op Ans Label Err ρ α) Q s := of_wp (wp_lift h)

/-- The postcondition may be weakened. -/
theorem mono {p : Scoped Op Ans Label Err ρ α} {R : α → S → Prop}
    (hQ : ∀ a s, Q a s → R a s) (h : Yields exec D p Q s) : Yields exec D p R s := fun l =>
  Program.wp_mono (fun _ s hr a ha => hQ a s (hr a ha)) (fun _ _ h => h) (h l)

/-- Programs one after the other. -/
theorem bind {p : Scoped Op Ans Label Err ρ α} {f : α → Scoped Op Ans Label Err ρ β}
    {R : β → S → Prop} (h : Yields exec D p Q s) (hf : ∀ a s, Q a s → Yields exec D (f a) R s) :
    Yields exec D (p >>= f) R s := by
  intro l
  refine Program.wp_bind_of (h l) fun r s hr => ?_
  obtain ⟨r, l'⟩ := r
  cases r with
  | ok a => exact hf a s (hr a rfl) l'
  | error e => intro b hb; cases hb

/-- A scope: every clean-up keeps what the body has established. -/
theorem scope {cleanup : ρ → Prog Op Ans Label Err Unit} {p : Scoped Op Ans Label Err ρ α}
    (h : Yields exec D p Q s)
    (hQ : ∀ a r s, Q a s → Program.wp exec D (cleanup r) (fun _ s => Q a s) (fun _ _ => True) s)
    (hok : ∀ ls o s, D.assume ls o s → D.ok ls o s) :
    Program.wp exec D (scope cleanup p) Q (fun _ _ => True) s := by
  refine Program.wp_bind_of (h []) fun r s hr => ?_
  obtain ⟨r, l⟩ := r
  cases r with
  | ok a =>
      exact Program.wp_bind_of (wp_forEach (I := fun _ s => Q a s) (fun r _ s => hQ a r s)
        (hr a rfl)) fun _ _ h => h
  | error e => exact Program.wp_bind_of (wp_trivial hok) fun _ _ _ => trivial

end Yields

end Scoped

end Program

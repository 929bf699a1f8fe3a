import HorizonNewDawn.Program.Interleaving

/-! # Termination

`wp` accepts a program that is `stopped`, so it says nothing about whether a loop runs out of its
budget. `wpCut cut` accepts it only where `cut` holds: with `cut := True` it is `wp`, with
`cut := False` it also says that no run is cut off. One judgement with `cut` as a parameter serves for
both. Programs whose loops end by their text alone are dealt with by `Halts`. -/

namespace Program

variable {Op : Type} {Ans : Op → Type} {Label Err S : Type} {α β σ : Type}

/-! ## Programs that are never cut off -/

/-- Under answers allowed by `A` the program is never cut off, and every result satisfies `R`. -/
def Halts (A : (o : Op) → Ans o → Prop) : Prog Op Ans Label Err α → (α → Prop) → Prop
  | .ret a, R => R a
  | .fail _, _ => True
  | .stopped, _ => False
  | .op _ o next, R => ∀ x, A o x → Halts A (next x) R

namespace Halts

variable {A : (o : Op) → Ans o → Prop} {R R' : α → Prop} {p : Prog Op Ans Label Err α}

/-- The condition on the result may be weakened. -/
theorem weaken (h : Halts A p R) (hR : ∀ a, R a → R' a) : Halts A p R' := by
  induction p with
  | ret a => exact hR a h
  | fail e => trivial
  | stopped => exact h
  | op ls o next ih => exact fun x hx => ih x (h x hx)

/-- Programs that end, one after the other. -/
theorem bind_of {f : α → Prog Op Ans Label Err β} {Q : β → Prop} (h : Halts A p R)
    (hf : ∀ a, R a → Halts A (f a) Q) : Halts A (p >>= f) Q := by
  induction p with
  | ret a => exact hf a h
  | fail e => trivial
  | stopped => exact h
  | op ls o next ih => exact fun x hx => ih x (h x hx)

/-- Programs that end whatever they return, one after the other. -/
theorem bind {f : α → Prog Op Ans Label Err β} {Q : β → Prop} (h : Halts A p fun _ => True)
    (hf : ∀ a, Halts A (f a) Q) : Halts A (p >>= f) Q := h.bind_of fun a _ => hf a

/-- A section around a program that ends. -/
theorem inside {l : Label} (h : Halts A p R) : Halts A (p.inside l) R := by
  induction p with
  | ret a => exact h
  | fail e => trivial
  | stopped => exact h
  | op ls o next ih => exact fun x hx => ih x (h x hx)

/-- A clean-up that ends behind a program that ends. -/
theorem tryFinally {cleanup : Prog Op Ans Label Err Unit} (h : Halts A p R)
    (hc : Halts A cleanup fun _ => True) : Halts A (p.tryFinally cleanup) R := by
  induction p with
  | ret a => exact hc.bind fun _ => h
  | fail e => exact hc.bind fun _ => trivial
  | stopped => exact h
  | op ls o next ih => exact fun x hx => ih x (h x hx)

/-- A handler that ends behind a program that ends. -/
theorem tryCatch {handler : Err → Prog Op Ans Label Err α} (h : Halts A p R)
    (hc : ∀ e, Halts A (handler e) R) : Halts A (p.tryCatch handler) R := by
  induction p with
  | ret a => exact h
  | fail e => exact hc e
  | stopped => exact h
  | op ls o next ih => exact fun x hx => ih x (h x hx)

/-- Both branches end. -/
theorem ite {c : Prop} [Decidable c] {q : Prog Op Ans Label Err α} (h : Halts A p R)
    (h' : Halts A q R) : Halts A (if c then p else q) R := by
  split
  · exact h
  · exact h'

/-- A branch that ends. -/
theorem ifThen {c : Prop} [Decidable c] {p : Prog Op Ans Label Err Unit}
    (h : Halts A p fun _ => True) : Halts A (Prog.ifThen c p) fun _ => True := ite h trivial

/-- A loop over a list ends where every turn does. -/
theorem forEach {as : List α} {body : α → Prog Op Ans Label Err Unit}
    (h : ∀ a ∈ as, Halts A (body a) fun _ => True) :
    Halts A (Prog.forEach as body) fun _ => True := by
  induction as with
  | nil => trivial
  | cons a as ih =>
      refine (h a List.mem_cons_self).bind fun _ => ih fun b hb => ?_
      exact h b (List.mem_cons_of_mem a hb)

/-- So does one that collects the results. -/
theorem collect {as : List α} {body : α → Prog Op Ans Label Err β}
    (h : ∀ a ∈ as, Halts A (body a) fun _ => True) :
    Halts A (Prog.collect as body) fun _ => True := by
  induction as with
  | nil => trivial
  | cons a as ih =>
      refine (h a List.mem_cons_self).bind fun b => Halts.bind (ih fun c hc => ?_) fun _ => trivial
      exact h c (List.mem_cons_of_mem a hc)

/-- A loop whose iterations lower a measure ends within a budget above it. -/
theorem iterate {body : σ → Prog Op Ans Label Err (σ ⊕ α)} {μ : σ → ℕ}
    (h : ∀ s, Halts A (body s) (Sum.elim (fun s' => μ s' < μ s) fun _ => True)) {fuel : ℕ} {s : σ}
    (hfuel : μ s < fuel) : Halts A (Prog.iterate fuel body s) fun _ => True := by
  induction fuel generalizing s with
  | zero => exact absurd hfuel (Nat.not_lt_zero _)
  | succ fuel ih =>
      refine (h s).bind_of fun r hr => ?_
      cases r with
      | inl s' => exact ih (Nat.lt_of_lt_of_le hr (Nat.le_of_lt_succ hfuel))
      | inr a => trivial

end Halts

/-! ## Weakest preconditions with a condition on being cut off -/

/-- The weakest precondition under interference, of a program that may be cut off only if `cut`. -/
def wpCut (cut : Prop) (exec : (o : Op) → S → Ans o × S) (D : Discipline Op Label S) :
    Prog Op Ans Label Err α → (α → S → Prop) → (Err → S → Prop) → S → Prop
  | .ret a, Q, _, s => Q a s
  | .fail e, _, E, s => E e s
  | .stopped, _, _, _ => cut
  | .op ls o next, Q, E, s => ∀ s', D.rely ls s s' → D.assume ls o s' →
      D.ok ls o s' ∧ wpCut cut exec D (next (exec o s').1) Q E (exec o s').2

section Rules

variable {cut : Prop} {exec : (o : Op) → S → Ans o × S} {D : Discipline Op Label S}
  {Q Q' : α → S → Prop} {E E' : Err → S → Prop} {s : S} {p : Prog Op Ans Label Err α}

/-- Where a program may be cut off, nothing is asked for beyond `wp`. -/
theorem wp_of_wpCut (h : wpCut cut exec D p Q E s) : wp exec D p Q E s := by
  induction p generalizing s with
  | ret a => exact h
  | fail e => exact h
  | stopped => trivial
  | op ls o next ih => exact fun s' hr ha => ⟨(h s' hr ha).1, ih _ (h s' hr ha).2⟩

/-- A program that halts is not cut off. -/
theorem wpCut_of_halts {A : (o : Op) → Ans o → Prop} {R : α → Prop} (hA : ∀ o s, A o (exec o s).1)
    (hp : cut ∨ Halts A p R) (h : wp exec D p Q E s) : wpCut cut exec D p Q E s := by
  induction p generalizing s with
  | ret a => exact h
  | fail e => exact h
  | stopped => exact hp.resolve_right id
  | op ls o next ih =>
      exact fun s' hr ha => ⟨(h s' hr ha).1, ih _ (hp.imp_right fun hp => hp _ (hA o s')) (h s' hr ha).2⟩

/-- The postconditions may be weakened. -/
theorem wpCut_mono (hQ : ∀ a s, Q a s → Q' a s) (hE : ∀ e s, E e s → E' e s)
    (h : wpCut cut exec D p Q E s) : wpCut cut exec D p Q' E' s := by
  induction p generalizing s with
  | ret a => exact hQ a s h
  | fail e => exact hE e s h
  | stopped => exact h
  | op ls o next ih => exact fun s' hr ha => ⟨(h s' hr ha).1, ih _ (h s' hr ha).2⟩

/-- Sequencing, from what the first program establishes. -/
theorem wpCut_bind_of {f : α → Prog Op Ans Label Err β} {R : β → S → Prop}
    (h : wpCut cut exec D p Q E s) (hf : ∀ a s, Q a s → wpCut cut exec D (f a) R E s) :
    wpCut cut exec D (p >>= f) R E s := by
  induction p generalizing s with
  | ret a => exact hf a s h
  | fail e => exact h
  | stopped => exact h
  | op ls o next ih => exact fun s' hr ha => ⟨(h s' hr ha).1, ih _ (h s' hr ha).2⟩

/-- `try … finally …`, from what the body establishes. -/
theorem wpCut_tryFinally_of {cleanup : Prog Op Ans Label Err Unit} {R : α → S → Prop}
    {F : Err → S → Prop} (h : wpCut cut exec D p Q E s)
    (hQ : ∀ a s, Q a s → wpCut cut exec D cleanup (fun _ s => R a s) F s)
    (hE : ∀ e s, E e s → wpCut cut exec D cleanup (fun _ s => F e s) F s) :
    wpCut cut exec D (p.tryFinally cleanup) R F s := by
  induction p generalizing s with
  | ret a => exact wpCut_bind_of (hQ a s h) fun _ _ hr => hr
  | fail e => exact wpCut_bind_of (hE e s h) fun _ _ hf => hf
  | stopped => exact h
  | op ls o next ih => exact fun s' hr ha => ⟨(h s' hr ha).1, ih _ (h s' hr ha).2⟩

/-- Both branches under their conditions. -/
theorem wpCut_ite {c : Prop} [Decidable c] {q : Prog Op Ans Label Err α}
    (h : c → wpCut cut exec D p Q E s) (h' : ¬c → wpCut cut exec D q Q E s) :
    wpCut cut exec D (if c then p else q) Q E s := by
  split
  · exact h ‹c›
  · exact h' ‹¬c›

/-- **Loops with a variant**: every iteration leaves the loop or goes on with a lower variant, and the
budget exceeds the variant the loop starts with. -/
theorem wpCut_iterate {body : σ → Prog Op Ans Label Err (σ ⊕ α)} {I : σ → ℕ → S → Prop}
    (h : ∀ x n s, I x n s → wpCut cut exec D (body x)
      (fun r s => Sum.elim (fun x => ∃ m < n, I x m s) (fun a => Q a s) r) E s)
    {fuel n : ℕ} (hfuel : cut ∨ n < fuel) {x : σ} (hs : I x n s) :
    wpCut cut exec D (Prog.iterate fuel body x) Q E s := by
  induction fuel generalizing x n s with
  | zero => exact hfuel.resolve_right (Nat.not_lt_zero n)
  | succ fuel ih =>
      refine wpCut_bind_of (h x n s hs) fun r s hr => ?_
      cases r with
      | inl x =>
          obtain ⟨m, hm, hx⟩ := hr
          exact ih (hfuel.imp_right fun hn => Nat.lt_of_lt_of_le hm (Nat.le_of_lt_succ hn)) hx
      | inr a => exact hr

end Rules

/-- **Soundness**: along every run the program left over still meets the judgement. -/
theorem Run.sound_cut {cut : Prop} {exec : (o : Op) → S → Ans o × S} {D : Discipline Op Label S}
    {Q : α → S → Prop} {E : Err → S → Prop} (hQ : ∀ a s s', D.rely [] s s' → Q a s → Q a s')
    (hE : ∀ e s s', D.rely [] s s' → E e s → E e s')
    {x y : Prog Op Ans Label Err α × S} (h : Run exec D.rely D.assume x y)
    (hw : wpCut cut exec D x.1 Q E x.2) : wpCut cut exec D y.1 Q E y.2 := by
  induction h with
  | refl => exact hw
  | @own ls o next s _ hc ih => exact (ih s (D.rely_refl ls s) hc).2
  | @world p s s' _ hr ih =>
      cases p with
      | ret a => exact hQ a s s' hr ih
      | fail e => exact hE e s s' hr ih
      | stopped => exact ih
      | op ls o next => exact fun s'' hr' => ih s'' (D.rely_trans ls s s' s'' hr hr')

end Program

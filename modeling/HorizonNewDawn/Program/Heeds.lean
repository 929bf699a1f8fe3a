import HorizonNewDawn.Program.Scoped
import Mathlib

/-! # Programs that heed an answer

A program heeds the answers a relation calls bad when it has no result after one of them: it ends with
an exception, whatever the further answers are (`Heeds`). So an assertion that only a bad answer can
break still holds where the program returns (`wp_of_heeds`).

It is the meaning of `if (! $renewed) { throw … }`, carried through the programs around it. A scoped
program hands its exceptions over as values; there the result of a bad answer is an exception. -/

namespace Program

variable {Op : Type} {Ans : Op → Type} {Label Err ρ : Type} {α β σ : Type}

/-- After an answer that is bad, every result of the program satisfies `R`. -/
def HeedsTo (Bad : (o : Op) → Ans o → Prop) (R : α → Prop) : Prog Op Ans Label Err α → Prop
  | .ret _ | .fail _ | .stopped => True
  | .op _ o next => ∀ x, HeedsTo Bad R (next x) ∧
      (Bad o x → Obeys (fun _ _ => True) (fun _ _ => True) (next x) R)

/-- After an answer that is bad, the program has no result. -/
abbrev Heeds (Bad : (o : Op) → Ans o → Prop) (p : Prog Op Ans Label Err α) : Prop :=
  HeedsTo Bad (fun _ => False) p

/-- After an answer that is bad, the scoped program ends with an exception. -/
def Scoped.Heeds (Bad : (o : Op) → Ans o → Prop) (p : Scoped Op Ans Label Err ρ α) : Prop :=
  ∀ l, HeedsTo Bad (fun r => ∀ a, r.1 ≠ .ok a) (p l)

variable {Bad : (o : Op) → Ans o → Prop} {R : α → Prop} {p : Prog Op Ans Label Err α}

namespace Heeds

/-- A result heeds every answer: there is none. -/
theorem ret {a : α} : HeedsTo Bad R (.ret a : Prog Op Ans Label Err α) := trivial

/-- So does an exception. -/
theorem fail {e : Err} : HeedsTo Bad R (.fail e : Prog Op Ans Label Err α) := trivial

/-- Sequencing: after a bad answer of the first program the second one turns its results into results
of both. -/
theorem bind_of {R' : β → Prop} {f : α → Prog Op Ans Label Err β} (h : HeedsTo Bad R p)
    (hf : ∀ a, HeedsTo Bad R' (f a))
    (hbad : ∀ a, R a → Obeys (fun _ _ => True) (fun _ _ => True) (f a) R') :
    HeedsTo Bad R' (p >>= f) := by
  induction p with
  | ret a => exact hf a
  | fail e => trivial
  | stopped => trivial
  | op ls o next ih =>
      intro x
      constructor
      · exact ih x (h x).1
      · intro hx
        exact Obeys.bind ((h x).2 hx) hbad

/-- Sequencing: a bad answer of the first program ends both. -/
theorem bind {R' : β → Prop} {f : α → Prog Op Ans Label Err β} (h : Heeds Bad p)
    (hf : ∀ a, HeedsTo Bad R' (f a)) : HeedsTo Bad R' (p >>= f) :=
  bind_of h hf fun _ ha => ha.elim

/-- An operation none of whose answers is bad. -/
theorem perform {o : Op} {R : Ans o → Prop} (h : ∀ x, ¬Bad o x) :
    HeedsTo Bad R (Prog.perform o : Prog Op Ans Label Err (Ans o)) :=
  fun x => ⟨trivial, fun hbad => absurd hbad (h x)⟩

/-- A program inside a section heeds what it heeds outside. -/
theorem inside {l : Label} (h : HeedsTo Bad R p) : HeedsTo Bad R (p.inside l) := by
  induction p with
  | ret a => trivial
  | fail e => trivial
  | stopped => trivial
  | op ls o next ih =>
      intro x
      constructor
      · exact ih x (h x).1
      · intro hbad
        exact Obeys.inside ((h x).2 hbad)

/-- `try … finally …` heeds what its body and its clean-up heed. -/
theorem tryFinally {cleanup : Prog Op Ans Label Err Unit} (h : Heeds Bad p)
    (hc : Heeds Bad cleanup) : Heeds Bad (p.tryFinally cleanup) := by
  induction p with
  | ret a => exact hc.bind fun _ => ret
  | fail e => exact hc.bind fun _ => fail
  | stopped => trivial
  | op ls o next ih =>
      intro x
      constructor
      · exact ih x (h x).1
      · intro hbad
        exact Obeys.tryFinally ((h x).2 hbad) (Obeys.of_true cleanup)

/-- `try … catch …` heeds what its handler heeds, if the body cannot get a bad answer. -/
theorem tryCatch {handler : Err → Prog Op Ans Label Err α}
    (h : Obeys (fun _ o => ∀ x, ¬Bad o x) (fun _ _ => True) p fun _ => True)
    (hc : ∀ e, HeedsTo Bad R (handler e)) : HeedsTo Bad R (p.tryCatch handler) := by
  induction p with
  | ret a => trivial
  | fail e => exact hc e
  | stopped => trivial
  | op ls o next ih =>
      intro x
      constructor
      · exact ih x (h.2 x trivial)
      · intro hbad
        exact absurd hbad (h.1 x)

/-- A branch heeds what both of its alternatives heed. -/
theorem ite {c : Prop} [Decidable c] {q : Prog Op Ans Label Err α} (h : HeedsTo Bad R p)
    (h' : HeedsTo Bad R q) : HeedsTo Bad R (if c then p else q) := by
  split
  · exact h
  · exact h'

/-- `if` without an alternative heeds what its body heeds. -/
theorem ifThen {c : Prop} [Decidable c] {p : Prog Op Ans Label Err Unit} (h : Heeds Bad p) :
    Heeds Bad (Prog.ifThen c p) := ite h ret

/-- A loop over a list heeds what its body heeds. -/
theorem forEach {as : List α} {body : α → Prog Op Ans Label Err Unit}
    (h : ∀ a, Heeds Bad (body a)) : Heeds Bad (Prog.forEach as body) := by
  induction as with
  | nil => exact ret
  | cons a as ih => exact (h a).bind fun _ => ih

/-- A collecting loop over a list heeds what its body heeds. -/
theorem collect {as : List α} {body : α → Prog Op Ans Label Err β}
    (h : ∀ a, Heeds Bad (body a)) : Heeds Bad (Prog.collect as body) := by
  induction as with
  | nil => exact ret
  | cons a as ih => exact (h a).bind fun _ => ih.bind fun _ => ret

/-- A search through a list heeds what its body heeds. -/
theorem firstSome {as : List α} {body : α → Prog Op Ans Label Err (Option β)}
    (h : ∀ a, Heeds Bad (body a)) : Heeds Bad (Prog.firstSome as body) := by
  induction as with
  | nil => exact ret
  | cons a as ih =>
      apply (h a).bind
      intro r
      cases r with
      | none => exact ih
      | some b => exact ret

/-- A bounded loop heeds what its body heeds. -/
theorem iterate {fuel : ℕ} {body : σ → Prog Op Ans Label Err (σ ⊕ α)} {s : σ}
    (h : ∀ s, Heeds Bad (body s)) : Heeds Bad (Prog.iterate fuel body s) := by
  induction fuel generalizing s with
  | zero => trivial
  | succ fuel ih =>
      apply (h s).bind
      intro r
      cases r with
      | inl s' => exact ih
      | inr a => exact ret

end Heeds

/-! ## Scoped programs -/

namespace Scoped.Heeds

variable {p : Scoped Op Ans Label Err ρ α}

/-- A result heeds every answer. -/
theorem pure {a : α} : Scoped.Heeds Bad (Pure.pure a : Scoped Op Ans Label Err ρ α) :=
  fun _ => trivial

/-- Sequencing: a bad answer of the first program ends both, with its exception. -/
theorem bind {f : α → Scoped Op Ans Label Err ρ β} (h : Scoped.Heeds Bad p)
    (hf : ∀ a, Scoped.Heeds Bad (f a)) : Scoped.Heeds Bad (p >>= f) := by
  intro l
  apply Program.Heeds.bind_of (h l)
  · rintro ⟨r, l'⟩
    cases r with
    | ok a => exact hf a l'
    | error e => trivial
  · rintro ⟨r, l'⟩ hr
    cases r with
    | ok a => exact absurd rfl (hr a)
    | error e =>
        intro b hb
        cases hb

/-- A program that registers nothing. -/
theorem lift {p : Prog Op Ans Label Err α} (h : Program.Heeds Bad p) :
    Scoped.Heeds Bad (Scoped.lift p : Scoped Op Ans Label Err ρ α) := by
  intro l
  unfold Scoped.lift
  induction p with
  | ret a => trivial
  | fail e => trivial
  | stopped => trivial
  | op ls o next ih =>
      intro x
      constructor
      · exact ih x (h x).1
      · intro hbad
        apply Obeys.tryCatch (Program.Obeys.bind ((h x).2 hbad) fun a ha => ha.elim)
        intro e a ha
        cases ha

/-- Registering asks nothing. -/
theorem register {r : ρ} : Scoped.Heeds Bad (Scoped.register r : Scoped Op Ans Label Err ρ Unit) :=
  fun _ => trivial

/-- A collecting loop over a list heeds what its body heeds. -/
theorem collect {as : List α} {body : α → Scoped Op Ans Label Err ρ β}
    (h : ∀ a, Scoped.Heeds Bad (body a)) : Scoped.Heeds Bad (Scoped.collect as body) := by
  induction as with
  | nil => exact pure
  | cons a as ih => exact (h a).bind fun _ => ih.bind fun _ => pure

/-- A bounded loop heeds what its body heeds. -/
theorem iterate {fuel : ℕ} {body : σ → Scoped Op Ans Label Err ρ (σ ⊕ α)} {s : σ}
    (h : ∀ s, Scoped.Heeds Bad (body s)) : Scoped.Heeds Bad (Scoped.iterate fuel body s) := by
  induction fuel generalizing s with
  | zero => exact fun _ => trivial
  | succ fuel ih =>
      apply (h s).bind
      intro r
      cases r with
      | inl s' => exact ih
      | inr a => exact pure

/-- A scope heeds what its body and its clean-ups heed. -/
theorem scope {cleanup : ρ → Prog Op Ans Label Err Unit} (h : Scoped.Heeds Bad p)
    (hc : ∀ r, Program.Heeds Bad (cleanup r)) : Program.Heeds Bad (Scoped.scope cleanup p) := by
  apply Program.Heeds.bind_of (h [])
  · rintro ⟨r, l⟩
    cases r with
    | ok a => exact (Program.Heeds.forEach hc).bind fun _ => trivial
    | error e => exact (Program.Heeds.forEach hc).bind fun _ => trivial
  · rintro ⟨r, l⟩ hr
    cases r with
    | ok a => exact absurd rfl (hr a)
    | error e => exact Program.Obeys.bind (Program.Obeys.of_true _) fun _ _ => trivial

end Scoped.Heeds

/-! ## From text to behaviour -/

section Behaviour

variable {S : Type} {exec : (o : Op) → S → Ans o × S} {D : Discipline Op Label S} {s : S}

/-- **A stable assertion that only a bad answer can break** holds where a program returns that heeds
the bad answers. -/
theorem wp_of_heeds {P : List Label → Op → Prop} {R : α → Prop} {Φ : S → Prop} (hΦ : D.Stable Φ)
    (hok : ∀ ls o s, P ls o → D.assume ls o s → D.ok ls o s)
    (hkeep : ∀ ls o s, P ls o → Φ s → Bad o (exec o s).1 ∨ Φ (exec o s).2)
    (h : Obeys P (fun _ _ => True) p R) (hheeds : Heeds Bad p) (hs : Φ s) :
    wp exec D p (fun a s => R a ∧ Φ s) (fun _ _ => True) s := by
  induction p generalizing s with
  | ret a => exact ⟨h, hs⟩
  | fail e => trivial
  | stopped => trivial
  | op ls o next ih =>
      rw [wp_op]
      intro s' hr ha
      have hs' := hΦ ls s s' hr hs
      refine ⟨hok ls o s' h.1 ha, ?_⟩
      rcases hkeep ls o s' h.1 hs' with hbad | hs''
      · -- the rest of the program has no result
        have hnone := (h.2 (exec o s').1 trivial).and ((hheeds (exec o s').1).2 hbad)
        apply wp_mono _ (fun _ _ _ => trivial) (wp_of_obeys (Discipline.stable_const D True)
          (fun ls o s hP _ ha => ⟨hok ls o s hP.1 ha, trivial, trivial⟩) hnone trivial)
        intro a s hfalse
        exact hfalse.1.2.elim
      · exact ih _ (h.2 _ trivial) (hheeds _).1 hs''

end Behaviour

end Program

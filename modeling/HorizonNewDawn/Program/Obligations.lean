import HorizonNewDawn.Program.Faults
import HorizonNewDawn.Program.Interleaving

/-! # Operations that oblige to others

Some operations leave something behind that a later operation of the same program has to make good.
`Settles` says that a program will do so as long as its operations are answered, `Covers` that every
operation of it that incurs an obligation is followed by one that settles it. Processes that cover
their obligations leave an obligation open only while one of them is alive that settles it, as long as
none is interrupted with an open one (`Reaches.attended`). -/

namespace Program

variable {Pid Op κ S α β σ : Type} {Ans : Op → Type} {Label Err : Type}

namespace Prog

/-- Where the operations are answered, one of them settles an obligation before the program returns,
unless the result passes it on. -/
def Settles (settles : Op → Prop) (C : α → Prop) : Prog Op (Reply Ans) Label Err α → Prop
  | .ret a => C a
  | .fail _ => False
  | .stopped => False
  | .op _ o next => settles o ∨ ∀ x, (next (some x)).Settles settles C

/-- Every operation that incurs an obligation is followed by one that settles it, unless the result
passes it on. -/
def Covers (incurs settles : Op → κ → Prop) (C : κ → α → Prop) :
    Prog Op (Reply Ans) Label Err α → Prop
  | .op _ o next =>
      (∀ k, incurs o k → ∀ x, (next (some x)).Settles (fun o => settles o k) (C k)) ∧
        ∀ r, (next r).Covers incurs settles C
  | _ => True

variable {settled : Op → Prop} {incurs settles : Op → κ → Prop} {A A' : α → Prop}
  {C : κ → α → Prop} {p : Prog Op (Reply Ans) Label Err α}

namespace Settles

/-- The condition on the result may be weakened. -/
theorem mono (h : p.Settles settled A) (hA : ∀ a, A a → A' a) : p.Settles settled A' := by
  induction p with
  | ret a => exact hA a h
  | fail e => exact h
  | stopped => exact h
  | op ls o next ih => exact Or.imp_right (fun h x => ih (some x) (h x)) h

/-- What a program settles before another stays settled. -/
theorem bind {f : α → Prog Op (Reply Ans) Label Err β} {B : β → Prop} (h : p.Settles settled A)
    (hf : ∀ a, A a → (f a).Settles settled B) : (p >>= f).Settles settled B := by
  induction p with
  | ret a => exact hf a h
  | fail e => exact h.elim
  | stopped => exact h.elim
  | op ls o next ih => exact Or.imp_right (fun h x => ih (some x) (h x)) h

/-- A handler unsettles nothing. -/
theorem tryCatch {handler : Err → Prog Op (Reply Ans) Label Err α} (h : p.Settles settled A) :
    (p.tryCatch handler).Settles settled A := by
  induction p with
  | ret a => exact h
  | fail e => exact h.elim
  | stopped => exact h.elim
  | op ls o next ih => exact Or.imp_right (fun h x => ih (some x) (h x)) h

/-- A request that settles. -/
theorem request {e : Err} {o : Op} {A : Ans o → Prop} (h : settled o) :
    (Prog.request e o : Prog Op (Reply Ans) Label Err (Ans o)).Settles settled A := Or.inl h

/-- A request that is answered. -/
theorem request_of {e : Err} {o : Op} {A : Ans o → Prop} (h : ∀ x, A x) :
    (Prog.request e o : Prog Op (Reply Ans) Label Err (Ans o)).Settles settled A :=
  Or.inr fun x => h x

/-- A loop whose iterations pass an obligation on. -/
theorem forEach {as : List β} {body : β → Prog Op (Reply Ans) Label Err Unit} {c : Prop} (hc : c)
    (hbody : ∀ a ∈ as, (body a).Settles settled fun _ => c) :
    (Prog.forEach as body).Settles settled fun _ => c := by
  induction as with
  | nil => exact hc
  | cons a as ih =>
      exact bind (hbody a List.mem_cons_self) fun _ _ =>
        ih fun b hb => hbody b (List.mem_cons_of_mem a hb)

/-- A loop with an iteration that settles. -/
theorem forEach_of_mem {as : List β} {body : β → Prog Op (Reply Ans) Label Err Unit} {b : β}
    {B : Unit → Prop} (hb : b ∈ as) (hsettles : (body b).Settles settled fun _ => False)
    (hbody : ∀ a ∈ as, (body a).Settles settled fun _ => True) :
    (Prog.forEach as body).Settles settled B := by
  induction as with
  | nil => cases hb
  | cons a as ih =>
      rcases List.mem_cons.mp hb with rfl | hb
      · exact bind hsettles fun _ h => h.elim
      · exact bind (hbody a List.mem_cons_self) fun _ _ =>
          ih hb fun a' ha' => hbody a' (List.mem_cons_of_mem a ha')

/-- A loop that settles in every turn settles. -/
theorem fold {as : List β} {body : σ → β → Prog Op (Reply Ans) Label Err σ} {c : Prop} {s : σ}
    (hc : c) (hbody : ∀ s a, (body s a).Settles settled fun _ => c) :
    (Prog.fold body s as).Settles settled fun _ => c := by
  induction as generalizing s with
  | nil => exact hc
  | cons a as ih => exact bind (hbody s a) fun _ _ => ih

end Settles

namespace Covers

/-- What a result passes on may be more. -/
theorem mono {C' : κ → α → Prop} (h : p.Covers incurs settles C) (hC : ∀ k a, C k a → C' k a) :
    p.Covers incurs settles C' := by
  induction p with
  | op ls o next ih =>
      exact ⟨fun k hk x => (h.1 k hk x).mono (hC k), fun r => ih r (h.2 r)⟩
  | _ => trivial

/-- A sequence covers what its parts do, where the second settles what the first passes on. -/
theorem bind {f : α → Prog Op (Reply Ans) Label Err β} {C' : κ → β → Prop}
    (h : p.Covers incurs settles C) (hf : ∀ a, (f a).Covers incurs settles C')
    (hpass : ∀ k a, C k a → (f a).Settles (fun o => settles o k) (C' k)) :
    (p >>= f).Covers incurs settles C' := by
  induction p with
  | ret a => exact hf a
  | op ls o next ih =>
      exact ⟨fun k hk x => (h.1 k hk x).bind (hpass k), fun r => ih r (h.2 r)⟩
  | _ => trivial

/-- A handler has to cover, too. -/
theorem tryCatch {handler : Err → Prog Op (Reply Ans) Label Err α} (h : p.Covers incurs settles C)
    (hhandler : ∀ e, (handler e).Covers incurs settles C) :
    (p.tryCatch handler).Covers incurs settles C := by
  induction p with
  | fail e => exact hhandler e
  | op ls o next ih =>
      exact ⟨fun k hk x => (h.1 k hk x).tryCatch, fun r => ih r (h.2 r)⟩
  | _ => trivial

/-- A request passes its obligations on. -/
theorem request {e : Err} {o : Op} {C : κ → Ans o → Prop} (h : ∀ k x, incurs o k → C k x) :
    (Prog.request e o : Prog Op (Reply Ans) Label Err (Ans o)).Covers incurs settles C := by
  refine ⟨fun k hk x => h k x hk, fun r => ?_⟩
  cases r with
  | none => trivial
  | some x => trivial

/-- A loop whose iterations pass on what they were passed. -/
theorem forEach {as : List β} {body : β → Prog Op (Reply Ans) Label Err Unit} {C : κ → Prop}
    (hbody : ∀ a ∈ as, (body a).Covers incurs settles fun k _ => C k)
    (hpass : ∀ k, C k → ∀ a ∈ as, (body a).Settles (fun o => settles o k) fun _ => C k) :
    (Prog.forEach as body).Covers incurs settles fun k _ => C k := by
  induction as with
  | nil => trivial
  | cons a as ih =>
      exact bind (hbody a List.mem_cons_self)
        (fun _ => ih (fun b hb => hbody b (List.mem_cons_of_mem a hb)) fun k hk b hb =>
          hpass k hk b (List.mem_cons_of_mem a hb))
        fun k _ hk => Settles.forEach hk fun b hb => hpass k hk b (List.mem_cons_of_mem a hb)

/-- A loop covers where every turn does. -/
theorem fold {as : List β} {body : σ → β → Prog Op (Reply Ans) Label Err σ} {C : κ → Prop} {s : σ}
    (hbody : ∀ s a, (body s a).Covers incurs settles fun k _ => C k)
    (hpass : ∀ k, C k → ∀ s a, (body s a).Settles (fun o => settles o k) fun _ => C k) :
    (Prog.fold body s as).Covers incurs settles fun k _ => C k := by
  induction as generalizing s with
  | nil => trivial
  | cons a as ih =>
      exact bind (hbody s a) (fun _ => ih) fun k _ hk => Settles.fold hk (hpass k hk)

end Covers

/-- A program that is left has nothing to settle. -/
theorem not_settles_of_ended (h : p.Ended) : ¬p.Settles settled fun _ => False := by
  cases p with
  | ret a => exact id
  | fail e => exact id
  | stopped => exact id
  | op ls o next => exact h.elim

end Prog

/-! ## Processes -/

section Processes

variable [DecidableEq Pid] {exec : Pid → (o : Op) → S → Reply Ans o × S} {world : S → S → Prop}
  {incurs settles : Op → κ → Prop} {Owed : κ → S → Prop}
  {c d : Config Pid Op (Reply Ans) Label Err S α}

/-- The process has yet to settle an obligation. -/
def Config.Settles (c : Config Pid Op (Reply Ans) Label Err S α) (settles : Op → κ → Prop) (k : κ)
    (i : Pid) : Prop := (c.prog i).Settles (fun o => settles o k) fun _ => False

/-- A process is interrupted when it dies or when its operation fails. -/
def Config.Interrupts (exec : Pid → (o : Op) → S → Reply Ans o × S)
    (c : Config Pid Op (Reply Ans) Label Err S α) : Event Pid → Pid → Prop
  | .crash i, j => i = j
  | .run i, j => i = j ∧ ∃ ls o next, c.prog i = .op ls o next ∧ (exec i o c.store).1 = none
  | .world, _ => False

/-- No process is interrupted that leaves an obligation open it had yet to settle. -/
def Config.Unbroken (exec : Pid → (o : Op) → S → Reply Ans o × S) (settles : Op → κ → Prop)
    (Owed : κ → S → Prop) (c : Config Pid Op (Reply Ans) Label Err S α) (e : Event Pid)
    (c' : Config Pid Op (Reply Ans) Label Err S α) : Prop :=
  ∀ i k, c.Interrupts exec e i → c.Settles settles k i → ¬Owed k c'.store

/-- **Open obligations are attended to**: where processes cover their obligations and none is
interrupted with an open one, an open obligation is one that a process has yet to settle. -/
theorem Reaches.attended
    (hexec : ∀ i o s k, Owed k (exec i o s).2 → incurs o k ∨ Owed k s)
    (hsettles : ∀ i o s k, (exec i o s).1 ≠ none → settles o k → ¬Owed k (exec i o s).2)
    (hworld : ∀ s s' k, world s s' → Owed k s' → Owed k s)
    (hstart : ∀ i, (c.prog i).Covers incurs settles fun _ _ => False)
    (howed : ∀ k, ¬Owed k c.store)
    (h : Reaches exec world (Config.Unbroken exec settles Owed) c d) (k : κ)
    (hk : Owed k d.store) : ∃ i, d.Settles settles k i := by
  have hinv : (∀ i, (d.prog i).Covers incurs settles fun _ _ => False) ∧
      ∀ k, Owed k d.store → ∃ i, d.Settles settles k i := by
    refine h.invariant (I := fun d => (∀ i, (d.prog i).Covers incurs settles fun _ _ => False) ∧
      ∀ k, Owed k d.store → ∃ i, d.Settles settles k i) ?_
      ⟨hstart, fun k hk => absurd hk (howed k)⟩
    rintro d e d' ⟨hcovers, hinv⟩ hs hunbroken
    cases hs with
    | @run i ls o next hi =>
        have hi' := hcovers i
        rw [hi] at hi'
        refine ⟨fun j => ?_, fun k hk => ?_⟩
        · by_cases hj : j = i
          · subst hj
            simp only [Function.update_self]
            exact hi'.2 _
          · simp only [Function.update_of_ne hj]
            exact hcovers j
        · -- Another process that has yet to settle the obligation still has.
          have hother : ∀ j, j ≠ i → d.Settles settles k j → ∃ j,
              Config.Settles ⟨Function.update d.prog i (next (exec i o d.store).1),
                (exec i o d.store).2⟩ settles k j := by
            intro j hj hsettles
            refine ⟨j, ?_⟩
            simp only [Config.Settles, Function.update_of_ne hj]
            exact hsettles
          -- The process itself has yet to settle it after an answer.
          have hself : d.Settles settles k i ∨ incurs o k → ∃ j,
              Config.Settles ⟨Function.update d.prog i (next (exec i o d.store).1),
                (exec i o d.store).2⟩ settles k j := by
            intro howes
            have hnext : settles o k ∨
                ∀ x, (next (some x)).Settles (fun o => settles o k) fun _ => False := by
              rcases howes with hsettles | hincurs
              · rw [Config.Settles, hi] at hsettles
                exact hsettles
              · exact Or.inr (hi'.1 k hincurs)
            cases hreply : (exec i o d.store).1 with
            | none =>
                have hsettles : d.Settles settles k i := by
                  rw [Config.Settles, hi]
                  exact hnext
                exact absurd hk (hunbroken i k ⟨rfl, ls, o, next, hi, hreply⟩ hsettles)
            | some x =>
                refine ⟨i, ?_⟩
                simp only [Config.Settles, Function.update_self]
                refine (hnext.resolve_left fun hsettle => ?_) x
                exact hsettles i o d.store k (by simp [hreply]) hsettle hk
          rcases hexec i o d.store k hk with hincurs | howed
          · exact hself (Or.inr hincurs)
          · obtain ⟨j, hj⟩ := hinv k howed
            by_cases hji : j = i
            · exact hself (Or.inl (hji ▸ hj))
            · exact hother j hji hj
    | @crash i =>
        refine ⟨fun j => ?_, fun k hk => ?_⟩
        · by_cases hj : j = i
          · subst hj
            simp only [Function.update_self]
            trivial
          · simp only [Function.update_of_ne hj]
            exact hcovers j
        · obtain ⟨j, hj⟩ := hinv k hk
          by_cases hji : j = i
          · exact absurd hk (hunbroken i k rfl (hji ▸ hj))
          · refine ⟨j, ?_⟩
            simp only [Config.Settles, Function.update_of_ne hji]
            exact hj
    | world hw => exact ⟨hcovers, fun k hk => hinv k (hworld _ _ k hw hk)⟩
  exact hinv.2 k hk

/-- Where every operation is answered no process is interrupted. -/
theorem Config.reaches_play_answered (answers : S → Prop)
    (hanswers : ∀ i o s, answers s → (exec i o s).1 ≠ none ∧ answers (exec i o s).2)
    (pids : List Pid) {c : Config Pid Op (Reply Ans) Label Err S α} (hc : answers c.store) :
    Reaches exec world (Config.Unbroken exec settles Owed) c (c.play exec (pids.map .run)) := by
  induction pids generalizing c with
  | nil => exact .refl c
  | cons i pids ih =>
      show Reaches _ _ _ c ((c.move exec (.run i)).play exec (pids.map .run))
      cases hi : c.prog i with
      | op ls o next =>
          have hstep : c.move exec (.run i) = ⟨Function.update c.prog i (next (exec i o c.store).1),
              (exec i o c.store).2⟩ := by simp only [Config.move, hi]
          rw [hstep]
          refine ((Reaches.refl c).step (Step.run hi) ?_).trans (ih (hanswers i o c.store hc).2)
          rintro j k ⟨rfl, ls', o', next', hj, hnone⟩
          rw [hi] at hj
          cases hj
          exact absurd hnone (hanswers i o c.store hc).1
      | ret a => simpa only [Config.move, hi] using ih hc
      | fail e => simpa only [Config.move, hi] using ih hc
      | stopped => simpa only [Config.move, hi] using ih hc

end Processes

end Program

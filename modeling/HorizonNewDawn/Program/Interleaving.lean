import HorizonNewDawn.Program.Weakest
import Mathlib.Logic.Function.Basic

/-! # Interleaved processes over one store

Any number of processes run programs over one store. A step is one operation of one process, the
death of a process, or a change made by the world outside. `Reaches` is the reachability relation
of such a system under a side condition on its steps, and `Config.Meets.step` is the rule of
parallel composition: when every process meets its own discipline and every step of the others and
of the world stays within what a process relies on, every process keeps meeting its discipline.

For one process among steps of the world there is `Run`, with the soundness of `wp` for it. -/

namespace Program

variable {Pid Op : Type} {Ans : Op → Type} {Label Err S α : Type}

/-- The programs left to every process, and the store. -/
structure Config (Pid Op : Type) (Ans : Op → Type) (Label Err S α : Type) where
  /-- What each process has still to do. -/
  prog : Pid → Prog Op Ans Label Err α
  /-- The store all of them work on. -/
  store : S

/-- Who makes a step. -/
inductive Event (Pid : Type)
  /-- The process performs its next operation. -/
  | run (i : Pid)
  /-- The process dies. -/
  | crash (i : Pid)
  /-- The world outside changes the store. -/
  | world
  deriving DecidableEq

/-! ## Processes that meet their disciplines -/

namespace Config

variable {exec : Pid → (o : Op) → S → Ans o × S} {D : Pid → Discipline Op Label S}
  {c : Config Pid Op Ans Label Err S α}

/-- Every process meets its discipline from here on, and its results and exceptions satisfy the
postconditions. -/
def Meets (exec : Pid → (o : Op) → S → Ans o × S) (D : Pid → Discipline Op Label S)
    (Q : Pid → α → S → Prop) (E : Pid → Err → S → Prop) (c : Config Pid Op Ans Label Err S α) :
    Prop :=
  ∀ i, wp (exec i) (D i) (c.prog i) (Q i) (E i) c.store

/-- Every process meets its discipline from here on. -/
abbrev Good (exec : Pid → (o : Op) → S → Ans o × S) (D : Pid → Discipline Op Label S)
    (c : Config Pid Op Ans Label Err S α) : Prop :=
  c.Meets exec D (fun _ _ _ => True) fun _ _ _ => True

variable {Q : Pid → α → S → Prop} {E : Pid → Err → S → Prop}

/-- The obligation of the next operation of every process holds. -/
theorem Meets.ok (h : c.Meets exec D Q E) {i : Pid} {ls : List Label} {o : Op}
    {next : Ans o → Prog Op Ans Label Err α} (hi : c.prog i = .op ls o next)
    (ha : (D i).assume ls o c.store) : (D i).ok ls o c.store := by
  have hw := h i
  rw [hi] at hw
  exact (hw c.store ((D i).rely_refl ls c.store) ha).1

/-- A process whose own program is untouched keeps meeting its discipline when the step stays
within what it relies on and keeps the postconditions of the processes that have ended. -/
theorem Meets.keep (h : c.Meets exec D Q E) {j : Pid} {s' : S}
    (hr : ∀ ls o next, c.prog j = .op ls o next → (D j).rely ls c.store s')
    (hQ : ∀ a, Q j a c.store → Q j a s') (hE : ∀ e, E j e c.store → E j e s') :
    wp (exec j) (D j) (c.prog j) (Q j) (E j) s' := by
  have hw := h j
  cases hj : c.prog j with
  | ret a =>
      rw [hj] at hw
      exact hQ a hw
  | fail e =>
      rw [hj] at hw
      exact hE e hw
  | stopped => trivial
  | op ls o next =>
      rw [hj] at hw
      exact wp_of_rely (hr ls o next hj) hw

end Config

/-! ## Steps of a system -/

variable [DecidableEq Pid]

/-- One step of a system of processes. -/
inductive Step (exec : Pid → (o : Op) → S → Ans o × S) (world : S → S → Prop) :
    Config Pid Op Ans Label Err S α → Event Pid → Config Pid Op Ans Label Err S α → Prop
  | run {c : Config Pid Op Ans Label Err S α} {i : Pid} {ls : List Label} {o : Op}
      {next : Ans o → Prog Op Ans Label Err α} (h : c.prog i = .op ls o next) :
      Step exec world c (.run i)
        ⟨Function.update c.prog i (next (exec i o c.store).1), (exec i o c.store).2⟩
  | crash {c : Config Pid Op Ans Label Err S α} {i : Pid} :
      Step exec world c (.crash i) ⟨Function.update c.prog i .stopped, c.store⟩
  | world {c : Config Pid Op Ans Label Err S α} {s' : S} (h : world c.store s') :
      Step exec world c .world ⟨c.prog, s'⟩

/-- Reachability by steps that meet a side condition. -/
inductive Reaches (exec : Pid → (o : Op) → S → Ans o × S) (world : S → S → Prop)
    (cond : Config Pid Op Ans Label Err S α → Event Pid → Config Pid Op Ans Label Err S α → Prop) :
    Config Pid Op Ans Label Err S α → Config Pid Op Ans Label Err S α → Prop
  | refl (c : Config Pid Op Ans Label Err S α) : Reaches exec world cond c c
  | step {c d d' : Config Pid Op Ans Label Err S α} {e : Event Pid}
      (h : Reaches exec world cond c d) (hs : Step exec world d e d') (hc : cond d e d') :
      Reaches exec world cond c d'

namespace Reaches

variable {exec : Pid → (o : Op) → S → Ans o × S} {world : S → S → Prop}
  {cond : Config Pid Op Ans Label Err S α → Event Pid → Config Pid Op Ans Label Err S α → Prop}
  {c d : Config Pid Op Ans Label Err S α}

/-- **Invariants**: what holds at the start and is kept by every admitted step holds throughout. -/
theorem invariant {I : Config Pid Op Ans Label Err S α → Prop}
    (hstep : ∀ d e d', I d → Step exec world d e d' → cond d e d' → I d') (hI : I c)
    (h : Reaches exec world cond c d) : I d := by
  induction h with
  | refl => exact hI
  | step _ hs hc ih => exact hstep _ _ _ ih hs hc

/-- Runs may be continued. -/
theorem trans {d' : Config Pid Op Ans Label Err S α} (h : Reaches exec world cond c d)
    (h' : Reaches exec world cond d d') : Reaches exec world cond c d' := by
  induction h' with
  | refl => exact h
  | step _ hs hc ih => exact ih.step hs hc

end Reaches

namespace Reaches

variable {exec : Pid → (o : Op) → S → Ans o × S} {world : S → S → Prop}
  {cond : Config Pid Op Ans Label Err S α → Event Pid → Config Pid Op Ans Label Err S α → Prop}
  {c d : Config Pid Op Ans Label Err S α}

/-- A run meets a condition on its steps, or it has a step that does not. -/
theorem admitted_or_not (h : Reaches exec world (fun _ _ _ => True) c d) :
    Reaches exec world cond c d ∨ ∃ x e x', Reaches exec world (fun _ _ _ => True) c x ∧
      Step exec world x e x' ∧ ¬cond x e x' := by
  induction h with
  | refl => exact Or.inl (.refl _)
  | @step d d' e hrun hs _ ih =>
      rcases ih with hadmitted | hnot
      · by_cases hcond : cond d e d'
        · exact Or.inl (hadmitted.step hs hcond)
        · exact Or.inr ⟨d, e, d', hrun, hs, hcond⟩
      · exact Or.inr hnot

end Reaches

/-! ## Parallel composition -/

namespace Config

variable {exec : Pid → (o : Op) → S → Ans o × S} {world : S → S → Prop}
  {D : Pid → Discipline Op Label S} {c c' : Config Pid Op Ans Label Err S α} {e : Event Pid}

/-- **Parallel composition**: a step whose operation is looked at, which stays within what the
other processes rely on and keeps the postconditions of those that have ended, leads from a
configuration in which every process meets its discipline to another one. -/
theorem Meets.step {Q : Pid → α → S → Prop} {E : Pid → Err → S → Prop} (h : c.Meets exec D Q E)
    (hs : Step exec world c e c')
    (hassume : ∀ i ls o next, e = .run i → c.prog i = .op ls o next →
      (D i).assume ls o c.store)
    (hrely : ∀ j ls o next, e ≠ .run j → c.prog j = .op ls o next →
      (D j).rely ls c.store c'.store)
    (hQ : ∀ j a, e ≠ .run j → Q j a c.store → Q j a c'.store)
    (hE : ∀ j x, e ≠ .run j → E j x c.store → E j x c'.store) : c'.Meets exec D Q E := by
  intro j
  cases hs with
  | @run i ls o next hi =>
      by_cases hij : j = i
      · subst hij
        have hw := h j
        rw [hi] at hw
        have hstep := (hw c.store ((D j).rely_refl ls c.store) (hassume j ls o next rfl hi)).2
        simpa using hstep
      · have hne : (Event.run i : Event Pid) ≠ .run j := fun heq =>
          hij (Event.run.inj heq).symm
        simpa [Function.update_of_ne hij] using
          h.keep (fun ls' o' next' hj => hrely j ls' o' next' hne hj) (fun a => hQ j a hne)
            fun x => hE j x hne
  | @crash i =>
      by_cases hij : j = i
      · subst hij; simp
      · simpa [Function.update_of_ne hij] using h j
  | world hw =>
      exact h.keep (fun ls o next hj => hrely j ls o next (by simp) hj)
        (fun a => hQ j a (by simp)) fun x => hE j x (by simp)

/-- A step whose operation is looked at, and which stays within what the other processes rely on,
leads from a good configuration to a good one. -/
theorem Good.step (h : c.Good exec D) (hs : Step exec world c e c')
    (hassume : ∀ i ls o next, e = .run i → c.prog i = .op ls o next →
      (D i).assume ls o c.store)
    (hrely : ∀ j ls o next, e ≠ .run j → c.prog j = .op ls o next →
      (D j).rely ls c.store c'.store) : c'.Good exec D :=
  Meets.step h hs hassume hrely (fun _ _ _ _ => trivial) fun _ _ _ _ => trivial

end Config

/-! ## One process among obedient ones -/

namespace Reaches

variable {exec : Pid → (o : Op) → S → Ans o × S} {world : S → S → Prop}
  {cond : Config Pid Op Ans Label Err S α → Event Pid → Config Pid Op Ans Label Err S α → Prop}
  {c d : Config Pid Op Ans Label Err S α} {P : Pid → List Label → Op → Prop}

/-- Processes that obey a permission keep obeying it. -/
theorem obeys (hobeys : ∀ j, Obeys (P j) (fun _ _ => True) (c.prog j) fun _ => True)
    (h : Reaches exec world cond c d) (j : Pid) :
    Obeys (P j) (fun _ _ => True) (d.prog j) fun _ => True := by
  induction h with
  | refl => exact hobeys j
  | step _ hs _ ih =>
      cases hs with
      | @run i ls o next hi =>
          by_cases hj : j = i
          · subst hj
            rw [hi] at ih
            simp only [Function.update_self]
            exact ih.2 _ trivial
          · simp only [Function.update_of_ne hj]
            exact ih
      | @crash i =>
          by_cases hj : j = i
          · subst hj
            simp only [Function.update_self]
            trivial
          · simp only [Function.update_of_ne hj]
            exact ih
      | world _ => exact ih

/-- **One process among obedient ones**: a process keeps meeting its discipline when every operation
permitted to the others, and every change of the world, stays within what it relies on. -/
theorem wp_of_obeys {i : Pid} {D : Discipline Op Label S} {Q : α → S → Prop} {E : Err → S → Prop}
    (hobeys : ∀ j, Obeys (P j) (fun _ _ => True) (c.prog j) fun _ => True)
    (hrely : ∀ j, j ≠ i → ∀ ls' o, P j ls' o → ∀ ls s, D.rely ls s (exec j o s).2)
    (hworld : ∀ ls s s', world s s' → D.rely ls s s') (hassume : ∀ ls o s, D.assume ls o s)
    (hQ : ∀ a s s', D.rely [] s s' → Q a s → Q a s')
    (hE : ∀ e s s', D.rely [] s s' → E e s → E e s')
    (hwp : wp (exec i) D (c.prog i) Q E c.store) (h : Reaches exec world cond c d) :
    wp (exec i) D (d.prog i) Q E d.store := by
  induction h with
  | refl => exact hwp
  | @step d d' e h hs _ ih =>
      have keep : ∀ s', (∀ ls, D.rely ls d.store s') → wp (exec i) D (d.prog i) Q E s' := by
        intro s' hr
        cases hi : d.prog i with
        | ret a => rw [hi] at ih; exact hQ a d.store s' (hr []) ih
        | fail e => rw [hi] at ih; exact hE e d.store s' (hr []) ih
        | stopped => trivial
        | op ls o next => rw [hi] at ih; exact wp_of_rely (hr ls) ih
      cases hs with
      | @run j ls o next hj =>
          have hpermitted := obeys hobeys h j
          rw [hj] at hpermitted
          by_cases hij : i = j
          · subst hij
            rw [hj] at ih
            simp only [Function.update_self]
            exact (ih d.store (D.rely_refl ls d.store) (hassume ls o d.store)).2
          · simp only [Function.update_of_ne hij]
            exact keep _ fun ls' => hrely j (Ne.symm hij) ls o hpermitted.1 ls' d.store
      | @crash j =>
          by_cases hij : i = j
          · subst hij
            simp only [Function.update_self]
            trivial
          · simp only [Function.update_of_ne hij]
            exact ih
      | world hw => exact keep _ fun ls => hworld ls d.store _ hw

end Reaches

/-! ## Schedules -/

/-- A move of a schedule: a process takes its next step or dies, or the world changes the store. -/
inductive Move (Pid S : Type)
  | run (i : Pid)
  | crash (i : Pid)
  | world (f : S → S)

/-- The event of a move. -/
def Move.event {Pid S : Type} : Move Pid S → Event Pid
  | .run i => .run i
  | .crash i => .crash i
  | .world _ => .world

namespace Config

variable {exec : Pid → (o : Op) → S → Ans o × S} {world : S → S → Prop}

/-- Make one move. A process that has ended makes none. -/
def move (exec : Pid → (o : Op) → S → Ans o × S) (c : Config Pid Op Ans Label Err S α) :
    Move Pid S → Config Pid Op Ans Label Err S α
  | .run i =>
      match c.prog i with
      | .op _ o next =>
          ⟨Function.update c.prog i (next (exec i o c.store).1), (exec i o c.store).2⟩
      | _ => c
  | .crash i => ⟨Function.update c.prog i .stopped, c.store⟩
  | .world f => ⟨c.prog, f c.store⟩

/-- The move of a process that has not ended is a step. -/
theorem step_move {c : Config Pid Op Ans Label Err S α} {i : Pid} {ls : List Label} {o : Op}
    {next : Ans o → Prog Op Ans Label Err α} (hi : c.prog i = .op ls o next) :
    Step exec world c (.run i) (c.move exec (.run i)) := by
  rw [move, hi]
  exact .run hi

/-- Play a schedule. -/
def play (exec : Pid → (o : Op) → S → Ans o × S) (c : Config Pid Op Ans Label Err S α)
    (moves : List (Move Pid S)) : Config Pid Op Ans Label Err S α :=
  moves.foldl (move exec) c

/-- What a schedule leads to is reachable. -/
theorem reaches_play (moves : List (Move Pid S))
    (h : ∀ f, Move.world f ∈ moves → ∀ s, world s (f s)) (c : Config Pid Op Ans Label Err S α) :
    Reaches exec world (fun _ _ _ => True) c (c.play exec moves) := by
  induction moves generalizing c with
  | nil => exact .refl c
  | cons m moves ih =>
      have hstep : Reaches exec world (fun _ _ _ => True) c (c.move exec m) := by
        cases m with
        | run i =>
            cases hi : c.prog i with
            | op ls o next =>
                simpa only [move, hi] using (Reaches.refl c).step (Step.run hi) trivial
            | _ => simpa only [move, hi] using Reaches.refl c
        | crash i => exact (Reaches.refl c).step .crash trivial
        | world f => exact (Reaches.refl c).step (.world (h f List.mem_cons_self c.store)) trivial
      exact hstep.trans (ih (fun f hf => h f (List.mem_cons_of_mem m hf)) (c.move exec m))

/-- Whether a check passes before every move of a schedule. -/
def passes (exec : Pid → (o : Op) → S → Ans o × S)
    (check : Config Pid Op Ans Label Err S α → Move Pid S → Bool) :
    List (Move Pid S) → Config Pid Op Ans Label Err S α → Bool
  | [], _ => true
  | m :: moves, c => check c m && passes exec check moves (c.move exec m)

/-- What a schedule leads to is reachable under every condition that is checked before its moves. -/
theorem reaches_play_of_passes {cond : Config Pid Op Ans Label Err S α → Event Pid →
      Config Pid Op Ans Label Err S α → Prop}
    {check : Config Pid Op Ans Label Err S α → Move Pid S → Bool}
    (hcond : ∀ d m, check d m = true → cond d m.event (d.move exec m)) {moves : List (Move Pid S)}
    (h : ∀ f, Move.world f ∈ moves → ∀ s, world s (f s)) {c : Config Pid Op Ans Label Err S α}
    (hpasses : c.passes exec check moves = true) :
    Reaches exec world cond c (c.play exec moves) := by
  induction moves generalizing c with
  | nil => exact .refl c
  | cons m moves ih =>
      rw [passes, Bool.and_eq_true] at hpasses
      have hm := hcond c m hpasses.1
      have hstep : Reaches exec world cond c (c.move exec m) := by
        cases m with
        | run i =>
            cases hi : c.prog i with
            | op ls o next =>
                simp only [move, hi] at hm ⊢
                exact (Reaches.refl c).step (Step.run hi) hm
            | _ => simpa only [move, hi] using Reaches.refl c
        | crash i => exact (Reaches.refl c).step .crash hm
        | world f => exact (Reaches.refl c).step (.world (h f List.mem_cons_self c.store)) hm
      exact hstep.trans (ih (fun f hf => h f (List.mem_cons_of_mem m hf)) hpasses.2)

/-- What a schedule without moves of the world leads to is reachable under every condition on the
moves of the world. -/
theorem reaches_play_of_run {cond : Config Pid Op Ans Label Err S α → Event Pid →
      Config Pid Op Ans Label Err S α → Prop} (hcond : ∀ d e d', e ≠ .world → cond d e d')
    (pids : List Pid) (c : Config Pid Op Ans Label Err S α) :
    Reaches exec world cond c (c.play exec (pids.map .run)) := by
  induction pids generalizing c with
  | nil => exact .refl c
  | cons i pids ih =>
      have hstep : Reaches exec world cond c (c.move exec (.run i)) := by
        cases hi : c.prog i with
        | op ls o next =>
            simpa only [move, hi] using
              (Reaches.refl c).step (Step.run hi) (hcond _ _ _ (by simp))
        | _ => simpa only [move, hi] using Reaches.refl c
      exact hstep.trans (ih _)

end Config

/-! ## One process and the world -/

/-- One process interleaved with the world: the program and store it gets to. -/
inductive Run (exec : (o : Op) → S → Ans o × S) (world : List Label → S → S → Prop)
    (cond : List Label → Op → S → Prop) :
    Prog Op Ans Label Err α × S → Prog Op Ans Label Err α × S → Prop
  | refl (x : Prog Op Ans Label Err α × S) : Run exec world cond x x
  | own {x : Prog Op Ans Label Err α × S} {ls : List Label} {o : Op}
      {next : Ans o → Prog Op Ans Label Err α} {s : S}
      (h : Run exec world cond x (.op ls o next, s)) (hc : cond ls o s) :
      Run exec world cond x (next (exec o s).1, (exec o s).2)
  | world {x : Prog Op Ans Label Err α × S} {p : Prog Op Ans Label Err α} {s s' : S}
      (h : Run exec world cond x (p, s)) (hw : world p.sections s s') :
      Run exec world cond x (p, s')

/-- A run of a program whose operations all meet a further assumption meets it. -/
theorem Run.and_of_obeys {exec : (o : Op) → S → Ans o × S} {world : List Label → S → S → Prop}
    {cond : List Label → Op → S → Prop} {P : List Label → Op → Prop} {A : Op → S → Prop}
    {x y : Prog Op Ans Label Err α × S} (hP : ∀ ls o s, P ls o → A o s)
    (hx : Obeys P (fun _ _ => True) x.1 fun _ => True) (hrun : Run exec world cond x y) :
    Run exec world (fun ls o s => cond ls o s ∧ A o s) x y ∧
      Obeys P (fun _ _ => True) y.1 fun _ => True := by
  induction hrun with
  | refl => exact ⟨.refl _, hx⟩
  | own _ hc ih => exact ⟨.own ih.1 ⟨hc, hP _ _ _ ih.2.1⟩, ih.2.2 _ trivial⟩
  | world _ hw ih => exact ⟨.world ih.1 hw, ih.2⟩

/-- **Soundness of `wp`**: along every run the program left over still meets the discipline, where
the postconditions cannot be invalidated by the world. -/
theorem Run.sound {exec : (o : Op) → S → Ans o × S} {D : Discipline Op Label S}
    {Q : α → S → Prop} {E : Err → S → Prop} (hQ : ∀ a s s', D.rely [] s s' → Q a s → Q a s')
    (hE : ∀ e s s', D.rely [] s s' → E e s → E e s')
    {x y : Prog Op Ans Label Err α × S} (h : Run exec D.rely D.assume x y)
    (hw : wp exec D x.1 Q E x.2) : wp exec D y.1 Q E y.2 := by
  induction h with
  | refl => exact hw
  | @own ls o next s _ hc ih => exact (ih s (D.rely_refl ls s) hc).2
  | @world p s s' _ hr ih =>
      cases p with
      | ret a => exact hQ a s s' hr ih
      | fail e => exact hE e s s' hr ih
      | stopped => trivial
      | op ls o next => exact wp_of_rely hr ih

/-- What the world keeps and every operation that meets the discipline leads to holds all along a
run. -/
theorem Run.always {exec : (o : Op) → S → Ans o × S} {D : Discipline Op Label S}
    {Q : α → S → Prop} {E : Err → S → Prop} {I : S → Prop} (hI : D.Stable I)
    (hok : ∀ ls o s, D.ok ls o s → I (exec o s).2)
    (hQ : ∀ a s s', D.rely [] s s' → Q a s → Q a s')
    (hE : ∀ e s s', D.rely [] s s' → E e s → E e s')
    {x y : Prog Op Ans Label Err α × S} (h : Run exec D.rely D.assume x y)
    (hw : wp exec D x.1 Q E x.2) (hx : I x.2) : I y.2 := by
  induction h with
  | refl => exact hx
  | @own ls o next s hrun hc _ =>
      exact hok ls o s ((hrun.sound hQ hE hw) s (D.rely_refl ls s) hc).1
  | @world p s s' _ hr ih => exact hI p.sections s s' hr ih

end Program

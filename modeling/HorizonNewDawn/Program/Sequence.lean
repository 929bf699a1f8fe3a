import HorizonNewDawn.Program.Weakest
import Mathlib.Logic.Relation

/-! # Runs one after the other

One process at a time runs a program over a store, among changes of the world. A run may end by a
return or by an exception, or be killed before any of its operations; then another run may begin.
A run whose iteration budget is used up is only a prefix of a run, and nothing follows it.

`Sequence.invariant` is the rule for such sequences: what every operation of every run keeps, started
where it holds, holds in every store reached, wherever the runs are killed. -/

namespace Program

variable {Pid Op : Type} {Ans : Op → Type} {Label Err S α : Type}

/-- The run in progress, if there is one, and the store. -/
abbrev Sequence (Pid Op : Type) (Ans : Op → Type) (Label Err S α : Type) : Type :=
  Option (Pid × Prog Op Ans Label Err α) × S

/-- The circumstances of a sequence of runs. -/
structure Circumstances (Pid Op : Type) (Ans : Op → Type) (Label Err S α : Type) where
  /-- What operations answer and do. -/
  exec : Pid → (o : Op) → S → Ans o × S
  /-- What the world may do. -/
  world : S → S → Prop
  /-- The programs a run may be of. -/
  runs : Prog Op Ans Label Err α → Prop
  /-- When an operation is performed. -/
  guard : List Label → Op → S → Prop

namespace Sequence

variable {C : Circumstances Pid Op Ans Label Err S α}

/-- One step of a sequence of runs. -/
inductive Step (C : Circumstances Pid Op Ans Label Err S α) :
    Sequence Pid Op Ans Label Err S α → Sequence Pid Op Ans Label Err S α → Prop
  | begins {i : Pid} {p : Prog Op Ans Label Err α} {s : S} (h : C.runs p) :
      Step C (none, s) (some (i, p), s)
  | own {i : Pid} {ls : List Label} {o : Op} {next : Ans o → Prog Op Ans Label Err α} {s : S}
      (h : C.guard ls o s) :
      Step C (some (i, .op ls o next), s) (some (i, next (C.exec i o s).1), (C.exec i o s).2)
  | returned {i : Pid} {a : α} {s : S} : Step C (some (i, .ret a), s) (none, s)
  | thrown {i : Pid} {e : Err} {s : S} : Step C (some (i, .fail e), s) (none, s)
  | killed {i : Pid} {ls : List Label} {o : Op} {next : Ans o → Prog Op Ans Label Err α} {s : S} :
      Step C (some (i, .op ls o next), s) (none, s)
  | world {x : Option (Pid × Prog Op Ans Label Err α)} {s s' : S} (h : C.world s s') :
      Step C (x, s) (x, s')

/-- What a sequence of runs keeps: the invariant `I`, and within a run that its program meets its
discipline. -/
def Sound (C : Circumstances Pid Op Ans Label Err S α) (D : Pid → Discipline Op Label S)
    (I : S → Prop) (x : Sequence Pid Op Ans Label Err S α) : Prop :=
  I x.2 ∧ match x.1 with
    | none => True
    | some (i, p) => wp (C.exec i) (D i) p (fun _ _ => True) (fun _ _ => True) x.2

variable {D : Pid → Discipline Op Label S} {I : S → Prop}

/-- **Step**: every step of a sequence keeps what it keeps. -/
theorem Sound.step (hrely : ∀ i ls s s', C.world s s' → (D i).rely ls s s')
    (hworld : ∀ s s', C.world s s' → I s → I s')
    (hguard : ∀ i ls o s, C.guard ls o s → (D i).assume ls o s)
    (hok : ∀ i ls o s, (D i).ok ls o s → I (C.exec i o s).2)
    (hrun : ∀ i p s, C.runs p → I s →
      wp (C.exec i) (D i) p (fun _ _ => True) (fun _ _ => True) s)
    {x y : Sequence Pid Op Ans Label Err S α} (h : Sound C D I x) (hs : Step C x y) :
    Sound C D I y := by
  cases hs with
  | begins hp => exact ⟨h.1, hrun _ _ _ hp h.1⟩
  | @own i ls o next s hg =>
      obtain ⟨hop, hnext⟩ := h.2 s ((D i).rely_refl ls s) (hguard i ls o s hg)
      exact ⟨hok i ls o s hop, hnext⟩
  | returned => exact ⟨h.1, trivial⟩
  | thrown => exact ⟨h.1, trivial⟩
  | killed => exact ⟨h.1, trivial⟩
  | @world run s s' hw =>
      refine ⟨hworld s s' hw h.1, ?_⟩
      have hrest := h.2
      cases run with
      | none => trivial
      | some run =>
          obtain ⟨i, p⟩ := run
          cases p with
          | ret a => trivial
          | fail e => trivial
          | stopped => trivial
          | op ls o next => exact wp_of_rely (hrely i ls s s' hw) hrest

/-- **Sequences of runs**: what every operation keeps holds in every store reached. -/
theorem invariant (hrely : ∀ i ls s s', C.world s s' → (D i).rely ls s s')
    (hworld : ∀ s s', C.world s s' → I s → I s')
    (hguard : ∀ i ls o s, C.guard ls o s → (D i).assume ls o s)
    (hok : ∀ i ls o s, (D i).ok ls o s → I (C.exec i o s).2)
    (hrun : ∀ i p s, C.runs p → I s →
      wp (C.exec i) (D i) p (fun _ _ => True) (fun _ _ => True) s)
    {s : S} (hI : I s) {x : Sequence Pid Op Ans Label Err S α}
    (h : Relation.ReflTransGen (Step C) (none, s) x) : I x.2 := by
  have hsound : Sound C D I x := by
    induction h with
    | refl => exact ⟨hI, trivial⟩
    | tail _ hs ih => exact ih.step hrely hworld hguard hok hrun hs
  exact hsound.1

/-! ## Schedules -/

/-- A move of a schedule. -/
inductive Move (Pid Op : Type) (Ans : Op → Type) (Label Err S α : Type)
  | begin (i : Pid) (p : Prog Op Ans Label Err α)
  | own
  | kill
  | world (f : S → S)

/-- Make one move, where it is possible. -/
def move (exec : Pid → (o : Op) → S → Ans o × S) (x : Sequence Pid Op Ans Label Err S α) :
    Move Pid Op Ans Label Err S α → Sequence Pid Op Ans Label Err S α
  | .begin i p =>
      match x.1 with
      | none => (some (i, p), x.2)
      | some _ => x
  | .own =>
      match x.1 with
      | some (i, .op _ o next) => (some (i, next (exec i o x.2).1), (exec i o x.2).2)
      | some (_, .ret _) => (none, x.2)
      | some (_, .fail _) => (none, x.2)
      | _ => x
  | .kill =>
      match x.1 with
      | some (_, .op _ _ _) => (none, x.2)
      | _ => x
  | .world f => (x.1, f x.2)

/-- Play a schedule. -/
def play (exec : Pid → (o : Op) → S → Ans o × S) (x : Sequence Pid Op Ans Label Err S α)
    (moves : List (Move Pid Op Ans Label Err S α)) : Sequence Pid Op Ans Label Err S α :=
  moves.foldl (move exec) x

/-- Whether a check passes before a move. -/
def checks (check : List Label → Op → S → Bool) (x : Sequence Pid Op Ans Label Err S α) :
    Move Pid Op Ans Label Err S α → Bool
  | .own =>
      match x.1 with
      | some (_, .op ls o _) => check ls o x.2
      | _ => true
  | _ => true

/-- Whether a check passes before every operation of a schedule. -/
def passes (exec : Pid → (o : Op) → S → Ans o × S) (check : List Label → Op → S → Bool) :
    List (Move Pid Op Ans Label Err S α) → Sequence Pid Op Ans Label Err S α → Bool
  | [], _ => true
  | m :: moves, x => checks check x m && passes exec check moves (move exec x m)

/-- No check. -/
theorem passes_true {exec : Pid → (o : Op) → S → Ans o × S}
    (moves : List (Move Pid Op Ans Label Err S α)) (x : Sequence Pid Op Ans Label Err S α) :
    passes exec (fun _ _ _ => true) moves x = true := by
  induction moves generalizing x with
  | nil => rfl
  | cons m moves ih =>
      rw [passes, ih, Bool.and_true]
      cases m with
      | own =>
          obtain ⟨run, s⟩ := x
          rcases run with - | ⟨i, p⟩
          · rfl
          · cases p <;> rfl
      | _ => rfl

/-- What a schedule leads to is reached, where the guard of its operations is checked. -/
theorem reaches_play {check : List Label → Op → S → Bool}
    (hguard : ∀ ls o s, check ls o s = true → C.guard ls o s)
    {moves : List (Move Pid Op Ans Label Err S α)}
    (hruns : ∀ i p, Move.begin i p ∈ moves → C.runs p)
    (hworld : ∀ f, Move.world f ∈ moves → ∀ s, C.world s (f s))
    {x : Sequence Pid Op Ans Label Err S α} (hpasses : passes C.exec check moves x = true) :
    Relation.ReflTransGen (Step C) x (play C.exec x moves) := by
  induction moves generalizing x with
  | nil => exact .refl
  | cons m moves ih =>
      rw [passes, Bool.and_eq_true] at hpasses
      have hrest := ih (fun i p hp => hruns i p (List.mem_cons_of_mem m hp))
        (fun f hf => hworld f (List.mem_cons_of_mem m hf)) hpasses.2
      have hcheck := hpasses.1
      refine Relation.ReflTransGen.trans ?_ hrest
      obtain ⟨run, s⟩ := x
      cases m with
      | begin i p =>
          cases run with
          | none => exact .single (.begins (hruns i p List.mem_cons_self))
          | some run => exact .refl
      | own =>
          cases run with
          | none => exact .refl
          | some run =>
              obtain ⟨i, p⟩ := run
              cases p with
              | ret a => exact .single .returned
              | fail e => exact .single .thrown
              | stopped => exact .refl
              | op ls o next => exact .single (.own (hguard ls o s hcheck))
      | kill =>
          cases run with
          | none => exact .refl
          | some run =>
              obtain ⟨i, p⟩ := run
              cases p with
              | op ls o next => exact .single .killed
              | _ => exact .refl
      | world f => exact .single (.world (hworld f List.mem_cons_self s))

end Sequence

end Program

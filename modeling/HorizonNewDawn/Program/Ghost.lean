import HorizonNewDawn.Program.Interleaving
import Mathlib

/-! # Watching a run

A ghost follows a run without taking part in it: it notes what each operation and each change of the
world was (`Ghost`). A watched system makes the steps of the system over the same store, and every run can be
watched (`Reaches.watch`), so that what is proved of watched runs under a condition on the ghost is said
of the runs themselves. -/

namespace Program

variable {Pid Op : Type} {Ans : Op → Type} {Label Err S G α : Type}

/-- What a ghost notes of an operation of a process, and of a change of the world. -/
structure Ghost (Pid Op S G : Type) where
  own : Pid → Op → S → G → G
  world : S → S → G → G

namespace Ghost

variable (γ : Ghost Pid Op S G)

/-- An operation under the eyes of the ghost. -/
def exec (exec : Pid → (o : Op) → S → Ans o × S) (i : Pid) (o : Op) (x : S × G) : Ans o × (S × G) :=
  ((exec i o x.1).1, (exec i o x.1).2, γ.own i o x.1 x.2)

/-- A change of the world under the eyes of the ghost. -/
def World (world : S → S → Prop) (x x' : S × G) : Prop :=
  world x.1 x'.1 ∧ x'.2 = γ.world x.1 x'.1 x.2

variable {γ} {exec : Pid → (o : Op) → S → Ans o × S} {i : Pid} {o : Op} {x : S × G}

/-- The answer is the one without the ghost. -/
@[simp] theorem exec_fst : (γ.exec exec i o x).1 = (exec i o x.1).1 := rfl

/-- So is the store. -/
@[simp] theorem exec_store : (γ.exec exec i o x).2.1 = (exec i o x.1).2 := rfl

/-- The ghost notes the operation. -/
@[simp] theorem exec_ghost : (γ.exec exec i o x).2.2 = γ.own i o x.1 x.2 := rfl

end Ghost

namespace Config

/-- The configuration with a ghost. -/
def watched (c : Config Pid Op Ans Label Err S α) (g : G) : Config Pid Op Ans Label Err (S × G) α :=
  ⟨c.prog, (c.store, g)⟩

end Config

variable [DecidableEq Pid] {γ : Ghost Pid Op S G} {exec : Pid → (o : Op) → S → Ans o × S}
  {world : S → S → Prop}

/-- Every step can be watched. -/
theorem Step.watch {c d : Config Pid Op Ans Label Err S α} {e : Event Pid}
    (h : Step exec world c e d) (g : G) :
    ∃ g', Step (γ.exec exec) (γ.World world) (c.watched g) e (d.watched g') := by
  cases h with
  | @run i ls o next hi =>
      have hwatched : (c.watched g).prog i = .op ls o next := hi
      exact ⟨γ.own i o c.store g, .run hwatched⟩
  | crash => exact ⟨g, .crash⟩
  | @world s' hw => exact ⟨γ.world c.store s' g, .world ⟨hw, rfl⟩⟩

/-- **Every run can be watched.** -/
theorem Reaches.watch {c d : Config Pid Op Ans Label Err S α}
    (h : Reaches exec world (fun _ _ _ => True) c d) (g : G) :
    ∃ g', Reaches (γ.exec exec) (γ.World world) (fun _ _ _ => True) (c.watched g) (d.watched g') := by
  induction h with
  | refl => exact ⟨g, .refl _⟩
  | step _ hs _ ih =>
      obtain ⟨g', hrun⟩ := ih
      obtain ⟨g'', hstep⟩ := hs.watch g'
      exact ⟨g'', hrun.step hstep trivial⟩

end Program

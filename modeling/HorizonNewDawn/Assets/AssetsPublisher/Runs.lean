import HorizonNewDawn.Assets.AssetsPublisher.Comparison
import HorizonNewDawn.Program.Interleaving
import Mathlib

/-! # Runs of the publisher beside each other

Any number of processes publish to one destination. While a run replaces the published build the
destination is absent, and the build lies under the name of a backup with the modification time it has
had before. The sweep of another run goes by that time, and may take the only copy of the build for
abandoned. In every run in which it does not, the destination holds a complete build or the build that
was moved away last is still there (`kept_of_careful`). -/

namespace HorizonNewDawn

open Program

namespace AssetsPublisher

/-! ## The shared directories -/

/-- A directory with its modification time. -/
structure Directory where
  tree : Tree
  modified : ℤ

/-- The directories any number of runs share; `glob` goes through the places that are `listed`. Each
operation has a reading of a clock, a random name and a verdict by its number, and nothing ties the
clocks together. -/
structure Disk (Pid : Type) where
  directories : Place → Option Directory
  listed : List Place
  clock : ℕ → ℤ
  random : ℕ → String
  verdict : ℕ → Verdict
  performed : ℕ
  /-- The run that has drawn a name. -/
  owner : String → Option Pid
  /-- Whether a build has been published. -/
  published : Bool
  /-- The directory that was moved away from the destination last, with the name of its backup. -/
  moved : Option (String × Directory)

variable {Pid : Type}

namespace Disk

/-- Put a directory in a place, or leave the place empty. -/
def place (s : Disk Pid) (place : Place) (directory : Option Directory) : Disk Pid :=
  { s with
    directories := Function.update s.directories place directory
    listed := s.listed.insert place }

/-- A tree that has been written by the operation. -/
def written (s : Disk Pid) (tree : Tree) : Directory := ⟨tree, s.clock s.performed⟩

/-- `copyDirectory` into a new place -/
def copy (s : Disk Pid) (verdict : Verdict) (directory target : Place) : Option Bool × Disk Pid :=
  match s.directories directory, verdict with
  | none, _ => (some false, s)
  | some found, .succeeds => (some true, s.place target (some (s.written found.tree)))
  | some _, .fails remains => (some false, s.place target (remains.map s.written))
  | some _, .throws remains => (none, s.place target (remains.map s.written))

/-- A directory after its move; a move keeps its modification time. -/
def shift (s : Disk Pid) (from' target : Place) (directory : Directory) : Disk Pid :=
  { (s.place from' none).place target (some directory) with
    published := s.published || (from'.isStaging && decide (target = .destination))
    moved := match from', target with
      | .destination, .backup random => some (random, directory)
      | _, _ => s.moved }

/-- `moveDirectory`: a rename, which needs its source and replaces no directory that has files. -/
def move (s : Disk Pid) (verdict : Verdict) (from' target : Place) : Option Bool × Disk Pid :=
  match s.directories from', verdict with
  | some directory, .succeeds =>
      if (s.directories target).all fun found => found.tree.files.isEmpty then
        (some true, s.shift from' target directory)
      else (some false, s)
  | _, _ => (some false, s)

/-- `deleteDirectory` -/
def delete (s : Disk Pid) (verdict : Verdict) (place : Place) : Option Bool × Disk Pid :=
  match s.directories place, verdict with
  | none, _ => (some false, s)
  | some _, .succeeds => (some true, s.place place none)
  | some _, .fails remains => (some false, s.place place (remains.map s.written))
  | some _, .throws remains => (some false, s.place place (remains.map s.written))

/-- `random` -/
def draw (s : Disk Pid) (i : Pid) : Disk Pid :=
  { s with owner := Function.update s.owner (s.random s.performed) (some i) }

end Disk

variable (sha256 : String → String) (isVcs : String → Bool)

/-- An operation of a run under its verdict; `none` is an exception. -/
def perform (i : Pid) (verdict : Verdict) :
    (o : Operation) → Disk Pid → Reply Operation.Answer o × Disk Pid
  | .ensureDirectoryExists, s => (verdict.read (some ()), s)
  | .glob backups, s =>
      (verdict.read (some (s.listed.filter fun place =>
        (if backups then place.isBackup else place.isStaging) && (s.directories place).isSome)), s)
  | .time, s => (some (s.clock s.performed), s)
  | .lastModified place, s => (verdict.read ((s.directories place).map Directory.modified), s)
  | .isDirectory place, s => (some (s.directories place).isSome, s)
  | .isFile place path, s =>
      (some ((s.directories place).bind (·.tree.contents path)).isSome, s)
  | .get place path, s => (verdict.read ((s.directories place).bind (·.tree.contents path)), s)
  | .allFiles place, s =>
      (verdict.read ((s.directories place).map fun found => found.tree.allFiles isVcs), s)
  | .hash place path, s =>
      (verdict.read (((s.directories place).bind (·.tree.contents path)).map sha256), s)
  | .random, s => (some (s.random s.performed), s.draw i)
  | .copyDirectory directory target, s => s.copy verdict directory target
  | .moveDirectory from' target, s => s.move verdict from' target
  | .deleteDirectory place, s => s.delete verdict place

/-- The next operation has the next number. -/
def Disk.tick (s : Disk Pid) : Disk Pid := { s with performed := s.performed + 1 }

/-- The next operation of a run. -/
def execRun (i : Pid) (o : Operation) (s : Disk Pid) : Reply Operation.Answer o × Disk Pid :=
  perform sha256 isVcs i (s.verdict s.performed) o s.tick

/-! ## What has to be kept -/

/-- The destination holds a complete build, or the complete build that was moved away from it last is
still there under the name of its backup. -/
def Kept (s : Disk Pid) : Prop :=
  (∃ directory, s.directories .destination = some directory ∧ Complete directory.tree) ∨
    ∃ random directory, s.moved = some (random, directory) ∧
      s.directories (.backup random) = some directory ∧ Complete directory.tree

/-- A run has drawn the name of a place. -/
def Disk.Owns (s : Disk Pid) (i : Pid) (place : Place) : Prop :=
  ∃ random, s.owner random = some i ∧ (place = .staging random ∨ place = .backup random)

/-- The only copy of the build: the backup of the directory that was moved away last, while there is no
destination. -/
def Disk.OnlyCopy (s : Disk Pid) (place : Place) : Prop :=
  s.directories .destination = none ∧
    ∃ random directory, s.moved = some (random, directory) ∧ place = .backup random

/-- The processes and what they share. -/
abbrev Runs (Pid : Type) : Type :=
  Config Pid Operation (Reply Operation.Answer) Empty PublishFailure (Disk Pid) Unit

/-- A run that has not come to its end. -/
def Alive (c : Runs Pid) (i : Pid) : Prop := ∃ ls o next, c.prog i = .op ls o next

/-- What a run takes for abandoned belongs to no run that is still going, and is not the only copy of the
build. -/
def Careful (c : Runs Pid) (e : Event Pid) (_ : Runs Pid) : Prop :=
  ∀ i ls place next, e = .run i → c.prog i = .op ls (.deleteDirectory place) next →
    ¬c.store.Owns i place → (∀ j, Alive c j → ¬c.store.Owns j place) ∧ ¬c.store.OnlyCopy place

/-- Runs that have not begun, over names that have not been used; there is a complete build at the
destination, or nothing at all. -/
structure Begins (c : Runs Pid) : Prop where
  program : ∀ i, c.prog i = .stopped ∨ ∃ ksort force, c.prog i = publish ksort force
  injective : Function.Injective c.store.random
  fresh : ∀ n, c.store.directories (.staging (c.store.random n)) = none ∧
    c.store.directories (.backup (c.store.random n)) = none
  owner : ∀ random, c.store.owner random = none
  complete : ∀ directory, c.store.directories .destination = some directory →
    Complete directory.tree
  published : c.store.published = true → c.store.directories .destination ≠ none

/-! ## What an operation does -/

section Steps

variable {sha256 isVcs} {i j : Pid} {o : Operation} {s s' : Disk Pid}

/-- What an operation of a run may do. -/
inductive Effect (i : Pid) (s : Disk Pid) : Operation → Disk Pid → Prop
  | stays {o : Operation} : Effect i s o s.tick
  | draws : Effect i s .random (s.tick.draw i)
  | writes {directory target : Place} {found : Option Directory} :
      Effect i s (.copyDirectory directory target) (s.tick.place target found)
  | shifts {from' target : Place} {directory : Directory} (h : s.directories from' = some directory) :
      Effect i s (.moveDirectory from' target) (s.tick.shift from' target directory)
  | deletes {place : Place} {found : Option Directory} (h : s.directories place ≠ none) :
      Effect i s (.deleteDirectory place) (s.tick.place place found)

/-- What an operation of a run does to the disk. -/
theorem effect_execRun : Effect i s o (execRun sha256 isVcs i o s).2 := by
  unfold execRun
  cases o with
  | random => exact .draws
  | copyDirectory directory target =>
      simp only [perform, Disk.copy]
      split
      · exact .stays
      · exact .writes
      · exact .writes
      · exact .writes
  | moveDirectory from' target =>
      simp only [perform, Disk.move]
      split
      · rename_i hfound _
        split_ifs
        · exact .shifts hfound
        · exact .stays
      · exact .stays
  | deleteDirectory place =>
      simp only [perform, Disk.delete]
      split
      · exact .stays
      all_goals
        rename_i hfound _
        apply Effect.deletes
        show s.tick.directories place ≠ none
        rw [hfound]
        exact Option.some_ne_none _
  | _ => exact .stays

/-! ## What a run relies on -/

/-- The backup under a name is not the only copy of the build. -/
def Settled (random : String) (s : Disk Pid) : Prop :=
  ∀ directory, s.moved = some (random, directory) → s.directories .destination ≠ none

/-- What is a run's own is left alone. -/
structure Respects (i : Pid) (s s' : Disk Pid) : Prop where
  owner : ∀ random, s'.owner random = some i ↔ s.owner random = some i
  staging : ∀ random, s.owner random = some i →
    s'.directories (.staging random) = s.directories (.staging random)
  backup : ∀ random, s.owner random = some i →
    s'.directories (.backup random) = s.directories (.backup random)
  settled : ∀ random, s.owner random = some i → Settled random s → Settled random s'

/-- Nothing that happens respects a run. -/
theorem Respects.refl (s : Disk Pid) : Respects i s s :=
  ⟨fun _ => Iff.rfl, fun _ _ => rfl, fun _ _ => rfl, fun _ _ h => h⟩

/-- What respects a run may happen again and again. -/
theorem Respects.trans {s'' : Disk Pid} (h : Respects i s s') (h' : Respects i s' s'') :
    Respects i s s'' where
  owner random := (h'.owner random).trans (h.owner random)
  staging random hrandom :=
    (h'.staging random ((h.owner random).mpr hrandom)).trans (h.staging random hrandom)
  backup random hrandom :=
    (h'.backup random ((h.owner random).mpr hrandom)).trans (h.backup random hrandom)
  settled random hrandom hsettled :=
    h'.settled random ((h.owner random).mpr hrandom) (h.settled random hrandom hsettled)

/-- What holds of the directories at any time. -/
structure Sound (s : Disk Pid) : Prop where
  injective : Function.Injective s.random
  fresh : ∀ n, s.performed < n → s.owner (s.random n) = none ∧
    s.directories (.staging (s.random n)) = none ∧ s.directories (.backup (s.random n)) = none
  complete : ∀ directory, s.directories .destination = some directory → Complete directory.tree
  aside : s.published = true → s.directories .destination = none →
    ∃ random directory, s.moved = some (random, directory) ∧
      s.directories (.backup random) = some directory ∧ Complete directory.tree

/-- A sound disk keeps the build that has been published. -/
theorem Sound.kept (h : Sound s) (hpublished : s.published = true) : Kept s := by
  cases hdestination : s.directories .destination with
  | none => exact Or.inr (h.aside hpublished hdestination)
  | some directory =>
      exact Or.inl ⟨directory, hdestination, h.complete directory hdestination⟩

/-- What a run is permitted to do: it writes its own staging, moves it to the destination when it is
complete, moves the destination to its own backup, moves a complete backup of its own back, and deletes
its own backup only when it is settled. -/
def Permitted (i : Pid) (s : Disk Pid) : Operation → Prop
  | .copyDirectory _ target => ∃ random, s.owner random = some i ∧ target = .staging random
  | .moveDirectory from' target => ∃ random, s.owner random = some i ∧
      (from' = .staging random ∧ target = .destination ∧
          (∀ directory, s.directories (.staging random) = some directory → Complete directory.tree) ∨
        from' = .destination ∧ target = .backup random ∨
        from' = .backup random ∧ target = .destination ∧
          ∀ directory, s.directories (.backup random) = some directory → Complete directory.tree)
  | .deleteDirectory place => (∃ random, place = .staging random ∨ place = .backup random) ∧
      ∀ random, s.owner random = some i → place = .backup random → Settled random s
  | _ => True

/-- Time does no harm. -/
theorem Sound.tick (h : Sound s) : Sound s.tick :=
  ⟨h.injective, fun n hn => h.fresh n (Nat.lt_of_succ_lt hn), h.complete, h.aside⟩

/-- A place beside the destination may be written to unless it is the only copy. -/
theorem Sound.place {place : Place} {found : Option Directory} (h : Sound s)
    (hbeside : ∃ random, place = .staging random ∨ place = .backup random)
    (hused : s.directories place ≠ none ∨ ∃ i, s.Owns i place) (hcopy : ¬s.OnlyCopy place) :
    Sound (s.place place found) := by
  have hdestination : (s.place place found).directories .destination = s.directories .destination := by
    have hne : Place.destination ≠ place := by
      obtain ⟨random, rfl | rfl⟩ := hbeside <;> simp
    exact Function.update_of_ne hne _ _
  have hplace : ∀ n, s.performed < n → place ≠ .staging (s.random n) ∧ place ≠ .backup (s.random n) := by
    intro n hn
    obtain ⟨howner, hstaging, hbackup⟩ := h.fresh n hn
    constructor
    · rintro rfl
      rcases hused with hused | ⟨i, random, hrandom, heq | heq⟩
      · exact hused hstaging
      · cases heq
        rw [howner] at hrandom
        cases hrandom
      · cases heq
    · rintro rfl
      rcases hused with hused | ⟨i, random, hrandom, heq | heq⟩
      · exact hused hbackup
      · cases heq
      · cases heq
        rw [howner] at hrandom
        cases hrandom
  refine ⟨h.injective, fun n hn => ?_, fun directory hfound => ?_, fun hpublished hnone => ?_⟩
  · obtain ⟨howner, hstaging, hbackup⟩ := h.fresh n hn
    refine ⟨howner, ?_, ?_⟩
    · exact (Function.update_of_ne (hplace n hn).1.symm _ _).trans hstaging
    · exact (Function.update_of_ne (hplace n hn).2.symm _ _).trans hbackup
  · rw [hdestination] at hfound
    exact h.complete directory hfound
  · rw [hdestination] at hnone
    obtain ⟨random, directory, hmoved, hbackup, hcomplete⟩ := h.aside hpublished hnone
    refine ⟨random, directory, hmoved, ?_, hcomplete⟩
    have hne : Place.backup random ≠ place := fun heq =>
      hcopy ⟨hnone, random, directory, hmoved, heq.symm⟩
    exact (Function.update_of_ne hne _ _).trans hbackup

/-- A move a run is permitted keeps the directories sound. -/
theorem Sound.shift {from' target : Place} {directory : Directory} (h : Sound s)
    (hdirectory : s.directories from' = some directory)
    (hpermitted : Permitted i s (.moveDirectory from' target)) :
    Sound (s.shift from' target directory) := by
  obtain ⟨random, howner, hmove⟩ := hpermitted
  have hunused : ∀ n, s.performed < n → s.random n ≠ random := by
    rintro n hn rfl
    rw [(h.fresh n hn).1] at howner
    cases howner
  rcases hmove with ⟨rfl, rfl, hcomplete⟩ | ⟨rfl, rfl⟩ | ⟨rfl, rfl, hcomplete⟩
  · -- The staged build is published.
    refine ⟨h.injective, fun n hn => ?_, fun found hfound => ?_, fun _ hnone => ?_⟩
    · simpa [Disk.shift, Disk.place, hunused n hn] using h.fresh n hn
    · have hsame : directory = found := by simpa [Disk.shift, Disk.place] using hfound
      rw [← hsame]
      exact hcomplete directory hdirectory
    · simp [Disk.shift, Disk.place] at hnone
  · -- The published build is moved aside.
    refine ⟨h.injective, fun n hn => ?_, fun found hfound => ?_, fun _ hnone => ?_⟩
    · simpa [Disk.shift, Disk.place, hunused n hn] using h.fresh n hn
    · simp [Disk.shift, Disk.place] at hfound
    · exact ⟨random, directory, rfl, by simp [Disk.shift, Disk.place],
        h.complete directory hdirectory⟩
  · -- The build is moved back.
    refine ⟨h.injective, fun n hn => ?_, fun found hfound => ?_, fun _ hnone => ?_⟩
    · simpa [Disk.shift, Disk.place, hunused n hn] using h.fresh n hn
    · have hsame : directory = found := by simpa [Disk.shift, Disk.place] using hfound
      rw [← hsame]
      exact hcomplete directory hdirectory
    · simp [Disk.shift, Disk.place] at hnone

/-- Nor does a new name. -/
theorem Sound.draw (h : Sound s.tick) : Sound (s.tick.draw i) := by
  refine ⟨h.injective, fun n hn => ?_, h.complete, h.aside⟩
  have hne : s.random n ≠ s.random (s.performed + 1) := fun heq =>
    (Nat.ne_of_gt hn) (h.injective heq)
  obtain ⟨howner, hplaces⟩ := h.fresh n hn
  exact ⟨(Function.update_of_ne hne _ _).trans howner, hplaces⟩

/-- **A careful operation that a run is permitted keeps the directories sound.** -/
theorem Sound.execRun (h : Sound s) (hpermitted : Permitted i s o)
    (hcareful : ∀ place, o = .deleteDirectory place → ¬s.Owns i place → ¬s.OnlyCopy place) :
    Sound (execRun sha256 isVcs i o s).2 := by
  have heffect := @effect_execRun Pid sha256 isVcs i o s
  generalize (AssetsPublisher.execRun sha256 isVcs i o s).2 = s' at heffect ⊢
  cases heffect with
  | stays => exact h.tick
  | draws => exact h.tick.draw
  | @writes directory target found =>
      obtain ⟨random, howner, rfl⟩ := hpermitted
      apply h.tick.place ⟨random, Or.inl rfl⟩ (Or.inr ⟨i, random, howner, Or.inl rfl⟩)
      rintro ⟨-, _, _, -, heq⟩
      cases heq
  | shifts hdirectory => exact h.tick.shift hdirectory hpermitted
  | @deletes place found hfound =>
      apply h.tick.place hpermitted.1 (Or.inl hfound)
      by_cases hown : s.Owns i place
      · -- Its own backup is settled.
        rintro ⟨hnone, random, directory, hmoved, rfl⟩
        obtain ⟨random', howner, heq | heq⟩ := hown
        · cases heq
        · cases heq
          exact hpermitted.2 random howner rfl directory hmoved hnone
      · exact hcareful place rfl hown

/-- What a run leaves alone of another. -/
theorem Respects.execRun (hs : Sound s) (hne : j ≠ i) (hpermitted : Permitted i s o)
    (hothers : ∀ place, o = .deleteDirectory place → ¬s.Owns i place → ¬s.Owns j place) :
    Respects j s (execRun sha256 isVcs i o s).2 := by
  -- names are drawn fresh, so two runs never own the same
  have hnames : ∀ {random random' : String}, s.owner random = some i → s.owner random' = some j →
      random' ≠ random := by
    rintro random _ hrandom hrandom' rfl
    rw [hrandom, Option.some.injEq] at hrandom'
    exact hne hrandom'.symm
  have hplace : ∀ {place : Place} {found : Option Directory},
      (∃ random, place = .staging random ∨ place = .backup random) → ¬s.Owns j place →
        Respects j s (s.tick.place place found) := by
    intro place found hbeside hnot
    refine ⟨fun _ => Iff.rfl, fun random howner => ?_, fun random howner => ?_,
      fun random howner hsettled directory hmoved => ?_⟩
    · exact Function.update_of_ne (fun heq => hnot ⟨random, howner, Or.inl heq.symm⟩) _ _
    · exact Function.update_of_ne (fun heq => hnot ⟨random, howner, Or.inr heq.symm⟩) _ _
    · have hdestination : Place.destination ≠ place := by
        obtain ⟨_, rfl | rfl⟩ := hbeside <;> simp
      show Function.update s.directories place found .destination ≠ none
      rw [Function.update_of_ne hdestination]
      exact hsettled directory hmoved
  have heffect := @effect_execRun Pid sha256 isVcs i o s
  generalize (AssetsPublisher.execRun sha256 isVcs i o s).2 = s' at heffect ⊢
  -- one case for each way in which an operation changes the directories
  cases heffect with
  | stays => exact ⟨fun _ => Iff.rfl, fun _ _ => rfl, fun _ _ => rfl, fun _ _ h => h⟩
  | draws =>
      have hfresh := (hs.fresh (s.performed + 1) (Nat.lt_succ_self _)).1
      refine ⟨fun random => ?_, fun _ _ => rfl, fun _ _ => rfl, fun _ _ h => h⟩
      show Function.update s.owner (s.random (s.performed + 1)) (some i) random = some j ↔ _
      by_cases heq : random = s.random (s.performed + 1)
      · subst heq
        simp [hfresh, Ne.symm hne]
      · rw [Function.update_of_ne heq]
  | @writes directory target found =>
      obtain ⟨random, howner, rfl⟩ := hpermitted
      apply hplace ⟨random, Or.inl rfl⟩
      rintro ⟨random', howner', heq | heq⟩
      · cases heq
        exact hnames howner howner' rfl
      · cases heq
  | @shifts from' target directory hdirectory =>
      obtain ⟨random, howner, hmove⟩ := hpermitted
      -- the previous build aside, the staged one into its place, or the previous one back
      rcases hmove with ⟨rfl, rfl, -⟩ | ⟨rfl, rfl⟩ | ⟨rfl, rfl, -⟩
      · refine ⟨fun _ => Iff.rfl, fun random' howner' => ?_, fun random' howner' => ?_,
          fun random' howner' hsettled found hmoved => ?_⟩
        · simp [Disk.shift, Disk.place, Disk.tick, hnames howner howner']
        · simp [Disk.shift, Disk.place, Disk.tick]
        · simp [Disk.shift, Disk.place]
      · refine ⟨fun _ => Iff.rfl, fun random' howner' => ?_, fun random' howner' => ?_,
          fun random' howner' hsettled found hmoved => ?_⟩
        · simp [Disk.shift, Disk.place, Disk.tick]
        · simp [Disk.shift, Disk.place, Disk.tick, hnames howner howner']
        · -- Another name is that of the build moved away last.
          have heq : random = random' := (Prod.mk.inj (Option.some.inj hmoved)).1
          exact absurd heq.symm (hnames howner howner')
      · refine ⟨fun _ => Iff.rfl, fun random' howner' => ?_, fun random' howner' => ?_,
          fun random' howner' hsettled found hmoved => ?_⟩
        · simp [Disk.shift, Disk.place, Disk.tick]
        · simp [Disk.shift, Disk.place, Disk.tick, hnames howner howner']
        · simp [Disk.shift, Disk.place]
  | @deletes place found hfound =>
      apply hplace hpermitted.1
      by_cases hown : s.Owns i place
      · rintro ⟨random', howner', hplace'⟩
        obtain ⟨random, howner, hplace⟩ := hown
        have hrandom : random' = random := by
          rcases hplace with rfl | rfl <;> rcases hplace' with heq | heq <;> cases heq <;> rfl
        exact hnames howner howner' hrandom
      · exact hothers place rfl hown

end Steps

/-! ## What a run does -/

/-- What a run relies on, and what it is permitted. -/
def discipline (i : Pid) : Discipline Operation Empty (Disk Pid) where
  rely _ := Respects i
  assume _ _ := Sound
  ok _ o s := Permitted i s o
  rely_refl _ := Respects.refl
  rely_trans _ _ _ _ := Respects.trans

section Programs

variable {sha256 isVcs} {i : Pid} {o : Operation} {s : Disk Pid} {Φ : Disk Pid → Prop}
  {E : PublishFailure → Disk Pid → Prop}

/-- One operation, from an assertion the others leave alone. -/
theorem wp_request_run {Q : o.Answer → Disk Pid → Prop} (hΦ : ∀ s s', Respects i s s' → Φ s → Φ s')
    (hs : Φ s) (h : ∀ s, Φ s → Sound s → Permitted i s o ∧
      (∀ answer, (execRun sha256 isVcs i o s).1 = some answer → Q answer (execRun sha256 isVcs i o s).2) ∧
        E .thrown (execRun sha256 isVcs i o s).2) :
    wp (execRun sha256 isVcs i) (discipline i) (request o) Q E s := by
  apply wp_bind.mpr
  intro s' hrely hsound
  obtain ⟨hpermitted, hanswer, hthrown⟩ := h s' (hΦ s s' hrely hs) hsound
  refine ⟨hpermitted, ?_⟩
  rw [wp_ret]
  cases hresult : (execRun sha256 isVcs i o s').1 with
  | none => exact hthrown
  | some answer => exact hanswer answer hresult

/-- Reading is permitted. -/
theorem permitted_of_isRead (ho : o.IsRead) : Permitted i s o := by
  cases o with
  | copyDirectory directory target => exact absurd ho not_false
  | moveDirectory from' target => exact absurd ho not_false
  | deleteDirectory place => exact absurd ho not_false
  | _ => trivial

/-- Reading is permitted. -/
theorem wp_readOnly {α : Type} {p : AssetsProgram α} (h : ReadOnly p) :
    wp (execRun sha256 isVcs i) (discipline i) p (fun _ _ => True) (fun _ _ => True) s := by
  induction p generalizing s with
  | ret a => trivial
  | fail e => trivial
  | stopped => trivial
  | op ls o next ih => exact fun s' _ _ => ⟨permitted_of_isRead h.1, ih _ (h.2 _)⟩

/-- A program that looks at a directory of its own finds what is there. -/
theorem wp_looks {α : Type} {p : AssetsProgram α} {directory : Place} {tree : Tree}
    (hlooks : Looks directory p) (hΦ : ∀ s s', Respects i s s' → Φ s → Φ s')
    (htick : ∀ s, Φ s → Φ s.tick)
    (htree : ∀ s, Φ s → ∃ found, s.directories directory = some found ∧ found.tree = tree) (hs : Φ s) :
    wp (execRun sha256 isVcs i) (discipline i) p (fun a s => Φ s ∧ look tree p = some a) (fun _ s => Φ s)
      s := by
  induction p generalizing s with
  | ret a => exact ⟨hs, rfl⟩
  | fail e => exact hs
  | stopped => trivial
  | op ls o next ih =>
      obtain ⟨ho, ⟨e, he⟩, hnext⟩ := hlooks
      intro s' hrely _
      have hs' : Φ s' := hΦ s s' hrely hs
      obtain ⟨found, hfound, rfl⟩ := htree s' hs'
      have hlook : Permitted i s' o ∧ (execRun sha256 isVcs i o s').2 = s'.tick ∧
          ∀ answer, (execRun sha256 isVcs i o s').1 = some answer → seen found.tree o = some answer := by
        rcases ho with rfl | ⟨path, rfl⟩ | ⟨path, rfl⟩
        · refine ⟨trivial, rfl, fun answer hanswer => ?_⟩
          simpa [execRun, perform, Disk.tick, hfound, seen] using hanswer
        · refine ⟨trivial, rfl, fun answer hanswer => ?_⟩
          simpa [execRun, perform, Disk.tick, hfound, seen] using hanswer
        · refine ⟨trivial, rfl, fun answer hanswer => ?_⟩
          simp only [execRun, perform, Verdict.read, Disk.tick, hfound, Option.bind_some] at hanswer
          split_ifs at hanswer
          exact hanswer
      obtain ⟨hpermitted, hstore, hseen⟩ := hlook
      refine ⟨hpermitted, ?_⟩
      rw [hstore]
      cases hresult : (execRun sha256 isVcs i o s').1 with
      | none =>
          rw [he]
          exact htick s' hs'
      | some answer =>
          have hrest := ih (some answer) (hnext answer) (htick s' hs')
          have heq : look found.tree (.op ls o next) = look found.tree (next (some answer)) := by
            rw [look, hseen answer hresult]
          rw [heq]
          exact hrest

/-! ### The sweep -/

/-- A run that has drawn no name. -/
def Nameless (i : Pid) (s : Disk Pid) : Prop := ∀ random, s.owner random ≠ some i

/-- Others draw no name for a run. -/
theorem Nameless.respects {s' : Disk Pid} (hrespects : Respects i s s') (h : Nameless i s) :
    Nameless i s' := fun random howner => h random ((hrespects.owner random).mp howner)

/-- Only the drawing of a name gives one. -/
theorem Nameless.execRun (h : Nameless i s) (ho : o ≠ .random) :
    Nameless i (execRun sha256 isVcs i o s).2 := by
  have heffect := @effect_execRun Pid sha256 isVcs i o s
  generalize (AssetsPublisher.execRun sha256 isVcs i o s).2 = s' at heffect ⊢
  cases heffect with
  | draws => exact absurd rfl ho
  | _ => exact h

/-- An operation of a run that has drawn no name. -/
theorem wp_nameless (o : Operation) (hs : Nameless i s) (ho : o ≠ .random)
    (hpermitted : ∀ s, Nameless i s → Permitted i s o) {P : o.Answer → Prop}
    (hP : ∀ s answer, (execRun sha256 isVcs i o s).1 = some answer → P answer) :
    wp (execRun sha256 isVcs i) (discipline i) (request o) (fun answer s => Nameless i s ∧ P answer)
      (fun _ _ => True) s :=
  wp_request_run (fun _ _ => Nameless.respects) hs fun s hs _ =>
    ⟨hpermitted s hs, fun answer hanswer => ⟨hs.execRun ho, hP s answer hanswer⟩, trivial⟩

/-- A place beside the destination. -/
def Place.IsSibling (place : Place) : Prop :=
  ∃ random, place = .staging random ∨ place = .backup random

/-- `glob` finds stagings and backups only. -/
theorem isSibling_of_glob {backups : Bool} {places : List Place}
    (h : (execRun sha256 isVcs i (.glob backups) s).1 = some places) :
    ∀ place ∈ places, place.IsSibling := by
  have hplaces := Option.some.inj (Option.ite_none_right_eq_some.mp h).2
  subst hplaces
  intro place hplace
  have hkind := (List.mem_filter.mp hplace).2
  rw [Bool.and_eq_true] at hkind
  cases place with
  | source => cases backups <;> exact absurd hkind.1 (by decide)
  | destination => cases backups <;> exact absurd hkind.1 (by decide)
  | staging random => exact ⟨random, Or.inl rfl⟩
  | backup random => exact ⟨random, Or.inr rfl⟩

/-- The sweep draws no name. -/
theorem wp_removeIfAbandoned {before : ℤ} {place : Place} (hplace : place.IsSibling)
    (hs : Nameless i s) :
    wp (execRun sha256 isVcs i) (discipline i) (removeIfAbandoned before place)
      (fun _ s => Nameless i s) (fun _ _ => True) s := by
  apply wp_bind_of (wp_nameless (.isDirectory place) hs (by simp) (fun _ _ => trivial)
    (P := fun _ => True) fun _ _ _ => trivial)
  rintro found s ⟨hs, -⟩
  cases found with
  | false => exact hs
  | true =>
      apply wp_bind_of (wp_nameless (.lastModified place) hs (by simp) (fun _ _ => trivial)
        (P := fun _ => True) fun _ _ _ => trivial)
      rintro modified s ⟨hs, -⟩
      split_ifs
      · exact hs
      · apply wp_bind_of (wp_nameless (.deleteDirectory place) hs (by simp)
          (fun s hs => ⟨hplace, fun random howner => absurd howner (hs random)⟩)
          (P := fun _ => True) fun _ _ _ => trivial)
        rintro _ s ⟨hs, -⟩
        exact hs

/-- The sweep deletes nothing but stagings and backups. -/
theorem wp_removeAbandonedStagingDirectories (hs : Nameless i s) :
    wp (execRun sha256 isVcs i) (discipline i) removeAbandonedStagingDirectories
      (fun _ s => Nameless i s) (fun _ _ => True) s := by
  apply wp_bind_of (wp_nameless .time hs (by simp) (fun _ _ => trivial)
    (P := fun _ => True) fun _ _ _ => trivial)
  rintro now s ⟨hs, -⟩
  apply wp_forEach (I := fun _ s => Nameless i s) _ hs
  intro backups _ s hs
  apply wp_bind_of (wp_nameless (.glob backups) hs (by simp) (fun _ _ => trivial)
    fun _ _ => isSibling_of_glob)
  rintro places s ⟨hs, hplaces⟩
  refine wp_mono (fun _ _ h => And.left h) (fun _ _ h => h) (wp_forEach
    (I := fun places s => Nameless i s ∧ ∀ place ∈ places, place.IsSibling) ?_ ⟨hs, hplaces⟩)
  rintro place places s ⟨hs, hplaces⟩
  apply wp_mono _ (fun _ _ h => h) (wp_removeIfAbandoned (hplaces place List.mem_cons_self) hs)
  exact fun _ s hs => ⟨hs, fun place hplace => hplaces place (List.mem_cons_of_mem _ hplace)⟩

/-! ### The replacement -/

/-- What a run knows of its staging: it has drawn the name, and what is there is a complete build. -/
structure Ready (i : Pid) (r : String) (s : Disk Pid) : Prop where
  owner : s.owner r = some i
  complete : ∀ directory, s.directories (.staging r) = some directory → Complete directory.tree

/-- Others leave a staging as it is. -/
theorem Ready.respects {r : String} {s' : Disk Pid} (hrespects : Respects i s s') (h : Ready i r s) :
    Ready i r s' where
  owner := (hrespects.owner r).mpr h.owner
  complete directory hdirectory :=
    h.complete directory ((hrespects.staging r h.owner).symm.trans hdirectory)

/-- So does time. -/
theorem Ready.tick {r : String} (h : Ready i r s) : Ready i r s.tick := ⟨h.owner, h.complete⟩

/-- So does the drawing of another name. -/
theorem Ready.draw {r : String} (h : Ready i r s) : Ready i r (s.draw i) where
  owner := by
    by_cases hr : r = s.random s.performed
    · rw [hr]
      exact Function.update_self _ _ _
    · exact (Function.update_of_ne hr _ _).trans h.owner
  complete := h.complete

/-- Moving the destination aside leaves the staging as it is. -/
theorem Ready.aside {r b : String} (h : Ready i r s) :
    Ready i r (execRun sha256 isVcs i (.moveDirectory .destination (.backup b)) s).2 := by
  have heffect := @effect_execRun Pid sha256 isVcs i (.moveDirectory .destination (.backup b)) s
  generalize (execRun sha256 isVcs i (.moveDirectory .destination (.backup b)) s).2 = s' at heffect ⊢
  cases heffect with
  | stays => exact h.tick
  | shifts hdirectory =>
      refine ⟨h.owner, fun directory hfound => h.complete directory ?_⟩
      simpa [Disk.shift, Disk.place, Disk.tick] using hfound

/-- What a run knows of its backup: it has drawn the name, and what is there is a complete build. -/
structure Aside (i : Pid) (b : String) (s : Disk Pid) : Prop where
  owner : s.owner b = some i
  complete : ∀ directory, s.directories (.backup b) = some directory → Complete directory.tree

/-- Others leave a backup as it is. -/
theorem Aside.respects {b : String} {s' : Disk Pid} (hrespects : Respects i s s') (h : Aside i b s) :
    Aside i b s' where
  owner := (hrespects.owner b).mpr h.owner
  complete directory hdirectory :=
    h.complete directory ((hrespects.backup b h.owner).symm.trans hdirectory)

/-- Moving the staging leaves the backup as it is. -/
theorem Aside.publish {r b : String} (h : Aside i b s) :
    Aside i b (execRun sha256 isVcs i (.moveDirectory (.staging r) .destination) s).2 := by
  have heffect := @effect_execRun Pid sha256 isVcs i (.moveDirectory (.staging r) .destination) s
  generalize (execRun sha256 isVcs i (.moveDirectory (.staging r) .destination) s).2 = s' at heffect ⊢
  cases heffect with
  | stays => exact ⟨h.owner, h.complete⟩
  | shifts hdirectory =>
      refine ⟨h.owner, fun directory hfound => h.complete directory ?_⟩
      simpa [Disk.shift, Disk.place, Disk.tick] using hfound

/-- What has been moved aside is the complete build the destination held. -/
theorem aside_of_moved {b : String} (hsound : Sound s) (howner : s.owner b = some i)
    (hmoved : (execRun sha256 isVcs i (.moveDirectory .destination (.backup b)) s).1 = some true) :
    Aside i b (execRun sha256 isVcs i (.moveDirectory .destination (.backup b)) s).2 := by
  have hmove : ∀ {s : Disk Pid} {verdict : Verdict}, Sound s → s.owner b = some i →
      (s.move verdict .destination (.backup b)).1 = some true →
        Aside i b (s.move verdict .destination (.backup b)).2 := by
    intro s verdict hsound howner hmoved
    unfold Disk.move at hmoved ⊢
    split at hmoved
    · rename_i directory hdirectory
      split_ifs at hmoved with hempty
      · rw [if_pos hempty]
        refine ⟨howner, fun found hfound => ?_⟩
        have hsame : directory = found := by simpa [Disk.shift, Disk.place] using hfound
        rw [← hsame]
        exact hsound.complete _ hdirectory
      · cases hmoved
    · cases hmoved
  exact hmove hsound.tick howner hmoved

/-- An operation draws no name but by `random`. -/
theorem owner_execRun (ho : o ≠ .random) : (execRun sha256 isVcs i o s).2.owner = s.owner := by
  have heffect := @effect_execRun Pid sha256 isVcs i o s
  generalize (execRun sha256 isVcs i o s).2 = s' at heffect ⊢
  cases heffect with
  | draws => exact absurd rfl ho
  | _ => rfl

/-- A move that has come about has left a directory. -/
theorem directories_of_moved {from' target : Place}
    (h : (execRun sha256 isVcs i (.moveDirectory from' target) s).1 = some true) :
    (execRun sha256 isVcs i (.moveDirectory from' target) s).2.directories target ≠ none := by
  have hmove : ∀ {s : Disk Pid} {verdict : Verdict}, (s.move verdict from' target).1 = some true →
      (s.move verdict from' target).2.directories target ≠ none := by
    intro s verdict hmoved
    unfold Disk.move at hmoved ⊢
    split at hmoved
    · split_ifs at hmoved with hempty
      · simp [hempty, Disk.shift, Disk.place]
      · cases hmoved
    · cases hmoved
  exact hmove h

/-- A copy that has come about has left a directory. -/
theorem directories_of_copied {directory target : Place}
    (h : (execRun sha256 isVcs i (.copyDirectory directory target) s).1 = some true) :
    (execRun sha256 isVcs i (.copyDirectory directory target) s).2.directories target ≠ none := by
  have hcopy : ∀ {s : Disk Pid} {verdict : Verdict},
      (s.copy verdict directory target).1 = some true →
        (s.copy verdict directory target).2.directories target ≠ none := by
    intro s verdict hcopied
    unfold Disk.copy at hcopied ⊢
    split at hcopied
    · cases hcopied
    · simp [Disk.place]
    · cases hcopied
    · cases hcopied
  exact hcopy h

/-- **The replacement** does what is permitted. -/
theorem wp_replacePublishedDirectory {r : String} (hs : Ready i r s) :
    wp (execRun sha256 isVcs i) (discipline i) (replacePublishedDirectory (.staging r)) (fun _ _ => True)
      (fun _ _ => True) s := by
  have hready : ∀ s s', Respects i s s' → Ready i r s → Ready i r s' := fun _ _ => Ready.respects
  have hpublish : ∀ {s : Disk Pid}, Ready i r s →
      Permitted i s (.moveDirectory (.staging r) .destination) := fun hs =>
    ⟨r, hs.owner, Or.inl ⟨rfl, rfl, hs.complete⟩⟩
  apply wp_bind_of (Q := fun _ s => Ready i r s)
    (wp_request_run (o := .isDirectory .destination) hready hs fun s hs _ =>
      ⟨trivial, fun _ _ => hs.tick, trivial⟩)
  intro found s hs
  cases found with
  | false =>
      apply wp_bind_of (Q := fun _ _ => True)
        (wp_request_run hready hs fun s hs _ => ⟨hpublish hs, fun _ _ => trivial, trivial⟩)
      intro published _ _
      cases published <;> trivial
  | true =>
      -- The name of the backup.
      apply wp_bind_of (Q := fun b s => Ready i r s ∧ s.owner b = some i)
      · apply wp_request_run hready hs
        refine fun s hs _ => ⟨trivial, fun b hb => ⟨hs.tick.draw, ?_⟩, trivial⟩
        cases hb
        exact Function.update_self _ _ _
      rintro b s hs
      have hboth : ∀ s s', Respects i s s' → Ready i r s ∧ s.owner b = some i →
          Ready i r s' ∧ s'.owner b = some i :=
        fun s s' hrespects h => ⟨hready s s' hrespects h.1, (hrespects.owner b).mpr h.2⟩
      -- The destination is moved aside.
      apply wp_bind_of (Q := fun moved s => Ready i r s ∧ (moved = true → Aside i b s))
      · apply wp_request_run hboth hs
        refine fun s hs hsound => ⟨⟨b, hs.2, Or.inr (Or.inl ⟨rfl, rfl⟩)⟩,
          fun moved hmoved => ⟨hs.1.aside, ?_⟩, trivial⟩
        rintro rfl
        exact aside_of_moved hsound hs.2 hmoved
      rintro moved s ⟨hs, hmoved⟩
      cases moved with
      | false => trivial
      | true =>
          -- The staging is moved to the destination, and the backup is settled.
          have haside := hmoved rfl
          apply wp_bind_of (Q := fun published s => Aside i b s ∧ (published = true → Settled b s))
          · apply wp_request_run (Φ := fun s => Ready i r s ∧ Aside i b s) _ ⟨hs, haside⟩
            · refine fun s hs _ => ⟨hpublish hs.1, fun published hpublished => ⟨hs.2.publish, ?_⟩, trivial⟩
              rintro rfl directory -
              exact directories_of_moved hpublished
            · exact fun s s' hrespects h => ⟨hready s s' hrespects h.1, h.2.respects hrespects⟩
          rintro published s ⟨haside, hsettled⟩
          cases published with
          | true =>
              apply wp_bind_of (Q := fun _ _ => True)
              · apply wp_request_run (Φ := fun s => Aside i b s ∧ Settled b s) _
                  ⟨haside, hsettled rfl⟩
                · rintro s ⟨-, hsettled⟩ _
                  refine ⟨⟨⟨b, Or.inr rfl⟩, fun random _ heq => ?_⟩, fun _ _ => trivial, trivial⟩
                  cases heq
                  exact hsettled
                · exact fun s s' hrespects h =>
                    ⟨h.1.respects hrespects, hrespects.settled b h.1.owner h.2⟩
              exact fun _ _ _ => trivial
          | false =>
              apply wp_bind_of (Q := fun _ _ => True)
              · apply wp_request_run (fun _ _ hrespects h => Aside.respects hrespects h) haside
                exact fun s haside _ => ⟨⟨b, haside.owner, Or.inr (Or.inr ⟨rfl, rfl, haside.complete⟩)⟩,
                  fun _ _ => trivial, trivial⟩
              intro restored _ _
              cases restored <;> trivial

/-! ### A run -/

/-- The staged build is checked before it is published. -/
theorem wp_stage {r : String} (hs : s.owner r = some i) :
    wp (execRun sha256 isVcs i) (discipline i) (stage (.staging r)) (fun _ _ => True) (fun _ _ => True)
      s := by
  have howned : ∀ s s', Respects i s s' → s.owner r = some i → s'.owner r = some i :=
    fun s s' hrespects => (hrespects.owner r).mpr
  apply wp_bind_of (Q := fun copied s => s.owner r = some i ∧
    (copied = true → ∃ found, s.directories (.staging r) = some found))
  · apply wp_request_run howned hs
    refine fun s howner _ => ⟨⟨r, howner, rfl⟩, fun copied hcopied => ⟨?_, ?_⟩, trivial⟩
    · rw [owner_execRun (by simp)]
      exact howner
    · rintro rfl
      exact Option.ne_none_iff_exists'.mp (directories_of_copied hcopied)
  rintro copied s ⟨howner, hcopied⟩
  cases copied with
  | false => trivial
  | true =>
      obtain ⟨found, hfound⟩ := hcopied rfl
      let Φ : Disk Pid → Prop := fun s => s.owner r = some i ∧
        ∃ directory, s.directories (.staging r) = some directory ∧ directory.tree = found.tree
      have hΦ : ∀ s s', Respects i s s' → Φ s → Φ s' := by
        rintro s s' hrespects ⟨howner, directory, hdirectory, htree⟩
        exact ⟨howned s s' hrespects howner, directory,
          (hrespects.staging r howner).trans hdirectory, htree⟩
      apply wp_bind_of (wp_mono (fun _ _ h => h) (fun _ _ _ => trivial)
        (wp_looks (Φ := Φ) Looks.hasCompletePublishedAssets hΦ (fun _ h => h) (fun _ h => h.2)
          ⟨howner, found, hfound, rfl⟩))
      rintro complete s ⟨⟨howner, directory, hdirectory, htree⟩, hlook⟩
      cases complete with
      | false => trivial
      | true =>
          apply wp_replacePublishedDirectory
          refine ⟨howner, fun directory' hdirectory' => ?_⟩
          rw [hdirectory, Option.some.injEq] at hdirectory'
          rw [← hdirectory', htree]
          exact ⟨_, hlook⟩

/-- The clean-up deletes a staging. -/
theorem wp_removeStaging (r : String) :
    wp (execRun sha256 isVcs i) (discipline i) (removeStaging (.staging r)) (fun _ _ => True)
      (fun _ _ => True) s := by
  apply wp_bind_of (Q := fun _ _ => True)
  · apply wp_request_run (Φ := fun _ => True) (fun _ _ _ h => h) trivial
    exact fun _ _ _ => ⟨trivial, fun _ _ => trivial, trivial⟩
  intro found s _
  cases found with
  | false => trivial
  | true =>
      apply wp_bind_of (Q := fun _ _ => True)
      · apply wp_request_run (Φ := fun _ => True) (fun _ _ _ h => h) trivial
        exact fun _ _ _ => ⟨⟨⟨r, Or.inl rfl⟩, nofun⟩, fun _ _ => trivial, trivial⟩
      exact fun _ _ _ => trivial

/-- The comparison only reads. -/
theorem readOnly_hasExactPublishedAssets (ksort : KeySort) :
    ReadOnly (hasExactPublishedAssets ksort) := by
  have hmap : ∀ directory, ReadOnly (relativeFileMap directory) := fun directory =>
    (ReadOnly.request (o := .allFiles directory) trivial).bind fun _ => trivial
  have hmatch : ∀ sourcePath destinationPath,
      ReadOnly (publishedFilesMatch sourcePath destinationPath) := by
    intro sourcePath destinationPath
    apply (ReadOnly.request (o := .isFile .destination destinationPath) trivial).bind
    intro found
    cases found with
    | false => trivial
    | true =>
        apply (ReadOnly.request (o := .hash .source sourcePath) trivial).bind
        exact fun _ =>
          (ReadOnly.request (o := .hash .destination destinationPath) trivial).bind fun _ => trivial
  have hloop : ∀ (keys : List String) (body : String → AssetsProgram (Option Unit)),
      (∀ key, ReadOnly (body key)) → ReadOnly (Prog.firstSome keys body) := by
    intro keys body hbody
    induction keys with
    | nil => trivial
    | cons key keys ih =>
        apply (hbody key).bind
        intro r
        cases r with
        | none => exact ih
        | some _ => trivial
  apply (readOnly_hasCompletePublishedAssets .destination).bind
  intro complete
  cases complete with
  | false => trivial
  | true =>
      apply (hmap .source).bind
      intro sourceFiles
      apply (hmap .destination).bind
      intro destinationFiles
      split_ifs
      · trivial
      · refine ReadOnly.bind (hloop _ _ fun key => (hmatch _ _).bind fun same => ?_) fun _ => trivial
        cases same <;> trivial

/-- **A run** does what is permitted. -/
theorem wp_publish (ksort : KeySort) (force : Bool) (hs : Nameless i s) :
    wp (execRun sha256 isVcs i) (discipline i) (publish ksort force) (fun _ _ => True) (fun _ _ => True)
      s := by
  apply wp_bind_of (wp_nameless .ensureDirectoryExists hs (by simp) (fun _ _ => trivial)
    (P := fun _ => True) fun _ _ _ => trivial)
  rintro _ s ⟨hs, -⟩
  apply wp_bind_of (wp_removeAbandonedStagingDirectories hs)
  intro _ s _
  apply wp_bind_of (Q := fun _ _ => True)
  · split_ifs
    · trivial
    · exact wp_readOnly (readOnly_hasExactPublishedAssets ksort)
  intro unchanged s _
  split_ifs
  · trivial
  · apply wp_bind_of (Q := fun r s => s.owner r = some i)
    · apply wp_request_run (Φ := fun _ => True) (fun _ _ _ h => h) trivial
      refine fun s _ _ => ⟨trivial, fun r hr => ?_, trivial⟩
      cases hr
      exact Function.update_self _ _ _
    intro r s howner
    apply wp_tryFinally_of (Q := fun _ _ => True) (E := fun _ _ => True) (wp_stage howner)
    · exact fun _ _ _ => wp_removeStaging r
    · exact fun _ _ _ => wp_removeStaging r

end Programs

/-! ## Runs beside each other -/

variable {sha256 : String → String} {isVcs : String → Bool} {c d : Runs Pid}

/-- What holds of the processes and the directories at any time. -/
def Keeping (sha256 : String → String) (isVcs : String → Bool) (c : Runs Pid) : Prop :=
  Sound c.store ∧ c.Good (execRun sha256 isVcs) discipline

/-- The invariant holds before the runs begin. -/
theorem Begins.keeping (h : Begins c) : Keeping sha256 isVcs c := by
  constructor
  · exact ⟨h.injective, fun n _ => ⟨h.owner _, h.fresh n⟩, h.complete,
      fun hpublished hnone => absurd hnone (h.published hpublished)⟩
  · intro i
    rcases h.program i with hstopped | ⟨ksort, force, hpublish⟩
    · rw [hstopped]
      trivial
    · rw [hpublish]
      apply wp_publish
      intro random howner
      rw [h.owner random] at howner
      cases howner

variable [DecidableEq Pid]

/-- A careful step keeps everything in order. -/
theorem Keeping.step {e : Event Pid} {c' : Runs Pid} (h : Keeping sha256 isVcs c)
    (hstep : Step (execRun sha256 isVcs) (fun _ _ => False) c e c') (hcareful : Careful c e c') :
    Keeping sha256 isVcs c' := by
  obtain ⟨hsound, hgood⟩ := h
  have hassume : ∀ i ls o next, e = .run i → c.prog i = .op ls o next →
      (discipline i).assume ls o c.store := fun _ _ _ _ _ _ => hsound
  cases hstep with
  | @run i ls o next hi =>
      have hrun := @Step.run _ _ _ _ _ _ _ _ (execRun sha256 isVcs) (fun _ _ => False) c i ls o next hi
      have hpermitted : Permitted i c.store o := hgood.ok hi hsound
      have hdelete : ∀ place, o = .deleteDirectory place → ¬c.store.Owns i place →
          (∀ j, Alive c j → ¬c.store.Owns j place) ∧ ¬c.store.OnlyCopy place := by
        rintro place rfl hnot
        exact hcareful i ls place next rfl hi hnot
      constructor
      · exact hsound.execRun hpermitted fun place ho hnot => (hdelete place ho hnot).2
      · refine hgood.step hrun hassume fun j ls' o' next' hne hj => ?_
        apply Respects.execRun hsound (fun hij => hne (by rw [hij])) hpermitted
        exact fun place ho hnot => (hdelete place ho hnot).1 j ⟨ls', o', next', hj⟩
  | @crash i =>
      have hcrash := @Step.crash _ _ _ _ _ _ _ _ (execRun sha256 isVcs) (fun _ _ => False) c i
      exact ⟨hsound, hgood.step hcrash hassume fun j _ _ _ _ _ => Respects.refl c.store⟩
  | world hworld => exact hworld.elim

/-- **The build is kept.** Whatever runs are beside each other, wherever their processes die and
whichever of their operations fail: after every careful run the destination holds a complete build once
one has been published, or the build that was moved away last is still there. -/
theorem kept_of_careful (hstart : Begins c)
    (h : Reaches (execRun sha256 isVcs) (fun _ _ => False) Careful c d)
    (hpublished : d.store.published = true) : Kept d.store :=
  (h.invariant (fun _ _ _ hkeeping hstep hcareful => hkeeping.step hstep hcareful)
    hstart.keeping).1.kept hpublished

/-- A process performs its next operation. -/
def advance (sha256 : String → String) (isVcs : String → Bool) (c : Runs Pid) (i : Pid) : Runs Pid :=
  match c.prog i with
  | .op _ o next =>
      ⟨Function.update c.prog i (next (execRun sha256 isVcs i o c.store).1),
        (execRun sha256 isVcs i o c.store).2⟩
  | _ => c

/-- Whether the next operation of a process is no deletion. -/
def Spares (c : Runs Pid) (i : Pid) : Bool :=
  match c.prog i with
  | .op _ (.deleteDirectory _) _ => false
  | _ => true

/-- Whether a schedule gets by without deletions. -/
def SparesAll (sha256 : String → String) (isVcs : String → Bool) : List Pid → Runs Pid → Bool
  | [], _ => true
  | i :: schedule, c => Spares c i && SparesAll sha256 isVcs schedule (advance sha256 isVcs c i)

/-- An operation that deletes nothing is careful. -/
theorem reaches_advance {i : Pid} (h : Spares c i = true) :
    Reaches (execRun sha256 isVcs) (fun _ _ => False) Careful c (advance sha256 isVcs c i) := by
  unfold advance
  cases hi : c.prog i with
  | op ls o next =>
      apply (Reaches.refl c).step (Step.run hi)
      rintro j ls' place next' ⟨⟩ ho
      rw [Spares, ho] at h
      cases h
  | _ => exact Reaches.refl c

/-- So are those of a whole schedule. -/
theorem reaches_schedule {schedule : List Pid} (h : SparesAll sha256 isVcs schedule c = true) :
    Reaches (execRun sha256 isVcs) (fun _ _ => False) Careful c
      (schedule.foldl (advance sha256 isVcs) c) := by
  induction schedule generalizing c with
  | nil => exact Reaches.refl c
  | cons i schedule ih =>
      rw [SparesAll, Bool.and_eq_true] at h
      exact (reaches_advance h.1).trans (ih h.2)

/-- A process that a schedule passes over stays where it is. -/
theorem prog_schedule {schedule : List Pid} {i : Pid} (h : i ∉ schedule) :
    (schedule.foldl (advance sha256 isVcs) c).prog i = c.prog i := by
  induction schedule generalizing c with
  | nil => rfl
  | cons j schedule ih =>
      rw [List.mem_cons, not_or] at h
      rw [List.foldl_cons, ih h.2]
      unfold advance
      cases c.prog j with
      | op ls o next => exact Function.update_of_ne h.1 _ _
      | _ => rfl

/-- A build that has been published a while ago and is to be published again. -/
def publishedDisk : Disk ℕ where
  directories place :=
    if place = .source ∨ place = .destination then some ⟨smallBuild, 1699999000⟩ else none
  listed := []
  clock _ := 1700000000
  random n := String.ofList (List.replicate n 'a')
  verdict _ := .succeeds
  performed := 0
  owner _ := none
  published := true
  moved := none

/-- Runs beside it. -/
def publishing : Runs ℕ := ⟨fun _ => publish id true, publishedDisk⟩

/-- They may begin. -/
theorem begins_publishing : Begins publishing where
  program _ := Or.inr ⟨id, true, rfl⟩
  injective n m h := by
    have hlength := congrArg (fun name => name.toList.length) h
    simpa [publishing, publishedDisk] using hlength
  fresh n := ⟨rfl, rfl⟩
  owner _ := rfl
  complete directory hdirectory := by
    have hsame : (⟨smallBuild, 1699999000⟩ : Directory) = directory := Option.some.inj hdirectory
    rw [← hsame]
    exact complete_smallBuild
  published _ := Option.some_ne_none _

/-- A run up to the moment when the published build has been moved aside and the new one is not there. -/
def movedAside : Runs ℕ := (List.replicate 13 0).foldl (advance id fun _ => false) publishing

/-- The process of that run dies, and another run goes through its sweep. -/
def sweptBeside : Runs ℕ :=
  (List.replicate 8 1).foldl (advance id fun _ => false)
    ⟨Function.update movedAside.prog 0 .stopped, movedAside.store⟩

set_option maxRecDepth 100000 in
/-- The build is kept when a run has died between its two moves, and another has begun with a sweep. -/
theorem kept_of_careful_died :
    Reaches (execRun id fun _ => false) (fun _ _ => False) Careful publishing sweptBeside ∧
      sweptBeside.prog 0 = .stopped ∧ sweptBeside.store.directories .destination = none ∧
        Kept sweptBeside.store := by
  have hmoved : Reaches (execRun id fun _ => false) (fun _ _ => False) Careful publishing movedAside :=
    reaches_schedule (by decide +kernel)
  have hdied := hmoved.step (e := .crash 0) .crash nofun
  have hswept : Reaches (execRun id fun _ => false) (fun _ _ => False) Careful publishing sweptBeside :=
    hdied.trans (reaches_schedule (by decide +kernel))
  have habsent : (sweptBeside.store.directories .destination).isNone = true := by decide +kernel
  have hstopped : sweptBeside.prog 0 = .stopped := by
    have hpassed : (0 : ℕ) ∉ List.replicate 8 1 := by decide
    unfold sweptBeside
    rw [prog_schedule hpassed]
    simp only [Function.update_self]
  exact ⟨hswept, hstopped, Option.isNone_iff_eq_none.mp habsent,
    kept_of_careful begins_publishing hswept (by decide +kernel)⟩

end AssetsPublisher

end HorizonNewDawn

import HorizonNewDawn.Jobs.RetainedJobIndex.Reading
import HorizonNewDawn.Program.Evaluation

/-! # The retained-job index: running alone

What the basic programs of the index come to over a store nobody else changes and a connection that
does not fail. Such a program may use temporary keys: `Scratches` says that a store differs from the
one the program was started in at most in temporary keys its process has drawn since. -/

namespace HorizonNewDawn

open Program

namespace RetainedJobIndex

variable {scan : ScanOrder} {i : ProcessId} {s : Store} {k : SortedSetKey}

/-- A command that does not fail answers and has its effect. -/
theorem eval_command (hs : s.failing = false) (c : Command) :
    (command c).eval (exec scan i) s = (.returned (c.answer scan i s), c.effect i s) := by
  rw [command, Prog.eval_op]
  simp only [exec, hs, Bool.false_eq_true, if_false, Prog.eval_ret]

/-- The count of a sorted set is its size. -/
theorem eval_sortedSetCount (hs : s.failing = false) :
    (sortedSetCount k).eval (exec scan i) s = (.returned (s.zset k).card, s) :=
  eval_command hs (.zcard k)

/-- The members of a catalog are read as they are. -/
theorem eval_smembers (hs : s.failing = false) (k : CatalogKey) :
    (command (.smembers k) : Redis (List String)).eval (exec scan i) s =
      (.returned (s.catalog k), s) :=
  eval_command hs (.smembers k)

/-! ## Generations -/

/-- The generation the keys of an index belong to: the working one or the published one. -/
def generationOf (s : Store) (working : Working) (t : RetainedJobType) : Generation :=
  match working with
  | some (t', g) => if t' = t then g else s.publishedGeneration t
  | none => s.publishedGeneration t

/-- The published state is read as it is. -/
theorem eval_publishedState (hs : s.failing = false) (t : RetainedJobType) :
    (publishedState t).eval (exec scan i) s = (.returned (s.publishedState t), s) := by
  rw [publishedState, publishedStateIn, Prog.eval_bind_of (eval_command hs (.getPublished t)),
    Store.publishedState]
  simp only [Command.answer]
  cases s.published t with
  | some state => rfl
  | none =>
      exact Prog.eval_bind_of (eval_command hs (.getRevision t))

variable (working : Working)

/-- The current generation is the one that is worked on or published. -/
theorem eval_currentGeneration (hs : s.failing = false) (t : RetainedJobType) :
    (currentGeneration working t).eval (exec scan i) s =
      (.returned (generationOf s working t), s) := by
  have hread : (currentGeneration.readPublished t).eval (exec scan i) s =
      (.returned (s.publishedGeneration t), s) := Prog.eval_bind_of (eval_publishedState hs t)
  cases working with
  | none => exact hread
  | some working =>
      obtain ⟨t', g⟩ := working
      rw [currentGeneration, generationOf]
      by_cases ht : t' = t
      · rw [if_pos ht, if_pos ht]
        rfl
      · rw [if_neg ht, if_neg ht]
        exact hread

/-- Resolving the generations leaves the store as it is. -/
theorem eval_withAtomicGenerationSnapshot (hs : s.failing = false) :
    (withAtomicGenerationSnapshot working).eval (exec scan i) s =
      (.returned (generationOf s working), s) := by
  rw [withAtomicGenerationSnapshot, Prog.eval_bind_of (eval_currentGeneration working hs .pending),
    Prog.eval_bind_of (eval_currentGeneration working hs .completed),
    Prog.eval_bind_of (eval_currentGeneration working hs .silenced),
    Prog.eval_bind_of (eval_currentGeneration working hs .failed), Prog.pure_eq_ret, Prog.eval_ret,
    Prod.mk.injEq, Outcome.returned.injEq]
  refine ⟨funext fun t => ?_, rfl⟩
  cases t <;> rfl

/-- A pipeline of reads that leave the store as it is. -/
theorem eval_pipeline {α β : Type} (hs : s.failing = false) {as : List α} {read : α → Redis β}
    {f : α → β} (h : ∀ a ∈ as, (read a).eval (exec scan i) s = (.returned (f a), s)) :
    (pipeline working as read).eval (exec scan i) s = (.returned (as.map f), s) := by
  rw [pipeline, Prog.eval_bind_of (eval_withAtomicGenerationSnapshot working hs)]
  exact Prog.eval_collect h

/-- A transaction writes what it has to write for the generations it finds. -/
theorem eval_transaction (hs : s.failing = false)
    (ws : (RetainedJobType → Generation) → List Write) :
    (transaction working ws).eval (exec scan i) s =
      (.returned (), s.writeAll (ws (generationOf s working))) := by
  rw [transaction, Prog.eval_bind_of (eval_withAtomicGenerationSnapshot working hs)]
  exact eval_command hs (.write _)

/-- The projection that is found is that of the current generation. -/
theorem eval_projectionKey (hs : s.failing = false) (t : RetainedJobType) :
    (projectionKey working t).eval (exec scan i) s =
      (.returned (.projection t (generationOf s working t)), s) := by
  rw [projectionKey, Prog.eval_bind_of (eval_currentGeneration working hs t)]
  rfl

/-- The unresolved ids that are found are those of the current generation. -/
theorem eval_unresolvedKey (hs : s.failing = false) (t : RetainedJobType) :
    (unresolvedKey working t).eval (exec scan i) s =
      (.returned (.unresolved t (generationOf s working t)), s) := by
  rw [unresolvedKey, Prog.eval_bind_of (eval_currentGeneration working hs t)]
  rfl

/-- The facet that is found is one of the current generation. -/
theorem eval_facetKey (hs : s.failing = false) (t : RetainedJobType) (d : FacetDimension)
    (value : String) : (facetKey working t d value).eval (exec scan i) s =
      (.returned (.facet t (generationOf s working t) d value), s) := by
  rw [facetKey, Prog.eval_bind_of (eval_currentGeneration working hs t)]
  rfl

/-- The catalog that is found is one of the current generation. -/
theorem eval_catalogKey (hs : s.failing = false) (t : RetainedJobType) (d : FacetDimension) :
    (catalogKey working t d).eval (exec scan i) s =
      (.returned ⟨t, generationOf s working t, d⟩, s) := by
  rw [catalogKey, Prog.eval_bind_of (eval_currentGeneration working hs t)]
  rfl

/-! ## Temporary keys -/

/-- A key that is not a temporary key the process has yet to draw. -/
def Established (i : ProcessId) (s : Store) (k : SortedSetKey) : Prop :=
  ∀ n, s.serial i ≤ n → k ≠ .temporary ⟨i, n⟩

/-- A temporary key the process has drawn between two stores. -/
def DrawnBetween (i : ProcessId) (s s' : Store) (k : Token) : Prop :=
  k.pid = i ∧ s.serial i ≤ k.serial ∧ k.serial < s'.serial i

/-- `s'` is `s` but for temporary keys the process has drawn since `s`. -/
structure Scratches (i : ProcessId) (s s' : Store) : Prop where
  zset : ∀ k, Established i s k → s'.zset k = s.zset k
  rest : s' = { s with zset := s'.zset, serial := s'.serial }
  serial : s.serial i ≤ s'.serial i

variable {s' s'' : Store}

/-- An established key stays one. -/
theorem Established.mono (h : Established i s k) (hs : Scratches i s s') : Established i s' k :=
  fun n hn => h n (hs.serial.trans hn)

/-- Every key that is not temporary is established. -/
theorem established_of_not_temporary (h : ∀ token, k ≠ .temporary token) (s : Store) :
    Established i s k := fun _ _ => h _

/-- A key that has been drawn is established. -/
theorem DrawnBetween.established {k : Token} (h : DrawnBetween i s s' k) :
    Established i s' (.temporary k) := by
  rintro n hn heq
  rw [SortedSetKey.temporary.injEq] at heq
  have hserial : k.serial = n := congrArg Token.serial heq
  have := h.2.2
  omega

namespace Scratches

/-- Nothing may happen. -/
theorem refl (s : Store) : Scratches i s s := ⟨fun _ _ => rfl, rfl, le_rfl⟩

/-- Scratch work can be done in two goes. -/
theorem trans (h : Scratches i s s') (h' : Scratches i s' s'') : Scratches i s s'' where
  zset k hk := (h'.zset k (hk.mono h)).trans (h.zset k hk)
  rest := by
    have hrest := h'.rest
    rw [h.rest] at hrest
    exact hrest
  serial := h.serial.trans h'.serial

/-- Scratch work does not let the connection fail. -/
theorem failing (h : Scratches i s s') : s'.failing = s.failing := by rw [h.rest]

/-- Scratch work leaves the catalogs as they are. -/
theorem catalog (h : Scratches i s s') : s'.catalog = s.catalog := by rw [h.rest]

/-- Scratch work leaves the locks as they are. -/
theorem lock (h : Scratches i s s') : s'.lock = s.lock := by rw [h.rest]

/-- Scratch work leaves the published states as they are. -/
theorem publishedState (h : Scratches i s s') (t : RetainedJobType) :
    s'.publishedState t = s.publishedState t := by
  rw [h.rest]
  rfl

/-- Scratch work leaves the generations as they are. -/
theorem generationOf (h : Scratches i s s') (t : RetainedJobType) :
    generationOf s' working t = RetainedJobIndex.generationOf s working t := by
  have hpublished : s'.publishedGeneration t = s.publishedGeneration t := by
    rw [Store.publishedGeneration, Store.publishedGeneration, h.publishedState]
  cases working with
  | none => exact hpublished
  | some working => rw [RetainedJobIndex.generationOf, RetainedJobIndex.generationOf, hpublished]

/-- Drawing a token changes nothing else. -/
theorem random (s : Store) : Scratches i s (Command.effect i s .random) where
  zset _ _ := rfl
  rest := rfl
  serial := by
    simp only [Command.effect, Function.update_self]
    omega

/-- Storing something under a key that was drawn since. -/
theorem setZset (h : Scratches i s s') {k : Token} (hk : DrawnBetween i s s' k) (z : ZSet) :
    Scratches i s (s'.setZset (.temporary k) z) where
  zset k' hk' := by
    have hne : k' ≠ .temporary k := by
      obtain ⟨pid, serial⟩ := k
      obtain ⟨rfl, hle, -⟩ := hk
      exact hk' serial hle
    rw [Store.setZset_zset, if_neg hne, h.zset k' hk']
  rest := by
    conv_lhs => rw [h.rest]
    rfl
  serial := h.serial

end Scratches

/-- A drawn key was drawn in a longer time, too. -/
theorem DrawnBetween.mono {k : Token} (h : DrawnBetween i s s' k)
    (hle : s'.serial i ≤ s''.serial i) : DrawnBetween i s s'' k :=
  ⟨h.1, h.2.1, h.2.2.trans_le hle⟩

/-- A key that is drawn later is drawn in the whole time. -/
theorem DrawnBetween.of_later {k : Token} (hs : Scratches i s s') (h : DrawnBetween i s' s'' k) :
    DrawnBetween i s s'' k := ⟨h.1, hs.serial.trans h.2.1, h.2.2⟩

/-- A temporary key is drawn with the next number. -/
theorem eval_temporaryKey (hs : s.failing = false) :
    temporaryKey.eval (exec scan i) s =
      (.returned ⟨i, s.serial i⟩, Command.effect i s .random) :=
  eval_command hs .random

/-- The next number is drawn. -/
theorem drawnBetween_random (s : Store) :
    DrawnBetween i s (Command.effect i s .random) ⟨i, s.serial i⟩ := by
  refine ⟨rfl, le_rfl, ?_⟩
  simp only [Command.effect, Function.update_self]
  omega

/-- Deleting a temporary key empties it. -/
theorem eval_deleteQuietly (hs : s.failing = false) (k : Token) :
    (deleteQuietly k).eval (exec scan i) s = (.returned (), s.setZset (.temporary k) ∅) :=
  Prog.eval_tryCatch_of (eval_command hs (.write [.del (.sortedSet (.temporary k))]))

/-- Deleting temporary keys that were drawn since. -/
theorem eval_forEach_deleteQuietly (scan : ScanOrder) (hf : s.failing = false) (hs : Scratches i s s')
    {keys : List Token} (hkeys : ∀ k ∈ keys, DrawnBetween i s s' k) :
    ∃ s'', (Prog.forEach keys deleteQuietly).eval (exec scan i) s' = (.returned (), s'') ∧
      Scratches i s s'' := by
  have hloop : ∃ s'', (Prog.forEach keys deleteQuietly).eval (exec scan i) s' = (.returned (), s'') ∧
      Scratches i s s'' ∧ ∀ k ∈ keys, DrawnBetween i s s'' k := by
    refine Prog.eval_forEach_of ?_ ⟨hs, hkeys⟩
    rintro k hk s' ⟨hs, hkeys⟩
    exact ⟨_, eval_deleteQuietly (hs.failing.trans hf) k, hs.setZset (hkeys k hk) ∅, hkeys⟩
  obtain ⟨s'', heval, hs'', -⟩ := hloop
  exact ⟨s'', heval, hs''⟩

/-- A difference is stored under its key and counted. -/
theorem eval_difference (hs : s.failing = false) (k : Token) (keys : List SortedSetKey) :
    (difference working k keys).eval (exec scan i) s =
      (.returned (diffStore (keys.map s.zset)).card,
        s.setZset (.temporary k) (diffStore (keys.map s.zset))) := by
  rw [difference, Prog.eval_bind_of (eval_transaction working hs _)]
  have hstored : s.writeAll [.zdiffstore (.temporary k) keys,
      expireTemporary k temporaryKeyTtlSeconds] =
        s.setZset (.temporary k) (diffStore (keys.map s.zset)) := rfl
  rw [hstored, eval_sortedSetCount (s := s.setZset _ _) hs, Store.setZset_zset, if_pos rfl]

/-- Keeping a source snapshot alive leaves the store as it is; the snapshot may be gone. -/
theorem eval_renewSourceSnapshot (hs : s.failing = false) (source : SourceSnapshot) :
    (renewSourceSnapshot source).eval (exec scan i) s =
      if 0 < (s.zset (.temporary source.key)).card ∨ source.count = 0 then (.returned (), s)
      else (.thrown (.runtime "The retained job synchronization source snapshot expired."), s) := by
  have hexpire : (expire (.temporary source.key) synchronizationLockSeconds).eval (exec scan i) s =
      (.returned (decide (0 < (s.zset (.temporary source.key)).card)), s) :=
    eval_command hs (.expire _ _)
  rw [renewSourceSnapshot, Prog.eval_bind_of hexpire]
  by_cases hcard : 0 < (s.zset (.temporary source.key)).card
  · rw [if_pos (Or.inl hcard), if_pos (decide_eq_true hcard)]
    rfl
  · rw [if_neg (by simpa using hcard)]
    by_cases hcount : source.count = 0
    · rw [if_pos (Or.inr hcount), if_pos hcount]
      rfl
    · rw [if_neg (not_or.mpr ⟨hcard, hcount⟩), if_neg hcount]
      rfl

end RetainedJobIndex

end HorizonNewDawn

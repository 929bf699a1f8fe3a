import HorizonNewDawn.Collections.Chunks
import HorizonNewDawn.Jobs.RetainedJobIndex.Reading
import HorizonNewDawn.Php.Text
import HorizonNewDawn.Program.Faults
import HorizonNewDawn.Program.History

/-! # Snapshots of bulk operations

A bulk operation works on a private copy of a sorted set, a chunk at a time. A target stays in the
copy until it is acknowledged, so that a chunk that failed can be executed again; the number of
affected jobs is counted in a hash beside it. Both keys expire when they are not used.

Here are the commands of the snapshots and of the actions that work through them, and the methods of
the class. Any command may fail, before or after it has been carried out. The methods are specified
by what they leave alone (`Later`) and by the moment of the one command that matters. -/

namespace HorizonNewDawn

open Program

namespace BulkOperationSnapshot

/-! ## The store -/

/-- The id of an operation: how many had been drawn before it. -/
abbrev OperationId : Type := ℕ

/-- The keys of an operation. -/
inductive Key
  | targetsKey (operationId : OperationId)
  | metaKey (operationId : OperationId)
  deriving DecidableEq

/-- `PendingJobCancellationResult` -/
inductive PendingJobCancellationResult
  | cancelled
  | batched
  | notCancellable
  deriving DecidableEq

/-- What is done to a single job. -/
inductive Handler
  /-- `RetryFailedJob::handleBulk` -/
  | handleBulk
  /-- `CancelPendingJob::handle` -/
  | cancel
  /-- `JobRepository::deleteFailed` -/
  | deleteFailed
  /-- `FailedJobProviderInterface::forget` -/
  | forget
  deriving DecidableEq

/-- What a handler answers; the answers of the last two say whether there was a job to delete. -/
abbrev Handler.Answer : Handler → Type
  | .handleBulk => Bool
  | .cancel => PendingJobCancellationResult
  | .deleteFailed => Bool
  | .forget => Bool

/-- Whether the mutation took effect. -/
def Handler.mutates : (h : Handler) → h.Answer → Bool
  | .handleBulk, retried => retried
  | .cancel, result => decide (result = .cancelled)
  | .deleteFailed, deleted => deleted
  | .forget, deleted => deleted

/-- The fields of a job the actions read. -/
structure Job where
  id : Php
  connection : Php
  queue : Php

/-- What Redis keeps of bulk operations, and how many ids have been drawn. A key exists where its
set is not empty, or its hash is there. -/
structure Keys where
  targets : OperationId → SortedSet String ℚ
  /-- The field `affected` of the hash. -/
  affected : OperationId → Option ℤ
  /-- Whether an expiry is set. -/
  expires : Key → Bool
  drawn : ℕ

/-- The store: the keys, the sorted sets operations are made from, what the repository and the
handlers answer next, and the fate of the next command. -/
structure Store extends Keys where
  sources : String → SortedSet String ℚ
  jobs : List (Option Job)
  answers : (h : Handler) → h.Answer
  fate : Fate

/-- A store with one failed job, in which every handler takes effect. -/
def oneFailedJob : Store where
  targets _ := ∅
  affected _ := none
  expires _ := false
  drawn := 0
  sources _ := SortedSet.ofFun ["job"] fun _ => some 0
  jobs := []
  answers
    | .handleBulk => true
    | .cancel => .cancelled
    | .deleteFailed => true
    | .forget => true
  fate := .answered

/-- `EXISTS` -/
def Keys.exists (s : Keys) : Key → Bool
  | .targetsKey operationId => 0 < (s.targets operationId).card
  | .metaKey operationId => (s.affected operationId).isSome

/-! ## The commands -/

/-- The atomic operations of a bulk operation. An operation id that is not part of a key is not
sent: it says on whose behalf the command is given. -/
inductive Operation
  /-- `bin2hex(random_bytes(16))` -/
  | randomId
  | zrangeWithScores (operationId : OperationId) (key : String)
  | zadd (operationId : OperationId) (score : ℚ) (member : String)
  /-- `HMSET` of the field `affected` to zero. -/
  | hmset (operationId : OperationId)
  | expire (key : Key)
  | existsKey (key : Key)
  | zrange (operationId : OperationId) (start stop : ℕ)
  | zrem (operationId : OperationId) (ids : List String)
  | zcard (operationId : OperationId)
  | hincrby (operationId : OperationId) (affected : ℤ)
  | hget (operationId : OperationId)
  | del (keys : List Key)
  /-- `JobRepository::getJobs` -/
  | getJobs (operationId : OperationId) (ids : List String)
  | handle (handler : Handler) (operationId : OperationId) (id : String)
  /-- `report` of the exception of a handler. -/
  | report (operationId : OperationId) (id : String)

/-- The answers of the operations. -/
abbrev Operation.Answer : Operation → Type
  | .randomId => OperationId
  | .zrangeWithScores _ _ => List (String × ℚ)
  | .existsKey _ => Bool
  | .zrange _ _ _ => List String
  | .zcard _ => ℕ
  | .hincrby _ _ => ℤ
  | .hget _ => Option ℤ
  | .getJobs _ _ => List (Option Job)
  | .handle h _ _ => h.Answer
  | _ => Unit

/-- A write to a key: where the key does not exist yet, no expiry is set. -/
def Keys.touch (s : Keys) (key : Key) : Key → Bool :=
  if s.exists key then s.expires else Function.update s.expires key false

/-- The answer of an operation, and the store after it. -/
def perform : (o : Operation) → Store → o.Answer × Store
  | .randomId, s => (s.drawn, { s with drawn := s.drawn + 1 })
  | .zrangeWithScores _ key, s => ((s.sources key).entries, s)
  | .zadd operationId score member, s =>
      ((), { s with
        targets := Function.update s.targets operationId
          ((s.targets operationId).insert member score)
        expires := s.touch (.targetsKey operationId) })
  | .hmset operationId, s =>
      ((), { s with
        affected := Function.update s.affected operationId (some 0)
        expires := s.touch (.metaKey operationId) })
  | .expire key, s =>
      ((), { s with
        expires := if s.exists key then Function.update s.expires key true else s.expires })
  | .existsKey key, s => (s.exists key, s)
  | .zrange operationId start stop, s =>
      (((s.targets operationId).members.drop start).take (stop + 1 - start), s)
  | .zrem operationId ids, s =>
      ((), { s with
        targets := Function.update s.targets operationId
          ((s.targets operationId).eraseAll ids) })
  | .zcard operationId, s => ((s.targets operationId).card, s)
  | .hincrby operationId affected, s =>
      ((s.affected operationId).getD 0 + affected, { s with
        affected := Function.update s.affected operationId
          (some ((s.affected operationId).getD 0 + affected))
        expires := s.touch (.metaKey operationId) })
  | .hget operationId, s => (s.affected operationId, s)
  | .del keys, s =>
      ((), { s with
        targets := fun operationId =>
          if .targetsKey operationId ∈ keys then ∅ else s.targets operationId
        affected := fun operationId =>
          if .metaKey operationId ∈ keys then none else s.affected operationId })
  | .getJobs _ _, s => (s.jobs, s)
  -- What a handler does to jobs and to the sources is left to the world.
  | .handle h _ _, s => (s.answers h, s)
  | .report _ _, s => ((), s)

/-- An operation under the fate that awaits it. -/
abbrev exec (o : Operation) (s : Store) : Reply Operation.Answer o × Store :=
  underFate Store.fate perform o s

/-! ## The methods -/

/-- The exceptions. -/
inductive BulkOperationFailure
  /-- A command or a call has failed. -/
  | thrown
  /-- `BulkOperationMissingStateException` -/
  | missingState (operationId : OperationId)
  /-- `InvalidArgumentException` -/
  | invalidArgument (message : String)

/-- Programs over the operations; there are no sections. -/
abbrev BulkProgram (α : Type) : Type :=
  Prog Operation (Reply Operation.Answer) Empty BulkOperationFailure α

/-- One operation, or its exception. -/
abbrev request (o : Operation) : BulkProgram o.Answer := Prog.request .thrown o

/-- One operation, with `none` for an exception. -/
abbrev attempt (o : Operation) : BulkProgram (Option o.Answer) := Prog.attempt o

/-- `CHUNK_SIZE` -/
def chunkSize : ℕ := 100

/-- `keys` -/
def keys (operationId : OperationId) : List Key := [.targetsKey operationId, .metaKey operationId]

/-- `newOperationId` -/
def newOperationId : BulkProgram OperationId := request .randomId

/-- `initializeMeta` -/
def initializeMeta (operationId : OperationId) : BulkProgram Unit := request (.hmset operationId)

/-- `renew` -/
def renew (operationId : OperationId) : BulkProgram Unit :=
  Prog.forEach (keys operationId) fun key => request (.expire key)

/-- `ensureExists` -/
def ensureExists (operationId : OperationId) : BulkProgram Unit := do
  let found ← (request (.existsKey (.metaKey operationId)) : BulkProgram Bool)
  if found then return () else .fail (.missingState operationId)

/-- The pairs `createFromSortedSet` keeps of what it has read: members that are integer-like keys are
no strings any more. -/
def pairs (members : List (String × ℚ)) : List (String × ℚ) :=
  members.filter fun e => !isIntegerKey e.1

/-- `createFromSortedSet` -/
def createFromSortedSet (sourceKey : String) : BulkProgram OperationId :=
  if Php.trim sourceKey = "" then
    .fail (.invalidArgument "A non-empty Redis sorted-set key is required.")
  else do
    let operationId ← newOperationId
    let members ← (request (.zrangeWithScores operationId (Php.trim sourceKey)) :
      BulkProgram (List (String × ℚ)))
    Prog.forEach ((pairs members).arrayChunk chunkSize) fun chunk =>
      Prog.forEach chunk fun e => (request (.zadd operationId e.2 e.1) : BulkProgram Unit)
    initializeMeta operationId
    renew operationId
    return operationId

/-- `createFromIds` -/
def createFromIds (ids : List String) : BulkProgram OperationId := do
  let operationId ← newOperationId
  -- The accumulator is the score and the number of pending members.
  let _ ← Prog.fold (fun (counts : ℕ × ℕ) (id : String) =>
    if id = "" then return counts
    else do
      (request (.zadd operationId counts.1 id) : BulkProgram Unit)
      if chunkSize ≤ counts.2 + 1 then do
        renew operationId
        return (counts.1 + 1, 0)
      else return (counts.1 + 1, counts.2 + 1)) (0, 0) ids
  initializeMeta operationId
  renew operationId
  return operationId

/-- `nextChunk` -/
def nextChunk (operationId : OperationId) : BulkProgram (List String) := do
  ensureExists operationId
  renew operationId
  let ids ← (request (.zrange operationId 0 (chunkSize - 1)) : BulkProgram (List String))
  return ids.filter fun id => id ≠ ""

/-- `acknowledge` -/
def acknowledge (operationId : OperationId) (ids : List String) : BulkProgram Unit :=
  if ids = [] then return ()
  else do
    ensureExists operationId
    (request (.zrem operationId ids) : BulkProgram Unit)
    renew operationId

/-- `hasMore` -/
def hasMore (operationId : OperationId) : BulkProgram Bool := do
  ensureExists operationId
  let card ← (request (.zcard operationId) : BulkProgram ℕ)
  return decide (0 < card)

/-- `totalAffected` -/
def totalAffected (operationId : OperationId) : BulkProgram ℤ := do
  ensureExists operationId
  let affected ← (request (.hget operationId) : BulkProgram (Option ℤ))
  return max 0 (affected.getD 0)

/-- `addAffected` -/
def addAffected (operationId : OperationId) (affected : ℤ) : BulkProgram ℤ :=
  if affected < 0 then .fail (.invalidArgument "Affected count cannot be negative.")
  else do
    ensureExists operationId
    if affected = 0 then totalAffected operationId
    else do
      let total ← (request (.hincrby operationId affected) : BulkProgram ℤ)
      renew operationId
      return total

/-- `cleanup` -/
def cleanup (operationId : OperationId) : BulkProgram Unit := request (.del (keys operationId))

/-- `finish` -/
def finish (operationId : OperationId) : BulkProgram ℤ := do
  let total ← totalAffected operationId
  cleanup operationId
  return total

/-! ## What methods leave alone -/

/-- A store with the commands given so far, each with the store it was given in. -/
abbrev Traced : Type := Recorded Operation Store

/-- An operation, recorded. -/
abbrev traced (o : Operation) (x : Traced) : Reply Operation.Answer o × Traced := recording exec o x

/-- The commands that change neither targets nor counters, and call no handler. -/
def Operation.Neutral : Operation → Prop
  | .expire _ => True
  | .existsKey _ => True
  | .zrange _ _ _ => True
  | .zcard _ => True
  | .hget _ => True
  | .getJobs _ _ => True
  | .report _ _ => True
  | _ => False

/-- Only neutral commands lie between two moments. -/
structure Later (x y : Traced) : Prop where
  targets : y.1.targets = x.1.targets
  affected : y.1.affected = x.1.affected
  drawn : y.1.drawn = x.1.drawn
  history : ∃ between, y.2 = between ++ x.2 ∧ ∀ e ∈ between, e.1.Neutral

variable {x y z : Traced} {o : Operation} {operationId : OperationId}

/-- A moment is as late as itself. -/
theorem Later.refl (x : Traced) : Later x x :=
  ⟨rfl, rfl, rfl, [], rfl, fun _ he => absurd he List.not_mem_nil⟩

/-- Later moments may be taken one after the other. -/
theorem Later.trans (h : Later x y) (h' : Later y z) : Later x z := by
  obtain ⟨l, hl, hln⟩ := h.history
  obtain ⟨l', hl', hln'⟩ := h'.history
  refine ⟨h'.targets.trans h.targets, h'.affected.trans h.affected, h'.drawn.trans h.drawn,
    l' ++ l, ?_, fun e he => ?_⟩
  · rw [hl', hl, List.append_assoc]
  · rcases List.mem_append.mp he with he | he
    · exact hln' e he
    · exact hln e he

/-- What was recorded stays recorded. -/
theorem Later.subset (h : Later x y) : x.2 ⊆ y.2 := by
  obtain ⟨l, hl, -⟩ := h.history
  rw [hl]
  exact List.subset_append_right l x.2

/-- What is recorded of a command that is not neutral was recorded before. -/
theorem Later.mem_of_not_neutral (h : Later x y) {s : Store} (ho : ¬o.Neutral)
    (hmem : (o, s) ∈ y.2) : (o, s) ∈ x.2 := by
  obtain ⟨l, hl, hln⟩ := h.history
  rw [hl] at hmem
  rcases List.mem_append.mp hmem with hmem | hmem
  · exact absurd (hln _ hmem) ho
  · exact hmem

/-- A neutral command, carried out. -/
theorem Later.perform (ho : o.Neutral) (x : Traced) :
    Later x ((perform o x.1).2, (o, x.1) :: x.2) := by
  refine ⟨?_, ?_, ?_, [(o, x.1)], rfl, fun e he => ?_⟩
  · cases o <;> first | rfl | exact absurd ho id
  · cases o <;> first | rfl | exact absurd ho id
  · cases o <;> first | rfl | exact absurd ho id
  · rw [List.mem_singleton.mp he]
    exact ho

/-- A neutral command, whatever becomes of it. -/
theorem Later.traced (ho : o.Neutral) (x : Traced) : Later x (traced o x).2 := by
  have hperform := Later.perform ho x
  have hunsent : Later x (x.1, (o, x.1) :: x.2) :=
    ⟨rfl, rfl, rfl, [(o, x.1)], rfl, fun e he => by rw [List.mem_singleton.mp he]; exact ho⟩
  simp only [BulkOperationSnapshot.traced, recording, exec, underFate]
  cases x.1.fate with
  | answered => exact hperform
  | unsent => exact hunsent
  | unanswered => exact hperform

/-- A discipline under which neutral commands are free and the environment leaves the keys alone. -/
structure Admits (D : Discipline Operation Empty Traced) : Prop where
  rely : ∀ ls x y, D.rely ls x y → Later x y
  ok : ∀ ls o x, o.Neutral → D.ok ls o x

/-- A neutral command has failed, and only neutral ones have been given since. -/
def Thrown (D : Discipline Operation Empty Traced) (y : Traced) : Prop :=
  ∃ ls o x, o.Neutral ∧ D.assume ls o x ∧ x.1.fate ≠ .answered ∧ Later (traced o x).2 y

/-- An exception that no write has preceded: a command has failed, or the state is missing. -/
def Aborts (D : Discipline Operation Empty Traced) (operationId : OperationId) (x y : Traced) :
    Prop :=
  Later x y ∧ (Thrown D y ∨ x.1.affected operationId = none)

variable {D : Discipline Operation Empty Traced}

/-- An exception may have been thrown earlier. -/
theorem Thrown.later (h : Thrown D x) (hxy : Later x y) : Thrown D y := by
  obtain ⟨ls, o, w, ho, ha, hfate, hlater⟩ := h
  exact ⟨ls, o, w, ho, ha, hfate, hlater.trans hxy⟩

/-- An aborted call may have begun earlier. -/
theorem Aborts.of_later (hxy : Later x y) (h : Aborts D operationId y z) :
    Aborts D operationId x z := by
  refine ⟨hxy.trans h.1, h.2.imp_right fun hnone => ?_⟩
  rw [← hnone, hxy.affected]

variable (hD : Admits D)
include hD

/-- A neutral command whose failure is an exception. -/
theorem wp_neutral {e : BulkOperationFailure} {Q : o.Answer → Traced → Prop}
    {E : BulkOperationFailure → Traced → Prop} (ho : o.Neutral)
    (hQ : ∀ x', Later x x' → x'.1.fate = .answered →
      Q (perform o x'.1).1 ((perform o x'.1).2, (o, x'.1) :: x'.2))
    (hE : ∀ y, Later x y → Thrown D y → E e y) :
    wp traced D (Prog.request e o) Q E x := by
  refine wp_recording_request (fun y _ _ => hD.ok [] o y ho)
    (fun y hr _ hfate => hQ y (hD.rely [] x y hr) hfate) fun y hr ha hfate => ?_
  have hlater := hD.rely [] x y hr
  exact hE _ (hlater.trans (Later.traced ho y)) ⟨[], o, y, ho, ha, hfate, Later.refl _⟩

/-- A renewal gives neutral commands only. -/
theorem wp_renew :
    wp traced D (renew operationId) (fun _ y => Later x y)
      (fun _ y => Later x y ∧ Thrown D y) x := by
  refine wp_forEach (I := fun _ y => Later x y) (fun key rest y hy => ?_) (Later.refl x)
  refine wp_neutral hD trivial (fun y' hy' _ => ?_) fun z hz hthrown => ?_
  · exact (hy.trans hy').trans (Later.perform (o := .expire key) trivial y')
  · exact ⟨hy.trans hz, hthrown⟩

/-- The check finds the state or throws. -/
theorem wp_ensureExists :
    wp traced D (ensureExists operationId)
      (fun _ y => Later x y ∧ x.1.affected operationId ≠ none)
      (fun _ y => Aborts D operationId x y) x := by
  refine wp_bind_of (wp_neutral hD (Q := fun found y => Later x y ∧
    found = (x.1.affected operationId).isSome) trivial (fun y hy _ => ?_)
    fun z hz hthrown => ⟨hz, Or.inl hthrown⟩) fun found y hy => ?_
  · refine ⟨hy.trans (Later.perform (o := .existsKey (.metaKey operationId)) trivial y), ?_⟩
    show (y.1.affected operationId).isSome = _
    rw [hy.affected]
  · obtain ⟨hlater, rfl⟩ := hy
    cases hsome : x.1.affected operationId with
    | none => exact ⟨hlater, Or.inr hsome⟩
    | some n => exact ⟨hlater, by simp⟩

/-- The page `nextChunk` reads. -/
theorem wp_nextChunk :
    wp traced D (nextChunk operationId)
      (fun ids y => Later x y ∧ x.1.affected operationId ≠ none ∧
        ids = ((x.1.targets operationId).members.take chunkSize).filter fun id => id ≠ "")
      (fun _ y => Aborts D operationId x y) x := by
  refine wp_bind_of (wp_ensureExists hD) fun _ y hy => ?_
  refine wp_bind_of (wp_mono (fun _ _ h => h)
    (fun _ _ h => ⟨hy.1.trans h.1, Or.inl h.2⟩) (wp_renew hD)) fun _ z hz => ?_
  have hxz := hy.1.trans hz
  refine wp_bind_of (wp_neutral hD (Q := fun ids y => Later x y ∧
    ids = (x.1.targets operationId).members.take chunkSize) trivial (fun w hw _ => ?_)
    fun w hw hthrown => ⟨hxz.trans hw, Or.inl hthrown⟩) fun ids w hw => ?_
  · refine ⟨(hxz.trans hw).trans
      (Later.perform (o := .zrange operationId 0 (chunkSize - 1)) trivial w), ?_⟩
    show ((w.1.targets operationId).members.drop 0).take (chunkSize - 1 + 1 - 0) = _
    rw [(hxz.trans hw).targets]
    rfl
  · exact ⟨hw.1, hy.2, by rw [hw.2]⟩

/-- Whether there is more is whether a target is left. -/
theorem wp_hasMore :
    wp traced D (hasMore operationId)
      (fun more y => Later x y ∧ x.1.affected operationId ≠ none ∧
        more = decide (0 < (x.1.targets operationId).card))
      (fun _ y => Aborts D operationId x y) x := by
  refine wp_bind_of (wp_ensureExists hD) fun _ y hy => ?_
  refine wp_bind_of (wp_neutral hD (Q := fun card y => Later x y ∧
    card = (x.1.targets operationId).card) trivial (fun w hw _ => ?_)
    fun w hw hthrown => ⟨hy.1.trans hw, Or.inl hthrown⟩) fun card w hw => ?_
  · refine ⟨(hy.1.trans hw).trans (Later.perform (o := .zcard operationId) trivial w), ?_⟩
    show (w.1.targets operationId).card = _
    rw [(hy.1.trans hw).targets]
  · exact ⟨hw.1, hy.2, by rw [hw.2]⟩

/-- The total is that of the state, and no less than 0. -/
theorem wp_totalAffected :
    wp traced D (totalAffected operationId)
      (fun total y => Later x y ∧ ∃ n, x.1.affected operationId = some n ∧ total = max 0 n)
      (fun _ y => Aborts D operationId x y) x := by
  refine wp_bind_of (wp_ensureExists hD) fun _ y hy => ?_
  refine wp_bind_of (wp_neutral hD (Q := fun affected y => Later x y ∧
    affected = x.1.affected operationId) trivial (fun w hw _ => ?_)
    fun w hw hthrown => ⟨hy.1.trans hw, Or.inl hthrown⟩) fun affected w hw => ?_
  · refine ⟨(hy.1.trans hw).trans (Later.perform (o := .hget operationId) trivial w), ?_⟩
    show w.1.affected operationId = _
    rw [(hy.1.trans hw).affected]
  · obtain ⟨hlater, rfl⟩ := hw
    obtain ⟨n, hn⟩ := Option.ne_none_iff_exists'.mp hy.2
    exact ⟨hlater, n, hn, by rw [hn]; rfl⟩

omit hD

/-! ## Methods that write -/

/-- What a command that has been answered leads to, among neutral ones. -/
def Wrote (D : Discipline Operation Empty Traced) (o : Operation) (x : Traced) (a : o.Answer)
    (z : Traced) : Prop :=
  ∃ y, Later x y ∧ (y.1.fate = .answered ∧ D.assume [] o y) ∧ a = (perform o y.1).1 ∧
    Later ((perform o y.1).2, (o, y.1) :: y.2) z

/-- An exception after a command has been tried: it has failed itself, or a neutral one after it. -/
def Tried (D : Discipline Operation Empty Traced) (o : Operation) (x z : Traced) : Prop :=
  ∃ y, Later x y ∧ D.assume [] o y ∧ Later (traced o y).2 z ∧
    (z = (traced o y).2 ∧ y.1.fate ≠ .answered ∨ Thrown D z)

/-- A carried-out command is a tried one. -/
theorem traced_of_answered {y : Traced} (h : y.1.fate = .answered) :
    (traced o y).2 = ((perform o y.1).2, (o, y.1) :: y.2) := by
  simp only [traced, recording, exec, underFate, h]

include hD

/-- A command that may fail, with what it leads to. -/
theorem wp_command {e : BulkOperationFailure} (hok : ∀ y, Later x y → D.ok [] o y) :
    wp traced D (Prog.request e o) (Wrote D o x) (fun _ z => Tried D o x z) x := by
  refine wp_recording_request (fun y hr _ => hok y (hD.rely [] x y hr))
    (fun y hr ha hfate => ?_) fun y hr ha hfate => ?_
  · exact ⟨y, hD.rely [] x y hr, ⟨hfate, ha⟩, rfl, Later.refl _⟩
  · exact ⟨y, hD.rely [] x y hr, ha, Later.refl _, Or.inl ⟨rfl, hfate⟩⟩

variable (operationId) in
/-- Renewing the keys after a command. -/
theorem wp_command_renew {e : BulkOperationFailure} (hok : ∀ y, Later x y → D.ok [] o y) :
    wp traced D (Prog.request e o)
      (fun a y => wp traced D (renew operationId) (fun _ z => Wrote D o x a z)
        (fun _ z => Tried D o x z) y)
      (fun _ z => Tried D o x z) x := by
  refine wp_mono (fun a y hy => ?_) (fun _ _ h => h) (wp_command hD hok)
  obtain ⟨w, hxw, hfate, ha, hwy⟩ := hy
  refine wp_mono (fun _ z hz => ⟨w, hxw, hfate, ha, hwy.trans hz⟩) (fun _ z hz => ?_)
    (wp_renew hD)
  exact ⟨w, hxw, hfate.2, by rw [traced_of_answered hfate.1]; exact hwy.trans hz.1, Or.inr hz.2⟩

/-- What can become of a method that checks the state and then gives a command. -/
def Fails (D : Discipline Operation Empty Traced) (operationId : OperationId) (o : Operation)
    (x z : Traced) : Prop :=
  Aborts D operationId x z ∨ Tried D o x z

omit hD in
/-- A command may be preceded by neutral ones. -/
theorem Wrote.of_later {a : o.Answer} (hxy : Later x y) (h : Wrote D o y a z) :
    Wrote D o x a z := by
  obtain ⟨w, hyw, hrest⟩ := h
  exact ⟨w, hxy.trans hyw, hrest⟩

omit hD in
/-- So may one that has been tried. -/
theorem Tried.of_later (hxy : Later x y) (h : Tried D o y z) : Tried D o x z := by
  obtain ⟨w, hyw, hrest⟩ := h
  exact ⟨w, hxy.trans hyw, hrest⟩

/-- **An acknowledgement** checks the state and removes the targets. -/
theorem wp_acknowledge {ids : List String} (hids : ids ≠ [])
    (hok : ∀ y, Later x y → D.ok [] (.zrem operationId ids) y) :
    wp traced D (acknowledge operationId ids)
      (fun _ z => x.1.affected operationId ≠ none ∧ Wrote D (.zrem operationId ids) x () z)
      (fun _ z => Fails D operationId (.zrem operationId ids) x z) x := by
  rw [acknowledge, if_neg hids]
  refine wp_bind_of (wp_mono (fun _ _ h => h) (fun _ _ h => Or.inl h)
    (wp_ensureExists hD)) fun _ y hy => ?_
  have hwrite := wp_command_renew operationId hD (x := y)
    (o := .zrem operationId ids) (e := .thrown) fun w hw => hok w (hy.1.trans hw)
  refine wp_bind.mpr (wp_mono (fun _ w hw => ?_) (fun _ z hz => Or.inr (hz.of_later hy.1)) hwrite)
  exact wp_mono (fun _ z hz => ⟨hy.2, hz.of_later hy.1⟩)
    (fun _ z hz => Or.inr (hz.of_later hy.1)) hw

/-- Adding nothing gives neutral commands only. -/
theorem wp_addAffected_zero :
    wp traced D (addAffected operationId 0)
      (fun total y => Later x y ∧ ∃ n, x.1.affected operationId = some n ∧ total = max 0 n)
      (fun _ y => Aborts D operationId x y) x := by
  rw [addAffected, if_neg (by decide)]
  refine wp_bind_of (wp_ensureExists hD) fun _ y hy => ?_
  rw [if_pos rfl]
  refine wp_mono (fun total z hz => ?_) (fun _ z hz => hz.of_later hy.1) (wp_totalAffected hD)
  exact ⟨hy.1.trans hz.1, by simpa only [hy.1.affected] using hz.2⟩

/-- **Adding a number** checks the state and adds it. -/
theorem wp_addAffected_pos {affected : ℤ} (h : 0 < affected)
    (hok : ∀ y, Later x y → D.ok [] (.hincrby operationId affected) y) :
    wp traced D (addAffected operationId affected)
      (fun total z => x.1.affected operationId ≠ none ∧
        Wrote D (.hincrby operationId affected) x total z)
      (fun _ z => Fails D operationId (.hincrby operationId affected) x z) x := by
  rw [addAffected, if_neg (by omega)]
  refine wp_bind_of (wp_mono (fun _ _ h => h) (fun _ _ h => Or.inl h)
    (wp_ensureExists hD)) fun _ y hy => ?_
  rw [if_neg (by omega)]
  have hwrite := wp_command_renew operationId hD (x := y)
    (o := .hincrby operationId affected) (e := .thrown) fun w hw => hok w (hy.1.trans hw)
  refine wp_bind.mpr (wp_mono (fun _ w hw => ?_) (fun _ z hz => Or.inr (hz.of_later hy.1)) hwrite)
  exact wp_bind_of (wp_mono (fun _ _ h => h) (fun _ z hz => Or.inr (hz.of_later hy.1)) hw)
    fun _ z hz => ⟨hy.2, hz.of_later hy.1⟩

/-- **The end** reads the total and deletes the keys. -/
theorem wp_finish (hok : ∀ y, Later x y → D.ok [] (.del (keys operationId)) y) :
    wp traced D (finish operationId)
      (fun total z => (∃ n, x.1.affected operationId = some n ∧ total = max 0 n) ∧
        Wrote D (.del (keys operationId)) x () z)
      (fun _ z => Fails D operationId (.del (keys operationId)) x z) x := by
  refine wp_bind_of (wp_mono (fun _ _ h => h) (fun _ _ h => Or.inl h)
    (wp_totalAffected hD)) fun total y hy => ?_
  refine wp_bind_of (wp_mono (fun _ _ h => h) (fun _ _ h => Or.inr (h.of_later hy.1))
    (wp_command hD fun w hw => hok w (hy.1.trans hw))) fun _ z hz => ?_
  exact ⟨hy.2, hz.of_later hy.1⟩

omit hD

end BulkOperationSnapshot

end HorizonNewDawn

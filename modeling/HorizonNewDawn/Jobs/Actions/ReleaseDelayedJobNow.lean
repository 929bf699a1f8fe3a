import HorizonNewDawn.Program.Interleaving
import HorizonNewDawn.Queues.RedisQueue
import Mathlib.Data.List.Chain

/-! # Releasing delayed jobs early

`ReleaseDelayedJobNow::handle` makes a delayed payload ready in one script, tells Horizon, and takes
the script back when Horizon fails. Any number of such calls, of cancellations, of Laravel's
`migrate` and of workers taking jobs run interleaved, script by script, over any number of queues; a
script may fail before or after it has run.

`jobs_conserved` says what holds at every moment: a job that no worker has taken and no cancellation
has removed has exactly one payload, a call reports a release only if it made the payload ready, it
reports that the job is not delayed only if it changed nothing, and a roll-back that directly
follows its own move restores the queue. -/

namespace HorizonNewDawn

open Program

namespace ReleaseDelayedJobNow

/-! ## The store -/

/-- A job as the job repository returns it, `none` for a field that is not a string. -/
structure JobRecord where
  status : Option String
  connection : Option String
  queue : Option String
  payload : Option Payload

/-- What becomes of the next operation: it is answered, it is not carried out, or it is carried out
and its answer is lost. -/
inductive Fault
  | none
  | unsent
  | unanswered
  deriving DecidableEq

/-- What a script did to a queue. -/
inductive Change
  | moved (payload replacement : Payload) (score : ℤ)
  | rolledBack (payload replacement : Payload) (score : ℤ)
  | cancelled (payload : Payload)
  | migrated
  | popped (payload : Payload)
  deriving DecidableEq

/-- A change of a queue by a process, with the queue before and after it. -/
structure Touch (Pid : Type) where
  pid : Pid
  queue : String
  change : Change
  before : Queue
  after : Queue

/-- The queues by the key of their ready list, the job repository, the fate of the next operation,
and the changes of the queues so far, the latest first. Nothing reads `log`. -/
structure Store (Pid : Type) where
  queues : String → Queue
  repository : String → Option JobRecord
  fault : Fault
  log : List (Touch Pid)

variable {Pid : Type}

namespace Store

/-- Change a queue. -/
def touch (s : Store Pid) (i : Pid) (key : String) (change : Change) (q : Queue) : Store Pid where
  queues := Function.update s.queues key q
  repository := s.repository
  fault := s.fault
  log := ⟨i, key, change, s.queues key, q⟩ :: s.log

/-- The changes of one queue, the latest first. -/
def touchesOf (s : Store Pid) (key : String) : List (Touch Pid) :=
  s.log.filter fun touch => touch.queue = key

/-- The changes one process has made, the latest first. -/
def touchesBy [DecidableEq Pid] (s : Store Pid) (i : Pid) : List (Touch Pid) :=
  s.log.filter fun touch => touch.pid = i

end Store

/-! ## The atomic operations -/

/-- The atomic operations of the actions, of Laravel's `migrate` and of a worker. -/
inductive Operation
  | getJobs (id : String)
  | moveNow (key : String) (payload replacement : Payload)
  /-- `JobRepository::migrated`. -/
  | migrated (connection queue : String) (replacement : Payload)
  | rollback (key : String) (payload replacement : Payload) (score : ℤ)
  | cancel (key : String) (payload : Payload) (includesReady includesDelayed : Bool)
  | migrate (key : String) (now : ℤ) (due : List Payload)
  | pop (key : String)

/-- The answers of the operations, where they are not lost. -/
abbrev Operation.Answer : Operation → Type
  | .getJobs _ => Option JobRecord
  | .moveNow _ _ _ => Option ℤ
  | .migrated _ _ _ => Unit
  | .rollback _ _ _ _ => ℕ
  | .cancel _ _ _ _ => ℕ
  | .migrate _ _ _ => Unit
  | .pop _ => Option Payload

/-- What a program sees of an operation: `none` is an exception. -/
abbrev Operation.Reply (o : Operation) : Type := Option o.Answer

/-- The answer of an operation of the process `i` and the store after it. -/
def perform (i : Pid) : (o : Operation) → Store Pid → o.Answer × Store Pid
  | .getJobs id, s => (s.repository id, s)
  | .moveNow key payload replacement, s =>
      match (s.queues key).moveNow payload replacement with
      | some (score, q) => (some score, s.touch i key (.moved payload replacement score) q)
      | none => (none, s)
  | .migrated _ _ _, s => ((), s)
  | .rollback key payload replacement score, s =>
      match (s.queues key).rollback payload replacement score with
      | some q => (1, s.touch i key (.rolledBack payload replacement score) q)
      | none => (0, s)
  | .cancel key payload includesReady includesDelayed, s =>
      match (s.queues key).cancel payload includesReady includesDelayed with
      | (0, _) => (0, s)
      | (n + 1, q) => (n + 1, s.touch i key (.cancelled payload) q)
  | .migrate key now due, s =>
      -- every payload made ready is notified, so nothing has changed where nothing is notified
      if ((s.queues key).migrate now due).notify = (s.queues key).notify then ((), s)
      else ((), s.touch i key .migrated ((s.queues key).migrate now due))
  | .pop key, s =>
      match (s.queues key).pop with
      | some (payload, q) => (some payload, s.touch i key (.popped payload) q)
      | none => (none, s)

/-- An operation under the fault that awaits it. -/
def exec (i : Pid) (o : Operation) (s : Store Pid) : o.Reply × Store Pid :=
  match s.fault with
  | .none => (some (perform i o s).1, (perform i o s).2)
  | .unsent => (none, s)
  | .unanswered => (none, (perform i o s).2)

/-! ## The actions -/

/-- The exceptions of the actions. -/
inductive ActionFailure
  | redis
  | notSupported
  | migrated

/-- Programs over the operations. No section of them is named. -/
abbrev ActionProgram (α : Type) : Type := Prog Operation Operation.Reply Empty ActionFailure α

/-- One operation, with `none` for an exception. -/
def attempt (o : Operation) : ActionProgram (Option o.Answer) := Prog.perform o

/-- The answer of an operation, or the exception in its place. -/
def answer (o : Operation) : ActionProgram o.Answer :=
  attempt o >>= fun
    | some x => .ret x
    | none => .fail .redis

/-- What the queue manager knows of the connections: whether one is a Redis connection, and the key
of the ready list of a queue. -/
structure QueueManager where
  isRedisQueue : String → Bool
  ready : String → String → String

/-- The results of `ReleaseDelayedJobNow::handle`. -/
inductive ReleaseDelayedJobNowResult
  | released
  | notDelayed
  deriving DecidableEq

/-- `handle` from its first script on: make the payload ready, tell Horizon, and take the script
back where Horizon fails. An exception of the roll-back is only reported. -/
def release (key connection queueName : String) (payload replacement : Payload) :
    ActionProgram ReleaseDelayedJobNowResult := do
  match ← (answer (.moveNow key payload replacement) : ActionProgram (Option ℤ)) with
  | none => pure .notDelayed
  | some score =>
      if score ≤ 0 then pure .notDelayed
      else
        match ← attempt (.migrated connection queueName replacement) with
        | some _ => pure .released
        | none =>
            let _ ← attempt (.rollback key payload replacement score)
            Prog.fail .migrated

/-- `ReleaseDelayedJobNow::handle`, called at the time `now`. -/
def handle (floats : FloatWriter) (queues : QueueManager) (id : String) (now : ℤ) :
    ActionProgram ReleaseDelayedJobNowResult := do
  match ← (answer (.getJobs id) : ActionProgram (Option JobRecord)) with
  | none => pure .notDelayed
  | some job =>
      if job.status ≠ some "pending" then pure .notDelayed
      else
        match job.connection, job.queue, job.payload with
        | some connection, some queueName, some payload =>
            if connection = "" ∨ queueName = "" ∨ payload = .empty then pure .notDelayed
            else if queues.isRedisQueue connection then
              match payload.withMadeAvailableMetadata floats now with
              | none => pure .notDelayed
              | some replacement =>
                  release (queues.ready connection queueName) connection queueName payload
                    replacement
            else Prog.fail .notSupported
        | _, _, _ => pure .notDelayed

/-- The jobs a cancellation is to remove. -/
inductive PendingJobCancellationScope
  | ready
  | delayed
  | pending
  deriving DecidableEq

namespace PendingJobCancellationScope

def includesReadyJobs (scope : PendingJobCancellationScope) : Bool := scope ≠ delayed

def includesDelayedJobs (scope : PendingJobCancellationScope) : Bool := scope ≠ ready

end PendingJobCancellationScope

/-- The results of `CancelPendingJob::handle`. -/
inductive PendingJobCancellationResult
  | notCancellable
  | batched
  | cancelled
  deriving DecidableEq

/-- `CancelPendingJob::belongsToBatch` of a raw payload. -/
def belongsToBatch (payload : Option Payload) : Bool :=
  match (payload.bind Payload.decoded).bind (Php.get "data") with
  | some (.array data) =>
      match Php.getStr "batchId" data with
      | some batchId => batchId ≠ ""
      | none => false
  | _ => false

/-- `CancelPendingJob::handle`. Its clean-up touches no queue and is left out. -/
def cancelPendingJob (queues : QueueManager) (id : String) (scope : PendingJobCancellationScope) :
    ActionProgram PendingJobCancellationResult := do
  match ← (answer (.getJobs id) : ActionProgram (Option JobRecord)) with
  | none => pure .notCancellable
  | some job =>
      if job.status ≠ some "pending" then pure .notCancellable
      else if belongsToBatch job.payload then pure .batched
      else
        match job.connection, job.queue, job.payload with
        | some connection, some queueName, some payload =>
            if connection = "" ∨ queueName = "" ∨ payload = .empty then pure .notCancellable
            else if queues.isRedisQueue connection then do
              let removed ← (answer (.cancel (queues.ready connection queueName) payload
                scope.includesReadyJobs scope.includesDelayedJobs) : ActionProgram ℕ)
              if 0 < removed then pure .cancelled else pure .notCancellable
            else Prog.fail .notSupported
        | _, _, _ => pure .notCancellable

/-! ## The system -/

/-- What a process does: one call of an action, one run of Laravel's `migrate`, or one job taken by
a worker. -/
inductive Actor
  | release (id : String) (now : ℤ)
  | cancel (id : String) (scope : PendingJobCancellationScope)
  | migrate (key : String) (now : ℤ) (due : List Payload)
  | work (key : String)

/-- What a process ends with. -/
inductive Outcome
  | release (result : ReleaseDelayedJobNowResult)
  | cancel (result : PendingJobCancellationResult)
  | migrated
  | worked (payload : Option Payload)

/-- The program of a process. -/
def Actor.program (floats : FloatWriter) (queues : QueueManager) : Actor → ActionProgram Outcome
  | .release id now => do
      let result ← handle floats queues id now
      pure (.release result)
  | .cancel id scope => do
      let result ← cancelPendingJob queues id scope
      pure (.cancel result)
  | .migrate key now due => do
      let _ ← (answer (.migrate key now due) : ActionProgram Unit)
      pure .migrated
  | .work key => do
      let payload ← (answer (.pop key) : ActionProgram (Option Payload))
      pure (.worked payload)

/-- The programs left to the processes, and the store. -/
abbrev System (Pid : Type) : Type :=
  Config Pid Operation Operation.Reply Empty ActionFailure (Store Pid) Outcome

/-- All processes about to start. -/
def start (floats : FloatWriter) (queues : QueueManager) (actors : Pid → Actor) (s : Store Pid) : System Pid where
  prog i := (actors i).program floats queues
  store := s

/-- What the world may do: everything but touch a queue. -/
def World (s s' : Store Pid) : Prop := s'.queues = s.queues ∧ s'.log = s.log

/-! ## The invariant -/

/-- A change takes the payload of the job out of its queue. -/
def Change.TakesOut (id : String) : Change → Prop
  | .cancelled payload => payload.job = some id
  | .popped payload => payload.job = some id
  | _ => False

/-- A worker has taken the job from the queue, or a cancellation has removed it. -/
def Store.Gone (s : Store Pid) (key id : String) : Prop :=
  ∃ touch ∈ s.log, touch.queue = key ∧ touch.change.TakesOut id

/-- A roll-back that directly follows a move of the same process restores the queue the move was
made in. -/
def Touch.Restores (later earlier : Touch Pid) : Prop :=
  later.pid = earlier.pid → ∀ p r score p' r' score', earlier.change = .moved p r score →
    later.change = .rolledBack p' r' score' → later.after = earlier.before

/-- A move made a delayed payload ready whose replacement was not ready before. -/
def Touch.MovesOne (touch : Touch Pid) : Prop :=
  ∀ p r score, touch.change = .moved p r score →
    touch.before.delayed p = some score ∧ r ∉ touch.before.ready ∧
      touch.after = touch.before.hurry p r

/-- What holds of the store at every moment, for the queues `q₀` of the beginning. -/
structure Inv (floats : FloatWriter) (q₀ : String → Queue) (s : Store Pid) : Prop where
  conserved : ∀ key, Queue.Conserved floats (q₀ key) (s.Gone key) (s.queues key)
  /-- The latest change of a queue has left the queue behind as it is. -/
  current : ∀ key touch rest, s.touchesOf key = touch :: rest → touch.after = s.queues key
  moved : ∀ touch ∈ s.log, touch.MovesOne
  restored : ∀ key, (s.touchesOf key).IsChain Touch.Restores

section Invariant

variable {floats : FloatWriter} {q₀ : String → Queue} {s : Store Pid} {i : Pid} {key : String}
  {change : Change}
  {q : Queue}

/-- The key has the new queue. -/
theorem Store.queues_touch : (s.touch i key change q).queues key = q := by
  unfold touch
  exact Function.update_self _ _ _

/-- The other keys have the old ones. -/
theorem Store.queues_touch_ne {key' : String} (h : key' ≠ key) :
    (s.touch i key change q).queues key' = s.queues key' := by
  unfold touch
  exact Function.update_of_ne h _ _

/-- A change is recorded under its key. -/
theorem Store.touchesOf_touch {key' : String} :
    (s.touch i key change q).touchesOf key' =
      if key = key' then ⟨i, key, change, s.queues key, q⟩ :: s.touchesOf key'
      else s.touchesOf key' := by
  unfold touchesOf touch
  rw [List.filter_cons]
  simp

/-- What is gone from a key, after one more change. -/
theorem Store.gone_touch {key' id : String} :
    (s.touch i key change q).Gone key' id ↔
      s.Gone key' id ∨ key = key' ∧ change.TakesOut id := by
  unfold Gone touch
  rw [List.exists_mem_cons_iff, or_comm]

/-- One change of a queue keeps the invariant. -/
theorem Inv.touch (h : Inv floats q₀ s)
    (hq : Queue.Conserved floats (q₀ key) (fun id => s.Gone key id ∨ change.TakesOut id) q)
    (hmoves : Touch.MovesOne ⟨i, key, change, s.queues key, q⟩)
    (hrestores : ∀ earlier ∈ s.log, earlier.after = s.queues key →
      Touch.Restores ⟨i, key, change, s.queues key, q⟩ earlier) :
    Inv floats q₀ (s.touch i key change q) := by
  refine ⟨fun key' => ?_, fun key' touch rest htouch => ?_, fun touch hmem => ?_, fun key' => ?_⟩
  · by_cases hkey : key = key'
    · subst hkey
      rw [Store.queues_touch]
      exact hq.congr fun id => by rw [Store.gone_touch]; simp
    · rw [Store.queues_touch_ne (Ne.symm hkey)]
      exact (h.conserved key').congr fun id => by rw [Store.gone_touch]; simp [hkey]
  · rw [Store.touchesOf_touch] at htouch
    by_cases hkey : key = key'
    · subst hkey
      rw [if_pos rfl] at htouch
      rw [← (List.cons.inj htouch).1, Store.queues_touch]
    · rw [if_neg hkey] at htouch
      rw [h.current key' touch rest htouch, Store.queues_touch_ne (Ne.symm hkey)]
  · rcases List.mem_cons.mp hmem with rfl | hmem
    · exact hmoves
    · exact h.moved touch hmem
  · rw [Store.touchesOf_touch]
    split_ifs with hkey
    · subst hkey
      cases hof : s.touchesOf key with
      | nil => exact List.isChain_singleton _
      | cons earlier rest =>
          have hmem : earlier ∈ s.log :=
            List.mem_of_mem_filter (hof ▸ List.mem_cons_self : earlier ∈ s.touchesOf key)
          have hchain := h.restored key
          rw [hof] at hchain
          exact List.isChain_cons_cons.mpr
            ⟨hrestores earlier hmem (h.current key earlier rest hof), hchain⟩
    · exact h.restored key'

/-- A change that is no roll-back restores nothing. -/
theorem Touch.restores_of_not_rolledBack {later earlier : Touch Pid}
    (h : ∀ p r score, later.change ≠ .rolledBack p r score) : later.Restores earlier :=
  fun _ _ _ _ p' r' score' _ hback => absurd hback (h p' r' score')

/-- A change that is no move moves nothing. -/
theorem Touch.movesOne_of_not_moved {touch : Touch Pid}
    (h : ∀ p r score, touch.change ≠ .moved p r score) : touch.MovesOne :=
  fun p r score hmoved => absurd hmoved (h p r score)

/-! ## Every operation keeps the invariant -/

/-- What a process has to know of its own changes when it performs an operation: a replacement is
one of the payload, and a roll-back takes back the only change of the process. -/
def MayPerform [DecidableEq Pid] (floats : FloatWriter) (q₀ : String → Queue) (i : Pid) : Operation → Store Pid → Prop
  | .moveNow _ payload replacement, _ =>
      ∃ timestamp, payload.withMadeAvailableMetadata floats timestamp = some replacement
  | .rollback key payload replacement score, s =>
      replacement.job = payload.job ∧ (q₀ key).delayed payload = some score ∧
        ∃ before after, s.touchesBy i = [⟨i, key, .moved payload replacement score, before, after⟩]
  | _, _ => True

variable [DecidableEq Pid] (h₀ : ∀ key, (q₀ key).OnePayloadEach)
include h₀

/-- **One operation** that is permitted keeps the invariant. -/
theorem perform_keeps (h : Inv floats q₀ s) {o : Operation} (ho : MayPerform floats q₀ i o s) :
    Inv floats q₀ (perform i o s).2 := by
  cases o with
  | getJobs id => exact h
  | migrated connection queue replacement => exact h
  | moveNow key payload replacement =>
      obtain ⟨timestamp, htimestamp⟩ := ho
      have hjob := Payload.job_withMadeAvailableMetadata htimestamp
      -- the script moves nothing where the payload is not delayed any more
      cases hp : (s.queues key).delayed payload with
      | none =>
          simp only [perform, Queue.moveNow, hp, Option.map_none]
          exact h
      | some score =>
          simp only [perform, Queue.moveNow, hp, Option.map_some]
          have hc := h.conserved key
          have horiginal : (q₀ key).delayed payload ≠ none := by
            rw [hc.delayed payload score hp]
            exact Option.some_ne_none score
          have hmoved := hc.hurry (h₀ key) hp hjob
            (Or.inr (Or.inr ⟨payload, timestamp, horiginal, htimestamp⟩))
          refine h.touch (hmoved.congr fun id => by simp [Change.TakesOut]) ?_ ?_
          · intro p r score' hchange
            obtain ⟨rfl, rfl, rfl⟩ := Change.moved.inj hchange
            exact ⟨hp, hc.notMem_ready (h₀ key) hp hjob, rfl⟩
          · exact fun earlier _ _ => Touch.restores_of_not_rolledBack fun p r score' => by simp
  | rollback key payload replacement score =>
      obtain ⟨hjob, horiginal, before, after, hown⟩ := ho
      -- nothing is put back where the replacement has been taken
      by_cases hmem : replacement ∈ (s.queues key).ready
      · simp only [perform, Queue.rollback, if_pos hmem]
        have hpostponed := (h.conserved key).postpone (h₀ key) hmem hjob horiginal
        refine h.touch (hpostponed.congr fun id => by simp [Change.TakesOut]) ?_ ?_
        · exact Touch.movesOne_of_not_moved fun p r score' => by simp
        · -- the change before is the only change of the process, its own move
          rintro earlier hlog hafter hpid p r score' p' r' score'' hchange hback
          have hmine : earlier ∈ s.touchesBy i := List.mem_filter.mpr ⟨hlog, by simpa using hpid.symm⟩
          rw [hown] at hmine
          obtain rfl := List.mem_singleton.mp hmine
          obtain ⟨hdelayed, hnew, hhurried⟩ := h.moved _ hlog _ _ _ rfl
          have hrestored := Queue.rollback_hurry hdelayed hnew
          rw [← hhurried, hafter] at hrestored
          unfold Queue.rollback at hrestored
          rw [if_pos hmem] at hrestored
          exact Option.some.inj hrestored
      · simp only [perform, Queue.rollback, if_neg hmem]
        exact h
  | cancel key payload includesReady includesDelayed =>
      -- a cancellation either finds nothing or takes one payload out
      rcases (h.conserved key).cancel (h₀ key) payload includesReady includesDelayed with ⟨hzero, _⟩ | ⟨hpos, hcancelled⟩
      · cases hcancel : (s.queues key).cancel payload includesReady includesDelayed with
        | mk removed q =>
            rw [hcancel] at hzero
            obtain rfl : removed = 0 := hzero
            simp only [perform, hcancel]
            exact h
      · cases hcancel : (s.queues key).cancel payload includesReady includesDelayed with
        | mk removed q =>
            rw [hcancel] at hpos hcancelled
            cases removed with
            | zero => exact absurd hpos (Nat.lt_irrefl 0)
            | succ n =>
                simp only [perform, hcancel]
                refine h.touch (hcancelled.congr fun id => by simp [Change.TakesOut]) ?_ ?_
                · exact Touch.movesOne_of_not_moved fun p r score' => by simp
                · exact fun earlier _ _ =>
                    Touch.restores_of_not_rolledBack fun p r score' => by simp
  | migrate key now due =>
      simp only [perform]
      -- the clock has not gone back
      split_ifs
      · exact h
      · have hmigrated := Queue.Conserved.migrate (h₀ key) now due (h.conserved key)
        refine h.touch (hmigrated.congr fun id => by simp [Change.TakesOut]) ?_ ?_
        · exact Touch.movesOne_of_not_moved fun p r score' => by simp
        · exact fun earlier _ _ => Touch.restores_of_not_rolledBack fun p r score' => by simp
  | pop key =>
      cases hpop : (s.queues key).pop with
      | none =>
          simp only [perform, hpop]
          exact h
      | some x =>
          obtain ⟨payload, q⟩ := x
          simp only [perform, hpop]
          have hpopped := (h.conserved key).pop (h₀ key) hpop
          refine h.touch (hpopped.congr fun id => by simp [Change.TakesOut]) ?_ ?_
          · exact Touch.movesOne_of_not_moved fun p r score' => by simp
          · exact fun earlier _ _ => Touch.restores_of_not_rolledBack fun p r score' => by simp

/-- An operation keeps the invariant whatever fault awaits it. -/
theorem exec_keeps (h : Inv floats q₀ s) {o : Operation} (ho : MayPerform floats q₀ i o s) :
    Inv floats q₀ (exec i o s).2 := by
  have hperform := perform_keeps h₀ h ho
  unfold exec
  cases s.fault with
  | none => exact hperform
  | unsent => exact h
  | unanswered => exact hperform

end Invariant

/-! ## The changes of one process -/

section Own

variable [DecidableEq Pid] {s : Store Pid} {i j : Pid} {key : String} {change : Change} {q : Queue}

/-- A change is recorded under its process. -/
theorem Store.touchesBy_touch :
    (s.touch i key change q).touchesBy j =
      if i = j then ⟨i, key, change, s.queues key, q⟩ :: s.touchesBy j else s.touchesBy j := by
  unfold touchesBy touch
  rw [List.filter_cons]
  simp

/-- An operation adds at most one change, of the process that performs it. -/
theorem touchesBy_perform_ne (hne : i ≠ j) (o : Operation) :
    (perform i o s).2.touchesBy j = s.touchesBy j := by
  cases o with
  | getJobs id => rfl
  | migrated connection queue replacement => rfl
  | moveNow key payload replacement =>
      simp only [perform]
      cases (s.queues key).moveNow payload replacement with
      | none => rfl
      | some x => exact Store.touchesBy_touch.trans (if_neg hne)
  | rollback key payload replacement score =>
      simp only [perform]
      cases (s.queues key).rollback payload replacement score with
      | none => rfl
      | some x => exact Store.touchesBy_touch.trans (if_neg hne)
  | cancel key payload includesReady includesDelayed =>
      simp only [perform]
      cases (s.queues key).cancel payload includesReady includesDelayed with
      | mk removed q =>
          cases removed with
          | zero => rfl
          | succ n => exact Store.touchesBy_touch.trans (if_neg hne)
  | migrate key now due =>
      simp only [perform]
      split_ifs
      · rfl
      · exact Store.touchesBy_touch.trans (if_neg hne)
  | pop key =>
      simp only [perform]
      cases (s.queues key).pop with
      | none => rfl
      | some x => exact Store.touchesBy_touch.trans (if_neg hne)

/-- No process changes anything under the name of another. -/
theorem touchesBy_exec_ne (hne : i ≠ j) (o : Operation) :
    (exec i o s).2.touchesBy j = s.touchesBy j := by
  unfold exec
  cases s.fault with
  | none => exact touchesBy_perform_ne hne o
  | unsent => rfl
  | unanswered => exact touchesBy_perform_ne hne o

/-! ## The discipline of a process -/

/-- The others keep the invariant and add no change in the name of the process, which keeps the
invariant at each of its operations. -/
def acting (floats : FloatWriter) (q₀ : String → Queue) (i : Pid) : Discipline Operation Empty (Store Pid) where
  rely _ s s' := (Inv floats q₀ s → Inv floats q₀ s') ∧ s'.touchesBy i = s.touchesBy i
  assume _ _ _ := True
  ok _ o s := Inv floats q₀ s → Inv floats q₀ (exec i o s).2
  rely_refl _ _ := ⟨fun h => h, rfl⟩
  rely_trans _ _ _ _ h h' := ⟨fun hs => h'.1 (h.1 hs), h'.2.trans h.2⟩

/-- The invariant holds, and the process has made the given changes. -/
def Holding (floats : FloatWriter) (q₀ : String → Queue) (i : Pid) (touches : List (Touch Pid)) (s : Store Pid) : Prop :=
  Inv floats q₀ s ∧ s.touchesBy i = touches

variable {floats : FloatWriter} {q₀ : String → Queue} {touches : List (Touch Pid)}

/-- What a process has done stays done, whatever the others do. -/
theorem holding_stable : (acting floats q₀ i).Stable (Holding floats q₀ i touches) :=
  fun _ _ _ hr h => ⟨hr.1 h.1, hr.2.trans h.2⟩

section Rules

variable (h₀ : ∀ key, (q₀ key).OnePayloadEach)
include h₀

/-- An operation whose answer may be lost. -/
theorem wp_attempt {o : Operation} {Q : Option o.Answer → Store Pid → Prop}
    (hs : Holding floats q₀ i touches s)
    (hmay : ∀ s, Holding floats q₀ i touches s → MayPerform floats q₀ i o s)
    (hanswer : ∀ s, Holding floats q₀ i touches s → Inv floats q₀ (perform i o s).2 →
      Q (some (perform i o s).1) (perform i o s).2 ∧ Q none (perform i o s).2)
    (hunsent : ∀ s, Holding floats q₀ i touches s → Q none s) :
    wp (exec i) (acting floats q₀ i) (attempt o) Q (fun _ _ => True) s := by
  intro s' hr _
  have hs' : Holding floats q₀ i touches s' := holding_stable [] s s' hr hs
  have hinv := perform_keeps h₀ hs'.1 (hmay s' hs')
  refine ⟨fun h => exec_keeps h₀ h (hmay s' hs'), ?_⟩
  show Q (exec i o s').1 (exec i o s').2
  unfold exec
  cases s'.fault with
  | none => exact (hanswer s' hs' hinv).1
  | unsent => exact hunsent s' hs'
  | unanswered => exact (hanswer s' hs' hinv).2

/-- An operation whose loss is an exception. -/
theorem wp_answer {o : Operation} {Q : o.Answer → Store Pid → Prop}
    (hs : Holding floats q₀ i touches s)
    (hmay : ∀ s, Holding floats q₀ i touches s → MayPerform floats q₀ i o s)
    (hanswer : ∀ s, Holding floats q₀ i touches s → Inv floats q₀ (perform i o s).2 →
      Q (perform i o s).1 (perform i o s).2) :
    wp (exec i) (acting floats q₀ i) (answer o) Q (fun _ _ => True) s :=
  wp_bind.mpr (wp_attempt h₀ hs hmay (fun s hs hinv => ⟨hanswer s hs hinv, trivial⟩)
    fun _ _ => trivial)

/-- Reading the job repository changes nothing. -/
theorem wp_getJobs {id : String} {Q : Option JobRecord → Store Pid → Prop}
    (hs : Holding floats q₀ i touches s) (h : ∀ job s, Holding floats q₀ i touches s → Q job s) :
    wp (exec i) (acting floats q₀ i) (answer (.getJobs id)) Q (fun _ _ => True) s :=
  wp_answer h₀ hs (fun _ _ => trivial) fun s hs _ => h (s.repository id) s hs

/-! ## The programs -/

/-- What the result of a release says of the changes the call has made. -/
def Reported (i : Pid) (s : Store Pid) : ReleaseDelayedJobNowResult → Prop
  | .released => ∃ key payload replacement score before after,
      s.touchesBy i = [⟨i, key, .moved payload replacement score, before, after⟩]
  | .notDelayed => s.touchesBy i = []

variable (hscores : ∀ key p score, (q₀ key).delayed p = some score → 0 < score)
include hscores

/-- **The release** reports what it has done. -/
theorem release_reports {connection queueName : String} {payload replacement : Payload}
    {timestamp : ℤ} (htimestamp : payload.withMadeAvailableMetadata floats timestamp = some replacement)
    (hs : Holding floats q₀ i [] s) :
    wp (exec i) (acting floats q₀ i) (release key connection queueName payload replacement)
      (fun result s => Reported i s result) (fun _ _ => True) s := by
  unfold release
  refine wp_bind.mpr (wp_answer h₀ hs (fun _ _ => ⟨timestamp, htimestamp⟩) fun s hs hinv => ?_)
  cases hp : (s.queues key).delayed payload with
  | none =>
      simp only [perform, Queue.moveNow, hp, Option.map_none]
      exact hs.2
  | some score =>
      have horiginal : (q₀ key).delayed payload = some score :=
        (hs.1.conserved key).delayed payload score hp
      simp only [perform, Queue.moveNow, hp, Option.map_some] at hinv ⊢
      have hpositive : ¬score ≤ 0 := Int.not_le.mpr (hscores key payload score horiginal)
      rw [if_neg hpositive]
      -- from here on the move is the only change of the process
      have hmoved : Holding floats q₀ i
          [⟨i, key, .moved payload replacement score, s.queues key,
            (s.queues key).hurry payload replacement⟩]
          (s.touch i key (.moved payload replacement score)
            ((s.queues key).hurry payload replacement)) := by
        refine ⟨hinv, ?_⟩
        rw [Store.touchesBy_touch, if_pos rfl, hs.2]
      generalize s.touch i key _ _ = s' at hmoved
      have hrollback : ∀ s', Holding floats q₀ i
          [⟨i, key, .moved payload replacement score, s.queues key,
            (s.queues key).hurry payload replacement⟩] s' →
          wp (exec i) (acting floats q₀ i) (attempt (.rollback key payload replacement score) >>= fun _ =>
            (Prog.fail .migrated : ActionProgram ReleaseDelayedJobNowResult))
            (fun result s => Reported i s result) (fun _ _ => True) s' := fun s' hs' =>
        wp_bind.mpr (wp_attempt h₀ hs'
          (fun _ hs'' => ⟨Payload.job_withMadeAvailableMetadata htimestamp, horiginal, _, _, hs''.2⟩)
          (fun _ _ _ => ⟨trivial, trivial⟩) fun _ _ => trivial)
      refine wp_bind.mpr (wp_attempt h₀ hmoved (fun _ _ => trivial) (fun s' hs' _ => ⟨?_, ?_⟩)
        fun s' hs' => hrollback s' hs')
      · exact ⟨key, payload, replacement, score, _, _, hs'.2⟩
      · exact hrollback s' hs'

/-- **The action** reports what it has done. -/
theorem handle_reports (queues : QueueManager) (id : String) (now : ℤ) (hs : Holding floats q₀ i [] s) :
    wp (exec i) (acting floats q₀ i) (handle floats queues id now) (fun result s => Reported i s result)
      (fun _ _ => True) s := by
  unfold handle
  refine wp_bind.mpr (wp_getJobs h₀ hs fun job s hs => ?_)
  cases job with
  | none => exact hs.2
  | some job =>
      dsimp only
      split_ifs
      · exact hs.2
      · split
        next connection queueName payload _ _ _ =>
          split_ifs
          · exact hs.2
          · cases htimestamp : payload.withMadeAvailableMetadata floats now with
            | none => exact hs.2
            | some replacement => exact release_reports h₀ hscores htimestamp hs
          · trivial
        next => exact hs.2

omit hscores in
/-- The cancellation gives permitted operations only. -/
theorem cancelPendingJob_acts (queues : QueueManager) (id : String)
    (scope : PendingJobCancellationScope) (hs : Holding floats q₀ i touches s) :
    wp (exec i) (acting floats q₀ i) (cancelPendingJob queues id scope) (fun _ _ => True)
      (fun _ _ => True) s := by
  unfold cancelPendingJob
  refine wp_bind.mpr (wp_getJobs h₀ hs fun job s hs => ?_)
  cases job with
  | none => trivial
  | some job =>
      dsimp only
      split_ifs
      · trivial
      · trivial
      · split
        next connection queueName payload _ _ _ =>
          split_ifs
          · trivial
          · refine wp_bind.mpr (wp_answer h₀ hs (fun _ _ => trivial) fun s _ _ => ?_)
            split_ifs <;> trivial
          · trivial
        next => trivial

/-- What a process ends with. -/
def EndsWith (i : Pid) (outcome : Outcome) (s : Store Pid) : Prop :=
  ∀ result, outcome = .release result → Reported i s result

/-- **Every actor** ends with the changes it has reported. -/
theorem program_ends (queues : QueueManager) (actor : Actor) (hs : Holding floats q₀ i [] s) :
    wp (exec i) (acting floats q₀ i) (actor.program floats queues) (EndsWith i) (fun _ _ => True) s := by
  cases actor with
  | release id now =>
      refine wp_bind_of (handle_reports h₀ hscores queues id now hs) fun result s hresult => ?_
      rintro result' ⟨⟩
      exact hresult
  | cancel id scope =>
      refine wp_bind_of (cancelPendingJob_acts h₀ queues id scope hs) fun result s _ => ?_
      rintro result' ⟨⟩
  | migrate key now due =>
      refine wp_bind.mpr (wp_answer h₀ hs (fun _ _ => trivial) fun s _ _ => ?_)
      rintro result' ⟨⟩
  | work key =>
      refine wp_bind.mpr (wp_answer h₀ hs (fun _ _ => trivial) fun s _ _ => ?_)
      rintro result' ⟨⟩

end Rules

end Own

/-! ## Every interleaving -/

section Results

variable [DecidableEq Pid] {floats : FloatWriter} {queues : QueueManager} {actors : Pid → Actor} {s : Store Pid}
  {d d' : System Pid} {e : Event Pid} {q₀ : String → Queue}

omit [DecidableEq Pid] in
/-- What the world does keeps the invariant. -/
theorem inv_of_world {s s' : Store Pid} (hw : World s s') (h : Inv floats q₀ s) : Inv floats q₀ s' := by
  obtain ⟨hqueues, hlog⟩ := hw
  refine ⟨fun key => ?_, fun key touch rest htouch => ?_, ?_, fun key => ?_⟩
  · rw [hqueues]
    exact (h.conserved key).congr fun id => by
      unfold Store.Gone
      rw [hlog]
  · rw [hqueues]
    refine h.current key touch rest ?_
    unfold Store.touchesOf at htouch ⊢
    rwa [hlog] at htouch
  · rw [hlog]
    exact h.moved
  · unfold Store.touchesOf
    rw [hlog]
    exact h.restored key

/-- What the world does stays within what every process relies on. -/
theorem rely_of_world {s s' : Store Pid} (hw : World s s') (i : Pid) (ls : List Empty) :
    (acting floats q₀ i).rely ls s s' := by
  refine ⟨inv_of_world hw, ?_⟩
  unfold Store.touchesBy
  rw [hw.2]

/-- **The step lemma**: the invariant, and that every process meets its discipline, are kept. -/
theorem meets_step
    (h : Inv floats q₀ d.store ∧ d.Meets exec (acting floats q₀) EndsWith fun _ _ _ => True)
    (hs : Step exec World d e d') :
    Inv floats q₀ d'.store ∧ d'.Meets exec (acting floats q₀) EndsWith fun _ _ _ => True := by
  obtain ⟨hinv, hmeets⟩ := h
  have hrely : Inv floats q₀ d'.store ∧ ∀ j, e ≠ .run j → ∀ ls, (acting floats q₀ j).rely ls d.store d'.store := by
    cases hs with
    | @run i ls o next hi =>
        have hinv' : Inv floats q₀ (exec i o d.store).2 := hmeets.ok hi trivial hinv
        refine ⟨hinv', fun j hj ls' => ⟨fun _ => hinv', touchesBy_exec_ne (fun hij => ?_) o⟩⟩
        exact hj (congrArg Event.run hij)
    | crash => exact ⟨hinv, fun j _ ls => (acting floats q₀ j).rely_refl ls d.store⟩
    | world hw => exact ⟨inv_of_world hw hinv, fun j _ ls => rely_of_world hw j ls⟩
  refine ⟨hrely.1, hmeets.step hs (fun _ _ _ _ _ _ => trivial)
    (fun j ls o next hj _ => hrely.2 j hj ls) (fun j outcome hj hends result hresult => ?_)
    fun _ _ _ _ => trivial⟩
  have hown := (hrely.2 j hj []).2
  have hreported := hends result hresult
  cases result with
  | released =>
      unfold Reported at hreported ⊢
      rwa [hown]
  | notDelayed => exact hown.trans hreported

/-- What holds at every moment, for the queues `q₀` of the beginning. -/
structure JobsConserved (floats : FloatWriter) (q₀ : String → Queue) (d : System Pid) : Prop where
  /-- A job that no worker has taken and no cancellation has removed has exactly one payload. -/
  sole : ∀ key id, (q₀ key).Sole id → ¬d.store.Gone key id → (d.store.queues key).Sole id
  /-- A delayed payload is an original one with its original score. -/
  delayed : ∀ key p score, (d.store.queues key).delayed p = some score →
    (q₀ key).delayed p = some score
  /-- A ready payload is an original one, or the replacement of an original delayed one. -/
  ready : ∀ key, ∀ p ∈ (d.store.queues key).ready, Queue.Descends floats (q₀ key) p
  /-- A call that reports a release has made a payload ready, and has changed nothing else. -/
  released : ∀ i, d.prog i = .ret (.release .released) →
    ∃ key payload replacement score before after,
      d.store.touchesBy i = [⟨i, key, .moved payload replacement score, before, after⟩]
  /-- A call that reports that the job is not delayed has changed nothing. -/
  notDelayed : ∀ i, d.prog i = .ret (.release .notDelayed) → d.store.touchesBy i = []
  /-- A roll-back that directly follows the move of its own call among the changes of the queue
  restores the queue the move was made in. -/
  restored : ∀ key, (d.store.touchesOf key).IsChain Touch.Restores

/-- **No job is lost or doubled**: at every moment of every interleaving of releases, cancellations,
migrations and workers, with any of their scripts failing at any time, the jobs are conserved and
the results of the releases are true. -/
theorem jobs_conserved (hone : ∀ key, (s.queues key).OnePayloadEach)
    (hscores : ∀ key p score, (s.queues key).delayed p = some score → 0 < score)
    (hlog : s.log = [])
    (h : Reaches exec World (fun _ _ _ => True) (start floats queues actors s) d) :
    JobsConserved floats s.queues d := by
  have hgone : ∀ key id, ¬s.Gone key id := fun key id hgone => by
    obtain ⟨touch, hmem, _⟩ := hgone
    rw [hlog] at hmem
    exact List.not_mem_nil hmem
  have hinit : Inv floats s.queues s := by
    refine ⟨fun key => (Queue.Conserved.refl (s.queues key)).congr fun id => ?_,
      fun key touch rest htouch => ?_, fun touch hmem => ?_, fun key => ?_⟩
    · simp [hgone key id]
    · rw [Store.touchesOf, hlog] at htouch
      cases htouch
    · rw [hlog] at hmem
      exact absurd hmem List.not_mem_nil
    · rw [Store.touchesOf, hlog]
      exact List.isChain_nil
  have hown : ∀ i, s.touchesBy i = [] := fun i => by
    rw [Store.touchesBy, hlog]
    rfl
  have hstart : (start floats queues actors s).Meets exec (acting floats s.queues) EndsWith
      fun _ _ _ => True := fun i =>
    program_ends hone hscores queues (actors i) ⟨hinit, hown i⟩
  obtain ⟨hinv, hmeets⟩ := h.invariant
    (I := fun d => Inv floats s.queues d.store ∧ d.Meets exec (acting floats s.queues) EndsWith fun _ _ _ => True)
    (fun _ _ _ hI hs _ => meets_step hI hs) ⟨hinit, hstart⟩
  have hends : ∀ i outcome, d.prog i = .ret outcome → EndsWith i outcome d.store := by
    intro i outcome hi
    have hw := hmeets i
    rw [hi] at hw
    exact hw
  exact ⟨fun key id => (hinv.conserved key).sole (hone key), fun key => (hinv.conserved key).delayed,
    fun key => (hinv.conserved key).ready, fun i hi => hends i _ hi .released rfl,
    fun i hi => hends i _ hi .notDelayed rfl, hinv.restored⟩

end Results

/-! ## A run -/

/-- A delayed payload of the job `report`. -/
def reportPayload : Payload := ⟨some (.obj [("uuid", .str "report")]), ""⟩

/-- The queue `reports` with the delayed job `report`, every other queue empty. -/
def reportQueues (key : String) : Queue where
  delayed p := if key = "reports" ∧ p = reportPayload then some 60 else none
  ready := []
  notify := 0

/-- The queue of the example has one delayed job. -/
theorem delayed_reportQueues {key : String} {p : Payload} {score : ℤ}
    (h : (reportQueues key).delayed p = some score) :
    key = "reports" ∧ p = reportPayload ∧ score = 60 := by
  unfold reportQueues at h
  dsimp only at h
  split_ifs at h with hp
  exact ⟨hp.1, hp.2, (Option.some.inj h).symm⟩

/-- Its ids have one payload each. -/
theorem onePayloadEach_reportQueues (key : String) : (reportQueues key).OnePayloadEach := by
  have hjob : reportPayload.job = some "report" := by decide
  refine ⟨fun p hp => ?_, fun p hp => absurd hp List.not_mem_nil, fun id => ?_⟩
  · obtain ⟨score, hscore⟩ := Option.ne_none_iff_exists'.mp hp
    exact ⟨"report", by rw [(delayed_reportQueues hscore).2.1, hjob]⟩
  · by_cases hid : key = "reports" ∧ id = "report"
    · obtain ⟨rfl, rfl⟩ := hid
      refine Or.inl (Or.inl ⟨⟨reportPayload, ⟨hjob, by simp [reportQueues]⟩, ?_⟩, rfl⟩)
      rintro p ⟨_, hp⟩
      obtain ⟨score, hscore⟩ := Option.ne_none_iff_exists'.mp hp
      exact (delayed_reportQueues hscore).2.1
    · refine Or.inr ⟨Queue.not_waiting_iff.mpr fun p hp => ?_, rfl⟩
      by_contra hne
      obtain ⟨score, hscore⟩ := Option.ne_none_iff_exists'.mp hne
      obtain ⟨hkey, rfl, _⟩ := delayed_reportQueues hscore
      exact hid ⟨hkey, (Option.some.inj (hjob.symm.trans hp)).symm⟩

/-- The job `report` in its queue and in the job repository. -/
def reportStore : Store ℕ where
  queues := reportQueues
  repository _ := some ⟨some "pending", some "redis", some "reports", some reportPayload⟩
  fault := .none
  log := []

/-- Every process releases the job `report` at the time 30. -/
def reportSystem : System ℕ :=
  start .verbatim ⟨fun _ => true, fun _ queue => queue⟩ (fun _ => .release "report" 30) reportStore

/-- Two releases of one job: the first makes it ready, the second finds it no longer delayed. -/
theorem jobs_conserved_report :
    JobsConserved .verbatim reportStore.queues
      (reportSystem.play exec [.run 0, .run 1, .run 0, .run 1, .run 0]) :=
  jobs_conserved onePayloadEach_reportQueues
    (fun _ _ _ h => by rw [(delayed_reportQueues h).2.2]; decide) rfl
    (Config.reaches_play _ (fun f hf => by simp at hf) reportSystem)

end ReleaseDelayedJobNow

end HorizonNewDawn

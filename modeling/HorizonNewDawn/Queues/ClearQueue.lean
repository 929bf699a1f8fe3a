import HorizonNewDawn.Jobs.RetainedJobMetadata
import HorizonNewDawn.Program.History
import HorizonNewDawn.Program.Interleaving
import HorizonNewDawn.Program.Script

/-! # Clearing a queue while jobs are pushed to it

`ClearQueue::handle` first lets the driver clear the structures of one Redis queue and then purges
the Horizon metadata of the jobs of that connection and queue, one atomic script for each page of
`ZSCAN` over `pending_jobs`. A push writes the payload into the queue and the metadata into
Horizon's keys, in either order. Nothing couples the two parts, so a push may fall between the
driver clear and a purge script: its payload stays, its metadata goes (`cleared_metadata_lost`).

What the code does ensure is `kept_iff_not_met`: in every interleaving a recorded job has its hash
and its entry in `pending_jobs` exactly when no purge script of the run has met it, which is read off
the history of the run (`met`). A job recorded after the last purge script is therefore always kept. -/

namespace HorizonNewDawn

open Program

namespace ClearQueue

/-! ## The store -/

/-- The fields of a Horizon job hash a purge script reads. `payload` is `none` where the field is
absent and `some none` where it is not a JSON text. -/
structure JobHash where
  status : Option String
  queue : Option String
  connection : Option String
  payload : Option (Option Json)

/-- A value under a key of Horizon's connection, without its prefix. -/
inductive HorizonValue
  | sortedSet (members : List String)
  | hash (job : JobHash)

/-- The structures of one queue, and Horizon's keys. -/
structure Store where
  ready : List String
  delayed : List String
  reserved : List String
  horizon : String → Option HorizonValue

/-- The connection and the queue an action is about. -/
structure QueueTargetData where
  connection : String
  queue : String

namespace Store

/-- The members of the sorted set under a key. -/
def members (s : Store) (key : String) : List String :=
  match s.horizon key with
  | some (.sortedSet members) => members
  | _ => []

/-- Whether there is a hash under a key. -/
def hasHash (s : Store) (key : String) : Bool :=
  match s.horizon key with
  | some (.hash _) => true
  | _ => false

/-- Put a value, or nothing, under a key. -/
def setValue (s : Store) (key : String) (value : Option HorizonValue) : Store :=
  { s with horizon := Function.update s.horizon key value }

/-- Put a sorted set under a key. Redis keeps no empty sorted set. -/
def setMembers (s : Store) (key : String) (members : List String) : Store :=
  s.setValue key (if members = [] then none else some (.sortedSet members))

/-- `ZADD`, which fails on a hash and then changes nothing. -/
def zadd (s : Store) (key id : String) : Store :=
  if s.hasHash key then s else s.setMembers key (s.members key ++ [id])

/-- `HMSET` of a whole hash, which fails on a sorted set and then changes nothing. -/
def hmset (s : Store) (key : String) (job : JobHash) : Store :=
  match s.horizon key with
  | some (.sortedSet _) => s
  | _ => s.setValue key (some (.hash job))

/-- `DEL`. -/
def del (s : Store) (key : String) : Store := s.setValue key none

end Store

/-! ## The purge script -/

/-- `ZREM`, which aborts the script on a hash. -/
def zrem (key id : String) : Script Store PUnit := do
  let s ← get
  if s.hasHash key then throw ()
  else set (s.setMembers key ((s.members key).filter (· ≠ id)))

/-- The tags the script removes the job from: the strings of the array under `tags`. -/
def tags (payload : Option (Option Json)) : List String :=
  match payload.join.bind (Json.member "tags") with
  | some (.arr values) => values.filterMap fun | .str s => some s | _ => none
  | _ => []

/-- One job of a page of the purge script. -/
def purgeJob (data : QueueTargetData) (count : ℕ) (jobid : String) : Script Store ℕ := do
  let s ← get
  match s.horizon jobid with
  -- HMGET of a key that holds no hash
  | some (.sortedSet _) => throw ()
  | none => pure count
  | some (.hash job) =>
      if (job.status = some "reserved" ∨ job.status = some "pending") ∧
          job.queue = some data.queue ∧ job.connection = some data.connection then do
        zrem "pending_jobs" jobid
        zrem "recent_jobs" jobid
        (tags job.payload).forM fun tag => zrem tag jobid
        modify (·.del jobid)
        pure (count + 1)
      else pure count

/-- `purgeScript`: the number of purged jobs and the next cursor. `zscan` gives for the members of
a sorted set and a cursor the next cursor and the page. -/
def purgeScript (zscan : List String → ℕ → ℕ × List String) (data : QueueTargetData)
    (cursor : ℕ) : Script Store (ℕ × ℕ) := do
  let s ← get
  if s.hasHash "pending_jobs" then throw ()
  else do
    let count ← (zscan (s.members "pending_jobs") cursor).2.foldlM (purgeJob data) 0
    pure (count, (zscan (s.members "pending_jobs") cursor).1)

/-! ## The atomic operations -/

/-- The atomic operations of a clear and of the pushes. -/
inductive Operation
  /-- The driver clears the structures of the queue. -/
  | clear
  /-- One purge script, from a cursor. -/
  | purge (data : QueueTargetData) (cursor : ℕ)
  /-- A push puts the payload of a job into the queue, or into its delayed jobs. -/
  | pushPayload (id : String) (delayed : Bool)
  /-- A push writes the hash of a job and its entries in the indexes. -/
  | pushMetadata (id : String) (job : JobHash)

/-- The answers: the number of cleared jobs, and of a script its count and cursor or its abort. -/
abbrev Operation.Reply : Operation → Type
  | .clear => ℕ
  | .purge _ _ => Option (ℕ × ℕ)
  | .pushPayload _ _ => Unit
  | .pushMetadata _ _ => Unit

/-- The answer of an operation and the store after it. -/
def exec (zscan : List String → ℕ → ℕ × List String) :
    (o : Operation) → Store → o.Reply × Store
  | .clear, s => (s.ready.length + s.delayed.length + s.reserved.length,
      { s with ready := [], delayed := [], reserved := [] })
  | .purge data cursor, s => (purgeScript zscan data cursor).outcome s
  | .pushPayload id delayed, s =>
      ((), if delayed then { s with delayed := s.delayed ++ [id] }
        else { s with ready := s.ready ++ [id] })
  | .pushMetadata id job, s =>
      ((), ((s.zadd "recent_jobs" id).zadd "pending_jobs" id).hmset id job)

/-! ## The jobs the scripts have met -/

/-- A job of the connection and the queue that is pending or reserved. -/
def Purges (data : QueueTargetData) (job : JobHash) : Prop :=
  (job.status = some "reserved" ∨ job.status = some "pending") ∧
    job.queue = some data.queue ∧ job.connection = some data.connection

instance (data : QueueTargetData) (job : JobHash) : Decidable (Purges data job) :=
  inferInstanceAs (Decidable (_ ∧ _))

/-- Whether there is a hash to purge under the id of a job. -/
def finds (data : QueueTargetData) (s : Store) (jobid : String) : Bool :=
  match s.horizon jobid with
  | some (.hash job) => decide (Purges data job)
  | _ => false

/-- The jobs of a page a script meets, each in the store in which it comes to the job. An aborted
script comes to no more. -/
def metIn (data : QueueTargetData) : ℕ → Store → List String → List String
  | _, _, [] => []
  | count, s, jobid :: page =>
      let later : List String :=
        match (purgeJob data count jobid).outcome s with
        | (some count, s') => metIn data count s' page
        | (none, _) => []
      if finds data s jobid then jobid :: later else later

/-- The jobs an operation meets in the store it is performed in. Only the scripts meet jobs. -/
def metBy (zscan : List String → ℕ → ℕ × List String) : Operation × Store → List String
  | (.purge data cursor, s) =>
      if s.hasHash "pending_jobs" then []
      else metIn data 0 s (zscan (s.members "pending_jobs") cursor).2
  | _ => []

/-- The jobs the purge scripts of a history have met. -/
def met (zscan : List String → ℕ → ℕ × List String) (history : List (Operation × Store)) :
    List String :=
  history.flatMap (metBy zscan)

/-! ## The clear -/

/-- The client a Redis connection is made with. -/
inductive RedisClient
  | phpRedis
  | predis

/-- The exception of a client whose script is aborted. -/
inductive ClearFailure
  | serverException

/-- Programs over the operations. No section of them is named. -/
abbrev ClearProgram (α : Type) : Type := Prog Operation Operation.Reply Empty ClearFailure α

/-- One evaluation of the purge script. -/
def purge (data : QueueTargetData) (cursor : ℕ) : ClearProgram (Option (ℕ × ℕ)) :=
  Prog.perform (Operation.purge data cursor)

/-- One turn of the loop of `purgePending`, with the count so far and the cursor. An aborted script
is `false` with phpredis, which leaves the loop, and an exception with predis. -/
def purgePage (client : RedisClient) (data : QueueTargetData) (count cursor : ℕ) :
    ClearProgram ((ℕ × ℕ) ⊕ ℕ) := do
  match ← purge data cursor with
  | none =>
      match client with
      | .phpRedis => pure (.inr count)
      | .predis => Prog.fail .serverException
  | some (purged, next) =>
      if next = 0 then pure (.inr (count + purged)) else pure (.inl (count + purged, next))

/-- `ClearQueueMetadata::purgePending`, for at most `fuel` pages. -/
def purgePending (client : RedisClient) (fuel : ℕ) (data : QueueTargetData) : ClearProgram ℕ :=
  Prog.iterate fuel (fun (count, cursor) => purgePage client data count cursor) (0, 0)

/-- `ClearQueue::handle`, for a queue of a Redis connection. -/
def handle (client : RedisClient) (fuel : ℕ) (data : QueueTargetData) : ClearProgram ℕ := do
  let cleared : ℕ ← Prog.perform Operation.clear
  let _ ← purgePending client fuel data
  pure cleared

/-! ## The pushes -/

/-- A push: which of its two steps comes first, whether the job is delayed, and its payload. -/
structure Push where
  payloadFirst : Bool
  delayed : Bool
  payload : Option (Option Json)

/-- The hash a push writes. -/
def Push.hash (push : Push) (data : QueueTargetData) : JobHash :=
  ⟨some "pending", some data.queue, some data.connection, push.payload⟩

/-- The two steps of a push. -/
def Push.run (push : Push) (data : QueueTargetData) (id : String) : ClearProgram ℕ :=
  if push.payloadFirst then do
    let () ← Prog.perform (Operation.pushPayload id push.delayed)
    let () ← Prog.perform (Operation.pushMetadata id (push.hash data))
    pure 0
  else do
    let () ← Prog.perform (Operation.pushMetadata id (push.hash data))
    let () ← Prog.perform (Operation.pushPayload id push.delayed)
    pure 0

/-! ## The system -/

/-- The clear is the process `none`, the push of the job `id` the process `some id`. -/
abbrev System : Type :=
  Config (Option String) Operation Operation.Reply Empty ClearFailure
    (Program.Recorded Operation Store) ℕ

/-- One run of the clear and any number of pushes, all about to start. Nothing has been performed. -/
def start (client : RedisClient) (fuel : ℕ) (data : QueueTargetData)
    (pushes : String → Option Push) (s : Store) : System where
  prog
    | none => handle client fuel data
    | some id => (pushes id).elim (.ret 0) fun push => push.run data id
  store := (s, [])

/-- What an interleaving of the steps leads to, with its history. Any process may die. -/
abbrev Interleaved (zscan : List String → ℕ → ℕ × List String) (c d : System) : Prop :=
  Reaches (fun _ => Program.recording (exec zscan)) (fun _ _ => False) (fun _ _ _ => True) c d

/-! ## Small facts about the store -/

section Store

variable {s : Store} {key key' id id' : String} {ids : List String}

/-- Setting the members of a key changes no other key. -/
theorem Store.horizon_setMembers_ne (h : key' ≠ key) :
    (s.setMembers key ids).horizon key' = s.horizon key' := by
  unfold setMembers setValue
  exact Function.update_of_ne h _ _

/-- The members of a key are read off that key. -/
theorem Store.members_congr {s' : Store} (h : s'.horizon key = s.horizon key) :
    s'.members key = s.members key := by
  unfold members
  rw [h]

/-- Whether a key is a hash is read off that key. -/
theorem Store.hasHash_congr {s' : Store} (h : s'.horizon key = s.horizon key) :
    s'.hasHash key = s.hasHash key := by
  unfold hasHash
  rw [h]

/-- Setting the members of a key changes the members of no other. -/
theorem Store.members_setMembers_ne (h : key' ≠ key) :
    (s.setMembers key ids).members key' = s.members key' :=
  members_congr (horizon_setMembers_ne h)

/-- The members that were set are there. -/
@[simp] theorem Store.members_setMembers : (s.setMembers key ids).members key = ids := by
  unfold setMembers setValue members
  simp only [Function.update_self]
  split_ifs with h
  · exact h.symm
  · rfl

/-- A key with members is no hash. -/
@[simp] theorem Store.hasHash_setMembers : (s.setMembers key ids).hasHash key = false := by
  unfold setMembers setValue hasHash
  simp only [Function.update_self]
  split_ifs <;> rfl

/-- An absent key has no members. -/
theorem Store.members_of_none (h : s.horizon key = none) : s.members key = [] := by
  unfold members
  rw [h]

/-- A hash is what holds a job. -/
theorem Store.hasHash_iff : s.hasHash key = true ↔ ∃ job, s.horizon key = some (.hash job) := by
  unfold hasHash
  cases s.horizon key with
  | none => simp
  | some value => cases value <;> simp

/-- What a `ZREM` that is not aborted leaves behind. -/
theorem outcome_zrem_of_not_hash (h : s.hasHash key = false) :
    (zrem key id).outcome s =
      (some PUnit.unit, s.setMembers key ((s.members key).filter (· ≠ id))) := by
  unfold zrem
  rw [Script.outcome_bind]
  show Script.outcome (if s.hasHash key = true then _ else _) s = _
  rw [if_neg (by rw [h]; exact Bool.false_ne_true)]
  rfl

/-- A `ZREM` of a hash is aborted. -/
theorem outcome_zrem_of_hash (h : s.hasHash key = true) : (zrem key id).outcome s = (none, s) := by
  unfold zrem
  rw [Script.outcome_bind]
  show Script.outcome (if s.hasHash key = true then _ else _) s = _
  rw [if_pos h]
  rfl

end Store

/-! ## A job before and after its metadata is written -/

/-- The metadata of the job is not yet written. -/
structure Unrecorded (id : String) (s : Store) : Prop where
  index : s.hasHash "pending_jobs" = false
  absent : s.horizon id = none
  unlisted : id ∉ s.members "pending_jobs"

/-- The metadata of the job is written, and the scripts have met the jobs `gone`: unless the job is one
of them its hash and its entry are there, and if it is, its entry is gone. -/
structure Settled (gone : List String) (id : String) (s : Store) : Prop where
  index : s.hasHash "pending_jobs" = false
  kept : id ∉ gone → s.hasHash id = true ∧ id ∈ s.members "pending_jobs"
  removed : id ∈ gone → id ∉ s.members "pending_jobs"

/-- The job is settled, and is one of those met if it is the job `jobid` a script is about to remove. -/
def SettledBeside (gone : List String) (jobid id : String) (s : Store) : Prop :=
  Settled gone id s ∧ (jobid = id → id ∈ gone)

/-- An assertion as a relation between the states before and after some step. -/
abbrev Keeping {S : Type} (I : S → Prop) (s s' : S) : Prop := I s → I s'

variable {zscan : List String → ℕ → ℕ × List String} {data : QueueTargetData}
  {id jobid key : String} {s : Store} {gone : List String}

/-- What is settled depends on whether the job was met, and on no other. -/
theorem Settled.congr {gone' : List String} (h : Settled gone id s) (hiff : id ∈ gone ↔ id ∈ gone') :
    Settled gone' id s :=
  ⟨h.index, fun hno => h.kept (fun hmem => hno (hiff.mp hmem)), fun hyes => h.removed (hiff.mpr hyes)⟩

/-- Removing an entry does not record a job. -/
theorem zrem_unrecorded : Script.Moves (Keeping (Unrecorded id)) (zrem key jobid) := by
  intro s h
  cases hkey : s.hasHash key with
  | true => rwa [outcome_zrem_of_hash hkey]
  | false =>
      rw [outcome_zrem_of_not_hash hkey]
      refine ⟨?_, ?_, ?_⟩
      · by_cases hp : "pending_jobs" = key
        · rw [← hp]
          exact Store.hasHash_setMembers
        · rw [Store.hasHash_congr (Store.horizon_setMembers_ne hp)]
          exact h.index
      · by_cases hp : id = key
        · -- removing from a key that does not exist
          subst hp
          unfold Store.setMembers Store.setValue
          simp [Store.members_of_none h.absent]
        · rw [Store.horizon_setMembers_ne hp]
          exact h.absent
      · by_cases hp : "pending_jobs" = key
        · rw [← hp, Store.members_setMembers]
          exact fun hmem => h.unlisted (List.mem_filter.mp hmem).1
        · rw [Store.members_setMembers_ne hp]
          exact h.unlisted

/-- Removing the entry of a job that was met keeps the others settled. -/
theorem zrem_settled : Script.Moves (Keeping (SettledBeside gone jobid id)) (zrem key jobid) := by
  rintro s ⟨h, hmet⟩
  cases hkey : s.hasHash key with
  | true =>
      rw [outcome_zrem_of_hash hkey]
      exact ⟨h, hmet⟩
  | false =>
      rw [outcome_zrem_of_not_hash hkey]
      refine ⟨⟨?_, fun hno => ⟨?_, ?_⟩, fun hyes => ?_⟩, hmet⟩
      · by_cases hp : "pending_jobs" = key
        · rw [← hp]
          exact Store.hasHash_setMembers
        · rw [Store.hasHash_congr (Store.horizon_setMembers_ne hp)]
          exact h.index
      · have hne : id ≠ key := by
          rintro rfl
          rw [(h.kept hno).1] at hkey
          exact Bool.noConfusion hkey
        rw [Store.hasHash_congr (Store.horizon_setMembers_ne hne)]
        exact (h.kept hno).1
      · have hne : id ≠ jobid := fun heq => hno (hmet heq.symm)
        by_cases hp : "pending_jobs" = key
        · rw [← hp, Store.members_setMembers]
          exact List.mem_filter.mpr ⟨(h.kept hno).2, by simpa using hne⟩
        · rw [Store.members_setMembers_ne hp]
          exact (h.kept hno).2
      · by_cases hp : "pending_jobs" = key
        · rw [← hp, Store.members_setMembers]
          exact fun hmem => h.removed hyes (List.mem_filter.mp hmem).1
        · rw [Store.members_setMembers_ne hp]
          exact h.removed hyes

/-- Deleting a key changes no other key. -/
theorem horizon_del_ne (h : key ≠ jobid) : (s.del jobid).horizon key = s.horizon key :=
  Function.update_of_ne h _ _

/-- Deleting a hash does not record a job. -/
theorem del_unrecorded (hindex : "pending_jobs" ≠ jobid) :
    Script.Moves (Keeping (Unrecorded id)) (modify (·.del jobid)) := by
  refine Script.Moves.modify fun s h => ⟨?_, ?_, ?_⟩
  · rw [Store.hasHash_congr (horizon_del_ne hindex)]
    exact h.index
  · by_cases hid : id = jobid
    · rw [← hid]
      exact Function.update_self _ _ _
    · rw [horizon_del_ne hid]
      exact h.absent
  · rw [Store.members_congr (horizon_del_ne hindex)]
    exact h.unlisted

/-- Deleting the hash of a job that was met keeps the others settled. -/
theorem del_settled (hindex : "pending_jobs" ≠ jobid) :
    Script.Moves (Keeping (SettledBeside gone jobid id)) (modify (·.del jobid)) := by
  refine Script.Moves.modify fun s ⟨h, hmet⟩ => ⟨⟨?_, fun hno => ⟨?_, ?_⟩, ?_⟩, hmet⟩
  · rw [Store.hasHash_congr (horizon_del_ne hindex)]
    exact h.index
  · have hid : id ≠ jobid := fun heq => hno (hmet heq.symm)
    rw [Store.hasHash_congr (horizon_del_ne hid)]
    exact (h.kept hno).1
  · rw [Store.members_congr (horizon_del_ne hindex)]
    exact (h.kept hno).2
  · rw [Store.members_congr (horizon_del_ne hindex)]
    exact h.removed

/-- What two steps keep both of them keep together. -/
theorem keeping_trans {S : Type} (I : S → Prop) (s s' s'' : S) (h : Keeping I s s')
    (h' : Keeping I s' s'') : Keeping I s s'' := fun hs => h' (h hs)

/-- Purging a job does not record another. -/
theorem purgeJob_unrecorded (count : ℕ) :
    Script.Moves (Keeping (Unrecorded id)) (purgeJob data count jobid) := by
  unfold purgeJob
  refine Script.Moves.get_bind fun s h => ?_
  cases hj : s.horizon jobid with
  | none => exact h
  | some value =>
      cases value with
      | sortedSet _ => exact h
      | hash job =>
          have hindex : "pending_jobs" ≠ jobid := by
            rintro rfl
            have hhash : s.hasHash "pending_jobs" = true := Store.hasHash_iff.mpr ⟨job, hj⟩
            rw [h.index] at hhash
            cases hhash
          dsimp only
          split_ifs with hfound
          · refine (Script.Moves.bind (keeping_trans _) zrem_unrecorded fun _ => ?_) s h
            refine Script.Moves.bind (keeping_trans _) zrem_unrecorded fun _ => ?_
            refine Script.Moves.bind (keeping_trans _) ?_ fun _ => ?_
            · exact Script.Moves.forM (fun _ h => h) (keeping_trans _) fun _ _ => zrem_unrecorded
            · refine Script.Moves.bind (keeping_trans _) (del_unrecorded hindex) fun _ => ?_
              exact Script.Moves.pure (fun _ h => h) _
          · exact h

/-- The store after a purge script has met a job and removed its entry. -/
theorem settledBeside_of_met (h : Settled gone id s) :
    SettledBeside (jobid :: gone) jobid id (s.setMembers "pending_jobs"
      ((s.members "pending_jobs").filter (· ≠ jobid))) := by
  refine ⟨⟨Store.hasHash_setMembers, fun hno => ?_, fun hyes => ?_⟩, ?_⟩
  · obtain ⟨hne, hunmet⟩ : id ≠ jobid ∧ id ∉ gone := by
      simpa using hno
    obtain ⟨hhash, hmem⟩ := h.kept hunmet
    have hindex : id ≠ "pending_jobs" := by
      rintro rfl
      rw [h.index] at hhash
      cases hhash
    refine ⟨?_, ?_⟩
    · rw [Store.hasHash_congr (Store.horizon_setMembers_ne hindex)]
      exact hhash
    · rw [Store.members_setMembers]
      exact List.mem_filter.mpr ⟨hmem, by simpa using hne⟩
  · rw [Store.members_setMembers]
    intro hmem
    obtain ⟨hmem, hne⟩ := List.mem_filter.mp hmem
    rcases List.mem_cons.mp hyes with heq | hmet
    · simp [heq] at hne
    · exact h.removed hmet hmem
  · rintro rfl
    exact List.mem_cons_self

/-- Purging a job keeps the others settled. -/
theorem purgeJob_settled (count : ℕ) :
    Script.Moves (fun s s' => Settled gone id s →
      Settled (if finds data s jobid then jobid :: gone else gone) id s')
      (purgeJob data count jobid) := by
  unfold purgeJob
  refine Script.Moves.get_bind fun s h => ?_
  cases hj : s.horizon jobid with
  | none =>
      rw [if_neg (by simp [finds, hj])]
      exact h
  | some value =>
      cases value with
      | sortedSet _ =>
          rw [if_neg (by simp [finds, hj])]
          exact h
      | hash job =>
          have hindex : "pending_jobs" ≠ jobid := by
            rintro rfl
            have hhash : s.hasHash "pending_jobs" = true := Store.hasHash_iff.mpr ⟨job, hj⟩
            rw [h.index] at hhash
            cases hhash
          have hfinds : finds data s jobid = decide (Purges data job) := by
            simp [finds, hj]
          rw [hfinds]
          dsimp only
          by_cases hpurges : Purges data job
          · have hcondition := hpurges
            unfold Purges at hcondition
            rw [if_pos hcondition, if_pos (by simpa using hpurges)]
            -- the removal of the entry is what meeting the job comes to, the rest keeps both
            rw [Script.outcome_bind, outcome_zrem_of_not_hash h.index]
            dsimp only
            refine ((Script.Moves.bind (keeping_trans _) zrem_settled fun _ => ?_) _
              (settledBeside_of_met h)).1
            refine Script.Moves.bind (keeping_trans _) ?_ fun _ => ?_
            · exact Script.Moves.forM (fun _ h => h) (keeping_trans _) fun _ _ => zrem_settled
            · refine Script.Moves.bind (keeping_trans _) (del_settled hindex) fun _ => ?_
              exact Script.Moves.pure (fun _ h => h) _
          · have hcondition := hpurges
            unfold Purges at hcondition
            rw [if_neg hcondition, if_neg (by simpa using hpurges)]
            exact h

/-! ## The pages of the scripts -/

section Pages

variable {page : List String} {count cursor : ℕ}

/-- A page meets its first job where there is a hash to purge, and then what it comes to. -/
theorem mem_metIn_cons : id ∈ metIn data count s (jobid :: page) ↔
    (finds data s jobid = true ∧ id = jobid) ∨
      ∃ count' s', (purgeJob data count jobid).outcome s = (some count', s') ∧
        id ∈ metIn data count' s' page := by
  rw [metIn]
  cases houtcome : (purgeJob data count jobid).outcome s with
  | mk answer s' =>
      cases answer <;> cases finds data s jobid <;> simp

/-- A page does not meet a job that is not recorded. -/
theorem notMem_metIn (h : Unrecorded id s) : id ∉ metIn data count s page := by
  induction page generalizing s count with
  | nil => exact List.not_mem_nil
  | cons jobid page ih =>
      rw [mem_metIn_cons]
      rintro (⟨hfinds, rfl⟩ | ⟨count', s', houtcome, hmem⟩)
      · simp [finds, h.absent] at hfinds
      · have hkept : Unrecorded id ((purgeJob data count jobid).outcome s).2 :=
          purgeJob_unrecorded count s h
        rw [houtcome] at hkept
        exact ih hkept hmem

/-- A page keeps what it does not meet. -/
theorem page_settled (h : Settled gone id s) :
    Settled (metIn data count s page ++ gone) id
      ((page.foldlM (purgeJob data) count).outcome s).2 := by
  induction page generalizing gone s count with
  | nil => exact h
  | cons jobid page ih =>
      have hstep : Settled (if finds data s jobid then jobid :: gone else gone) id
          ((purgeJob data count jobid).outcome s).2 := purgeJob_settled count s h
      have hmem : id ∈ (if finds data s jobid then jobid :: gone else gone) ↔
          (finds data s jobid = true ∧ id = jobid) ∨ id ∈ gone := by
        cases finds data s jobid <;> simp
      rw [List.foldlM_cons, Script.outcome_bind]
      cases houtcome : (purgeJob data count jobid).outcome s with
      | mk answer s' =>
          rw [houtcome] at hstep
          cases answer with
          | none =>
              -- the script is aborted at this job
              apply hstep.congr
              rw [hmem, List.mem_append, mem_metIn_cons]
              simp [houtcome]
          | some count' =>
              apply (ih hstep).congr
              rw [List.mem_append, hmem, List.mem_append, mem_metIn_cons]
              simp only [houtcome, Prod.mk.injEq, Option.some.injEq, and_assoc, exists_and_left,
                exists_eq_left']
              tauto

/-- The pages of a script that is not aborted at once. -/
theorem outcome_purge (h : s.hasHash "pending_jobs" = false) :
    (exec zscan (.purge data cursor) s).2 =
      (((zscan (s.members "pending_jobs") cursor).2.foldlM (purgeJob data) 0).outcome s).2 := by
  show ((purgeScript zscan data cursor).outcome s).2 = _
  rw [purgeScript, Script.outcome_bind]
  show (Script.outcome (if s.hasHash "pending_jobs" = true then throw () else _) s).2 = _
  rw [if_neg (by simp [h]), Script.outcome_bind]
  cases ((zscan (s.members "pending_jobs") cursor).2.foldlM (purgeJob data) 0).outcome s with
  | mk answer s' => cases answer <;> rfl

/-- A script does not record a job. -/
theorem purge_unrecorded (h : Unrecorded id s) : Unrecorded id (exec zscan (.purge data cursor) s).2 := by
  rw [outcome_purge h.index]
  exact Script.Moves.foldlM (fun _ h => h) (keeping_trans _)
    (fun _ _ count => purgeJob_unrecorded count) 0 s h

/-- A script keeps what it does not meet. -/
theorem purge_settled (h : Settled gone id s) :
    Settled (metBy zscan (.purge data cursor, s) ++ gone) id (exec zscan (.purge data cursor) s).2 := by
  rw [outcome_purge h.index, metBy, if_neg (by simp [h.index])]
  exact page_settled h

/-- A script meets no job that is not recorded. -/
theorem notMem_metBy (h : Unrecorded id s) : id ∉ metBy zscan (.purge data cursor, s) := by
  rw [metBy, if_neg (by simp [h.index])]
  exact notMem_metIn h

end Pages

/-! ## The steps of a push -/

/-- The keys of the indexes a push writes its job into. No job is named like them. -/
def indexNames : List String := ["pending_jobs", "recent_jobs"]

section Push

variable {id' : String} {job : JobHash}

/-- Adding an entry changes no other key. -/
theorem Store.horizon_zadd_ne (h : id ≠ key) : (s.zadd key id').horizon id = s.horizon id := by
  unfold zadd
  split_ifs
  · rfl
  · exact horizon_setMembers_ne h

/-- Writing a hash changes no other key. -/
theorem Store.horizon_hmset_ne (h : key ≠ id) : (s.hmset id job).horizon key = s.horizon key := by
  unfold hmset
  split
  · rfl
  · exact Function.update_of_ne h _ _

/-- An id that is no name of an index is not one of the two indexes. -/
theorem ne_of_not_mem_indexNames (h : id ∉ indexNames) :
    id ≠ "pending_jobs" ∧ id ≠ "recent_jobs" := by
  simpa [indexNames] using h

/-- Putting a payload into the queue changes nothing of Horizon. -/
theorem pushPayload_keeps {delayed : Bool} :
    Keeping (Unrecorded id) s (exec zscan (.pushPayload id' delayed) s).2 ∧
      Keeping (Settled gone id) s (exec zscan (.pushPayload id' delayed) s).2 := by
  cases delayed
  · exact ⟨fun h => ⟨h.index, h.absent, h.unlisted⟩, fun h => ⟨h.index, h.kept, h.removed⟩⟩
  · exact ⟨fun h => ⟨h.index, h.absent, h.unlisted⟩, fun h => ⟨h.index, h.kept, h.removed⟩⟩

/-- The driver clear changes nothing of Horizon. -/
theorem clear_keeps :
    Keeping (Unrecorded id) s (exec zscan .clear s).2 ∧
      Keeping (Settled gone id) s (exec zscan .clear s).2 :=
  ⟨fun h => ⟨h.index, h.absent, h.unlisted⟩, fun h => ⟨h.index, h.kept, h.removed⟩⟩

variable (zscan job) in
/-- The metadata step of a push leaves the hash of another job alone. -/
theorem horizon_pushMetadata_ne (hid : id ∉ indexNames) (hne : id ≠ id') :
    (exec zscan (.pushMetadata id' job) s).2.horizon id = s.horizon id := by
  obtain ⟨hpending, hrecent⟩ := ne_of_not_mem_indexNames hid
  show (((s.zadd "recent_jobs" id').zadd "pending_jobs" id').hmset id' job).horizon id = _
  rw [Store.horizon_hmset_ne hne, Store.horizon_zadd_ne hpending, Store.horizon_zadd_ne hrecent]

variable (zscan job) in
/-- The metadata step of a push adds its job to the pending index. -/
theorem pending_pushMetadata (hid' : id' ∉ indexNames) (h : s.hasHash "pending_jobs" = false) :
    (exec zscan (.pushMetadata id' job) s).2.hasHash "pending_jobs" = false ∧
      (exec zscan (.pushMetadata id' job) s).2.members "pending_jobs" =
        s.members "pending_jobs" ++ [id'] := by
  have hpending : "pending_jobs" ≠ id' := (ne_of_not_mem_indexNames hid').1.symm
  have hrecent : (s.zadd "recent_jobs" id').horizon "pending_jobs" = s.horizon "pending_jobs" :=
    Store.horizon_zadd_ne (by decide)
  have hadd : ((s.zadd "recent_jobs" id').zadd "pending_jobs" id').hasHash "pending_jobs" = false ∧
      ((s.zadd "recent_jobs" id').zadd "pending_jobs" id').members "pending_jobs" =
        s.members "pending_jobs" ++ [id'] := by
    generalize hs' : s.zadd "recent_jobs" id' = s' at hrecent
    unfold Store.zadd
    rw [if_neg (by rw [Store.hasHash_congr hrecent, h]; exact Bool.false_ne_true)]
    rw [Store.hasHash_setMembers, Store.members_setMembers, Store.members_congr hrecent]
    exact ⟨rfl, rfl⟩
  show (((s.zadd "recent_jobs" id').zadd "pending_jobs" id').hmset id' job).hasHash _ = _ ∧
    (((s.zadd "recent_jobs" id').zadd "pending_jobs" id').hmset id' job).members _ = _
  rw [Store.hasHash_congr (Store.horizon_hmset_ne hpending),
    Store.members_congr (Store.horizon_hmset_ne hpending)]
  exact hadd

/-- The metadata step of another push changes nothing for the job. -/
theorem pushMetadata_keeps (hid : id ∉ indexNames) (hid' : id' ∉ indexNames) (hne : id ≠ id') :
    Keeping (Unrecorded id) s (exec zscan (.pushMetadata id' job) s).2 ∧
      Keeping (Settled gone id) s (exec zscan (.pushMetadata id' job) s).2 := by
  have hhash : (exec zscan (.pushMetadata id' job) s).2.horizon id = s.horizon id :=
    horizon_pushMetadata_ne zscan job hid hne
  have hmem : ∀ ids : List String, id ∈ ids ++ [id'] ↔ id ∈ ids := fun ids => by simp [hne]
  constructor
  · intro h
    obtain ⟨hindex, hpending⟩ := pending_pushMetadata zscan job hid' h.index
    refine ⟨hindex, hhash.trans h.absent, ?_⟩
    rw [hpending, hmem]
    exact h.unlisted
  · intro h
    obtain ⟨hindex, hpending⟩ := pending_pushMetadata zscan job hid' h.index
    refine ⟨hindex, ?_, ?_⟩
    · rw [hpending, hmem, Store.hasHash_congr hhash]
      exact h.kept
    · rw [hpending, hmem]
      exact h.removed

/-- The metadata step of the push of the job itself. -/
theorem pushMetadata_settles (hid : id ∉ indexNames) (h : Unrecorded id s) (hunmet : id ∉ gone) :
    Settled gone id (exec zscan (.pushMetadata id job) s).2 := by
  obtain ⟨hindex, hpending⟩ := pending_pushMetadata zscan job hid h.index
  obtain ⟨hne, hne'⟩ := ne_of_not_mem_indexNames hid
  refine ⟨hindex, fun _ => ⟨?_, ?_⟩, fun hmet => ?_⟩
  · have habsent : ((s.zadd "recent_jobs" id).zadd "pending_jobs" id).horizon id = none := by
      rw [Store.horizon_zadd_ne hne, Store.horizon_zadd_ne hne']
      exact h.absent
    refine Store.hasHash_iff.mpr ⟨job, ?_⟩
    show (((s.zadd "recent_jobs" id).zadd "pending_jobs" id).hmset id job).horizon id = _
    unfold Store.hmset
    rw [habsent]
    exact Function.update_self _ _ _
  · rw [hpending]
    exact List.mem_append_right _ List.mem_cons_self
  · exact absurd hmet hunmet

end Push

/-! ## What every interleaving keeps -/

/-- The operations of the clear and of each push. -/
def MayPerform : Option String → List Empty → Operation → Prop
  | none, _, .clear => True
  | none, _, .purge _ _ => True
  | some id, _, .pushPayload id' _ => id' = id ∧ id ∉ indexNames
  | some id, _, .pushMetadata id' _ => id' = id ∧ id ∉ indexNames
  | _, _, _ => False

/-- In a run the metadata of the job is not yet written, and no script has met it. -/
def UnrecordedIn (zscan : List String → ℕ → ℕ × List String) (id : String)
    (x : Program.Recorded Operation Store) : Prop :=
  Unrecorded id x.1 ∧ id ∉ met zscan x.2

/-- In a run the metadata of the job is written. -/
def SettledIn (zscan : List String → ℕ → ℕ × List String) (id : String)
    (x : Program.Recorded Operation Store) : Prop :=
  Settled (met zscan x.2) id x.1

/-- A push relies on the others to keep its job as it is before and after the metadata step. -/
def pushing (zscan : List String → ℕ → ℕ × List String) (id : String) :
    Discipline Operation Empty (Program.Recorded Operation Store) where
  rely _ x x' := Keeping (UnrecordedIn zscan id) x x' ∧ Keeping (SettledIn zscan id) x x'
  assume _ _ _ := True
  ok _ _ _ := True
  rely_refl _ _ := ⟨fun h => h, fun h => h⟩
  rely_trans _ _ _ _ h h' := ⟨fun hs => h'.1 (h.1 hs), fun hs => h'.2 (h.2 hs)⟩

variable {x : Program.Recorded Operation Store} {o : Operation}

/-- An operation that meets no job keeps in a run what it keeps of the store. -/
theorem keeps_of_metBy_eq_nil (hmet : metBy zscan (o, x.1) = [])
    (h : ∀ gone, Keeping (Unrecorded id) x.1 (exec zscan o x.1).2 ∧
      Keeping (Settled gone id) x.1 (exec zscan o x.1).2) (ls : List Empty) :
    (pushing zscan id).rely ls x (Program.recording (exec zscan) o x).2 := by
  have hhistory : met zscan (Program.recording (exec zscan) o x).2.2 = met zscan x.2 := by
    simp [met, Program.recording, hmet]
  refine ⟨fun hx => ⟨(h []).1 hx.1, ?_⟩, fun hx => ?_⟩
  · rw [hhistory]
    exact hx.2
  · rw [SettledIn, hhistory]
    exact (h _).2 hx

/-- A script keeps the job in a run, whether it meets it or not. -/
theorem purge_keeps {cursor : ℕ} (ls : List Empty) :
    (pushing zscan id).rely ls x (Program.recording (exec zscan) (.purge data cursor) x).2 := by
  have hhistory : met zscan (Program.recording (exec zscan) (.purge data cursor) x).2.2 =
      metBy zscan (.purge data cursor, x.1) ++ met zscan x.2 := by
    simp [met, Program.recording]
  refine ⟨fun hx => ⟨purge_unrecorded hx.1, ?_⟩, fun hx => ?_⟩
  · rw [hhistory, List.mem_append]
    exact fun hmem => hmem.elim (notMem_metBy hx.1) hx.2
  · rw [SettledIn, hhistory]
    exact purge_settled hx

/-- The payload step of any push keeps the job in a run. -/
theorem pushPayload_rely {id' : String} {delayed : Bool} (ls : List Empty) :
    (pushing zscan id).rely ls x (Program.recording (exec zscan) (.pushPayload id' delayed) x).2 :=
  keeps_of_metBy_eq_nil rfl (fun _ => pushPayload_keeps) ls

/-- The steps of the clear and of the other pushes are what a push relies on. -/
theorem pushing_rely (hid : id ∉ indexNames) {j : Option String} (hj : j ≠ some id)
    {ls' : List Empty} (ho : MayPerform j ls' o) (ls : List Empty)
    (x : Program.Recorded Operation Store) :
    (pushing zscan id).rely ls x (Program.recording (exec zscan) o x).2 := by
  cases o with
  | clear => exact keeps_of_metBy_eq_nil rfl (fun _ => clear_keeps) ls
  | purge data cursor => exact purge_keeps ls
  | pushPayload id' delayed => exact pushPayload_rely ls
  | pushMetadata id' job =>
      cases j with
      | none => exact ho.elim
      | some id'' =>
          obtain ⟨rfl, hid'⟩ := ho
          have hne : id ≠ id' := fun heq => hj (heq ▸ rfl)
          exact keeps_of_metBy_eq_nil rfl (fun _ => pushMetadata_keeps hid hid' hne) ls

/-- The metadata step settles the job in a run. -/
theorem settledIn_pushMetadata {job : JobHash} (hid : id ∉ indexNames) (h : UnrecordedIn zscan id x) :
    SettledIn zscan id (Program.recording (exec zscan) (.pushMetadata id job) x).2 := by
  have hhistory : met zscan (Program.recording (exec zscan) (.pushMetadata id job) x).2.2 =
      met zscan x.2 := by
    simp [met, Program.recording, metBy]
  have hsettled : Settled (met zscan x.2) id (exec zscan (.pushMetadata id job) x.1).2 :=
    pushMetadata_settles hid h.1 h.2
  rw [SettledIn, hhistory]
  exact hsettled

/-- **A push settles its job**, whatever the others do. -/
theorem push_records (hid : id ∉ indexNames) (push : Push) (h : UnrecordedIn zscan id x) :
    wp (Program.recording (exec zscan)) (pushing zscan id) (push.run data id)
      (fun _ x => SettledIn zscan id x) (fun _ _ => True) x := by
  unfold Push.run
  split_ifs
  · intro x₁ hr₁ _
    refine ⟨trivial, ?_⟩
    intro x₂ hr₂ _
    exact ⟨trivial, settledIn_pushMetadata hid (hr₂.1 ((pushPayload_rely []).1 (hr₁.1 h)))⟩
  · intro x₁ hr₁ _
    refine ⟨trivial, ?_⟩
    intro x₂ hr₂ _
    exact ⟨trivial, (pushPayload_rely []).2 (hr₂.2 (settledIn_pushMetadata hid (hr₁.1 h)))⟩

/-- The clear performs its own operations. -/
theorem handle_obeys (client : RedisClient) (fuel : ℕ) :
    Obeys (MayPerform none) (fun _ _ => True) (handle client fuel data) fun _ => True := by
  refine ⟨trivial, fun cleared _ => ?_⟩
  -- A page either ends the loop or hands on a cursor, and operates nothing but its own script.
  have hbody : ∀ x : ℕ × ℕ, True → Obeys (MayPerform none) (fun _ _ => True)
      (purgePage client data x.1 x.2) (Sum.elim (fun _ => True) fun _ => True) := by
    intro x _
    refine ⟨trivial, fun answer _ => ?_⟩
    rcases answer with _ | ⟨purged, next⟩
    · cases client <;> trivial
    · show Obeys _ _ (if next = 0 then _ else _) _
      split_ifs <;> trivial
  exact (Obeys.iterate hbody fuel trivial).bind fun _ _ => trivial

/-- A push performs operations on its own job only. -/
theorem push_obeys (hid : id ∉ indexNames) (push : Push) :
    Obeys (MayPerform (some id)) (fun _ _ => True) (push.run data id) fun _ => True := by
  unfold Push.run
  split_ifs
  · exact ⟨⟨rfl, hid⟩, fun _ _ => ⟨⟨rfl, hid⟩, fun _ _ => trivial⟩⟩
  · exact ⟨⟨rfl, hid⟩, fun _ _ => ⟨⟨rfl, hid⟩, fun _ _ => trivial⟩⟩

section Results

variable {client : RedisClient} {fuel : ℕ} {pushes : String → Option Push} {push : Push}
  {c d : System}

/-- At the start every process performs operations on its own job only. -/
theorem start_obeys (hnames : ∀ name ∈ indexNames, pushes name = none) (j : Option String) :
    Obeys (MayPerform j) (fun _ _ => True) ((start client fuel data pushes s).prog j)
      fun _ => True := by
  cases j with
  | none => exact handle_obeys client fuel
  | some id =>
      show Obeys _ _ ((pushes id).elim (.ret 0) fun push => push.run data id) _
      cases hpush : pushes id with
      | none => trivial
      | some push =>
          refine push_obeys (fun hmem => ?_) push
          rw [hnames id hmem] at hpush
          cases hpush

/-- A pushed job is not named like an index. -/
theorem notMem_indexNames (hnames : ∀ name ∈ indexNames, pushes name = none)
    (hpush : pushes id = some push) : id ∉ indexNames := by
  intro hmem
  rw [hnames id hmem] at hpush
  cases hpush

/-- In every interleaving a push that has ended has settled its job. -/
theorem settled_of_pushed (hnames : ∀ name ∈ indexNames, pushes name = none)
    (hpush : pushes id = some push) (hfresh : Unrecorded id s)
    (h : Interleaved zscan (start client fuel data pushes s) d) {n : ℕ}
    (hdone : d.prog (some id) = .ret n) : SettledIn zscan id d.store := by
  have hid := notMem_indexNames hnames hpush
  have hwp : wp (Program.recording (exec zscan)) (pushing zscan id)
      ((start client fuel data pushes s).prog (some id))
      (fun _ x => SettledIn zscan id x) (fun _ _ => True) (s, []) := by
    show wp _ _ ((pushes id).elim (.ret 0) fun push => push.run data id) _ _ _
    rw [hpush]
    exact push_records hid push ⟨hfresh, List.not_mem_nil⟩
  have hend := Reaches.wp_of_obeys (i := some id) (D := pushing zscan id) (start_obeys hnames)
    (fun j hj ls' o ho => pushing_rely hid hj ho) (fun _ _ _ hw => hw.elim)
    (fun _ _ _ => trivial) (fun _ _ _ hr hs => hr.2 hs) (fun _ _ _ _ _ => trivial) hwp h
  rw [hdone] at hend
  exact hend

/-- Until its metadata is written a job is not recorded, and no script meets it. -/
theorem unrecorded_of_unpushed (hnames : ∀ name ∈ indexNames, pushes name = none)
    (hid : id ∉ indexNames) (hfresh : Unrecorded id s)
    (h : Interleaved zscan (start client fuel data pushes s) d)
    (hlater : ∀ job s', (Operation.pushMetadata id job, s') ∉ d.store.2) :
    UnrecordedIn zscan id d.store := by
  induction h with
  | refl => exact ⟨hfresh, List.not_mem_nil⟩
  | @step d d' e h hs _ ih =>
      cases hs with
      | @run j ls o next hj =>
          have hpermitted := Reaches.obeys (start_obeys hnames) h j
          rw [hj] at hpermitted
          have hkept : UnrecordedIn zscan id d.store :=
            ih fun job s' hmem => hlater job s' (List.mem_cons_of_mem _ hmem)
          by_cases hself : j = some id
          · subst hself
            cases o with
            | clear => exact hpermitted.1.elim
            | purge data cursor => exact hpermitted.1.elim
            | pushPayload id' delayed => exact (pushPayload_rely []).1 hkept
            | pushMetadata id' job =>
                -- this is the step that is not in the history
                obtain ⟨rfl, -⟩ := hpermitted.1
                exact absurd List.mem_cons_self (hlater job d.store.1)
          · exact (pushing_rely hid hself hpermitted.1 [] d.store).1 hkept
      | crash => exact ih hlater
      | world hw => exact hw.elim

/-- The hash of the job and its entry in the pending index are there. -/
def Recorded (id : String) (s : Store) : Prop :=
  s.hasHash id = true ∧ id ∈ s.members "pending_jobs"

instance : Decidable (Recorded id s) := inferInstanceAs (Decidable (_ ∧ _))

/-- Once the clear has ended no job is met any more. -/
theorem met_of_ended (hobeys : ∀ id, Obeys (MayPerform (some id)) (fun _ _ => True)
      (c.prog (some id)) fun _ => True)
    (hended : (c.prog none).Ended) (h : Interleaved zscan c d) :
    met zscan d.store.2 = met zscan c.store.2 := by
  let P : Option String → List Empty → Operation → Prop := fun j ls o =>
    j ≠ none ∧ MayPerform j ls o
  have hall : ∀ j, Obeys (P j) (fun _ _ => True) (c.prog j) fun _ => True := by
    intro j
    cases j with
    | none =>
        generalize hp : c.prog none = p at hended
        cases p with
        | op ls o next => exact hended.elim
        | _ => trivial
    | some id => exact (hobeys id).mono (fun _ _ ho => ⟨by simp, ho⟩) fun _ h => h
  induction h with
  | refl => rfl
  | @step d d' e h hs _ ih =>
      cases hs with
      | @run j ls o next hj =>
          have hpermitted := Reaches.obeys hall h j
          rw [hj] at hpermitted
          obtain ⟨⟨hne, ho⟩, _⟩ := hpermitted
          rw [← ih]
          cases j with
          | none => exact absurd rfl hne
          | some id =>
              cases o with
              | clear => exact ho.elim
              | purge data cursor => exact ho.elim
              | pushPayload id' delayed => rfl
              | pushMetadata id' job => rfl
      | crash => exact ih
      | world hw => exact hw.elim

/-- A job whose metadata is written after the clear has ended is kept by every continuation. -/
theorem kept_of_recorded_after_run (hnames : ∀ name ∈ indexNames, pushes name = none)
    (hpush : pushes id = some push) (hfresh : Unrecorded id s)
    (h : Interleaved zscan (start client fuel data pushes s) c) (hended : (c.prog none).Ended)
    (hlater : ∀ job s', (Operation.pushMetadata id job, s') ∉ c.store.2)
    (h' : Interleaved zscan c d) {n : ℕ} (hdone : d.prog (some id) = .ret n) :
    Recorded id d.store.1 := by
  have hmet : met zscan d.store.2 = met zscan c.store.2 :=
    met_of_ended (fun id => Reaches.obeys (start_obeys hnames) h (some id)) hended h'
  have hunmet : id ∉ met zscan d.store.2 := by
    rw [hmet]
    exact (unrecorded_of_unpushed hnames (notMem_indexNames hnames hpush) hfresh h hlater).2
  exact (settled_of_pushed hnames hpush hfresh (h.trans h') hdone).kept hunmet

/-- **A job is kept unless a purge script meets it**: in every interleaving of a clear with any
number of pushes, a job whose push has ended has its hash and its entry in the pending index
exactly when no purge script of the history has met it. So it has both where the run has come
through a moment at which the clear had ended and the metadata of the job was not yet written. -/
theorem kept_iff_not_met (hnames : ∀ name ∈ indexNames, pushes name = none)
    (hpush : pushes id = some push) (hfresh : Unrecorded id s)
    (h : Interleaved zscan (start client fuel data pushes s) d) {n : ℕ}
    (hdone : d.prog (some id) = .ret n) :
    (Recorded id d.store.1 ↔ id ∉ met zscan d.store.2) ∧
      ∀ c, Interleaved zscan (start client fuel data pushes s) c → (c.prog none).Ended →
        (∀ job s', (Operation.pushMetadata id job, s') ∉ c.store.2) → Interleaved zscan c d →
          Recorded id d.store.1 := by
  have hsettled := settled_of_pushed hnames hpush hfresh h hdone
  refine ⟨⟨fun hkept hmet => hsettled.removed hmet hkept.2, hsettled.kept⟩, ?_⟩
  intro c hc hended hlater h'
  exact kept_of_recorded_after_run hnames hpush hfresh hc hended hlater h' hdone

end Results

/-! ## A job that is lost -/

/-- A page with all members, after which the scan is complete. -/
def onePage (members : List String) (_ : ℕ) : ℕ × List String := (0, members)

/-- The clear of an empty queue while one job is pushed, its payload first. -/
def clearingReports : System :=
  start .predis 1 ⟨"redis", "reports"⟩
    (fun id => if id = "job" then some ⟨true, false, none⟩ else none) ⟨[], [], [], fun _ => none⟩

/-- Both steps of the push fall between the driver clear and the purge script. -/
def overtakingSchedule : List (Move (Option String) (Program.Recorded Operation Store)) :=
  [.run none, .run (some "job"), .run (some "job"), .run none]

/-- What the moves lead to is an interleaving where the world does nothing. -/
theorem reaches_clearing (moves : List (Move (Option String) (Program.Recorded Operation Store)))
    (h : ∀ f, Move.world f ∉ moves) (c : System) :
    Interleaved onePage c (c.play (fun _ => Program.recording (exec onePage)) moves) :=
  Config.reaches_play moves (fun f hf => absurd hf (h f)) c

/-- **A pushed job loses its metadata**: the payload of a job whose push has ended is in the queue
when the clear ends, and neither its hash nor its entry in the pending index is. -/
theorem cleared_metadata_lost : ∃ d : System, Interleaved onePage clearingReports d ∧
    d.prog none = .ret 0 ∧ d.prog (some "job") = .ret 0 ∧ "job" ∈ d.store.1.ready ∧
      d.store.1.hasHash "job" = false ∧ "job" ∉ d.store.1.members "pending_jobs" := by
  refine ⟨_, reaches_clearing overtakingSchedule (fun f => by simp [overtakingSchedule])
    clearingReports, ?_⟩
  exact ⟨rfl, rfl, by decide +kernel, by decide +kernel, by decide +kernel⟩

/-- The clear comes to its end before the push starts. -/
def orderlySchedule : List (Move (Option String) (Program.Recorded Operation Store)) :=
  [.run none, .run none]

/-- The same job is met and lost where both steps of its push fall into the clear, and kept where the
clear has ended before. -/
theorem kept_iff_not_met_reports :
    let overtaken := clearingReports.play (fun _ => Program.recording (exec onePage)) overtakingSchedule
    let cleared := clearingReports.play (fun _ => Program.recording (exec onePage)) orderlySchedule
    let pushed := cleared.play (fun _ => Program.recording (exec onePage))
      [.run (some "job"), .run (some "job")]
    (Recorded "job" overtaken.store.1 ↔ "job" ∉ met onePage overtaken.store.2) ∧
      "job" ∈ met onePage overtaken.store.2 ∧ Recorded "job" pushed.store.1 := by
  intro overtaken cleared pushed
  have hfresh : Unrecorded "job" clearingReports.store.1 := ⟨rfl, rfl, by decide⟩
  have hcleared : Interleaved onePage clearingReports cleared :=
    reaches_clearing orderlySchedule (fun f => by simp [orderlySchedule]) clearingReports
  have hpushed : Interleaved onePage cleared pushed :=
    reaches_clearing _ (fun f => by simp) cleared
  have hmet := kept_iff_not_met (n := 0) (by decide) rfl hfresh
    (reaches_clearing overtakingSchedule (fun f => by simp [overtakingSchedule]) clearingReports) rfl
  have hkept := kept_iff_not_met (n := 0) (by decide) rfl hfresh (hcleared.trans hpushed) rfl
  refine ⟨hmet.1, by decide +kernel, hkept.2 cleared hcleared trivial ?_ hpushed⟩
  intro job s' hmem
  have hoperations : cleared.store.2.map Prod.fst =
      [.purge ⟨"redis", "reports"⟩ 0, .clear] := rfl
  have hpushed := List.mem_map_of_mem (f := Prod.fst) hmem
  rw [hoperations] at hpushed
  simp at hpushed

end ClearQueue

end HorizonNewDawn

import HorizonNewDawn.Program.Evaluation
import HorizonNewDawn.Queues.ClearQueue
import Mathlib.Data.List.TakeWhile

/-! # Forgetting the metadata of pending jobs

The scripts of `ClearQueueMetadata` build the keys of the tag sets out of the tags of a job, and Horizon
keeps the hashes of the jobs under keys of the same form. A tag that is the id of a job makes `ZREM` fail
in the middle of a script. `purge_and_forget_iff` says exactly when `purgePending` removes what it has to
and nothing else, and when `forgetPending` removes all of a job or nothing of it. -/

namespace HorizonNewDawn

open Program

namespace ClearQueue

/-! ## What is to be removed -/

/-- The keys of the indexes a job with some tags is in. -/
def indexes (tags : List String) : List String := "pending_jobs" :: "recent_jobs" :: tags

/-- The hash of a job. -/
def Store.hash? (s : Store) (id : String) : Option JobHash :=
  match s.horizon id with
  | some (.hash job) => some job
  | _ => none

/-- The tags of a job. -/
def Store.tagsOf (s : Store) (id : String) : List String :=
  ((s.hash? id).map fun job => tags job.payload).getD []

/-- The listed jobs that are to be purged. -/
def matching (s : Store) (data : QueueTargetData) : List String :=
  (s.members "pending_jobs").filter fun id => (s.hash? id).any (Purges data)

/-- A sorted set. Redis keeps no empty one. -/
def HorizonValue.ofMembers (members : List String) : Option HorizonValue :=
  if members = [] then none else some (.sortedSet members)

/-- A value without some members, where it is a sorted set. -/
def HorizonValue.without (gone : String → Bool) : HorizonValue → Option HorizonValue
  | .sortedSet members => ofMembers (members.filter fun id => !gone id)
  | .hash job => some (.hash job)

/-- What is under a key when those of the listed jobs that are to be purged are. -/
def Store.purged (s : Store) (data : QueueTargetData) (listed : List String) (key : String) :
    Option HorizonValue :=
  if key ∈ listed ∧ key ∈ matching s data then none
  else (s.horizon key).bind (·.without fun id =>
    decide (id ∈ listed ∧ id ∈ matching s data ∧ key ∈ indexes (s.tagsOf id)))

/-- What is under a key when a job is forgotten. -/
def Store.forgotten (s : Store) (id : String) (tags : List String) (key : String) :
    Option HorizonValue :=
  if key = id then none
  else if key ∈ indexes tags then (s.horizon key).bind (·.without (· = id))
  else s.horizon key

/-- Horizon's keys: the indexes are sorted sets, and under the id of a listed job stands its hash, if
anything. -/
structure HorizonKeys (s : Store) : Prop where
  pending : s.hasHash "pending_jobs" = false
  recent : s.hasHash "recent_jobs" = false
  jobs : ∀ id ∈ s.members "pending_jobs", ∀ members, s.horizon id ≠ some (.sortedSet members)
  nonempty : ∀ key, s.horizon key ≠ some (.sortedSet [])
  nodup : (s.members "pending_jobs").Nodup

/-! ## Forgetting one job -/

/-- The script of `forgetPending`. -/
def forgetScript (id : String) (tags : List String) : Script Store ℕ := do
  let s ← get
  match s.horizon id with
  -- HGET of a key that holds no hash
  | some (.sortedSet _) => throw ()
  | none => pure 0
  | some (.hash job) =>
      if job.status ≠ some "pending" then pure 0
      else do
        zrem "pending_jobs" id
        zrem "recent_jobs" id
        tags.forM fun tag => zrem tag id
        modify (·.del id)
        pure 1

/-- `ClearQueueMetadata::forgetPending`, alone. -/
def forgetPending (client : RedisClient) (id : String) (tags : List String) (s : Store) :
    Outcome ClearFailure Bool × Store :=
  match (forgetScript id tags).outcome s with
  | (some removed, s') => (.returned (removed = 1), s')
  | (none, s') =>
      match client with
      | .phpRedis => (.returned false, s')
      | .predis => (.thrown .serverException, s')

/-! ## `ZSCAN` -/

/-- The cursors of an iteration over a set that changes between the pages. -/
def cursorAt (zscan : List String → ℕ → ℕ × List String) (sets : ℕ → List String) : ℕ → ℕ
  | 0 => 0
  | i + 1 => (zscan (sets i) (cursorAt zscan sets i)).1

/-- What Redis promises of `ZSCAN`: the cursor becomes 0 after some pages, and what is in the set all
the time is on one of these. -/
structure Scans (zscan : List String → ℕ → ℕ × List String) : Prop where
  subset : ∀ members cursor, (zscan members cursor).2 ⊆ members
  complete : ∀ sets : ℕ → List String, (∀ i, sets (i + 1) ⊆ sets i) →
    ∃ n, (∀ i < n, cursorAt zscan sets (i + 1) ≠ 0) ∧ cursorAt zscan sets (n + 1) = 0 ∧
      ∀ id, (∀ i ≤ n, id ∈ sets i) → ∃ i ≤ n, id ∈ (zscan (sets i) (cursorAt zscan sets i)).2

/-! ## Removing a job from its indexes -/

variable {s s' : Store} {data : QueueTargetData} {id key : String} {keys listed : List String}

/-- Without some members the others are left. -/
theorem ofMembers_without (gone : String → Bool) (members : List String) :
    (HorizonValue.ofMembers members).bind (·.without gone) =
      HorizonValue.ofMembers (members.filter fun id => !gone id) := by
  cases members <;> rfl

/-- Taking members out in two steps. -/
theorem without_without (value : HorizonValue) (gone gone' : String → Bool) :
    (value.without gone).bind (·.without gone') = value.without fun id => gone id || gone' id := by
  cases value with
  | hash job => rfl
  | sortedSet members =>
      rw [HorizonValue.without, ofMembers_without, List.filter_filter, HorizonValue.without]
      congr 2
      funext id
      simp [Bool.and_comm]

/-- Where none of the members is gone a value stays as it is. -/
theorem without_false (value : HorizonValue) (h : value ≠ .sortedSet []) {gone : String → Bool}
    (hgone : ∀ members, value = .sortedSet members → ∀ id ∈ members, gone id = false) :
    value.without gone = some value := by
  cases value with
  | hash job => rfl
  | sortedSet members =>
      have hfilter : members.filter (fun id => !gone id) = members :=
        List.filter_eq_self.mpr fun id hid => by simp [hgone members rfl id hid]
      have hne : members ≠ [] := fun hnil => h (by rw [hnil])
      rw [HorizonValue.without, hfilter, HorizonValue.ofMembers, if_neg hne]

/-- `ZREM` takes the member out. -/
theorem horizon_setMembers (h : s.hasHash key = false) :
    (s.setMembers key ((s.members key).filter (· ≠ id))).horizon key =
      (s.horizon key).bind (·.without (· = id)) := by
  have hset (members : List String) :
      (s.setMembers key members).horizon key = HorizonValue.ofMembers members :=
    Function.update_self _ _ _
  rw [hset, Store.members]
  cases hvalue : s.horizon key with
  | none => rfl
  | some value =>
      cases value with
      | hash job => simp [Store.hasHash, hvalue] at h
      | sortedSet members => simp [HorizonValue.without]

/-- What a store has lost when a job is taken out of some indexes. -/
def Store.unlisted (s : Store) (id : String) (keys : List String) : Store :=
  { s with horizon := fun key =>
      if key ∈ keys then (s.horizon key).bind (·.without (· = id)) else s.horizon key }

/-- Taking a job off the indexes changes no hash. -/
theorem hasHash_unlisted : (s.unlisted id keys).hasHash key = s.hasHash key := by
  unfold Store.hasHash Store.unlisted
  dsimp only
  split_ifs with h
  · cases s.horizon key with
    | none => rfl
    | some value =>
        cases value with
        | hash job => rfl
        | sortedSet members =>
            rw [Option.bind_some, HorizonValue.without, HorizonValue.ofMembers]
            split_ifs <;> rfl
  · rfl

/-- A job is taken out of its indexes one after the other. -/
theorem unlisted_cons (hkey : s.hasHash key = false) :
    (s.setMembers key ((s.members key).filter (· ≠ id))).unlisted id keys =
      s.unlisted id (key :: keys) := by
  have hother (key' : String) (hne : key' ≠ key) :
      (s.setMembers key ((s.members key).filter (· ≠ id))).horizon key' = s.horizon key' :=
    Store.horizon_setMembers_ne hne
  unfold Store.unlisted
  rw [show (s.setMembers key ((s.members key).filter (· ≠ id))) =
    { s with horizon := (s.setMembers key ((s.members key).filter (· ≠ id))).horizon } from rfl]
  congr 1
  funext key'
  by_cases hne : key' = key
  · subst hne
    simp only [List.mem_cons, true_or, if_true]
    rw [horizon_setMembers hkey]
    split_ifs
    · cases s.horizon key' with
      | none => rfl
      | some value =>
          simp only [Option.bind_some, without_without, Bool.or_self]
    · rfl
  · simp only [List.mem_cons, hne, false_or, hother key' hne]

/-- **Taking a job out of some indexes**, one command for each: the script is aborted at the first key
that holds a hash, and has done the commands before it. -/
theorem outcome_forM_zrem : (keys.forM fun key => zrem key id).outcome s =
    (if ∃ key ∈ keys, s.hasHash key = true then none else some PUnit.unit,
      s.unlisted id (keys.takeWhile fun key => !s.hasHash key)) := by
  induction keys generalizing s with
  | nil =>
      rw [if_neg (by simp)]
      rfl
  | cons key keys ih =>
      show ((zrem key id) >>= fun _ => keys.forM fun key => zrem key id).outcome s = _
      rw [Script.outcome_bind]
      by_cases hhash : s.hasHash key = true
      · rw [outcome_zrem_of_hash hhash, List.takeWhile_cons_of_neg (by simp [hhash]),
          if_pos ⟨key, List.mem_cons_self, hhash⟩]
        rfl
      · rw [Bool.not_eq_true] at hhash
        rw [outcome_zrem_of_not_hash hhash]
        dsimp only
        have hsame (key' : String) :
            (s.setMembers key ((s.members key).filter (· ≠ id))).hasHash key' = s.hasHash key' := by
          by_cases hne : key' = key
          · rw [hne, Store.hasHash_setMembers, hhash]
          · exact Store.hasHash_congr (Store.horizon_setMembers_ne hne)
        rw [ih]
        simp only [hsame]
        rw [unlisted_cons hhash, List.takeWhile_cons_of_pos (by simp [hhash])]
        simp [hhash]

/-- The commands of both scripts, before they go on with the hash. -/
theorem outcome_zrems {α : Type} (tags : List String) (next : Script Store α) :
    Script.outcome (do
      zrem "pending_jobs" id
      zrem "recent_jobs" id
      tags.forM fun tag => zrem tag id
      next) s =
    if ∃ key ∈ indexes tags, s.hasHash key = true then
      (none, s.unlisted id ((indexes tags).takeWhile fun key => !s.hasHash key))
    else next.outcome (s.unlisted id (indexes tags)) := by
  have hforM : (do
      zrem "pending_jobs" id
      zrem "recent_jobs" id
      tags.forM fun tag => zrem tag id
      next) = ((indexes tags).forM fun key => zrem key id) >>= fun _ => next := by
    simp [indexes]
  rw [hforM, Script.outcome_bind, outcome_forM_zrem]
  split_ifs with h
  · rfl
  · have hwhole : (indexes tags).takeWhile (fun key => !s.hasHash key) = indexes tags :=
      List.takeWhile_eq_self_iff.mpr fun key hkey => by simpa using fun hhash => h ⟨key, hkey, hhash⟩
    rw [hwhole]

/-! ## The purge of the listed jobs -/

/-- The hash of a job is what its key holds. -/
theorem hash?_eq_some {job : JobHash} : s.hash? id = some job ↔ s.horizon id = some (.hash job) := by
  unfold Store.hash?
  split <;> simp_all

/-- The matching jobs are the pending ones whose hash the script deletes. -/
theorem mem_matching : id ∈ matching s data ↔ id ∈ s.members "pending_jobs" ∧
    ∃ job, s.horizon id = some (.hash job) ∧ Purges data job := by
  rw [matching, List.mem_filter, Option.any_eq_true]
  simp [hash?_eq_some]

/-- A store in which some of the listed jobs have been purged. -/
structure Purged (s : Store) (data : QueueTargetData) (listed : List String) (s' : Store) : Prop where
  horizon : ∀ key, s'.horizon key = s.purged data listed key
  ready : s'.ready = s.ready
  delayed : s'.delayed = s.delayed
  reserved : s'.reserved = s.reserved

/-- The number of the listed jobs that have been purged. -/
def purgedCount (s : Store) (data : QueueTargetData) (listed : List String) : ℕ :=
  ((matching s data).filter (· ∈ listed)).length

/-- A job that is not to be purged, or has been purged before. -/
theorem purged_cons_of_notMem (h : id ∈ matching s data → id ∈ listed) :
    s.purged data (id :: listed) key = s.purged data listed key ∧
      purgedCount s data (id :: listed) = purgedCount s data listed := by
  have hiff (id' : String) : id' ∈ id :: listed ∧ id' ∈ matching s data ↔
      id' ∈ listed ∧ id' ∈ matching s data := by
    rw [List.mem_cons]
    constructor
    · rintro ⟨rfl | hid, hmatch⟩
      · exact ⟨h hmatch, hmatch⟩
      · exact ⟨hid, hmatch⟩
    · rintro ⟨hid, hmatch⟩
      exact ⟨Or.inr hid, hmatch⟩
  constructor
  · unfold Store.purged
    simp only [← and_assoc, hiff]
  · unfold purgedCount
    congr 1
    apply List.filter_congr
    intro id' hid'
    have hid := hiff id'
    simp only [hid', and_true] at hid
    simp only [hid]

/-- The count goes up with a job that has not been purged before. -/
theorem purgedCount_cons (hnodup : (s.members "pending_jobs").Nodup) (hid : id ∈ matching s data)
    (hnew : id ∉ listed) : purgedCount s data (id :: listed) = purgedCount s data listed + 1 := by
  have hmatching : (matching s data).Nodup := hnodup.filter _
  have hperm : ((matching s data).filter (· ∈ id :: listed)).Perm
      (id :: (matching s data).filter (· ∈ listed)) := by
    rw [List.perm_ext_iff_of_nodup (hmatching.filter _)
      (List.nodup_cons.mpr ⟨by simp [hnew], hmatching.filter _⟩)]
    intro id'
    simp only [List.mem_filter, List.mem_cons, decide_eq_true_eq]
    constructor
    · rintro ⟨hmatch, rfl | hlisted⟩
      · exact Or.inl rfl
      · exact Or.inr ⟨hmatch, hlisted⟩
    · rintro (rfl | ⟨hmatch, hlisted⟩)
      · exact ⟨hid, Or.inl rfl⟩
      · exact ⟨hmatch, Or.inr hlisted⟩
  rw [purgedCount, hperm.length_eq, List.length_cons, purgedCount]

/-- Hashes do not appear. -/
theorem Purged.hash (h : Purged s data listed s') {job : JobHash}
    (hjob : s'.horizon key = some (.hash job)) : s.horizon key = some (.hash job) := by
  rw [h.horizon, Store.purged] at hjob
  split_ifs at hjob with hgone
  cases hvalue : s.horizon key with
  | none => simp [hvalue] at hjob
  | some value =>
      cases value with
      | hash job' => simpa [hvalue, HorizonValue.without] using hjob
      | sortedSet members =>
          rw [hvalue, Option.bind_some, HorizonValue.without, HorizonValue.ofMembers] at hjob
          split_ifs at hjob
          cases hjob

/-- A purge makes no hash. -/
theorem Purged.hasHash_eq_false (h : Purged s data listed s') (hs : s.hasHash key = false) :
    s'.hasHash key = false := by
  rw [Bool.eq_false_iff] at hs ⊢
  intro hhash
  obtain ⟨job, hjob⟩ := Store.hasHash_iff.mp hhash
  exact hs (Store.hasHash_iff.mpr ⟨job, h.hash hjob⟩)

/-- The keys of the tags of the jobs to be purged hold no hashes. -/
def Collisionless (s : Store) (data : QueueTargetData) : Prop :=
  ∀ id ∈ matching s data, ∀ tag ∈ s.tagsOf id, s.hasHash tag = false

/-- One more job is purged. -/
theorem Purged.cons (h : Purged s data listed s') {job : JobHash}
    (hid : id ∈ matching s data) (hjob : s.horizon id = some (.hash job)) :
    Purged s data (id :: listed) ((s'.unlisted id (indexes (tags job.payload))).del id) := by
  have htags : s.tagsOf id = tags job.payload := by
    rw [Store.tagsOf, hash?_eq_some.mpr hjob]
    rfl
  refine ⟨fun key => ?_, h.ready, h.delayed, h.reserved⟩
  by_cases hkey : key = id
  · -- The hash of the job is deleted.
    subst hkey
    have hdel : ((s'.unlisted key (indexes (tags job.payload))).del key).horizon key = none :=
      Function.update_self _ _ _
    rw [hdel, Store.purged, if_pos ⟨List.mem_cons_self, hid⟩]
  have hdel : ((s'.unlisted id (indexes (tags job.payload))).del id).horizon key =
      (s'.unlisted id (indexes (tags job.payload))).horizon key := Function.update_of_ne hkey _ _
  rw [hdel, Store.unlisted]
  dsimp only
  rw [h.horizon, Store.purged, Store.purged]
  have hlisted : key ∈ id :: listed ↔ key ∈ listed := by simp [hkey]
  by_cases hgone : key ∈ listed ∧ key ∈ matching s data
  · simp only [hlisted, if_pos hgone, Option.bind_none, ite_self]
  simp only [hlisted, if_neg hgone]
  cases s.horizon key with
  | none => split_ifs <;> rfl
  | some value =>
      simp only [Option.bind_some]
      by_cases hindex : key ∈ indexes (tags job.payload)
      · rw [if_pos hindex, without_without]
        congr 1
        funext id'
        by_cases hid' : id' = id
        · subst hid'
          simp [hid, htags, hindex]
        · simp [hid']
      · rw [if_neg hindex]
        congr 1
        funext id'
        by_cases hid' : id' = id
        · subst hid'
          simp [htags, hindex]
        · simp [hid']

/-- No index is a hash. -/
theorem hasHash_indexes (hs : HorizonKeys s) {tags : List String}
    (htags : ∀ tag ∈ tags, s.hasHash tag = false) : ∀ key ∈ indexes tags, s.hasHash key = false := by
  simpa [indexes, hs.pending, hs.recent] using htags

/-- What the purge script does with one job. -/
theorem outcome_purgeJob_eq (count : ℕ) : (purgeJob data count id).outcome s =
    match s.horizon id with
    | some (.sortedSet _) => (none, s)
    | none => (some count, s)
    | some (.hash job) =>
        if Purges data job then
          if ∃ key ∈ indexes (tags job.payload), s.hasHash key = true then
            (none, s.unlisted id
              ((indexes (tags job.payload)).takeWhile fun key => !s.hasHash key))
          else (some (count + 1), (s.unlisted id (indexes (tags job.payload))).del id)
        else (some count, s) := by
  rw [purgeJob, Script.outcome_bind]
  show Script.outcome (match s.horizon id with
    | some (.sortedSet _) => throw ()
    | none => pure count
    | some (.hash job) => _) s = _
  cases s.horizon id with
  | none => rfl
  | some value =>
      cases value with
      | sortedSet members => rfl
      | hash job =>
          dsimp only
          by_cases hpurges : Purges data job
          · have hcondition := hpurges
            unfold Purges at hcondition
            rw [if_pos hpurges, if_pos hcondition, outcome_zrems, Script.outcome_bind,
              Script.outcome_modify]
            rfl
          · have hcondition := hpurges
            unfold Purges at hcondition
            rw [if_neg hpurges, if_neg hcondition]
            rfl

/-- **One job of a page**: it is purged where it has to be. -/
theorem outcome_purgeJob (hs : HorizonKeys s) (hclear : Collisionless s data)
    (h : Purged s data listed s') (hid : id ∈ s.members "pending_jobs") (count : ℕ) :
    ∃ count' s'', (purgeJob data count id).outcome s' = (some count', s'') ∧
      count' + purgedCount s data listed = count + purgedCount s data (id :: listed) ∧
      Purged s data (id :: listed) s'' := by
  have hhorizon := h.horizon id
  rw [Store.purged] at hhorizon
  -- A job that stays as it is.
  have hskip (hnot : id ∈ matching s data → id ∈ listed)
      (hscript : (purgeJob data count id).outcome s' = (some count, s')) :
      ∃ count' s'', (purgeJob data count id).outcome s' = (some count', s'') ∧
        count' + purgedCount s data listed = count + purgedCount s data (id :: listed) ∧
        Purged s data (id :: listed) s'' := by
    refine ⟨count, s', hscript, ?_, ?_, h.ready, h.delayed, h.reserved⟩
    · rw [(@purged_cons_of_notMem s data id id listed hnot).2]
    · intro key
      rw [(purged_cons_of_notMem hnot).1, h.horizon]
  have hscript := @outcome_purgeJob_eq s' data id count
  cases hvalue : s'.horizon id with
  | none =>
      rw [hvalue] at hscript hhorizon
      apply hskip _ hscript
      intro hmatch
      by_contra hnew
      obtain ⟨-, job, hjob, -⟩ := mem_matching.mp hmatch
      rw [if_neg (by simp [hnew]), hjob] at hhorizon
      cases hhorizon
  | some value =>
      rw [hvalue] at hscript hhorizon
      cases value with
      | sortedSet members =>
          -- Under the id of a listed job stands no sorted set.
          exfalso
          split_ifs at hhorizon
          cases hold : s.horizon id with
          | none => simp [hold] at hhorizon
          | some value =>
              cases value with
              | sortedSet members' => exact hs.jobs id hid members' hold
              | hash job => simp [hold, HorizonValue.without] at hhorizon
      | hash job =>
          have hold := h.hash hvalue
          dsimp only at hscript
          by_cases hpurges : Purges data job
          · have hmatch : id ∈ matching s data := mem_matching.mpr ⟨hid, job, hold, hpurges⟩
            have hnew : id ∉ listed := by
              intro hlisted
              rw [if_pos ⟨hlisted, hmatch⟩] at hhorizon
              cases hhorizon
            have htags : s.tagsOf id = tags job.payload := by
              rw [Store.tagsOf, hash?_eq_some.mpr hold]
              rfl
            have hindexes := hasHash_indexes hs (htags ▸ hclear id hmatch)
            have hnone : ¬∃ key ∈ indexes (tags job.payload), s'.hasHash key = true := by
              rintro ⟨key, hkey, hhash⟩
              rw [h.hasHash_eq_false (hindexes key hkey)] at hhash
              cases hhash
            rw [if_pos hpurges, if_neg hnone] at hscript
            refine ⟨count + 1, _, hscript, ?_, ?_⟩
            · rw [purgedCount_cons hs.nodup hmatch hnew]
              omega
            · exact h.cons hmatch hold
          · rw [if_neg hpurges] at hscript
            apply hskip _ hscript
            intro hmatch
            obtain ⟨-, job', hjob', hpurges'⟩ := mem_matching.mp hmatch
            rw [hold] at hjob'
            cases hjob'
            exact absurd hpurges' hpurges

/-- The members of a key that some members make up are these. -/
theorem members_of_ofMembers {members : List String}
    (h : s.horizon key = HorizonValue.ofMembers members) : s.members key = members := by
  unfold Store.members
  rw [h]
  cases members <;> rfl

/-- The members of a sorted set are those it lists. -/
theorem members_of_sortedSet {members : List String}
    (h : s.horizon key = some (.sortedSet members)) : s.members key = members := by
  unfold Store.members
  rw [h]

/-- A hash has no members. -/
theorem members_of_hash {job : JobHash} (h : s.horizon key = some (.hash job)) : s.members key = [] := by
  unfold Store.members
  rw [h]

/-- The members that are left. -/
theorem Purged.mem_members (h : Purged s data listed s') (hkey : key ∉ matching s data) :
    id ∈ s'.members key ↔ id ∈ s.members key ∧
      ¬(id ∈ listed ∧ id ∈ matching s data ∧ key ∈ indexes (s.tagsOf id)) := by
  have hhorizon := h.horizon key
  rw [Store.purged, if_neg (fun hgone => hkey hgone.2)] at hhorizon
  cases hvalue : s.horizon key with
  | none =>
      rw [hvalue] at hhorizon
      simp [Store.members_of_none hhorizon, Store.members_of_none hvalue]
  | some value =>
      rw [hvalue] at hhorizon
      cases value with
      | hash job => simp [members_of_hash hhorizon, members_of_hash hvalue]
      | sortedSet members =>
          rw [members_of_ofMembers hhorizon, members_of_sortedSet hvalue, List.mem_filter]
          simp only [Bool.not_eq_true', decide_eq_false_iff_not]

/-- The pending index is none of the matching jobs. -/
theorem HorizonKeys.pending_notMem (hs : HorizonKeys s) : "pending_jobs" ∉ matching s data := by
  intro hmatch
  obtain ⟨-, job, hjob, -⟩ := mem_matching.mp hmatch
  have hhash : s.hasHash "pending_jobs" = true := Store.hasHash_iff.mpr ⟨job, hjob⟩
  rw [hs.pending] at hhash
  cases hhash

/-- A purge takes the listed jobs that match off the pending index. -/
theorem Purged.mem_pending (hs : HorizonKeys s) (h : Purged s data listed s') :
    id ∈ s'.members "pending_jobs" ↔
      id ∈ s.members "pending_jobs" ∧ ¬(id ∈ listed ∧ id ∈ matching s data) := by
  rw [h.mem_members hs.pending_notMem]
  simp [indexes]

/-! ## The pages -/

/-- The loop over a page. -/
theorem outcome_foldlM (hs : HorizonKeys s) (hclear : Collisionless s data)
    (h : Purged s data listed s') {page : List String} (hpage : page ⊆ s.members "pending_jobs")
    (count : ℕ) :
    ∃ count' s'', (page.foldlM (purgeJob data) count).outcome s' = (some count', s'') ∧
      count' + purgedCount s data listed = count + purgedCount s data (page.reverse ++ listed) ∧
      Purged s data (page.reverse ++ listed) s'' := by
  induction page generalizing s' listed count with
  | nil => exact ⟨count, s', rfl, rfl, h⟩
  | cons id page ih =>
      obtain ⟨hid, hpage⟩ := List.cons_subset.mp hpage
      obtain ⟨count₁, s₁, hscript, hcount, hpurged⟩ := outcome_purgeJob hs hclear h hid count
      obtain ⟨count₂, s₂, hscript', hcount', hpurged'⟩ := ih hpurged hpage count₁
      have hreverse : (id :: page).reverse ++ listed = page.reverse ++ id :: listed := by simp
      rw [List.foldlM_cons, Script.outcome_bind, hscript, hreverse]
      exact ⟨count₂, s₂, hscript', by omega, hpurged'⟩

variable {zscan : List String → ℕ → ℕ × List String}

/-- The store and the cursor before a page. -/
def pageAt (zscan : List String → ℕ → ℕ × List String) (data : QueueTargetData) (s : Store) :
    ℕ → Store × ℕ
  | 0 => (s, 0)
  | i + 1 =>
      let (s', cursor) := pageAt zscan data s i
      (((purgeScript zscan data cursor).outcome s').2, (zscan (s'.members "pending_jobs") cursor).1)

/-- The jobs on the pages before a page. -/
def listedAt (zscan : List String → ℕ → ℕ × List String) (data : QueueTargetData) (s : Store) :
    ℕ → List String
  | 0 => []
  | i + 1 =>
      let (s', cursor) := pageAt zscan data s i
      (zscan (s'.members "pending_jobs") cursor).2.reverse ++ listedAt zscan data s i

/-- **A page**: its jobs are purged and counted. -/
theorem outcome_purgeScript (hs : HorizonKeys s) (hclear : Collisionless s data) (hscan : Scans zscan)
    {i : ℕ} (h : Purged s data (listedAt zscan data s i) (pageAt zscan data s i).1) :
    ∃ count, (purgeScript zscan data (pageAt zscan data s i).2).outcome (pageAt zscan data s i).1 =
        (some (count, (pageAt zscan data s (i + 1)).2), (pageAt zscan data s (i + 1)).1) ∧
      count + purgedCount s data (listedAt zscan data s i) =
        purgedCount s data (listedAt zscan data s (i + 1)) ∧
      Purged s data (listedAt zscan data s (i + 1)) (pageAt zscan data s (i + 1)).1 := by
  set s' := (pageAt zscan data s i).1 with hs'
  set cursor := (pageAt zscan data s i).2 with hcursor
  set page := (zscan (s'.members "pending_jobs") cursor).2 with hpage
  have hsubset : page ⊆ s.members "pending_jobs" := by
    intro id hid
    exact ((h.mem_pending hs).mp (hscan.subset _ _ hid)).1
  obtain ⟨count, s'', hscript, hcount, hpurged⟩ := outcome_foldlM hs hclear h hsubset 0
  have houtcome : (purgeScript zscan data cursor).outcome s' =
      (some (count, (zscan (s'.members "pending_jobs") cursor).1), s'') := by
    rw [purgeScript, Script.outcome_bind]
    show Script.outcome (if s'.hasHash "pending_jobs" = true then throw () else _) s' = _
    rw [if_neg (by simp [h.hasHash_eq_false hs.pending]), Script.outcome_bind, hscript]
    rfl
  have hnext : pageAt zscan data s (i + 1) = (s'', (zscan (s'.members "pending_jobs") cursor).1) := by
    show (((purgeScript zscan data cursor).outcome s').2, _) = _
    rw [houtcome]
  have hlisted : listedAt zscan data s (i + 1) = page.reverse ++ listedAt zscan data s i := rfl
  refine ⟨count, ?_, ?_, ?_⟩
  · rw [hnext, houtcome]
  · rw [hlisted]
    omega
  · rw [hnext, hlisted]
    exact hpurged

/-- The pages of a clear purge what they list. -/
theorem purged_pageAt (hs : HorizonKeys s) (hclear : Collisionless s data) (hscan : Scans zscan)
    (i : ℕ) : Purged s data (listedAt zscan data s i) (pageAt zscan data s i).1 := by
  induction i with
  | zero =>
      refine ⟨fun key => ?_, rfl, rfl, rfl⟩
      show s.horizon key = s.purged data [] key
      rw [Store.purged, if_neg (by simp)]
      cases hvalue : s.horizon key with
      | none => rfl
      | some value =>
          have hne : value ≠ .sortedSet [] := fun hempty => hs.nonempty key (hempty ▸ hvalue)
          exact (without_false value hne (by simp)).symm
  | succ i ih =>
      obtain ⟨_, _, _, hpurged⟩ := outcome_purgeScript hs hclear hscan ih
      exact hpurged

/-- The loop of `purgePending` goes on until the cursor is 0. -/
theorem eval_iterate (hs : HorizonKeys s) (hclear : Collisionless s data) (hscan : Scans zscan)
    (client : RedisClient) (fuel : ℕ) {n i : ℕ} (hi : i ≤ n) (hfuel : n < fuel + i)
    (hmore : ∀ j < n, (pageAt zscan data s (j + 1)).2 ≠ 0)
    (hlast : (pageAt zscan data s (n + 1)).2 = 0) :
    (Prog.iterate fuel (fun (count, cursor) => purgePage client data count cursor)
        (purgedCount s data (listedAt zscan data s i), (pageAt zscan data s i).2)).eval (exec zscan)
        (pageAt zscan data s i).1 =
      (.returned (purgedCount s data (listedAt zscan data s (n + 1))), (pageAt zscan data s (n + 1)).1) := by
  induction fuel generalizing i with
  | zero => omega
  | succ fuel ih =>
      -- One page, whichever it is: the script answers with what it purged and the next cursor.
      obtain ⟨count, hscript, hcount, -⟩ :=
        outcome_purgeScript hs hclear hscan (purged_pageAt hs hclear hscan i)
      have hpurge : (purge data (pageAt zscan data s i).2).eval (exec zscan) (pageAt zscan data s i).1 =
          (.returned (some (count, (pageAt zscan data s (i + 1)).2)), (pageAt zscan data s (i + 1)).1) := by
        have hexec : exec zscan (.purge data (pageAt zscan data s i).2) (pageAt zscan data s i).1 =
            (some (count, (pageAt zscan data s (i + 1)).2), (pageAt zscan data s (i + 1)).1) := hscript
        rw [purge, Prog.perform, Prog.eval_op, hexec]
        rfl
      rw [Prog.iterate]
      by_cases hin : i = n
      · -- The last page.
        subst hin
        have hpage : (purgePage client data (purgedCount s data (listedAt zscan data s i))
            (pageAt zscan data s i).2).eval (exec zscan) (pageAt zscan data s i).1 =
            (.returned (.inr (purgedCount s data (listedAt zscan data s (i + 1)))),
              (pageAt zscan data s (i + 1)).1) := by
          unfold purgePage
          rw [Prog.eval_bind_of hpurge]
          dsimp only
          rw [if_pos hlast, Nat.add_comm, hcount]
          rfl
        rw [Prog.eval_bind_of hpage]
        rfl
      · have hlt : i < n := Nat.lt_of_le_of_ne hi hin
        have hpage : (purgePage client data (purgedCount s data (listedAt zscan data s i))
            (pageAt zscan data s i).2).eval (exec zscan) (pageAt zscan data s i).1 =
            (.returned (.inl (purgedCount s data (listedAt zscan data s (i + 1)),
              (pageAt zscan data s (i + 1)).2)), (pageAt zscan data s (i + 1)).1) := by
          unfold purgePage
          rw [Prog.eval_bind_of hpurge]
          dsimp only
          rw [if_neg (hmore i hlt), Nat.add_comm, hcount]
          rfl
        rw [Prog.eval_bind_of hpage]
        exact ih hlt (by omega)

/-- The pages are those of an iteration over the pending jobs. -/
theorem cursorAt_pageAt (i : ℕ) :
    cursorAt zscan (fun i => (pageAt zscan data s i).1.members "pending_jobs") i =
      (pageAt zscan data s i).2 := by
  induction i with
  | zero => rfl
  | succ i ih =>
      rw [cursorAt, ih]
      rfl

/-- Later pages have listed more. -/
theorem listedAt_mono {i j : ℕ} (hij : i ≤ j) (hid : id ∈ listedAt zscan data s i) :
    id ∈ listedAt zscan data s j := by
  induction hij with
  | refl => exact hid
  | step _ ih => exact List.mem_append_right _ ih

/-! ## The whole purge -/

/-- `purgePending` removes the jobs that are to be purged from their indexes, deletes their hashes,
leaves everything else alone and returns their number. -/
def PurgesExactly (s : Store) (data : QueueTargetData) : Prop :=
  ∀ client zscan, Scans zscan → ∃ enough, ∀ fuel, enough ≤ fuel →
    ∃ s', (purgePending client fuel data).eval (exec zscan) s =
      (.returned (matching s data).length, s') ∧ Purged s data (matching s data) s'

/-- **The purge without collisions.** -/
theorem purgesExactly_of_collisionless (hs : HorizonKeys s) (hclear : Collisionless s data) :
    PurgesExactly s data := by
  intro client zscan hscan
  have hshrinks (i : ℕ) : (pageAt zscan data s (i + 1)).1.members "pending_jobs" ⊆
      (pageAt zscan data s i).1.members "pending_jobs" := by
    intro id hid
    rw [(purged_pageAt hs hclear hscan _).mem_pending hs] at hid ⊢
    refine ⟨hid.1, fun hgone => hid.2 ⟨?_, hgone.2⟩⟩
    exact listedAt_mono (Nat.le_succ i) hgone.1
  obtain ⟨n, hmore, hlast, hcomplete⟩ := hscan.complete
    (fun i => (pageAt zscan data s i).1.members "pending_jobs") hshrinks
  simp only [cursorAt_pageAt] at hmore hlast hcomplete
  -- A job that is to be purged is on one of the pages.
  have hlisted (id : String) (hid : id ∈ matching s data) :
      id ∈ listedAt zscan data s (n + 1) := by
    by_contra hnot
    have hall (i : ℕ) (hi : i ≤ n) : id ∈ (pageAt zscan data s i).1.members "pending_jobs" := by
      rw [(purged_pageAt hs hclear hscan i).mem_pending hs]
      refine ⟨(mem_matching.mp hid).1, fun hgone => hnot ?_⟩
      exact listedAt_mono (hi.trans (Nat.le_succ n)) hgone.1
    obtain ⟨i, hi, hpage⟩ := hcomplete id hall
    apply hnot
    have hnext : id ∈ listedAt zscan data s (i + 1) :=
      List.mem_append_left _ (List.mem_reverse.mpr hpage)
    exact listedAt_mono (Nat.succ_le_succ hi) hnext
  have hiff (id : String) : id ∈ listedAt zscan data s (n + 1) ∧ id ∈ matching s data ↔
      id ∈ matching s data ∧ id ∈ matching s data :=
    ⟨fun h => ⟨h.2, h.2⟩, fun h => ⟨hlisted id h.1, h.1⟩⟩
  refine ⟨n + 1, fun fuel hfuel => ⟨(pageAt zscan data s (n + 1)).1, ?_, ?_⟩⟩
  · have hrun := eval_iterate hs hclear hscan client fuel (Nat.zero_le n) (by omega) hmore hlast
    have hcount : purgedCount s data (listedAt zscan data s (n + 1)) = (matching s data).length := by
      rw [purgedCount, List.filter_eq_self.mpr]
      intro id hid
      exact decide_eq_true (hlisted id hid)
    rw [hcount] at hrun
    have hzero : purgedCount s data (listedAt zscan data s 0) = 0 := by simp [purgedCount, listedAt]
    rw [hzero] at hrun
    exact hrun
  · have hpurged := purged_pageAt hs hclear hscan (n + 1)
    refine ⟨fun key => ?_, hpurged.ready, hpurged.delayed, hpurged.reserved⟩
    rw [hpurged.horizon, Store.purged, Store.purged]
    simp only [← and_assoc, hiff]

/-- `ZSCAN` with one page, that may start with a job of the set. -/
def jobFirst (id : String) (members : List String) (_ : ℕ) : ℕ × List String :=
  (0, if id ∈ members then id :: members else members)

/-- An iteration that shows one job first is an iteration. -/
theorem scans_jobFirst (id : String) : Scans (jobFirst id) where
  subset members cursor := by
    unfold jobFirst
    dsimp only
    split_ifs with hid
    · exact List.cons_subset.mpr ⟨hid, List.Subset.refl _⟩
    · exact List.Subset.refl _
  complete sets _ := by
    refine ⟨0, by simp, rfl, fun id' hid' => ⟨0, le_rfl, ?_⟩⟩
    have hmem := hid' 0 le_rfl
    show id' ∈ if id ∈ sets 0 then id :: sets 0 else sets 0
    split_ifs
    · exact List.mem_cons_of_mem id hmem
    · exact hmem

/-- **The purge with a collision**: a page that starts with the job is aborted. -/
theorem not_purgesExactly (hs : HorizonKeys s) (hcollision : ¬Collisionless s data) :
    ¬PurgesExactly s data := by
  unfold Collisionless at hcollision
  push Not at hcollision
  obtain ⟨id, hid, tag, htag, hhash⟩ := hcollision
  obtain ⟨hmem, job, hjob, hpurges⟩ := mem_matching.mp hid
  rw [Store.tagsOf, hash?_eq_some.mpr hjob] at htag
  have hexists : ∃ key ∈ indexes (tags job.payload), s.hasHash key = true :=
    ⟨tag, List.mem_cons_of_mem _ (List.mem_cons_of_mem _ htag), by simpa using hhash⟩
  have hjobScript := @outcome_purgeJob_eq s data id 0
  rw [hjob] at hjobScript
  dsimp only at hjobScript
  rw [if_pos hpurges, if_pos hexists] at hjobScript
  have hscript : ((purgeScript (jobFirst id) data 0).outcome s).1 = none := by
    rw [purgeScript, Script.outcome_bind]
    show (Script.outcome (if s.hasHash "pending_jobs" = true then throw () else _) s).1 = _
    rw [if_neg (by simp [hs.pending]), Script.outcome_bind, jobFirst, if_pos hmem, List.foldlM_cons,
      Script.outcome_bind, hjobScript]
  intro hexactly
  obtain ⟨enough, hreturns⟩ := hexactly .phpRedis (jobFirst id) (scans_jobFirst id)
  obtain ⟨s', heval, -⟩ := hreturns (enough + 1) (Nat.le_succ enough)
  have hpage : (purgePage .phpRedis data 0 0).eval (exec (jobFirst id)) s =
      (.returned (.inr 0), ((purgeScript (jobFirst id) data 0).outcome s).2) := by
    have hexec : exec (jobFirst id) (.purge data 0) s =
        (none, ((purgeScript (jobFirst id) data 0).outcome s).2) := Prod.ext hscript rfl
    have hpurge : (purge data 0).eval (exec (jobFirst id)) s =
        (.returned none, ((purgeScript (jobFirst id) data 0).outcome s).2) := by
      rw [purge, Prog.perform, Prog.eval_op, hexec]
      rfl
    unfold purgePage
    rw [Prog.eval_bind_of hpurge]
    rfl
  rw [purgePending, Prog.iterate, Prog.eval_bind_of hpage] at heval
  -- Nothing is counted, though there is a job to be purged.
  have hzero : (matching s data).length = 0 := by
    have hreturned := congrArg Prod.fst heval
    simpa using hreturned.symm
  exact List.ne_nil_of_mem hid (List.length_eq_zero_iff.mp hzero)

/-! ## Forgetting a whole job -/

variable {tags : List String}

/-- Taking a job off the indexes and deleting its hash, as one change of the keys. -/
theorem unlisted_del_eq : (s.unlisted id (indexes tags)).del id =
    { s with horizon := s.forgotten id tags } := by
  unfold Store.unlisted Store.del Store.setValue
  congr 1
  funext key
  unfold Store.forgotten
  by_cases hkey : key = id
  · rw [hkey, Function.update_self, if_pos rfl]
  · rw [Function.update_of_ne hkey, if_neg hkey]

/-- A job that is taken off an index is not in it. -/
theorem notMem_unlisted (hkey : key ∈ keys) : id ∉ (s.unlisted id keys).members key := by
  have hhorizon : (s.unlisted id keys).horizon key = (s.horizon key).bind (·.without (· = id)) :=
    if_pos hkey
  cases hvalue : s.horizon key with
  | none =>
      rw [hvalue] at hhorizon
      simp [Store.members_of_none hhorizon]
  | some value =>
      rw [hvalue] at hhorizon
      cases value with
      | hash job => simp [members_of_hash hhorizon]
      | sortedSet members =>
          rw [members_of_ofMembers hhorizon]
          simp

/-- A job that is on none of the indexes is not taken off any. -/
theorem unlisted_eq_self (hs : HorizonKeys s) (h : ∀ key ∈ keys, id ∉ s.members key) :
    s.unlisted id keys = s := by
  have hhorizon : (fun key => if key ∈ keys then (s.horizon key).bind (·.without (· = id))
      else s.horizon key) = s.horizon := by
    funext key
    split_ifs with hkey
    · cases hvalue : s.horizon key with
      | none => rfl
      | some value =>
          have hne : value ≠ .sortedSet [] := fun hempty => hs.nonempty key (hempty ▸ hvalue)
          refine without_false value hne fun members hmembers id' hid' => ?_
          have hnot := h key hkey
          rw [members_of_sortedSet (hmembers ▸ hvalue)] at hnot
          exact decide_eq_false fun heq => hnot (heq ▸ hid')
    · rfl
  unfold Store.unlisted
  rw [hhorizon]

/-- What the script of `forgetPending` does. -/
theorem outcome_forgetScript : (forgetScript id tags).outcome s =
    match s.horizon id with
    | some (.sortedSet _) => (none, s)
    | none => (some 0, s)
    | some (.hash job) =>
        if job.status ≠ some "pending" then (some 0, s)
        else if ∃ key ∈ indexes tags, s.hasHash key = true then
          (none, s.unlisted id ((indexes tags).takeWhile fun key => !s.hasHash key))
        else (some 1, (s.unlisted id (indexes tags)).del id) := by
  rw [forgetScript, Script.outcome_bind]
  show Script.outcome (match s.horizon id with
    | some (.sortedSet _) => throw ()
    | none => pure 0
    | some (.hash job) => _) s = _
  cases s.horizon id with
  | none => rfl
  | some value =>
      cases value with
      | sortedSet members => rfl
      | hash job =>
          dsimp only
          by_cases hstatus : job.status ≠ some "pending"
          · rw [if_pos hstatus, if_pos hstatus]
            rfl
          · rw [if_neg hstatus, if_neg hstatus, outcome_zrems]
            rfl

/-- The store after a forgetting is that of the script. -/
theorem forgetPending_store (client : RedisClient) :
    (forgetPending client id tags s).2 = ((forgetScript id tags).outcome s).2 := by
  unfold forgetPending
  cases (forgetScript id tags).outcome s with
  | mk removed s' =>
      cases removed with
      | some removed => rfl
      | none => cases client <;> rfl

/-- `forgetPending` removes the hash and all the entries of a pending job, or changes nothing. -/
def ForgetsWhole (s : Store) (id : String) (tags : List String) : Prop :=
  ∀ client, (forgetPending client id tags s).2 = s ∨
    (∃ job, s.horizon id = some (.hash job) ∧ job.status = some "pending") ∧
      (forgetPending client id tags s).2 = { s with horizon := s.forgotten id tags }

/-- No tag of a pending job is the key of a hash, or the job is in no index before the first one. -/
def Forgettable (s : Store) (id : String) (tags : List String) : Prop :=
  ∀ job, s.horizon id = some (.hash job) → job.status = some "pending" →
    (∀ tag ∈ tags, s.hasHash tag = false) ∨
      ∀ key ∈ (indexes tags).takeWhile (fun key => !s.hasHash key), id ∉ s.members key

instance : Nonempty RedisClient := ⟨.phpRedis⟩

/-- A job is forgotten as a whole just where its metadata can be forgotten. -/
theorem forgetsWhole_iff (hs : HorizonKeys s) : ForgetsWhole s id tags ↔ Forgettable s id tags := by
  unfold ForgetsWhole
  simp only [forgetPending_store, forall_const]
  have hscript := @outcome_forgetScript s id tags
  constructor
  · intro hwhole job hjob hstatus
    by_cases hclear : ∀ tag ∈ tags, s.hasHash tag = false
    · exact Or.inl hclear
    right
    push Not at hclear
    obtain ⟨tag, htag, hhash⟩ := hclear
    have hexists : ∃ key ∈ indexes tags, s.hasHash key = true :=
      ⟨tag, List.mem_cons_of_mem _ (List.mem_cons_of_mem _ htag), by simpa using hhash⟩
    rw [hjob] at hscript
    dsimp only at hscript
    rw [if_neg (not_not.mpr hstatus), if_pos hexists] at hscript
    rw [hscript] at hwhole
    dsimp only at hwhole
    rcases hwhole with hsame | ⟨-, hforgotten⟩
    · intro key hkey hmem
      have hnot := @notMem_unlisted s id _ _ hkey
      rw [hsame] at hnot
      exact hnot hmem
    · -- The hash is still there.
      have hkept : (s.unlisted id ((indexes tags).takeWhile fun key => !s.hasHash key)).hasHash id =
          true := by
        rw [hasHash_unlisted]
        exact Store.hasHash_iff.mpr ⟨job, hjob⟩
      rw [hforgotten] at hkept
      simp [Store.hasHash, Store.forgotten] at hkept
  · -- The script aborts at the first hash among the indexes, so this follows its branches.
    intro hforgettable
    cases hvalue : s.horizon id with
    | none =>
        rw [hvalue] at hscript
        exact Or.inl (congrArg Prod.snd hscript)
    | some value =>
        rw [hvalue] at hscript
        cases value with
        | sortedSet members => exact Or.inl (congrArg Prod.snd hscript)
        | hash job =>
            dsimp only at hscript
            by_cases hstatus : job.status = some "pending"
            · rw [if_neg (not_not.mpr hstatus)] at hscript
              by_cases hclear : ∀ tag ∈ tags, s.hasHash tag = false
              · have hnone : ¬∃ key ∈ indexes tags, s.hasHash key = true := by
                  rintro ⟨key, hkey, hhash⟩
                  rw [hasHash_indexes hs hclear key hkey] at hhash
                  cases hhash
                rw [if_neg hnone] at hscript
                right
                rw [hscript]
                exact ⟨⟨job, rfl, hstatus⟩, unlisted_del_eq⟩
              · have hexists : ∃ key ∈ indexes tags, s.hasHash key = true := by
                  push Not at hclear
                  obtain ⟨tag, htag, hhash⟩ := hclear
                  exact ⟨tag, List.mem_cons_of_mem _ (List.mem_cons_of_mem _ htag), by simpa using hhash⟩
                rw [if_pos hexists] at hscript
                left
                rw [hscript]
                exact unlisted_eq_self hs ((hforgettable job hvalue hstatus).resolve_left hclear)
            · rw [if_pos hstatus] at hscript
              exact Or.inl (congrArg Prod.snd hscript)

/-- A pending job with a tag. -/
def pendingJob (tag : String) : JobHash :=
  ⟨some "pending", some "default", some "redis", some (some (.obj [("tags", .arr [.str tag])]))⟩

/-- The store of Horizon with a single pending job. -/
def onePending (id tag : String) : Store where
  ready := []
  delayed := []
  reserved := []
  horizon key :=
    if key = "pending_jobs" ∨ key = "recent_jobs" then some (.sortedSet [id])
    else if key = id then some (.hash (pendingJob tag)) else none

/-- The keys of a store with one pending job are those of Horizon. -/
theorem horizonKeys_onePending {id tag : String} (hpending : id ≠ "pending_jobs")
    (hrecent : id ≠ "recent_jobs") : HorizonKeys (onePending id tag) where
  pending := rfl
  recent := rfl
  jobs id' hid' members := by
    have hmem : id' ∈ [id] := hid'
    rw [List.mem_singleton.mp hmem]
    simp [onePending, hpending, hrecent]
  nonempty key := by
    simp only [onePending]
    split_ifs <;> simp
  nodup := List.nodup_singleton id

/-- The job of this store has its one tag. -/
theorem tagsOf_onePending {id tag : String} (hpending : id ≠ "pending_jobs")
    (hrecent : id ≠ "recent_jobs") : (onePending id tag).tagsOf id = [tag] := by
  have hhash : (onePending id tag).hash? id = some (pendingJob tag) := by
    rw [hash?_eq_some]
    simp [onePending, hpending, hrecent]
  rw [Store.tagsOf, hhash]
  rfl

/-- The store of Horizon with two pending jobs of different queues that share a tag. -/
def sharedTag : Store where
  ready := []
  delayed := []
  reserved := []
  horizon
    | "pending_jobs" | "recent_jobs" | "invoices" => some (.sortedSet ["3f2a", "9c1b"])
    | "3f2a" => some (.hash (pendingJob "invoices"))
    | "9c1b" => some (.hash { pendingJob "invoices" with queue := some "reports" })
    | _ => none

/-- The keys of this store are those of Horizon. -/
theorem horizonKeys_sharedTag : HorizonKeys sharedTag where
  pending := rfl
  recent := rfl
  jobs id hid members := by
    have hmem : id ∈ ["3f2a", "9c1b"] := hid
    rcases List.mem_pair.mp hmem with rfl | rfl <;> simp [sharedTag]
  nonempty key := by
    simp only [sharedTag]
    split <;> simp
  nodup := by decide

end ClearQueue

end HorizonNewDawn

import HorizonNewDawn.Collections.Assignments
import HorizonNewDawn.Collections.Checked
import HorizonNewDawn.Jobs.RetainedJobIndex.Reading
import HorizonNewDawn.Php.Document
import Mathlib

/-! # The states of the pending jobs

`PendingJobStateIndex` copies the ready list, the reserved and the delayed sorted set of a queue in one
script and reads the copies in chunks. `pendingQueueEntries` goes through all of them and tags each job
with the first group it is found in, `matchingEntries` goes through the groups of one state.

A member of a sorted set that looks like an integer is no string any more as the key of a PHP array, and
ends every scan that meets it; so does a member whose score is not finite (`scans_iff`). With payloads
that are jobs no scan fails, and the two readings of the groups agree (`pendingQueueEntries_tags`). -/

namespace HorizonNewDawn

namespace PendingJobStateIndex

open Php

variable {F : Type} [LinearOrder F] [Add F] [Zero F] (toFloat : Php → Option F) (isFinite : F → Bool)

/-! ## Payloads -/

/-- `decodePayload` -/
def decodePayload (payload : List UInt8) : List (String × Php) :=
  match jsonParse payload with
  | some (.array entries) => entries
  | _ => []

/-- `$left ?? $right` -/
def coalesce (left right : Php) : Php :=
  match left with
  | .null => right
  | value => value

/-- The id of a job, where it is a string that is not empty. -/
def jobId (payload : List (String × Php)) : Option String :=
  match coalesce (entry "uuid" payload) (entry "id" payload) with
  | .str id => if id = "" then none else some id
  | _ => none

/-- The time at which a job has been made available by hand. -/
def madeAvailableAt (payload : List (String × Php)) : Php :=
  match entry "horizonNewDawn" payload with
  | .array entries => entry "madeAvailableAt" entries
  | _ => .null

/-- `isset` -/
def isSet : Php → Bool
  | .null => false
  | _ => true

/-- `isReleased` -/
def isReleased (payload : List (String × Php)) (asOf : F) : Bool :=
  if isSet (entry "retry_of" payload) then false
  else if (toFloat (madeAvailableAt payload)).isSome then false
  else
    match toFloat (coalesce (entry "createdAt" payload) (entry "pushedAt" payload)),
      toFloat (entry "delay" payload) with
    | some createdAt, some delay => decide (0 < delay) && decide (createdAt + delay ≤ asOf)
    | _, _ => false

/-! ## Snapshots -/

/-- `zrangestore`: the members with a score of a range. -/
def SortedSet.byScore (zset : SortedSet F) (p : F → Bool) : SortedSet F where
  entries := zset.entries.filter fun e => p e.2
  nodup := (List.filter_sublist.map Prod.fst).nodup zset.nodup

/-- The states of a pending job. -/
inductive PendingState
  | ready
  | reserved
  | delayed
  | released
  deriving DecidableEq

/-- Which payloads of a structure count. -/
inductive Filter
  | all
  | ready
  | released

/-- The members of a structure, by its kind. -/
inductive Members (F : Type)
  | list (payloads : List (List UInt8))
  | sorted (zset : SortedSet F)

/-- A structure of a snapshot. -/
structure Structure (F : Type) where
  members : Members F
  expected : ℕ
  state : PendingState
  filter : Filter

/-- The number of members of a structure. -/
def Members.length : Members F → ℕ
  | .list payloads => payloads.length
  | .sorted zset => zset.entries.length

/-- A structure with all of its members. -/
def Structure.of (members : Members F) (state : PendingState) (filter : Filter) : Structure F :=
  ⟨members, members.length, state, filter⟩

/-- `createPendingQueueSnapshot`: the structures at the time of the script. -/
def createPendingQueueSnapshot (queue : Queue F) (asOf : F) : List (Structure F) :=
  let delayed := queue.delayed.byScore (asOf < ·)
  let releasedDelayed := queue.delayed.byScore (· ≤ asOf)
  [.of (.list queue.ready) .ready .ready,
    .of (.list queue.ready) .released .released,
    .of (.sorted queue.reserved) .reserved .all,
    .of (.sorted delayed) .delayed .all,
    .of (.sorted releasedDelayed) .released .all]

/-- `createSnapshot`: the structures of one state. -/
def createSnapshot (queue : Queue F) (state : PendingState) (asOf : F) : List (Structure F) :=
  match state with
  | .ready => [.of (.list queue.ready) .ready .ready]
  | .reserved => [.of (.sorted queue.reserved) .reserved .all]
  | .delayed => [.of (.sorted (queue.delayed.byScore (asOf < ·))) .delayed .all]
  | .released =>
      [.of (.list queue.ready) .released .released,
        .of (.sorted (queue.delayed.byScore (· ≤ asOf))) .released .all]

/-! ## Reading in chunks -/

/-- The exceptions of a scan. -/
inductive Failure
  | typeError
  | snapshotExpired
  deriving DecidableEq

/-- The key of an array: an integer where it looks like one. -/
inductive ArrayKey
  | int (text : List UInt8)
  | string (text : List UInt8)

/-- The key a member becomes. -/
def arrayKey (member : List UInt8) : ArrayKey :=
  if (ofBytes member).any isIntegerKey then .int member else .string member

/-- The number of members of a chunk. -/
def scanChunkSize : ℕ := 500

/-- `normalizeScoredPayloads`: the members are the keys of an array. The score of a member is numeric where
it is finite. -/
def normalizeScoredPayloads (entries : List (List UInt8 × F)) : List (ArrayKey × Option F) :=
  (entries.filter fun e => isFinite e.2).map fun e => (arrayKey e.1, some e.2)

/-- `readSnapshotChunk` and `readSnapshotScoreChunk` -/
def readChunk (members : Members F) (start : ℕ) : List (ArrayKey × Option F) :=
  match members with
  | .list payloads => ((payloads.drop start).take scanChunkSize).map fun p => (.string p, none)
  | .sorted zset =>
      normalizeScoredPayloads isFinite ((zset.entries.drop start).take scanChunkSize)

/-- The body of the loop over a chunk: only a string may be passed on. -/
def appendMember {α : Type} (append : List UInt8 → Option F → α → α) (found : α)
    (member : ArrayKey × Option F) : Except Failure α :=
  match member with
  | (.int _, _) => throw .typeError
  | (.string payload, score) => pure (append payload score found)

/-- The loop over the chunks, for at most `fuel` of them: the number of members read, and what is found. -/
def scanChunks {α : Type} (append : List UInt8 → Option F → α → α) (members : Members F) :
    ℕ → ℕ → ℕ → α → Except Failure (ℕ × α)
  | 0, _, read, found => pure (read, found)
  | fuel + 1, start, read, found => do
      let chunk := readChunk isFinite members start
      let found ← chunk.foldlM (appendMember append) found
      if chunk.length < scanChunkSize then pure (read + chunk.length, found)
      else scanChunks append members fuel (start + scanChunkSize) (read + chunk.length) found

/-- The scan of a structure. -/
def scanMembers {α : Type} (append : List UInt8 → Option F → α → α) (members : Members F)
    (found : α) : Except Failure (ℕ × α) :=
  scanChunks isFinite append members (members.length / scanChunkSize + 1) 0 0 found

/-! ## Entries -/

/-- A queue that is asked for. -/
structure Target where
  connection : String
  queue : String

/-- An entry, with the state it is found with; `matchingEntries` is asked for that state. -/
structure Entry (F : Type) where
  id : String
  state : PendingState
  connection : String
  queue : String
  payload : List (String × Php)
  score : Option F

/-- Whether the filter of a structure lets a payload through. -/
def Filter.passes (filter : Filter) (payload : List (String × Php)) (asOf : F) : Bool :=
  match filter with
  | .all => true
  | .ready => !isReleased toFloat payload asOf
  | .released => isReleased toFloat payload asOf

/-- The entry of a member of a structure, where it has one. -/
def entryOf (target : Target) (struct : Structure F) (asOf : F) (payload : List UInt8)
    (score : Option F) : Option (Entry F) :=
  let decoded := decodePayload payload
  match jobId decoded with
  | none => none
  | some id =>
      if struct.filter.passes toFloat decoded asOf then
        some ⟨id, struct.state, target.connection, target.queue, decoded, score⟩
      else none

/-- `appendPendingQueueEntry`: an id is taken once. -/
def appendPendingQueueEntry (target : Target) (struct : Structure F) (asOf : F)
    (payload : List UInt8) (score : Option F) (found : List String × List (Entry F)) :
    List String × List (Entry F) :=
  match entryOf toFloat target struct asOf payload score with
  | none => found
  | some entry =>
      if entry.id ∈ found.1 then found else (found.1 ++ [entry.id], found.2 ++ [entry])

/-- `scanPendingQueueStructure`: the ready list is counted in its first pass only. -/
def scanPendingQueueStructure (target : Target) (asOf : F)
    (found : List String × List (Entry F)) (struct : Structure F) :
    Except Failure (List String × List (Entry F)) := do
  let (read, found) ←
    scanMembers isFinite (appendPendingQueueEntry toFloat target struct asOf) struct.members found
  match struct.state, struct.members with
  | .released, .list _ => pure found
  | _, _ => if read ≠ struct.expected then throw .snapshotExpired else pure found

/-- `pendingQueueEntries` -/
def pendingQueueEntries (target : Target) (queue : Queue F) (asOf : F) :
    Except Failure (List (Entry F)) :=
  ((createPendingQueueSnapshot queue asOf).foldlM
    (scanPendingQueueStructure toFloat isFinite target asOf)
    ([], [])).map Prod.snd

/-- `appendMatchingEntry` -/
def appendMatchingEntry (target : Target) (struct : Structure F) (asOf : F)
    (payload : List UInt8) (score : Option F) (entries : List (Entry F)) : List (Entry F) :=
  entries ++ (entryOf toFloat target struct asOf payload score).toList

/-- `scanSnapshotEntries` -/
def scanSnapshotEntries (target : Target) (asOf : F) (entries : List (Entry F))
    (struct : Structure F) : Except Failure (List (Entry F)) := do
  let (read, entries) ←
    scanMembers isFinite (appendMatchingEntry toFloat target struct asOf) struct.members entries
  if read ≠ struct.expected then throw .snapshotExpired else pure entries

/-- `matchingEntries`, each queue with the time of its snapshot. -/
def matchingEntries (targets : List (Target × Queue F × F)) (state : PendingState) :
    Except Failure (List (Entry F)) :=
  targets.foldlM (fun entries (target, queue, asOf) =>
    (createSnapshot queue state asOf).foldlM (scanSnapshotEntries toFloat isFinite target asOf) entries) []

/-- `matchingIds` -/
def matchingIds (targets : List (Target × Queue F × F)) (state : PendingState) :
    Except Failure (List (String × Bool)) :=
  (matchingEntries toFloat isFinite targets state).map fun entries =>
    Assignments.collapse (entries.map fun entry => (entry.id, true))

/-- The body of the loop of `scanSnapshotScores`. -/
def addScore (payload : List UInt8) (score : Option F) (scores : List (String × F)) :
    List (String × F) :=
  match jobId (decodePayload payload), score with
  | some id, some score => Assignments.put id score scores
  | _, _ => scores

/-- `scanSnapshotScores` -/
def scanSnapshotScores (scores : List (String × F)) (struct : Structure F) :
    Except Failure (List (String × F)) := do
  let (read, scores) ← scanMembers isFinite addScore struct.members scores
  if read ≠ struct.expected then throw .snapshotExpired else pure scores

/-- `delayedAvailabilityScores` -/
def delayedAvailabilityScores (targets : List (Target × Queue F × F)) :
    Except Failure (List (String × F)) :=
  targets.foldlM (fun scores (_, queue, asOf) =>
    (createSnapshot queue .delayed asOf).foldlM (scanSnapshotScores isFinite) scores) []

/-! ## What a scan goes through -/

/-- A member that looks like an integer. -/
def IntegerLike (member : List UInt8) : Prop := (ofBytes member).any isIntegerKey = true

/-- A sorted set with string members and finite scores. -/
def SortedSet.Scannable (zset : SortedSet F) : Prop :=
  ∀ e ∈ zset.entries, ¬IntegerLike e.1 ∧ isFinite e.2 = true

/-- The members of a structure can be scanned. -/
def Members.Scannable : Members F → Prop
  | .list _ => True
  | .sorted zset => zset.Scannable isFinite

/-- The members of a structure with their scores. -/
def Members.payloads : Members F → List (List UInt8 × Option F)
  | .list payloads => payloads.map fun p => (p, none)
  | .sorted zset => zset.entries.map fun e => (e.1, some e.2)

section Scanning

variable {G α : Type} {isFinite : G → Bool} {members : Members G}
  {append : List UInt8 → Option G → α → α}

/-- The key of a member of a chunk, where it has a place in it. -/
def Members.keyOf (isFinite : G → Bool) : Members G → List UInt8 × Option G → Option (ArrayKey × Option G)
  | .list _, (payload, score) => some (.string payload, score)
  | .sorted _, (payload, score) =>
      if score.any isFinite then some (arrayKey payload, score) else none

/-- Every member is one payload. -/
@[simp] theorem Members.length_payloads : members.payloads.length = members.length := by
  cases members <;> simp [payloads, length]

/-- A chunk is read off the members of a structure. -/
theorem readChunk_eq (start : ℕ) : readChunk isFinite members start =
    ((members.payloads.drop start).take scanChunkSize).filterMap (members.keyOf isFinite) := by
  cases members with
  | list payloads =>
      rw [readChunk, Members.payloads, ← List.map_drop, ← List.map_take, List.filterMap_map,
        ← List.filterMap_eq_map]
      rfl
  | sorted zset =>
      rw [readChunk, normalizeScoredPayloads, Members.payloads, ← List.map_drop, ← List.map_take,
        List.filterMap_map, ← List.filterMap_eq_filter, List.map_filterMap]
      apply List.filterMap_congr
      intro e he
      by_cases hfinite : isFinite e.2 = true <;> simp [Members.keyOf, Option.guard, hfinite]

/-- **The loop over the chunks reads all the members just where each has a place in its chunk.** -/
theorem scanChunks_ok_iff {fuel start read : ℕ} {found result : α}
    (hfuel : (members.payloads.drop start).length < fuel * scanChunkSize) :
    scanChunks isFinite append members fuel start read found =
        .ok (read + (members.payloads.drop start).length, result) ↔
      (∀ p ∈ members.payloads.drop start, (members.keyOf isFinite p).isSome) ∧
        ((members.payloads.drop start).filterMap (members.keyOf isFinite)).foldlM
          (appendMember append) found = .ok result := by
  induction fuel generalizing start read found with
  | zero => omega
  | succ fuel ih =>
      have hnext := @ih (start + scanChunkSize)
      rw [← List.drop_drop] at hnext
      rw [scanChunks, readChunk_eq]
      set rest := members.payloads.drop start
      set chunk := (rest.take scanChunkSize).filterMap (members.keyOf isFinite) with hchunk
      have hsplit : rest.filterMap (members.keyOf isFinite) =
          chunk ++ (rest.drop scanChunkSize).filterMap (members.keyOf isFinite) := by
        rw [hchunk, ← List.filterMap_append, List.take_append_drop]
      have hall : (∀ p ∈ rest, (members.keyOf isFinite p).isSome) ↔
          (∀ p ∈ rest.take scanChunkSize, (members.keyOf isFinite p).isSome) ∧
            ∀ p ∈ rest.drop scanChunkSize, (members.keyOf isFinite p).isSome := by
        rw [← List.forall_mem_append, List.take_append_drop]
      -- A chunk is full just where no member of it lost its place to an equal key.
      have hfull : chunk.length = min scanChunkSize rest.length ↔
          ∀ p ∈ rest.take scanChunkSize, (members.keyOf isFinite p).isSome := by
        rw [← List.length_take]
        exact List.filterMap_length_eq_length
      have hle : chunk.length ≤ min scanChunkSize rest.length := by
        rw [← List.length_take]
        exact List.length_filterMap_le _ _
      rw [hall, ← hfull, hsplit, List.foldlM_append]
      cases chunk.foldlM (appendMember append) found with
      -- The fold over this chunk has failed, and so has the one over all members.
      | error e =>
          constructor
          · intro h
            cases h
          · rintro ⟨-, h⟩
            cases h
      | ok found' =>
          show (if chunk.length < scanChunkSize then _ else _) = _ ↔
            _ ∧ ((rest.drop scanChunkSize).filterMap _).foldlM _ found' = _
          by_cases hshort : chunk.length < scanChunkSize
          · -- The chunk is the last one that is read.
            rw [if_pos hshort]
            constructor
            · intro h
              obtain ⟨hread, rfl⟩ := Prod.mk.inj (Except.ok.inj h)
              have hrest : rest.drop scanChunkSize = [] := List.drop_eq_nil_of_le (by omega)
              simp only [hrest]
              exact ⟨⟨by omega, by simp⟩, rfl⟩
            · rintro ⟨⟨hmin, -⟩, hfold⟩
              have hrest : rest.drop scanChunkSize = [] := List.drop_eq_nil_of_le (by omega)
              rw [hrest] at hfold
              have hlength : chunk.length = rest.length := by omega
              rw [hlength, Except.ok.inj hfold]
              rfl
          · -- A full chunk: the induction hypothesis reads the others.
            have hlength : (rest.drop scanChunkSize).length = rest.length - scanChunkSize :=
              List.length_drop
            have hsum : read + rest.length =
                read + chunk.length + (rest.drop scanChunkSize).length := by omega
            have hmin : chunk.length = min scanChunkSize rest.length := by omega
            rw [Nat.succ_mul] at hfuel
            rw [if_neg hshort, hsum, hnext (by omega)]
            exact ⟨fun h => ⟨⟨hmin, h.1⟩, h.2⟩, fun h => ⟨h.1.2, h.2⟩⟩

/-- A scan finds all members just where each has a place in its chunk and none looks like an integer.
-/
theorem scanMembers_ok_iff {found result : α} :
    scanMembers isFinite append members found = .ok (members.length, result) ↔
      (∀ p ∈ members.payloads, (members.keyOf isFinite p).isSome) ∧
        (members.payloads.filterMap (members.keyOf isFinite)).foldlM (appendMember append) found =
          .ok result := by
  have hfuel : (members.payloads.drop 0).length <
      (members.length / scanChunkSize + 1) * scanChunkSize := by
    rw [List.drop_zero, Members.length_payloads, Nat.add_one_mul]
    exact Nat.lt_div_mul_add (by decide)
  have hiff := @scanChunks_ok_iff G α isFinite members append _ 0 0 found result hfuel
  rw [List.drop_zero, Members.length_payloads, Nat.zero_add] at hiff
  exact hiff

/-- A scan of members that can be scanned goes through all of them. -/
theorem scanMembers_ok (h : members.Scannable isFinite) (found : α) :
    scanMembers isFinite append members found =
      .ok (members.length, members.payloads.foldl (fun found p => append p.1 p.2 found) found) := by
  have hkeys : ∀ p ∈ members.payloads, members.keyOf isFinite p = some (.string p.1, p.2) := by
    cases members with
    | list payloads => simp [Members.keyOf]
    | sorted zset =>
        intro p hp
        obtain ⟨e, he, rfl⟩ := List.mem_map.mp hp
        obtain ⟨hstring, hfinite⟩ := h e he
        simp only [IntegerLike, Bool.not_eq_true] at hstring
        simp [Members.keyOf, arrayKey, hstring, hfinite]
  have hmap : members.payloads.filterMap (members.keyOf isFinite) =
      members.payloads.map fun p => (.string p.1, p.2) := by
    rw [List.filterMap_congr hkeys]
    exact congrFun List.filterMap_eq_map _
  rw [scanMembers_ok_iff]
  constructor
  · intro p hp
    rw [hkeys p hp]
    rfl
  · have hfold : members.payloads.foldlM
        (fun found p => appendMember append found (.string p.1, p.2)) found =
          .ok (members.payloads.foldl (fun found p => append p.1 p.2 found) found) :=
      List.foldlM_ok (fun _ _ _ => rfl) found
    rw [hmap, List.foldlM_map]
    exact hfold

/-- A scan that reads all the members has met strings with finite scores only. -/
theorem scannable_of_scanMembers {found result : α}
    (h : scanMembers isFinite append members found = .ok (members.length, result)) :
    members.Scannable isFinite := by
  obtain ⟨hsome, hfold⟩ := scanMembers_ok_iff.mp h
  cases members with
  | list payloads => trivial
  | sorted zset =>
      intro e he
      have hmem : (e.1, some e.2) ∈ (Members.sorted zset).payloads := List.mem_map.mpr ⟨e, he, rfl⟩
      have hfinite : isFinite e.2 = true := by
        by_contra hfinite
        simpa [Members.keyOf, hfinite] using hsome _ hmem
      have hkey : (arrayKey e.1, some e.2) ∈
          (Members.sorted zset).payloads.filterMap ((Members.sorted zset).keyOf isFinite) :=
        List.mem_filterMap.mpr ⟨_, hmem, by simp [Members.keyOf, hfinite]⟩
      obtain ⟨b, c, happend⟩ := List.exists_of_foldlM_ok hfold _ hkey
      refine ⟨fun hinteger => ?_, hfinite⟩
      unfold IntegerLike at hinteger
      rw [arrayKey, if_pos hinteger] at happend
      cases happend

end Scanning

/-! ## The jobs of a queue -/

/-- The members of a queue in five groups, each with the state its members are in. -/
def groups (queue : Queue F) (asOf : F) : List (PendingState × List (List UInt8 × Option F)) :=
  [(.ready, (queue.ready.filter fun p => !isReleased toFloat (decodePayload p) asOf).map fun p =>
      (p, none)),
    (.released, (queue.ready.filter fun p => isReleased toFloat (decodePayload p) asOf).map fun p =>
      (p, none)),
    (.reserved, queue.reserved.entries.map fun e => (e.1, some e.2)),
    (.delayed, (queue.delayed.entries.filter fun e => asOf < e.2).map fun e => (e.1, some e.2)),
    (.released, (queue.delayed.entries.filter fun e => e.2 ≤ asOf).map fun e => (e.1, some e.2))]

/-- The entries of the members of a group that are jobs. -/
def jobs (target : Target) (group : PendingState × List (List UInt8 × Option F)) : List (Entry F) :=
  group.2.filterMap fun member => (jobId (decodePayload member.1)).map fun id =>
    ⟨id, group.1, target.connection, target.queue, decodePayload member.1, member.2⟩

/-- Each id once, at its first place. -/
def firsts : List (Entry F) → List (Entry F)
  | [] => []
  | entry :: entries => entry :: (firsts entries).filter fun e => e.id ≠ entry.id

/-- The delayed jobs of a queue with their scores. -/
def delayedScores (queue : Queue F) (asOf : F) : List (String × F) :=
  (queue.delayed.entries.filter fun e => asOf < e.2).filterMap fun e =>
    (jobId (decodePayload e.1)).map fun id => (id, e.2)

/-- The scans of the queues return the jobs among their members. -/
structure ScansJobs (targets : List (Target × Queue F × F)) : Prop where
  pendingQueueEntries : ∀ t ∈ targets, pendingQueueEntries toFloat isFinite t.1 t.2.1 t.2.2 =
    .ok (firsts ((groups toFloat t.2.1 t.2.2).flatMap (jobs t.1)))
  matchingEntries : ∀ state, matchingEntries toFloat isFinite targets state =
    .ok (targets.flatMap fun t =>
      ((groups toFloat t.2.1 t.2.2).filter fun group => group.1 = state).flatMap (jobs t.1))
  delayedAvailabilityScores : delayedAvailabilityScores isFinite targets =
    .ok (Assignments.collapse (targets.flatMap fun t => delayedScores t.2.1 t.2.2))

section Taking

variable {G : Type}

/-- Take an entry where its id is new. -/
def addEntry (found : List String × List (Entry G)) (entry : Entry G) :
    List String × List (Entry G) :=
  if entry.id ∈ found.1 then found else (found.1 ++ [entry.id], found.2 ++ [entry])

/-- The first entries whose ids have not been seen, taken one by one. -/
theorem firsts_filter_notMem {entry : Entry G} {entries : List (Entry G)} {seen : List String} :
    (firsts (entry :: entries)).filter (fun e => e.id ∉ seen) =
      if entry.id ∈ seen then (firsts entries).filter fun e => e.id ∉ seen
      else entry :: (firsts entries).filter fun e => e.id ∉ seen ++ [entry.id] := by
  rw [firsts, List.filter_cons, List.filter_filter]
  by_cases hmem : entry.id ∈ seen
  · rw [if_neg (by simpa using hmem), if_pos hmem]
    apply List.filter_congr
    intro e _
    by_cases he : e.id = entry.id <;> simp [he, hmem]
  · rw [if_pos (by simpa using hmem), if_neg hmem]
    congr 1
    apply List.filter_congr
    intro e _
    simp [not_or]

/-- The entries taken one after the other are those whose id is new, each id once. -/
theorem foldl_addEntry {entries : List (Entry G)} {found : List String × List (Entry G)} :
    (entries.foldl addEntry found).2 =
      found.2 ++ (firsts entries).filter fun e => e.id ∉ found.1 := by
  induction entries generalizing found with
  | nil => simp [firsts]
  | cons entry entries ih =>
      rw [List.foldl_cons, firsts_filter_notMem, ih, addEntry]
      split_ifs <;> simp

end Taking

/-- The sorted sets of a queue can be scanned. -/
def Queue.Scannable (queue : Queue F) : Prop :=
  queue.reserved.Scannable isFinite ∧ queue.delayed.Scannable isFinite

/-- The members of a structure that its filter lets through. -/
def Structure.group (asOf : F) (struct : Structure F) : PendingState × List (List UInt8 × Option F) :=
  (struct.state, struct.members.payloads.filter fun member =>
    struct.filter.passes toFloat (decodePayload member.1) asOf)

/-- The structures of a snapshot are the groups of the queue. -/
theorem group_createPendingQueueSnapshot (queue : Queue F) (asOf : F) :
    (createPendingQueueSnapshot queue asOf).map (Structure.group toFloat asOf) =
      groups toFloat queue asOf := by
  simp [createPendingQueueSnapshot, Structure.group, Structure.of, Members.payloads, Filter.passes,
    groups, SortedSet.byScore, List.filter_map, Function.comp_def]

/-- The structures of the snapshot of one state are the groups of this state. -/
theorem group_createSnapshot (queue : Queue F) (state : PendingState) (asOf : F) :
    (createSnapshot queue state asOf).map (Structure.group toFloat asOf) =
      (groups toFloat queue asOf).filter fun group => group.1 = state := by
  cases state <;>
    simp [createSnapshot, Structure.group, Structure.of, Members.payloads, Filter.passes,
      groups, SortedSet.byScore, List.filter_map, Function.comp_def]

section Structures

variable {toFloat isFinite} {struct : Structure F} {target : Target} {asOf : F} {queue : Queue F}

/-- The entries of a structure are the jobs of its group. -/
theorem filterMap_entryOf : (struct.members.payloads.filterMap fun member =>
    entryOf toFloat target struct asOf member.1 member.2) =
      jobs target (struct.group toFloat asOf) := by
  rw [jobs, Structure.group, List.filterMap_filter]
  apply List.filterMap_congr
  intro member _
  rw [entryOf]
  cases jobId (decodePayload member.1) with
  | none => simp
  | some id => simp

/-- A scan for the entries of a structure adds its jobs. -/
theorem scanSnapshotEntries_ok (h : struct.members.Scannable isFinite)
    (hexpected : struct.expected = struct.members.length) (entries : List (Entry F)) :
    scanSnapshotEntries toFloat isFinite target asOf entries struct =
      .ok (entries ++ jobs target (struct.group toFloat asOf)) := by
  have hfold : struct.members.payloads.foldl (fun entries member =>
      appendMatchingEntry toFloat target struct asOf member.1 member.2 entries) entries =
        entries ++ jobs target (struct.group toFloat asOf) := by
    rw [← filterMap_entryOf, List.filterMap_eq_flatMap_toList]
    exact List.foldl_append_eq_append
  rw [scanSnapshotEntries, scanMembers_ok h, hfold, hexpected]
  simp [bind, Except.bind, pure, Except.pure]

/-- A scan of a structure adds the jobs whose ids are new. -/
theorem scanPendingQueueStructure_ok (h : struct.members.Scannable isFinite)
    (hexpected : struct.expected = struct.members.length)
    (found : List String × List (Entry F)) :
    scanPendingQueueStructure toFloat isFinite target asOf found struct =
      .ok ((jobs target (struct.group toFloat asOf)).foldl addEntry found) := by
  have hfold : struct.members.payloads.foldl (fun found member =>
      appendPendingQueueEntry toFloat target struct asOf member.1 member.2 found) found =
        (jobs target (struct.group toFloat asOf)).foldl addEntry found := by
    rw [← filterMap_entryOf, List.foldl_filterMap]
    apply List.foldl_ext
    intro found member _
    rw [appendPendingQueueEntry]
    cases entryOf toFloat target struct asOf member.1 member.2 <;> rfl
  rw [scanPendingQueueStructure, scanMembers_ok h, hfold, hexpected]
  simp only [bind, Except.bind, pure, Except.pure, ne_eq, not_true_eq_false, if_false]
  split <;> rfl

/-- A structure that has been scanned can be scanned. -/
theorem scannable_of_scanPendingQueueStructure {found found' : List String × List (Entry F)}
    (hexpected : struct.expected = struct.members.length)
    (h : scanPendingQueueStructure toFloat isFinite target asOf found struct = .ok found') :
    struct.members.Scannable isFinite := by
  rw [scanPendingQueueStructure] at h
  cases hmembers : struct.members with
  | list payloads => trivial
  | sorted zset =>
      rw [hmembers] at h hexpected
      cases hscan : scanMembers isFinite (appendPendingQueueEntry toFloat target struct asOf)
          (.sorted zset) found with
      | error e =>
          rw [hscan] at h
          cases h
      | ok result =>
          obtain ⟨read, result⟩ := result
          rw [hscan] at h
          simp only [bind, Except.bind, hexpected] at h
          by_cases hread : read = (Members.sorted zset).length
          · rw [hread] at hscan
            exact scannable_of_scanMembers hscan
          · rw [if_pos hread] at h
            split at h
            · -- The structure is no list.
              rename_i hlist
              cases hlist
            · cases h

omit [LinearOrder F] [Add F] [Zero F] in
/-- A scan for the scores of a structure adds the scores of its jobs. -/
theorem scanSnapshotScores_ok {scores : List (String × F)} (h : struct.members.Scannable isFinite)
    (hexpected : struct.expected = struct.members.length) :
    scanSnapshotScores isFinite scores struct =
      .ok (struct.members.payloads.foldl (fun scores member => addScore member.1 member.2 scores)
        scores) := by
  rw [scanSnapshotScores, scanMembers_ok h, hexpected]
  simp [bind, Except.bind, pure, Except.pure]

/-! ### The scans of a queue -/

omit [LinearOrder F] [Add F] [Zero F] in
/-- A range of a set that can be scanned can be scanned. -/
theorem scannable_byScore {zset : SortedSet F} {p : F → Bool} (h : zset.Scannable isFinite) :
    (zset.byScore p).Scannable isFinite :=
  fun e he => h e (List.mem_of_mem_filter he)

omit [Add F] [Zero F] in
/-- The structures of a snapshot can be scanned just where those of the queue can. -/
theorem forall_createPendingQueueSnapshot :
    (∀ struct ∈ createPendingQueueSnapshot queue asOf, struct.members.Scannable isFinite) ↔
      queue.Scannable isFinite := by
  simp only [createPendingQueueSnapshot, List.mem_cons, List.not_mem_nil, or_false, forall_eq_or_imp,
    forall_eq, Structure.of, Members.Scannable, true_and]
  constructor
  · rintro ⟨hreserved, hdelayed, hreleased⟩
    refine ⟨hreserved, fun e he => ?_⟩
    -- A delayed member is due or not.
    rcases lt_or_ge asOf e.2 with hlt | hle
    · exact hdelayed e (List.mem_filter.mpr ⟨he, decide_eq_true hlt⟩)
    · exact hreleased e (List.mem_filter.mpr ⟨he, decide_eq_true hle⟩)
  · rintro ⟨hreserved, hdelayed⟩
    exact ⟨hreserved, scannable_byScore hdelayed, scannable_byScore hdelayed⟩

omit [Add F] [Zero F] in
/-- The structures of one state can be scanned where those of the queue can. -/
theorem forall_createSnapshot {state : PendingState} (h : queue.Scannable isFinite) :
    ∀ struct ∈ createSnapshot queue state asOf, struct.members.Scannable isFinite := by
  cases state <;>
    simp [createSnapshot, Structure.of, Members.Scannable, h.1, scannable_byScore h.2]

omit [Add F] [Zero F] in
/-- The structures of a snapshot have the length they are expected to have. -/
theorem expected_createPendingQueueSnapshot :
    ∀ struct ∈ createPendingQueueSnapshot queue asOf, struct.expected = struct.members.length := by
  simp [createPendingQueueSnapshot, Structure.of]

omit [Add F] [Zero F] in
/-- The structures of one state have the length they are expected to have. -/
theorem expected_createSnapshot {state : PendingState} :
    ∀ struct ∈ createSnapshot queue state asOf, struct.expected = struct.members.length := by
  cases state <;> simp [createSnapshot, Structure.of]

/-- The entries of a queue that can be scanned are its jobs, each id once. -/
theorem pendingQueueEntries_ok (h : queue.Scannable isFinite) :
    pendingQueueEntries toFloat isFinite target queue asOf =
      .ok (firsts ((groups toFloat queue asOf).flatMap (jobs target))) := by
  have hfold : (createPendingQueueSnapshot queue asOf).foldlM
      (scanPendingQueueStructure toFloat isFinite target asOf) ([], []) =
        .ok ((createPendingQueueSnapshot queue asOf).foldl (fun found struct =>
          (jobs target (struct.group toFloat asOf)).foldl addEntry found) ([], [])) := by
    apply List.foldlM_ok
    intro struct hstruct found
    exact scanPendingQueueStructure_ok (forall_createPendingQueueSnapshot.mpr h struct hstruct)
      (expected_createPendingQueueSnapshot struct hstruct) found
  rw [pendingQueueEntries, hfold, ← List.foldl_flatMap, ← group_createPendingQueueSnapshot,
    List.flatMap_map]
  show Except.ok (List.foldl addEntry _ _).2 = _
  rw [foldl_addEntry]
  simp

/-- A queue whose entries have been read can be scanned. -/
theorem scannable_of_pendingQueueEntries {entries : List (Entry F)}
    (h : pendingQueueEntries toFloat isFinite target queue asOf = .ok entries) :
    queue.Scannable isFinite := by
  rw [pendingQueueEntries] at h
  cases hfold : (createPendingQueueSnapshot queue asOf).foldlM
      (scanPendingQueueStructure toFloat isFinite target asOf) ([], []) with
  | error e =>
      rw [hfold] at h
      cases h
  | ok found =>
      apply (@forall_createPendingQueueSnapshot F _ isFinite asOf queue).mp
      intro struct hstruct
      obtain ⟨_, _, hscan⟩ := List.exists_of_foldlM_ok hfold struct hstruct
      exact scannable_of_scanPendingQueueStructure
        (expected_createPendingQueueSnapshot struct hstruct) hscan

/-- The entries of one state are the jobs of its groups. -/
theorem matchingEntries_ok {targets : List (Target × Queue F × F)} {state : PendingState}
    (h : ∀ t ∈ targets, t.2.1.Scannable isFinite) :
    matchingEntries toFloat isFinite targets state = .ok (targets.flatMap fun t =>
      ((groups toFloat t.2.1 t.2.2).filter fun group => group.1 = state).flatMap (jobs t.1)) := by
  have hqueue : ∀ t ∈ targets, ∀ entries, (createSnapshot t.2.1 state t.2.2).foldlM
      (scanSnapshotEntries toFloat isFinite t.1 t.2.2) entries = .ok (entries ++
        ((groups toFloat t.2.1 t.2.2).filter fun group => group.1 = state).flatMap (jobs t.1)) := by
    intro t ht entries
    have hfold : (createSnapshot t.2.1 state t.2.2).foldlM
        (scanSnapshotEntries toFloat isFinite t.1 t.2.2) entries =
          .ok ((createSnapshot t.2.1 state t.2.2).foldl (fun entries struct =>
            entries ++ jobs t.1 (struct.group toFloat t.2.2)) entries) := by
      apply List.foldlM_ok
      intro struct hstruct entries
      exact scanSnapshotEntries_ok (forall_createSnapshot (h t ht) struct hstruct)
        (expected_createSnapshot struct hstruct) entries
    rw [hfold, List.foldl_append_eq_append, ← group_createSnapshot, List.flatMap_map]
    rfl
  rw [matchingEntries, List.foldlM_ok hqueue, List.foldl_append_eq_append, List.nil_append]
  rfl

omit [Add F] [Zero F] in
/-- The availability scores are those of the delayed jobs. -/
theorem delayedAvailabilityScores_ok {targets : List (Target × Queue F × F)}
    (h : ∀ t ∈ targets, t.2.1.Scannable isFinite) :
    delayedAvailabilityScores isFinite targets =
      .ok (Assignments.collapse (targets.flatMap fun t => delayedScores t.2.1 t.2.2)) := by
  have hqueue : ∀ t ∈ targets, ∀ scores, (createSnapshot t.2.1 .delayed t.2.2).foldlM
      (scanSnapshotScores isFinite) scores =
        .ok ((delayedScores t.2.1 t.2.2).foldl (fun scores e => Assignments.put e.1 e.2 scores)
          scores) := by
    intro t ht scores
    let struct : Structure F :=
      .of (.sorted (t.2.1.delayed.byScore (t.2.2 < ·))) .delayed .all
    have hmem : struct ∈ createSnapshot t.2.1 .delayed t.2.2 := List.mem_singleton_self struct
    have hscan : scanSnapshotScores isFinite scores struct = .ok (struct.members.payloads.foldl
        (fun scores member => addScore member.1 member.2 scores) scores) :=
      scanSnapshotScores_ok (forall_createSnapshot (h t ht) struct hmem)
        (expected_createSnapshot struct hmem)
    rw [createSnapshot, List.foldlM_cons, hscan]
    show Except.ok _ = _
    rw [delayedScores, List.foldl_filterMap]
    simp only [struct, Structure.of, Members.payloads, SortedSet.byScore, List.foldl_map]
    congr 1
    apply List.foldl_ext
    intro scores e _
    unfold addScore
    cases jobId (decodePayload e.1) <;> rfl
  rw [delayedAvailabilityScores, List.foldlM_ok hqueue, Assignments.collapse, List.foldl_flatMap]

/-- **The scans return the jobs among the members of the queues just where no member of a sorted set looks
like an integer and no score is infinite.** -/
theorem scans_iff {targets : List (Target × Queue F × F)} :
    ScansJobs toFloat isFinite targets ↔ ∀ t ∈ targets, t.2.1.Scannable isFinite := by
  constructor
  · intro h t ht
    exact scannable_of_pendingQueueEntries (h.pendingQueueEntries t ht)
  · intro h
    exact ⟨fun t ht => pendingQueueEntries_ok (h t ht), fun state => matchingEntries_ok h,
      delayedAvailabilityScores_ok h⟩

end Structures

/-! ## A member of digits -/

/-- The whole numbers among the values. -/
def wholeNumber : Php → Option ℤ
  | .int n => some n
  | _ => none

/-- A queue with a reserved member `5`. -/
def digitsQueue : Queue ℤ where
  ready := []
  reserved := ⟨[(bytes "5", 0)], List.nodup_singleton _⟩
  delayed := .empty

/-- A reserved member `5` ends the scans. -/
theorem not_scansJobs_digits :
    ¬ScansJobs wholeNumber (fun _ => true) [(⟨"redis", "default"⟩, digitsQueue, 0)] := by
  intro h
  have hscannable : digitsQueue.Scannable fun _ => true :=
    scannable_of_pendingQueueEntries (h.pendingQueueEntries _ (List.mem_singleton_self _))
  have hstring : ¬IntegerLike (bytes "5") :=
    (hscannable.1 (bytes "5", 0) (List.mem_singleton_self _)).1
  apply hstring
  rw [IntegerLike, ofBytes_bytes]
  decide

end PendingJobStateIndex

end HorizonNewDawn

import HorizonNewDawn.Batches.ClearCandidates

/-! # Batches that may be cleared

A batch may be cleared as complete, incomplete or cancelled, or not at all. On the batch table the
failed jobs that the candidates name are looked up, in chunks of their own: a batch is listed only
where each of them is found once, with retries that are over. What is listed is what is counted
(`idChunks_exact`). The derived values of a batch are written down twice, for the table and for the
batches of the repository; they are the same (`derivations_agree`). -/

namespace HorizonNewDawn

/-- A job that is looked up: its `id`, and its `retried_by`, if it has that property. -/
structure LookedUpJob where
  id : Php
  retriedBy : Option Php

namespace ClearableBatches

/-! ## The batches of the repository -/

/-- `hasOnlyFailedJobsPending` -/
def hasOnlyFailedJobsPending (batch : Batch) : Bool :=
  batch.finishedAt.isNone && decide (0 < batch.failedJobs) &&
    decide (batch.pendingJobs ≤ batch.failedJobs)

/-- Where the loop of `classifiedRepositoryIds` puts a batch, if anywhere. -/
def classify (batch : Batch) : Option BatchClearScope :=
  if batch.cancelled then
    if batch.pendingJobs = 0 then some .cancelled else none
  else if batch.finishedAt.isSome then some .complete
  else if hasOnlyFailedJobsPending batch then some .incomplete
  else none

/-! ## The failed jobs -/

/-- `FAILED_JOB_CHUNK_SIZE` -/
def failedJobChunkSize : ℕ := 500

/-- The check of a recorded retry in `failedParentHasNoActiveRetry`. -/
def retryIsOver (retry : Php) : Bool :=
  match retry with
  | .array entries =>
      (match Php.get "id" entries with
        | some (.str id) => decide (id ≠ "")
        | _ => false) &&
      (match Php.get "status" entries with
        | some (.str status) => status = "completed" || status = "failed"
        | _ => false)
  | _ => false

/-- Whether a value of `retried_by` is a list of retries that are over. -/
def retriesAreOver (retries : Php) : Bool :=
  match retries with
  | .array entries =>
      decide (Php.keys entries = Php.listKeys entries.length) &&
        entries.all fun entry => retryIsOver entry.2
  | _ => false

/-- `failedParentHasNoActiveRetry` -/
def failedParentHasNoActiveRetry (job : LookedUpJob) : Bool :=
  match job.retriedBy with
  | none => false
  | some .null | some (.bool false) | some (.str "") | some (.array []) => true
  | some (.str text) =>
      match (Json.read text.toList).map Php.jsonDecode with
      | some retries => retriesAreOver retries
      | none => false
  | some retries => retriesAreOver retries

/-- The id of an entry of a lookup, if the entry is an object whose `id` is a string. -/
def idOf (job : Option LookedUpJob) : Option String :=
  match job with
  | some ⟨.str id, _⟩ => some id
  | _ => none

/-- The variables of the loop of `verifiedFailedParents`. -/
structure Parents where
  verified : List String
  seen : List String
  duplicates : List String

/-- The loop of `verifiedFailedParents` over the jobs. -/
def inspectParent (requested : List String) (parents : Parents) (job : Option LookedUpJob) :
    Parents :=
  match job, idOf job with
  | some job, some id =>
      if id ∉ requested then parents
      else if id ∈ parents.seen then { parents with duplicates := id :: parents.duplicates }
      else { parents with
        seen := id :: parents.seen
        verified := if failedParentHasNoActiveRetry job then id :: parents.verified
          else parents.verified }
  | _, _ => parents

variable (getJobs : List String → Except String (List (Option LookedUpJob)))

/-- `verifiedFailedParents` -/
def verifiedFailedParents (failedJobIds : List String) : List String :=
  match getJobs failedJobIds with
  | .error _ => []
  | .ok jobs =>
      let parents := jobs.foldl (inspectParent failedJobIds) ⟨[], [], []⟩
      parents.verified.filter fun id => id ∉ parents.duplicates

/-- The keys of `candidateIdsByFailedJobId`, in their order. -/
def failedJobIdsOf (candidates : List DatabaseBatchClearCandidate) : List String :=
  (candidates.flatMap fun candidate => candidate.failedJobIds.getD []).eraseDups

/-- The ids under a key of `candidateIdsByFailedJobId`. -/
def candidateIds (candidates : List DatabaseBatchClearCandidate) (failedJobId : String) :
    List String :=
  (candidates.filter fun candidate => failedJobId ∈ candidate.failedJobIds.getD []).map (·.id)

/-- What the loop over a chunk of failed jobs leaves of the ids. -/
def dropUnverified (candidates : List DatabaseBatchClearCandidate) (clearableIds : List String)
    (failedJobIds : List String) : List String :=
  let verifiedParents := verifiedFailedParents getJobs failedJobIds
  failedJobIds.foldl (fun clearableIds failedJobId =>
    if failedJobId ∈ verifiedParents then clearableIds
    else clearableIds.filter fun id => id ∉ candidateIds candidates failedJobId) clearableIds

/-- `clearableDatabaseCandidateIds` -/
def clearableDatabaseCandidateIds (candidates : List DatabaseBatchClearCandidate) : List String :=
  let clearableIds := (candidates.filter fun candidate => candidate.failedJobIds.isSome).map (·.id)
  (List.arrayChunk failedJobChunkSize (failedJobIdsOf candidates)).foldl
    (dropUnverified getJobs candidates) clearableIds

/-! ## What is counted and what is listed -/

/-- `scopeMatches` -/
def scopeMatches (requested candidate : BatchClearScope) : Bool :=
  match requested with
  | .finished => candidate ∈ [BatchClearScope.complete, BatchClearScope.incomplete]
  | requested => requested = candidate

/-- `BatchClearCountsData` -/
structure BatchClearCountsData where
  incomplete : ℕ
  complete : ℕ
  finished : ℕ
  cancelled : ℕ
  available : Bool
  completeScan : Bool
  message : Option String
  deriving DecidableEq

/-- The counters of `databaseCounts`. -/
structure Counters where
  complete : ℕ
  incomplete : ℕ
  cancelled : ℕ

/-- Count a candidate under its scope. -/
def Counters.count (counters : Counters) (scope : BatchClearScope) : Counters :=
  match scope with
  | .complete => { counters with complete := counters.complete + 1 }
  | .incomplete => { counters with incomplete := counters.incomplete + 1 }
  | .cancelled => { counters with cancelled := counters.cancelled + 1 }
  | .finished => counters

/-- The loop of `databaseCounts` over a chunk of candidates. -/
def countCandidates (counters : Counters) (candidates : List DatabaseBatchClearCandidate) :
    Counters :=
  let clearableIds := clearableDatabaseCandidateIds getJobs candidates
  candidates.foldl (fun counters candidate =>
    if candidate.id ∉ clearableIds then counters else counters.count candidate.scope) counters

variable (dialect : Dialect) (records : List BatchRecord)

/-- `databaseCounts` -/
def databaseCounts : Except String BatchClearCountsData :=
  let chunks := DatabaseBatchQuery.clearCandidateChunks dialect records
  match chunks.thrown with
  | some message => .error message
  | none =>
      let counters := chunks.yielded.foldl (countCandidates getJobs) ⟨0, 0, 0⟩
      .ok {
        incomplete := counters.incomplete
        complete := counters.complete
        finished := counters.complete + counters.incomplete
        cancelled := counters.cancelled
        available := true
        completeScan := true
        message := none }

/-- `counts`, on the batch table -/
def counts : BatchClearCountsData :=
  match databaseCounts getJobs dialect records with
  | .ok counts => counts
  | .error _ =>
      { incomplete := 0
        complete := 0
        finished := 0
        cancelled := 0
        available := false
        completeScan := false
        message := some "Batch clearing availability could not be verified." }

/-- The buffer of a generator of chunks, and what it has yielded. -/
structure Buffered where
  buffer : List String
  yielded : List (List String)

/-- Add an id to the buffer, and yield the buffer when it is full. -/
def Buffered.add (chunkSize : ℕ) (state : Buffered) (id : String) : Buffered :=
  let buffer := state.buffer ++ [id]
  if buffer.length = chunkSize then ⟨[], state.yielded ++ [buffer]⟩ else { state with buffer := buffer }

/-- What has been yielded once the rest of the buffer is yielded too, if there is any. -/
def Buffered.all (state : Buffered) : List (List String) :=
  if state.buffer = [] then state.yielded else state.yielded ++ [state.buffer]

/-- The loop of `databaseIdChunks` over a chunk of candidates. -/
def listCandidates (scope : BatchClearScope) (chunkSize : ℕ) (state : Buffered)
    (candidates : List DatabaseBatchClearCandidate) : Buffered :=
  let clearableIds := clearableDatabaseCandidateIds getJobs candidates
  candidates.foldl (fun state candidate =>
    if candidate.id ∉ clearableIds then state
    else if !scopeMatches scope candidate.scope then state
    else state.add chunkSize candidate.id) state

/-- `databaseIdChunks` -/
def databaseIdChunks (scope : BatchClearScope) (chunkSize : ℕ) : Generated (List String) :=
  let chunks := DatabaseBatchQuery.clearCandidateChunks dialect records
  let state := chunks.yielded.foldl (listCandidates getJobs scope chunkSize) ⟨[], []⟩
  match chunks.thrown with
  | some message => ⟨state.yielded, some message⟩
  | none => ⟨state.all, none⟩

/-- `idChunks`, on the batch table -/
def idChunks (scope : BatchClearScope) (chunkSize : ℤ) : Generated (List String) :=
  if chunkSize < 1 then ⟨[], some "Chunk size must be a positive integer."⟩
  else databaseIdChunks getJobs dialect records scope chunkSize.toNat

end ClearableBatches

/-! ## The derived values of a batch -/

section Derivations

variable {source : BatchSource} {batch : Batch}

/-- The database and the framework agree on the class of a batch that may be cleared. -/
theorem classify_eq (hreads : Reads source batch) :
    ClearableBatches.classify batch =
      if DatabaseBatchQuery.clearCandidate source then
        some (DatabaseBatchQuery.clearScope source)
      else none := by
  rw [ClearableBatches.classify, ClearableBatches.hasOnlyFailedJobsPending, hreads.cancelled,
    hreads.cancelledAt, hreads.finishedAt, hreads.pendingJobs, hreads.failedJobs]
  cases hcancelled : source.cancelledAt with
  | some time =>
      simp [DatabaseBatchQuery.clearCandidate, DatabaseBatchQuery.clearScope, hcancelled]
  | none =>
      cases hfinished : source.finishedAt with
      | some time =>
          simp [DatabaseBatchQuery.clearCandidate, DatabaseBatchQuery.clearScope, hcancelled,
            hfinished]
      | none =>
          simp [DatabaseBatchQuery.clearCandidate, DatabaseBatchQuery.clearScope, hcancelled,
            hfinished]

/-- The two ways to derive the status. -/
theorem status_eq (dialect : Dialect) (config : QueueConfig) (withAttribution : Bool)
    (metadata : Option DatabaseBatchMetadata) (hreads : Reads source batch) :
    (DatabaseBatchQuery.selectRow dialect withAttribution metadata source).status.value =
      (BatchesData.row config batch).status := by
  have hfinished : batch.processedJobs = batch.totalJobs ↔ source.pendingJobs = 0 := by
    rw [hreads.processedJobs, hreads.pendingJobs]
    omega
  simp only [DatabaseBatchQuery.selectRow, BatchesData.row, hfinished, hreads.cancelled,
    hreads.cancelledAt, hreads.failedJobs]
  split
  · rfl
  · split
    · rfl
    · split <;> rfl

/-- The two ways to derive the counts that are displayed. -/
theorem counts_eq (dialect : Dialect) (config : QueueConfig) (withAttribution : Bool)
    (metadata : Option DatabaseBatchMetadata) (hreads : Reads source batch) :
    let row := DatabaseBatchQuery.selectRow dialect withAttribution metadata source
    row.pendingCount = (BatchesData.row config batch).pendingJobs ∧
      row.failedCount = (BatchesData.row config batch).failedJobs := by
  simp only [DatabaseBatchQuery.selectRow, BatchesData.row, hreads.pendingJobs, hreads.failedJobs]
  constructor
  · split_ifs <;> omega
  · split_ifs <;> omega

/-- **The derived values agree.** For a batch and its row, whatever its numbers: the status, the
counts, whether the batch is active and how it may be cleared, derived by the database and by the
program. The displayed counts add up to the pending jobs, if these are not negative. -/
theorem derivations_agree (dialect : Dialect) (config : QueueConfig) (withAttribution : Bool)
    (metadata : Option DatabaseBatchMetadata) (hreads : Reads source batch) :
    let row := DatabaseBatchQuery.selectRow dialect withAttribution metadata source
    let shown := DatabaseBatchQuery.row (DatabaseBatchQueryRow.ofRow dialect row)
    let data := BatchesData.row config batch
    (row.status.value = data.status ∧ shown.status = data.status) ∧
      (row.pendingCount = data.pendingJobs ∧ shown.pendingJobs = dialect.toInt data.pendingJobs) ∧
      (row.failedCount = data.failedJobs ∧ shown.failedJobs = dialect.toInt data.failedJobs) ∧
      (row.processedCount = data.processedJobs ∧
        shown.processedJobs = dialect.toInt data.processedJobs) ∧
      (DatabaseBatchQuery.overviewActive row = BatchRepositoryOverview.isActive batch ∧
        DatabaseBatchQuery.overviewActive row = QueueBatchesData.active batch ∧
        row.queueActivityRank =
          if BatchRepositoryOverview.isActive batch then 101 + row.progress else 0) ∧
      (if DatabaseBatchQuery.clearCandidate source then some (DatabaseBatchQuery.clearScope source)
        else none) = ClearableBatches.classify batch ∧
      row.pendingCount + row.failedCount = max 0 source.pendingJobs ∧
      data.pendingJobs + data.failedJobs = max 0 batch.pendingJobs := by
  intro row shown data
  have hstatus : row.status.value = data.status :=
    status_eq dialect config withAttribution metadata hreads
  obtain ⟨hpending, hfailed⟩ : row.pendingCount = data.pendingJobs ∧
      row.failedCount = data.failedJobs :=
    counts_eq dialect config withAttribution metadata hreads
  have hprocessed : row.processedCount = data.processedJobs := by
    show source.totalJobs - source.pendingJobs = batch.processedJobs
    rw [hreads.processedJobs, hreads.totalJobs, hreads.pendingJobs]
  have hactive : DatabaseBatchQuery.overviewActive row = BatchRepositoryOverview.isActive batch :=
    DatabaseBatchQuery.overviewActive_selectRow hreads
  have hrank : row.queueActivityRank =
      if DatabaseBatchQuery.overviewActive row then 101 + row.progress else 0 := by
    simp only [DatabaseBatchQuery.overviewActive, Bool.and_eq_true, decide_eq_true_eq]
    rfl
  have hsum : data.pendingJobs + data.failedJobs = max 0 batch.pendingJobs := by
    show max 0 (batch.pendingJobs - min (max 0 batch.pendingJobs) (max 0 batch.failedJobs)) +
      min (max 0 batch.pendingJobs) (max 0 batch.failedJobs) = _
    omega
  refine ⟨⟨hstatus, hstatus⟩, ⟨hpending, ?_⟩, ⟨hfailed, ?_⟩, ⟨hprocessed, ?_⟩,
    ⟨hactive, hactive, ?_⟩, (classify_eq hreads).symm, ?_, hsum⟩
  · rw [← hpending]
    rfl
  · rw [← hfailed]
    rfl
  · rw [← hprocessed]
    rfl
  · rw [hrank, hactive]
  · rw [hpending, hfailed, hsum, hreads.pendingJobs]

/-- A batch with more failed jobs than pending ones. -/
def failedBatch : Batch :=
  { QueueBatchesData.retainedQueueBatch "batch" "reports" with
    totalJobs := 5
    pendingJobs := 2
    failedJobs := 3
    processedJobs := 3
    progress := 60 }

/-- Its row. -/
def failedSource : BatchSource := ⟨"batch", "", 5, 2, 3, 0, none, none⟩

/-- All values of this batch agree: no job is shown as pending, and two are shown as failed. -/
theorem derivations_agree_failed :
    let dialect := DatabaseBatchQuery.sqlite
    let row := DatabaseBatchQuery.selectRow dialect false none failedSource
    let shown := DatabaseBatchQuery.row (DatabaseBatchQueryRow.ofRow dialect row)
    let data := BatchesData.row QueueBatchesData.noConfig failedBatch
    (row.pendingCount = 0 ∧ row.failedCount = 2) ∧
      (row.status.value = data.status ∧ shown.status = data.status) ∧
      (row.pendingCount = data.pendingJobs ∧ shown.pendingJobs = dialect.toInt data.pendingJobs) ∧
      (row.failedCount = data.failedJobs ∧ shown.failedJobs = dialect.toInt data.failedJobs) ∧
      (row.processedCount = data.processedJobs ∧
        shown.processedJobs = dialect.toInt data.processedJobs) ∧
      (DatabaseBatchQuery.overviewActive row = BatchRepositoryOverview.isActive failedBatch ∧
        DatabaseBatchQuery.overviewActive row = QueueBatchesData.active failedBatch ∧
        row.queueActivityRank =
          if BatchRepositoryOverview.isActive failedBatch then 101 + row.progress else 0) ∧
      (if DatabaseBatchQuery.clearCandidate failedSource then
        some (DatabaseBatchQuery.clearScope failedSource) else none) =
          ClearableBatches.classify failedBatch ∧
      row.pendingCount + row.failedCount = max 0 failedSource.pendingJobs ∧
      data.pendingJobs + data.failedJobs = max 0 failedBatch.pendingJobs := by
  have hreads : Reads failedSource failedBatch := ⟨rfl, rfl, rfl, rfl, rfl, rfl, rfl, rfl, rfl⟩
  exact ⟨⟨rfl, rfl⟩,
    derivations_agree DatabaseBatchQuery.sqlite QueueBatchesData.noConfig false none hreads⟩

end Derivations

namespace ClearableBatches

variable {getJobs : List String → Except String (List (Option LookedUpJob))}

/-! ## The lookups -/

/-- What a lookup says for a failed job: it returns the job exactly once, with retries that are
over. -/
def Verified (getJobs : List String → Except String (List (Option LookedUpJob)))
    (lookup : List String) (failedJobId : String) : Prop :=
  failedJobId ∈ lookup ∧ ∃ jobs, getJobs lookup = .ok jobs ∧
    ∃ job, (jobs.filter fun job => decide (idOf job = some failedJobId)) = [some job] ∧
      failedParentHasNoActiveRetry job

/-- What the loop over the jobs of a lookup knows of the jobs so far. -/
structure Inspected (requested : List String) (jobs : List (Option LookedUpJob))
    (parents : Parents) : Prop where
  seen : ∀ id, id ∈ parents.seen ↔
    id ∈ requested ∧ (jobs.filter fun job => decide (idOf job = some id)) ≠ []
  duplicates : ∀ id, id ∈ parents.duplicates ↔
    id ∈ requested ∧ 2 ≤ (jobs.filter fun job => decide (idOf job = some id)).length
  verified : ∀ id, id ∈ parents.verified ↔ id ∈ requested ∧ ∃ job rest,
    (jobs.filter fun job => decide (idOf job = some id)) = some job :: rest ∧
      failedParentHasNoActiveRetry job

/-- The jobs with an id, when one more job comes. -/
theorem filter_idOf_append {jobs : List (Option LookedUpJob)} {job : Option LookedUpJob}
    {id : String} : ((jobs ++ [job]).filter fun job => decide (idOf job = some id)) =
      (jobs.filter fun job => decide (idOf job = some id)) ++
        if idOf job = some id then [job] else [] := by
  rw [List.filter_append]
  by_cases h : idOf job = some id
  · simp [h]
  · simp [h]

section Inspected

variable {requested : List String} {jobs : List (Option LookedUpJob)} {parents : Parents}

/-- A job that was not asked for changes nothing. -/
theorem Inspected.skip (h : Inspected requested jobs parents) {job : Option LookedUpJob}
    (hjob : ∀ id ∈ requested, idOf job ≠ some id) :
    Inspected requested (jobs ++ [job]) parents := by
  have hsame : ∀ id ∈ requested, ((jobs ++ [job]).filter fun job => decide (idOf job = some id)) =
      jobs.filter fun job => decide (idOf job = some id) := by
    intro id hid
    rw [filter_idOf_append, if_neg (hjob id hid), List.append_nil]
  constructor
  · intro id
    rw [h.seen id]
    exact and_congr_right fun hid => by rw [hsame id hid]
  · intro id
    rw [h.duplicates id]
    exact and_congr_right fun hid => by rw [hsame id hid]
  · intro id
    rw [h.verified id]
    exact and_congr_right fun hid => by rw [hsame id hid]

/-- A job that was seen before is a duplicate. -/
theorem Inspected.again (h : Inspected requested jobs parents) {job : Option LookedUpJob}
    {found : String} (hjob : idOf job = some found) (hseen : found ∈ parents.seen) :
    Inspected requested (jobs ++ [job])
      { parents with duplicates := found :: parents.duplicates } := by
  obtain ⟨hrequested, hne⟩ := (h.seen found).mp hseen
  obtain ⟨first, rest, hfirst⟩ := List.exists_cons_of_ne_nil hne
  constructor
  · intro id
    rw [filter_idOf_append, hjob, h.seen id]
    by_cases heq : found = id
    · subst heq
      simp [hfirst]
    · simp [heq]
  · intro id
    rw [filter_idOf_append, hjob, List.mem_cons, h.duplicates id]
    by_cases heq : found = id
    · subst heq
      simp [hfirst, hrequested]
    · simp [heq, Ne.symm heq]
  · intro id
    rw [filter_idOf_append, hjob, h.verified id]
    by_cases heq : found = id
    · subst heq
      simp [hfirst]
    · simp [heq]

/-- A job that is seen for the first time is verified or not. -/
theorem Inspected.first (h : Inspected requested jobs parents) {job : LookedUpJob}
    {found : String} (hjob : idOf (some job) = some found) (hrequested : found ∈ requested)
    (hseen : found ∉ parents.seen) :
    Inspected requested (jobs ++ [some job]) { parents with
      seen := found :: parents.seen
      verified := if failedParentHasNoActiveRetry job then found :: parents.verified
        else parents.verified } := by
  have hnil : (jobs.filter fun job => decide (idOf job = some found)) = [] := by
    by_contra hne
    exact hseen ((h.seen found).mpr ⟨hrequested, hne⟩)
  have hverified : ∀ id, id ∈ (if failedParentHasNoActiveRetry job then found :: parents.verified
      else parents.verified) ↔
        (failedParentHasNoActiveRetry job ∧ id = found) ∨ id ∈ parents.verified := by
    intro id
    split <;> simp [*]
  constructor
  · intro id
    rw [filter_idOf_append, hjob, List.mem_cons, h.seen id]
    by_cases heq : found = id
    · subst heq
      simp [hrequested]
    · simp [heq, Ne.symm heq]
  · intro id
    rw [filter_idOf_append, hjob, h.duplicates id]
    by_cases heq : found = id
    · subst heq
      simp [hnil]
    · simp [heq]
  · intro id
    rw [filter_idOf_append, hjob, hverified, h.verified id]
    by_cases heq : found = id
    · subst heq
      simp [hnil, hrequested]
    · simp [heq, Ne.symm heq]

/-- One more job. -/
theorem Inspected.step (h : Inspected requested jobs parents) (job : Option LookedUpJob) :
    Inspected requested (jobs ++ [job]) (inspectParent requested parents job) := by
  rcases job with _ | job
  · exact h.skip fun id _ hid => nomatch hid
  · cases hid : idOf (some job) with
    | none =>
        simp only [inspectParent, hid]
        apply h.skip
        intro id _ hsome
        rw [hid] at hsome
        cases hsome
    | some found =>
        simp only [inspectParent, hid]
        split
        · rename_i hforeign
          apply h.skip
          intro id hrequested hsome
          rw [hid, Option.some.injEq] at hsome
          exact hforeign (hsome ▸ hrequested)
        · rename_i hrequested
          split
          · rename_i hseen
            exact h.again hid hseen
          · rename_i hseen
            exact h.first hid (not_not.mp hrequested) hseen

end Inspected

/-- The loop over the jobs of a lookup. -/
theorem inspected_foldl (requested : List String) (jobs : List (Option LookedUpJob)) :
    Inspected requested jobs (jobs.foldl (inspectParent requested) ⟨[], [], []⟩) := by
  induction jobs using List.reverseRecOn with
  | nil => constructor <;> simp
  | append_singleton jobs job ih =>
      rw [List.foldl_append, List.foldl_cons, List.foldl_nil]
      exact ih.step job

/-- The failed jobs that are verified are those that are found once. -/
theorem mem_verifiedFailedParents {lookup : List String} {failedJobId : String} :
    failedJobId ∈ verifiedFailedParents getJobs lookup ↔ Verified getJobs lookup failedJobId := by
  rw [verifiedFailedParents, Verified]
  cases hjobs : getJobs lookup with
  | error message => simp
  | ok jobs =>
      have hinspected := inspected_foldl lookup jobs
      simp only [List.mem_filter, decide_eq_true_eq, hinspected.verified failedJobId,
        hinspected.duplicates failedJobId, Except.ok.injEq, exists_eq_left']
      constructor
      · rintro ⟨⟨hmem, job, rest, hfound, hover⟩, hsingle⟩
        have hnil : rest = [] := by
          by_contra hne
          have hpos := List.length_pos_iff.mpr hne
          apply hsingle
          rw [hfound, List.length_cons]
          exact ⟨hmem, by omega⟩
        exact ⟨hmem, job, by rw [hfound, hnil], hover⟩
      · rintro ⟨hmem, job, hfound, hover⟩
        refine ⟨⟨hmem, job, [], hfound, hover⟩, ?_⟩
        rw [hfound]
        simp

/-! ## The candidates that are clearable -/

/-- The lookups that the failed jobs of a chunk of candidates are found in. -/
def lookups (candidates : List DatabaseBatchClearCandidate) : List (List String) :=
  List.arrayChunk failedJobChunkSize (failedJobIdsOf candidates)

/-- A candidate is clearable: its failed jobs are well formed and verified, each in its lookup. -/
def Clearable (getJobs : List String → Except String (List (Option LookedUpJob)))
    (candidates : List DatabaseBatchClearCandidate) (candidate : DatabaseBatchClearCandidate) :
    Prop :=
  ∃ failedJobIds, candidate.failedJobIds = some failedJobIds ∧
    ∀ failedJobId ∈ failedJobIds, ∃ lookup ∈ lookups candidates,
      Verified getJobs lookup failedJobId

variable {candidates : List DatabaseBatchClearCandidate} {candidate : DatabaseBatchClearCandidate}

/-- Every failed job of a candidate is looked up. -/
theorem exists_lookup {failedJobIds : List String} {failedJobId : String}
    (hcandidate : candidate ∈ candidates) (hids : candidate.failedJobIds = some failedJobIds)
    (hmem : failedJobId ∈ failedJobIds) : ∃ lookup ∈ lookups candidates, failedJobId ∈ lookup := by
  apply List.exists_mem_arrayChunk
  rw [failedJobIdsOf, List.mem_eraseDups, List.mem_flatMap]
  exact ⟨candidate, hcandidate, by rwa [hids]⟩

/-- A failed job is looked up once. -/
theorem lookup_unique {lookup lookup' : List String} {failedJobId : String}
    (hlookup : lookup ∈ lookups candidates) (hlookup' : lookup' ∈ lookups candidates)
    (hmem : failedJobId ∈ lookup) (hmem' : failedJobId ∈ lookup') : lookup = lookup' :=
  List.arrayChunk_unique (List.nodup_eraseDups _) hlookup hlookup' hmem hmem'

/-- What a lookup leaves of the ids. -/
theorem mem_dropUnverified {clearableIds lookup : List String} {id : String} :
    id ∈ dropUnverified getJobs candidates clearableIds lookup ↔
      id ∈ clearableIds ∧ ∀ failedJobId ∈ lookup,
        id ∈ candidateIds candidates failedJobId → Verified getJobs lookup failedJobId := by
  -- Induction on the part of the lookup that is gone through.
  have hloop : ∀ (part clearableIds : List String), id ∈ part.foldl (fun clearableIds failedJobId =>
      if failedJobId ∈ verifiedFailedParents getJobs lookup then clearableIds
      else clearableIds.filter fun id => id ∉ candidateIds candidates failedJobId) clearableIds ↔
      id ∈ clearableIds ∧ ∀ failedJobId ∈ part,
        id ∈ candidateIds candidates failedJobId → Verified getJobs lookup failedJobId := by
    intro part
    induction part with
    | nil => simp
    | cons failedJobId part ih =>
        intro clearableIds
        have hverified : failedJobId ∈ verifiedFailedParents getJobs lookup ↔
            Verified getJobs lookup failedJobId := mem_verifiedFailedParents
        rw [List.foldl_cons, ih, List.forall_mem_cons]
        split
        · tauto
        · rw [List.mem_filter, decide_eq_true_eq]
          tauto
  exact hloop lookup clearableIds

/-- The ids that are left are those of the clearable candidates. -/
theorem mem_clearableDatabaseCandidateIds (hdistinct : (candidates.map (·.id)).Nodup)
    (hcandidate : candidate ∈ candidates) :
    candidate.id ∈ clearableDatabaseCandidateIds getJobs candidates ↔
      Clearable getJobs candidates candidate := by
  have hsame : ∀ candidate' ∈ candidates, candidate'.id = candidate.id → candidate' = candidate :=
    fun candidate' hmem hid => List.inj_on_of_nodup_map hdistinct hmem hcandidate hid
  have hids : ∀ failedJobId, candidate.id ∈ candidateIds candidates failedJobId ↔
      failedJobId ∈ candidate.failedJobIds.getD [] := by
    intro failedJobId
    simp only [candidateIds, List.mem_map, List.mem_filter, decide_eq_true_eq]
    constructor
    · rintro ⟨candidate', ⟨hmem, hfailed⟩, hid⟩
      rwa [← hsame candidate' hmem hid]
    · intro hfailed
      exact ⟨candidate, ⟨hcandidate, hfailed⟩, rfl⟩
  have hstart : candidate.id ∈ (candidates.filter fun candidate =>
      candidate.failedJobIds.isSome).map (·.id) ↔ candidate.failedJobIds.isSome := by
    simp only [List.mem_map, List.mem_filter]
    constructor
    · rintro ⟨candidate', ⟨hmem, hsome⟩, hid⟩
      rwa [← hsame candidate' hmem hid]
    · intro hsome
      exact ⟨candidate, ⟨hcandidate, hsome⟩, rfl⟩
  -- Induction on the lookups that are gone through.
  have hloop : ∀ (part : List (List String)) (clearableIds : List String),
      candidate.id ∈ part.foldl (dropUnverified getJobs candidates) clearableIds ↔
        candidate.id ∈ clearableIds ∧ ∀ lookup ∈ part, ∀ failedJobId ∈ lookup,
          failedJobId ∈ candidate.failedJobIds.getD [] → Verified getJobs lookup failedJobId := by
    intro part
    induction part with
    | nil => simp
    | cons lookup part ih =>
        intro clearableIds
        rw [List.foldl_cons, ih, mem_dropUnverified, List.forall_mem_cons, and_assoc]
        simp only [hids]
  rw [clearableDatabaseCandidateIds, hloop, hstart, Clearable]
  cases hfailed : candidate.failedJobIds with
  | none => simp
  | some failedJobIds =>
      simp only [Option.isSome_some, true_and, Option.getD_some, Option.some.injEq,
        exists_eq_left']
      constructor
      · intro hverified failedJobId hmem
        obtain ⟨lookup, hlookup, hin⟩ := exists_lookup hcandidate hfailed hmem
        exact ⟨lookup, hlookup, hverified lookup hlookup failedJobId hin hmem⟩
      · intro hverified lookup hlookup failedJobId hin hmem
        obtain ⟨lookup', hlookup', hverified'⟩ := hverified failedJobId hmem
        rwa [lookup_unique hlookup hlookup' hin hverified'.1]

/-! ## What is listed -/

variable {dialect : Dialect} {records : List BatchRecord} {scope : BatchClearScope}

/-- The candidates of the chunks whose ids are left. -/
def cleared (getJobs : List String → Except String (List (Option LookedUpJob)))
    (chunks : List (List DatabaseBatchClearCandidate)) : List DatabaseBatchClearCandidate :=
  chunks.flatMap fun candidates => candidates.filter fun candidate =>
    decide (candidate.id ∈ clearableDatabaseCandidateIds getJobs candidates)

/-- The ids that are listed for a scope. -/
def listedIds (getJobs : List String → Except String (List (Option LookedUpJob)))
    (chunks : List (List DatabaseBatchClearCandidate)) (scope : BatchClearScope) : List String :=
  ((cleared getJobs chunks).filter fun candidate => scopeMatches scope candidate.scope).map (·.id)

/-- The ids go through the buffer one by one. -/
theorem foldl_listCandidates (chunkSize : ℕ) (chunks : List (List DatabaseBatchClearCandidate))
    (state : Buffered) : chunks.foldl (listCandidates getJobs scope chunkSize) state =
      (listedIds getJobs chunks scope).foldl (Buffered.add chunkSize) state := by
  induction chunks generalizing state with
  | nil => rfl
  | cons candidates chunks ih =>
      rw [List.foldl_cons, ih]
      simp only [listedIds, cleared, List.flatMap_cons, List.filter_append, List.map_append,
        List.foldl_append]
      congr 1
      rw [List.foldl_map, List.foldl_filter, List.foldl_filter, listCandidates]
      congr 1
      funext state candidate
      by_cases hid : candidate.id ∈ clearableDatabaseCandidateIds getJobs candidates
      · cases hscope : scopeMatches scope candidate.scope <;> simp [hid]
      · simp [hid]

/-- The candidates are counted one by one. -/
theorem foldl_countCandidates (chunks : List (List DatabaseBatchClearCandidate))
    (counters : Counters) : chunks.foldl (countCandidates getJobs) counters =
      (cleared getJobs chunks).foldl (fun counters candidate => counters.count candidate.scope)
        counters := by
  induction chunks generalizing counters with
  | nil => rfl
  | cons candidates chunks ih =>
      have hcleared : cleared getJobs (candidates :: chunks) = (candidates.filter fun candidate =>
          decide (candidate.id ∈ clearableDatabaseCandidateIds getJobs candidates)) ++
            cleared getJobs chunks := List.flatMap_cons
      rw [List.foldl_cons, ih, hcleared, List.foldl_append]
      congr 1
      rw [List.foldl_filter, countCandidates]
      congr 1
      funext counters candidate
      by_cases hid : candidate.id ∈ clearableDatabaseCandidateIds getJobs candidates <;> simp [hid]

/-- What the buffer has yielded and still holds are the ids in pieces. -/
theorem all_foldl_add {chunkSize : ℕ} (ids : List String) (state : Buffered)
    (hroom : state.buffer.length < chunkSize) :
    (ids.foldl (Buffered.add chunkSize) state).all =
      state.yielded ++ List.arrayChunkFrom chunkSize ids state.buffer.reverse := by
  induction ids generalizing state with
  | nil =>
      rw [List.foldl_nil, List.arrayChunkFrom, Buffered.all]
      by_cases hbuffer : state.buffer = [] <;> simp [hbuffer]
  | cons id ids ih =>
      rw [List.foldl_cons, List.arrayChunkFrom, List.length_reverse, Buffered.add]
      simp only [List.length_append, List.length_singleton]
      split
      · rename_i hfull
        rw [ih ⟨[], state.yielded ++ [state.buffer ++ [id]]⟩ (Nat.zero_lt_of_lt hroom),
          if_neg (by omega)]
        simp
      · rename_i hspace
        have hroom' : (state.buffer ++ [id]).length < chunkSize := by
          rw [List.length_append, List.length_singleton]
          omega
        rw [ih ⟨state.buffer ++ [id], state.yielded⟩ hroom', if_pos (by omega)]
        simp

/-- The counters count the candidates by their scopes. -/
theorem foldl_count (candidates : List DatabaseBatchClearCandidate) (counters : Counters) :
    candidates.foldl (fun counters candidate => counters.count candidate.scope) counters =
      ⟨counters.complete + candidates.countP fun c => decide (c.scope = .complete),
        counters.incomplete + candidates.countP fun c => decide (c.scope = .incomplete),
        counters.cancelled + candidates.countP fun c => decide (c.scope = .cancelled)⟩ := by
  induction candidates generalizing counters with
  | nil => rfl
  | cons candidate candidates ih =>
      rw [List.foldl_cons, ih]
      cases hscope : candidate.scope <;>
        simp [hscope, Counters.count, Nat.add_assoc, Nat.add_comm 1]

/-- The rows of the candidates, chunk by chunk. -/
def rowChunks (records : List BatchRecord) : List (List BatchRecord) :=
  List.arrayChunk DatabaseBatchQuery.clearCandidateChunkSize
    (DatabaseBatchQuery.candidateRows records)

/-- A row is to be listed for a scope: its state puts it there, its failed jobs are well formed, and
each of them is verified in the lookup it is in. -/
def Listable (getJobs : List String → Except String (List (Option LookedUpJob)))
    (records : List BatchRecord) (scope : BatchClearScope) (row : BatchRecord) : Prop :=
  DatabaseBatchQuery.clearCandidate row.toBatchSource ∧
    scopeMatches scope (DatabaseBatchQuery.clearScope row.toBatchSource) ∧
    ∃ failedJobIds, DatabaseBatchQuery.WellFormed row failedJobIds ∧ ∀ failedJobId ∈ failedJobIds,
      ∃ chunk ∈ rowChunks records, row ∈ chunk ∧
        ∃ lookup ∈ lookups (chunk.map DatabaseBatchQuery.clearCandidateOf),
          Verified getJobs lookup failedJobId

/-- The candidates of the chunks of rows. -/
def candidateChunks (records : List BatchRecord) : List (List DatabaseBatchClearCandidate) :=
  (rowChunks records).map (List.map DatabaseBatchQuery.clearCandidateOf)

/-- **The chunks** are those of the candidates, and nothing is thrown. -/
theorem clearCandidateChunks_eq (h : DatabaseBatchQuery.Readable dialect records) :
    (DatabaseBatchQuery.clearCandidateChunks dialect records).yielded = candidateChunks records ∧
      (DatabaseBatchQuery.clearCandidateChunks dialect records).thrown = none := by
  have hchunks := DatabaseBatchQuery.clearCandidateChunksFrom_eq h none
  rwa [Keys.behind_none] at hchunks

/-- What `idChunks` yields are the listed ids in pieces. -/
theorem idChunks_eq (h : DatabaseBatchQuery.Readable dialect records) {chunkSize : ℤ}
    (hsize : 1 ≤ chunkSize) :
    idChunks getJobs dialect records scope chunkSize =
      ⟨List.arrayChunk chunkSize.toNat (listedIds getJobs (candidateChunks records) scope),
        none⟩ := by
  obtain ⟨hyielded, hthrown⟩ := clearCandidateChunks_eq h
  have hpos : 0 < chunkSize.toNat := by omega
  rw [idChunks, if_neg (by omega), databaseIdChunks]
  simp only [hyielded, hthrown]
  rw [foldl_listCandidates, all_foldl_add _ ⟨[], []⟩ hpos]
  rfl

/-- The ids are listed in strict order. -/
theorem pairwise_listedIds (h : DatabaseBatchQuery.Readable dialect records) :
    (listedIds getJobs (candidateChunks records) scope).Pairwise (· < ·) := by
  have hcleared : ∀ chunks : List (List DatabaseBatchClearCandidate),
      (cleared getJobs chunks).Sublist chunks.flatten := by
    intro chunks
    induction chunks with
    | nil => exact List.Sublist.refl _
    | cons candidates chunks ih => exact List.filter_sublist.append ih
  have hflatten : (candidateChunks records).flatten =
      (DatabaseBatchQuery.candidateRows records).map DatabaseBatchQuery.clearCandidateOf := by
    rw [candidateChunks, ← List.map_flatten, rowChunks, List.flatten_arrayChunk]
  have hsub : (listedIds getJobs (candidateChunks records) scope).Sublist
      (((DatabaseBatchQuery.candidateRows records).map
        DatabaseBatchQuery.clearCandidateOf).map (·.id)) := by
    rw [← hflatten]
    exact (List.filter_sublist.trans (hcleared _)).map _
  apply List.Pairwise.sublist hsub
  rw [List.map_map, List.pairwise_map]
  exact DatabaseBatchQuery.pairwise_candidateRows h

/-- The ids that are listed are those of the rows that are to be listed. -/
theorem mem_listedIds (h : DatabaseBatchQuery.Readable dialect records) {id : String} :
    id ∈ listedIds getJobs (candidateChunks records) scope ↔
      ∃ row ∈ records, row.id = id ∧ Listable getJobs records scope row := by
  have hnodup := DatabaseBatchQuery.nodup_candidateRows h
  have hrows : (DatabaseBatchQuery.candidateRows records).Nodup := List.Nodup.of_map _ hnodup
  have hclearable : ∀ chunk ∈ rowChunks records, ∀ row ∈ chunk,
      (DatabaseBatchQuery.clearCandidateOf row).id ∈ clearableDatabaseCandidateIds getJobs
          (chunk.map DatabaseBatchQuery.clearCandidateOf) ↔
        ∃ failedJobIds, DatabaseBatchQuery.WellFormed row failedJobIds ∧ ∀ failedJobId ∈ failedJobIds,
          ∃ lookup ∈ lookups (chunk.map DatabaseBatchQuery.clearCandidateOf),
            Verified getJobs lookup failedJobId := by
    intro chunk hchunk row hrow
    have hdistinct : ((chunk.map DatabaseBatchQuery.clearCandidateOf).map (·.id)).Nodup := by
      have hsub : chunk.Sublist (DatabaseBatchQuery.candidateRows records) := by
        rw [← List.flatten_arrayChunk DatabaseBatchQuery.clearCandidateChunkSize
          (DatabaseBatchQuery.candidateRows records)]
        exact List.sublist_flatten_of_mem hchunk
      rw [List.map_map]
      exact hnodup.sublist (hsub.map _)
    rw [mem_clearableDatabaseCandidateIds hdistinct (List.mem_map_of_mem hrow), Clearable]
    simp only [← DatabaseBatchQuery.clearCandidateFailedJobIds_eq_some]
    rfl
  simp only [listedIds, cleared, candidateChunks, List.mem_map, List.mem_filter, List.mem_flatMap,
    exists_exists_and_eq_and, decide_eq_true_eq]
  constructor
  · rintro ⟨candidate, ⟨⟨chunk, hchunk, ⟨row, hrow, rfl⟩, hid⟩, hscope⟩, rfl⟩
    obtain ⟨hmem, hcandidate⟩ := DatabaseBatchQuery.mem_candidateRows.mp
      (List.mem_of_mem_arrayChunk hchunk hrow)
    obtain ⟨failedJobIds, hwell, hverified⟩ := (hclearable chunk hchunk row hrow).mp hid
    exact ⟨row, hmem, rfl, hcandidate, hscope, failedJobIds, hwell,
      fun failedJobId hfailed => ⟨chunk, hchunk, hrow, hverified failedJobId hfailed⟩⟩
  · rintro ⟨row, hmem, rfl, hcandidate, hscope, failedJobIds, hwell, hverified⟩
    have hrow := DatabaseBatchQuery.mem_candidateRows.mpr ⟨hmem, hcandidate⟩
    obtain ⟨chunk, hchunk, hin⟩ : ∃ chunk ∈ rowChunks records, row ∈ chunk :=
      List.exists_mem_arrayChunk hrow
    refine ⟨DatabaseBatchQuery.clearCandidateOf row,
      ⟨⟨chunk, hchunk, ⟨row, hin, rfl⟩, ?_⟩, hscope⟩, rfl⟩
    rw [hclearable chunk hchunk row hin]
    refine ⟨failedJobIds, hwell, fun failedJobId hfailed => ?_⟩
    obtain ⟨chunk', hchunk', hin', hlookup⟩ := hverified failedJobId hfailed
    rwa [List.arrayChunk_unique hrows hchunk hchunk' hin hin']

/-- What is counted is what is listed. -/
theorem counts_eq_length (h : DatabaseBatchQuery.Readable dialect records) :
    let listed scope := (listedIds getJobs (candidateChunks records) scope).length
    counts getJobs dialect records =
        ⟨listed .incomplete, listed .complete, listed .finished, listed .cancelled, true, true,
          none⟩ ∧
      listed .finished = listed .complete + listed .incomplete := by
  obtain ⟨hyielded, hthrown⟩ := clearCandidateChunks_eq h
  have hlength : ∀ scope, (listedIds getJobs (candidateChunks records) scope).length =
      (cleared getJobs (candidateChunks records)).countP
        fun candidate => scopeMatches scope candidate.scope := by
    intro scope
    rw [listedIds, List.length_map, List.countP_eq_length_filter]
  have hfinished : ∀ candidates : List DatabaseBatchClearCandidate,
      (candidates.countP fun candidate => scopeMatches .finished candidate.scope) =
        (candidates.countP fun c => decide (c.scope = .complete)) +
          candidates.countP fun c => decide (c.scope = .incomplete) := by
    intro candidates
    induction candidates with
    | nil => rfl
    | cons candidate candidates ih =>
        rw [List.countP_cons, List.countP_cons, List.countP_cons, ih]
        cases candidate.scope <;> simp [scopeMatches] <;> omega
  have hsingle : ∀ scope, scope ≠ .finished →
      (fun candidate : DatabaseBatchClearCandidate => scopeMatches scope candidate.scope) =
        fun c => decide (c.scope = scope) := by
    intro scope hscope
    funext candidate
    cases scope
    · simp [scopeMatches, eq_comm]
    · simp [scopeMatches, eq_comm]
    · exact absurd rfl hscope
    · simp [scopeMatches, eq_comm]
  intro listed
  have hsum : listed .finished = listed .complete + listed .incomplete := by
    simp only [listed, hlength]
    rw [hfinished, hsingle .complete (by decide), hsingle .incomplete (by decide)]
  refine ⟨?_, hsum⟩
  rw [counts, databaseCounts]
  simp only [hyielded, hthrown, foldl_countCandidates, foldl_count, Nat.zero_add]
  rw [hsum]
  simp only [listed, hlength]
  rw [hsingle .complete (by decide), hsingle .incomplete (by decide),
    hsingle .cancelled (by decide)]

/-- **What may be cleared.** On a batch table with distinct ids, `idChunks` yields, once and in the
order of the ids, the ids of the rows that are to be listed, in pieces whose size does not change
what they hold; `counts` says how many ids there are for each scope; and no row that depends on a
failed job of a lookup that throws is listed. -/
theorem idChunks_exact (h : DatabaseBatchQuery.Readable dialect records)
    (getJobs : List String → Except String (List (Option LookedUpJob))) (scope : BatchClearScope)
    {chunkSize : ℤ} (hsize : 1 ≤ chunkSize) :
    let ids scope := (idChunks getJobs dialect records scope chunkSize).yielded.flatten
    (idChunks getJobs dialect records scope chunkSize).thrown = none ∧
      (ids scope).Pairwise (· < ·) ∧
      (∀ id, id ∈ ids scope ↔
        ∃ row ∈ records, row.id = id ∧ Listable getJobs records scope row) ∧
      (∀ chunk ∈ (idChunks getJobs dialect records scope chunkSize).yielded,
        chunk ≠ [] ∧ chunk.length ≤ chunkSize) ∧
      (∀ chunkSize', 1 ≤ chunkSize' →
        (idChunks getJobs dialect records scope chunkSize').yielded.flatten = ids scope) ∧
      counts getJobs dialect records =
        ⟨(ids .incomplete).length, (ids .complete).length, (ids .finished).length,
          (ids .cancelled).length, true, true, none⟩ ∧
      (ids .finished).length = (ids .complete).length + (ids .incomplete).length ∧
      ∀ chunk ∈ rowChunks records,
        ∀ lookup ∈ lookups (chunk.map DatabaseBatchQuery.clearCandidateOf),
          ∀ message, getJobs lookup = .error message →
            ∀ row ∈ chunk, ∀ failedJobIds, DatabaseBatchQuery.WellFormed row failedJobIds →
              (∃ failedJobId ∈ failedJobIds, failedJobId ∈ lookup) → row.id ∉ ids scope := by
  have hids : ∀ scope, (idChunks getJobs dialect records scope chunkSize).yielded.flatten =
      listedIds getJobs (candidateChunks records) scope := by
    intro scope
    rw [idChunks_eq h hsize, List.flatten_arrayChunk]
  obtain ⟨hcounts, hfinished⟩ := @counts_eq_length getJobs _ _ h
  simp only [hids]
  refine ⟨by rw [idChunks_eq h hsize], pairwise_listedIds h, fun id => mem_listedIds h, ?_, ?_,
    hcounts, hfinished, ?_⟩
  · intro chunk hchunk
    rw [idChunks_eq h hsize] at hchunk
    have hlength := List.length_le_of_mem_arrayChunk (by omega) hchunk
    exact ⟨List.ne_nil_of_mem_arrayChunk hchunk, by omega⟩
  · intro chunkSize' hsize'
    rw [idChunks_eq h hsize', List.flatten_arrayChunk]
  · -- A row that is listed has all its failed jobs looked up, and each of them in one lookup only.
    rintro chunk hchunk lookup hlookup message herror row hrow failedJobIds hwell
      ⟨failedJobId, hfailed, hin⟩ hlisted
    obtain ⟨row', hmem', hid, -, -, failedJobIds', hwell', hverified⟩ := (mem_listedIds h).mp hlisted
    have hmem := (DatabaseBatchQuery.mem_candidateRows.mp
      (List.mem_of_mem_arrayChunk hchunk hrow)).1
    obtain rfl := List.inj_on_of_nodup_map h.distinct hmem' hmem hid
    have hsame : failedJobIds = failedJobIds' := by
      rw [← DatabaseBatchQuery.clearCandidateFailedJobIds_eq_some] at hwell hwell'
      rw [hwell, Option.some.injEq] at hwell'
      exact hwell'
    subst hsame
    obtain ⟨chunk', hchunk', hrow', lookup', hlookup', hverified'⟩ := hverified failedJobId hfailed
    have hrows : (DatabaseBatchQuery.candidateRows records).Nodup :=
      List.Nodup.of_map _ (DatabaseBatchQuery.nodup_candidateRows h)
    obtain rfl := List.arrayChunk_unique hrows hchunk hchunk' hrow hrow'
    obtain rfl := lookup_unique hlookup hlookup' hin hverified'.1
    obtain ⟨jobs, hjobs, -⟩ := hverified'.2
    rw [herror] at hjobs
    cases hjobs

/-- A batch that is finished, with two failed jobs. -/
def finishedRecord : BatchRecord where
  id := "batch"
  name := ""
  totalJobs := 3
  pendingJobs := 2
  failedJobs := 2
  createdAt := 0
  cancelledAt := none
  finishedAt := some 1
  failedJobIds := some "[\"a\",\"b\"]"

/-- A finished batch without a failed job, and a cancelled one. -/
def threeRecords : List BatchRecord :=
  [finishedRecord,
    { finishedRecord with id := "done", pendingJobs := 0, failedJobs := 0, failedJobIds := some "[]" },
    { finishedRecord with
      id := "old"
      pendingJobs := 0
      failedJobs := 0
      cancelledAt := some 1
      failedJobIds := some "[]" }]

/-- A job repository in which no job has been retried, and which cannot look up one of them. -/
def lostLookups (ids : List String) : Except String (List (Option LookedUpJob)) :=
  if "a" ∈ ids then .error "The connection was lost." else .ok (ids.map fun id => some ⟨.str id, some .null⟩)

/-- The ids of three batches in pieces of one: the batch whose lookup throws is not listed. -/
theorem idChunks_exact_lost :
    let ids scope := (idChunks lostLookups DatabaseBatchQuery.sqlite threeRecords scope 1).yielded.flatten
    counts lostLookups DatabaseBatchQuery.sqlite threeRecords =
        ⟨(ids .incomplete).length, (ids .complete).length, (ids .finished).length,
          (ids .cancelled).length, true, true, none⟩ ∧
      "batch" ∉ ids .finished ∧ "done" ∈ ids .finished ∧ "old" ∈ ids .cancelled := by
  intro ids
  have hreadable : DatabaseBatchQuery.Readable DatabaseBatchQuery.sqlite threeRecords :=
    ⟨by decide, by decide, fun _ _ => rfl⟩
  have hexact (scope : BatchClearScope) := idChunks_exact hreadable lostLookups scope (le_refl 1)
  have hnone : ∀ row ∈ threeRecords.tail, DatabaseBatchQuery.WellFormed row [] := by
    intro row hrow
    rw [← DatabaseBatchQuery.clearCandidateFailedJobIds_eq_some]
    rcases List.mem_pair.mp hrow with rfl | rfl <;> decide +kernel
  refine ⟨(hexact .complete).2.2.2.2.2.1, fun hbatch => ?_, ?_, ?_⟩
  · obtain ⟨row, hrow, hid, -, -, failedJobIds, hwell, hverified⟩ :=
      ((hexact .finished).2.2.1 "batch").mp hbatch
    obtain rfl : row = finishedRecord := by
      rcases List.mem_cons.mp hrow with h | h
      · exact h
      · rcases List.mem_pair.mp h with rfl | rfl <;> exact absurd hid (by decide)
    have hfailed : DatabaseBatchQuery.clearCandidateFailedJobIds finishedRecord = some ["a", "b"] := by
      decide +kernel
    rw [← DatabaseBatchQuery.clearCandidateFailedJobIds_eq_some, hfailed, Option.some.injEq] at hwell
    subst hwell
    obtain ⟨-, -, -, lookup, -, hmem, jobs, hjobs, -⟩ := hverified "a" List.mem_cons_self
    rw [lostLookups, if_pos hmem] at hjobs
    cases hjobs
  · exact ((hexact .finished).2.2.1 "done").mpr ⟨_, List.mem_cons_of_mem _ List.mem_cons_self, rfl,
      by decide, by decide, [], hnone _ List.mem_cons_self, by simp⟩
  · exact ((hexact .cancelled).2.2.1 "old").mpr ⟨_, List.mem_cons_of_mem _ (List.mem_cons_of_mem _
      List.mem_cons_self), rfl, by decide, by decide, [], hnone _ (List.mem_cons_of_mem _ List.mem_cons_self),
      by simp⟩

end ClearableBatches

end HorizonNewDawn

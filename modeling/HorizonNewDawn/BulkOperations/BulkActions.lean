import HorizonNewDawn.BulkOperations.BulkOperationSnapshot

/-! # Bulk operations, a chunk at a time

The three actions that work through a snapshot: retrying and clearing failed jobs, and cancelling
pending ones. An execution processes one chunk. When a call inside it fails, the exception leaves the
chunk, and the chunk is executed again with the same operation id; when targets remain, the next
execution follows. `operation` is the whole of it, as far as a budget of executions goes. -/

namespace HorizonNewDawn

open Program

namespace BulkOperationSnapshot

/-! ## What the actions share -/

/-- `BulkOperationChunkResult` -/
structure BulkOperationChunkResult where
  operationId : OperationId
  totalAffected : ℤ
  complete : Bool

/-- `BulkOperationChunkResult::continuing` -/
def BulkOperationChunkResult.continuing (operationId : OperationId) (totalAffected : ℤ) :
    BulkOperationChunkResult := ⟨operationId, totalAffected, false⟩

/-- `BulkOperationChunkResult::completed` -/
def BulkOperationChunkResult.completed (operationId : OperationId) (totalAffected : ℤ) :
    BulkOperationChunkResult := ⟨operationId, totalAffected, true⟩

/-- `$hydrated`, in the order of the assignments -/
def hydrated (jobs : List (Option Job)) : List (String × Job) :=
  jobs.filterMap fun
    | none => none
    | some job =>
        match job.id with
        | .str id => if id = "" then none else some (id, job)
        | _ => none

/-- `$hydrated[$id] ?? null`; a later assignment replaces an earlier one. -/
def hydratedJob (jobs : List (Option Job)) (id : String) : Option Job :=
  ((hydrated jobs).reverse.find? fun e => e.1 = id).map Prod.snd

/-- `$expected !== null && ($actual ?? null) !== $expected` -/
def differs (expected : Option String) (actual : Php) : Bool :=
  match expected, actual with
  | none, _ => false
  | some expected, .str actual => actual ≠ expected
  | some _, _ => true

/-- `$operationId ??= $this->snapshots->createFromSortedSet(…)` -/
def operationIdOf (sourceKey : String) : Option OperationId → BulkProgram OperationId
  | some operationId => .ret operationId
  | none => createFromSortedSet sourceKey

/-- `catch (Throwable $exception) { renew; throw }` -/
def renewing {α : Type} (operationId : OperationId) (body : BulkProgram α) : BulkProgram α :=
  body.tryCatch fun exception => renew operationId >>= fun _ => .fail exception

/-- The completion of a chunk that was found empty, or has left nothing behind. -/
def completing (operationId : OperationId) : BulkProgram BulkOperationChunkResult := do
  let total ← finish operationId
  return .completed operationId total

/-- The end of `processChunk`, where it retries or clears. -/
def concluding (operationId : OperationId) : BulkProgram BulkOperationChunkResult := do
  let total ← totalAffected operationId
  let more ← hasMore operationId
  if more then return .continuing operationId total
  else completing operationId

end BulkOperationSnapshot

open BulkOperationSnapshot

/-! ## Retrying failed jobs -/

namespace RetryAllFailedJobs

/-- Whether a member is no target. -/
def skips (connection queue : Option String) (jobs : List (Option Job)) (id : String) : Bool :=
  match hydratedJob jobs id with
  | none => true
  | some job => differs connection job.connection || differs queue job.queue

/-- The body of the loop over the ids of a chunk. -/
def settle (connection queue : Option String) (operationId : OperationId)
    (jobs : List (Option Job)) (id : String) : BulkProgram Unit :=
  if skips connection queue jobs id then acknowledge operationId [id]
  else do
    let retried ← (request (.handle .handleBulk operationId id) : BulkProgram Bool)
    Prog.ifThen retried (addAffected operationId 1 >>= fun _ => .ret ())
    acknowledge operationId [id]

/-- `processChunk` -/
def processChunk (connection queue : Option String) (operationId : Option OperationId) :
    BulkProgram BulkOperationChunkResult := do
  let operationId ← operationIdOf "failed_jobs" operationId
  let ids ← nextChunk operationId
  if ids = [] then completing operationId
  else do
    let jobs ← (request (.getJobs operationId ids) : BulkProgram (List (Option Job)))
    renewing operationId (Prog.forEach ids (settle connection queue operationId jobs))
    concluding operationId

end RetryAllFailedJobs

/-! ## Clearing failed jobs -/

namespace ClearFailedJobs

/-- The body of the loop over the ids of a chunk. -/
def settle (operationId : OperationId) (id : String) : BulkProgram Unit := do
  let _ ← (request (.handle .deleteFailed operationId id) : BulkProgram Bool)
  let _ ← (request (.handle .forget operationId id) : BulkProgram Bool)
  let _ ← addAffected operationId 1
  acknowledge operationId [id]

/-- `processChunk` -/
def processChunk (operationId : Option OperationId) : BulkProgram BulkOperationChunkResult := do
  let operationId ← operationIdOf "failed_jobs" operationId
  let ids ← nextChunk operationId
  if ids = [] then completing operationId
  else do
    renewing operationId (Prog.forEach ids (settle operationId))
    concluding operationId

end ClearFailedJobs

/-! ## Cancelling pending jobs -/

namespace CancelPendingJobs

/-- `CancelPendingJobsChunkResultData` -/
structure CancelPendingJobsChunkResultData where
  operationId : OperationId
  complete : Bool
  totalCancelled : ℤ
  chunkCancelled : ℕ
  chunkBatched : ℕ
  chunkFailed : ℕ

/-- `$cancelled`, `$batched` and `$failed` -/
structure Counts where
  cancelled : ℕ
  batched : ℕ
  failed : ℕ

/-- Whether a member is no target. -/
def skips (queue : Option String) (jobs : List (Option Job)) (id : String) : Bool :=
  match hydratedJob jobs id with
  | none => true
  | some job => differs queue job.queue

/-- The `match` on what the handler answers. -/
def Counts.add (counts : Counts) : PendingJobCancellationResult → Counts
  | .cancelled => { counts with cancelled := counts.cancelled + 1 }
  | .batched => { counts with batched := counts.batched + 1 }
  | .notCancellable => counts

/-- The handler, with its exceptions reported and counted. The scope is passed to the handler and
left out here. -/
def handleOrReport (operationId : OperationId) (counts : Counts) (id : String) :
    BulkProgram Counts := do
  let result ← (attempt (.handle .cancel operationId id) :
    BulkProgram (Option PendingJobCancellationResult))
  match result with
  | some result => return counts.add result
  | none => do
      (request (.report operationId id) : BulkProgram Unit)
      return { counts with failed := counts.failed + 1 }

/-- The body of the loop over the ids of a chunk. -/
def settle (queue : Option String) (operationId : OperationId) (jobs : List (Option Job))
    (counts : Counts) (id : String) : BulkProgram Counts :=
  if skips queue jobs id then do
    acknowledge operationId [id]
    return counts
  else do
    let counts ← handleOrReport operationId counts id
    acknowledge operationId [id]
    return counts

/-- `processChunk` -/
def processChunk (queue : Option String) (operationId : Option OperationId) :
    BulkProgram CancelPendingJobsChunkResultData := do
  let operationId ← operationIdOf "pending_jobs" operationId
  let ids ← nextChunk operationId
  if ids = [] then do
    let total ← finish operationId
    return ⟨operationId, true, total, 0, 0, 0⟩
  else do
    let jobs ← (request (.getJobs operationId ids) : BulkProgram (List (Option Job)))
    let counts ← renewing operationId
      (Prog.fold (settle queue operationId jobs) ⟨0, 0, 0⟩ ids)
    let total ← addAffected operationId counts.cancelled
    let more ← hasMore operationId
    if more then
      return ⟨operationId, false, total, counts.cancelled, counts.batched, counts.failed⟩
    else do
      cleanup operationId
      return ⟨operationId, true, total, counts.cancelled, counts.batched, counts.failed⟩

end CancelPendingJobs

/-! ## Operations -/

namespace BulkOperationSnapshot

/-- The actions, with what they are limited to. -/
inductive Action
  | retryAllFailedJobs (connection queue : Option String)
  | clearFailedJobs
  | cancelPendingJobs (queue : Option String)

/-- `processChunk` of an action, with what its job reads of the result. -/
def Action.processChunk (operationId : Option OperationId) :
    Action → BulkProgram BulkOperationChunkResult
  | .retryAllFailedJobs connection queue =>
      RetryAllFailedJobs.processChunk connection queue operationId
  | .clearFailedJobs => ClearFailedJobs.processChunk operationId
  | .cancelPendingJobs queue =>
      CancelPendingJobs.processChunk queue operationId >>= fun result =>
        .ret ⟨result.operationId, result.totalCancelled, result.complete⟩

/-- One execution of a chunk, with `none` for an exception. -/
def Action.execution (action : Action) (operationId : Option OperationId) :
    BulkProgram (Option BulkOperationChunkResult) :=
  (action.processChunk operationId >>= fun result => .ret (some result)).tryCatch
    fun _ => .ret none

/-- An operation, for as long as executions are scheduled. As long as the operation is not complete,
the next chunk is executed; after an exception the chunk is executed again, with the operation id the
schedule names (the snapshot may have been taken by the execution that failed) or else with the one it
had. There is no result where the executions were not enough. -/
def Action.operation (action : Action) :
    List (Option OperationId) → Option OperationId → BulkProgram (Option BulkOperationChunkResult)
  | [], _ => .ret none
  | again :: schedule, operationId => action.execution operationId >>= fun
      | none => operation action schedule (again <|> operationId)
      | some result =>
          if result.complete then .ret (some result)
          else operation action schedule (some result.operationId)

end BulkOperationSnapshot

end HorizonNewDawn

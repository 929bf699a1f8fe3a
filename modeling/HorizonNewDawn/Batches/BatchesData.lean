import HorizonNewDawn.Php.Json
import HorizonNewDawn.Php.Text

/-! # Batches and their rows

A batch as the batch repository returns it, the queue and connection it is attributed to and the
row that is shown for it. -/

namespace HorizonNewDawn

/-- A batch of the framework, with what its methods answer. -/
structure Batch where
  id : String
  name : String
  totalJobs : ℤ
  pendingJobs : ℤ
  failedJobs : ℤ
  processedJobs : ℤ
  progress : ℤ
  cancelled : Bool
  options : List (String × Php)
  createdAt : ℤ
  cancelledAt : Option ℤ
  finishedAt : Option ℤ

/-- What the options of a batch say about its queue and connection. -/
structure DatabaseBatchMetadata where
  batchId : String
  queue : Option String
  connection : Option String
  queueIsExplicit : Bool
  connectionIsExplicit : Bool
  deriving DecidableEq

namespace DatabaseBatchMetadata

/-- `explicitString` -/
def explicitString (options : List (String × Php)) (key : String) : Option String :=
  Php.nonEmpty (Php.getStr key options)

/-- `fromOptions` -/
def fromOptions (batchId : String) (options : List (String × Php)) : DatabaseBatchMetadata :=
  let queue := explicitString options "queue"
  let connection := explicitString options "connection"
  { batchId := batchId
    queue := queue
    connection := connection
    queueIsExplicit := queue.isSome
    connectionIsExplicit := connection.isSome }

end DatabaseBatchMetadata

/-- The queue configuration of the application: `queue.default` and `queue.connections`. -/
structure QueueConfig where
  default : Php
  connections : Php

/-- Where a batch is attributed to. -/
structure Attribution where
  connection : Option String
  queue : String
  queueExplicit : Bool
  connectionExplicit : Bool

/-- The row of a batch. -/
structure BatchRowData where
  id : String
  name : Option String
  displayName : String
  connection : Option String
  queue : Option String
  totalJobs : ℤ
  pendingJobs : ℤ
  failedJobs : ℤ
  failedJobAttempts : ℤ
  processedJobs : ℤ
  progress : ℤ
  status : String
  createdAt : ℤ
  cancelledAt : Option ℤ
  finishedAt : Option ℤ
  queueExplicit : Bool
  connectionExplicit : Bool
  attributionCaptured : Bool := false
  deriving DecidableEq

namespace BatchesData

variable (config : QueueConfig)

/-- `configuredQueue` -/
def configuredQueue (connection : Option String) : Option String :=
  match connection, config.connections with
  | some connection, .array connections =>
      match Php.get connection connections with
      | some (.array settings) => Php.nonEmpty (Php.getStr "queue" settings)
      | _ => none
  | _, _ => none

/-- `attribution` -/
def attribution (batch : Batch) : Attribution :=
  let metadata := DatabaseBatchMetadata.fromOptions batch.id batch.options
  let connection :=
    match metadata.connection with
    | some connection => some connection
    | none =>
        match config.default with
        | .str configuredDefault => Php.nonEmpty (some configuredDefault)
        | _ => none
  let queue := (metadata.queue.or (configuredQueue config connection)).getD "default"
  { connection := connection
    queue := queue
    queueExplicit := metadata.queueIsExplicit
    connectionExplicit := metadata.connectionIsExplicit }

/-- `queue` -/
def queue (batch : Batch) : String := (attribution config batch).queue

/-- `row` -/
def row (batch : Batch) : BatchRowData :=
  let name := Php.trim batch.name
  let processedJobs := batch.processedJobs
  let failedJobs := min (max 0 batch.pendingJobs) (max 0 batch.failedJobs)
  let pendingJobs := max 0 (batch.pendingJobs - failedJobs)
  let attribution := attribution config batch
  let status :=
    if batch.cancelled then "cancelled"
    else if processedJobs = batch.totalJobs then "finished"
    else if 0 < batch.failedJobs then "failures"
    else "pending"
  { id := batch.id
    name := if name = "" then none else some name
    displayName := if name = "" then batch.id else name
    connection := attribution.connection
    queue := some attribution.queue
    totalJobs := batch.totalJobs
    pendingJobs := pendingJobs
    failedJobs := failedJobs
    failedJobAttempts := max 0 batch.failedJobs
    processedJobs := processedJobs
    progress := batch.progress
    status := status
    createdAt := batch.createdAt
    cancelledAt := batch.cancelledAt
    finishedAt := batch.finishedAt
    queueExplicit := attribution.queueExplicit
    connectionExplicit := attribution.connectionExplicit }

/-- A row has the id of its batch. -/
@[simp] theorem id_row (batch : Batch) : (row config batch).id = batch.id := rfl

/-- A row shows the queue its batch is listed under. -/
theorem queue_row (batch : Batch) : (row config batch).queue = some (queue config batch) := rfl

end BatchesData

end HorizonNewDawn

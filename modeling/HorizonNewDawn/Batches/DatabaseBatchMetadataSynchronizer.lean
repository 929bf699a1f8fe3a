import HorizonNewDawn.Batches.DatabaseBatchQuery
import HorizonNewDawn.Collections.Keys

/-! # Synchronizing the metadata of the batches

The table of the queues and connections that batches are attributed to follows the batch table:
`DatabaseBatchMetadataSynchronizer::sync` inserts a row for every batch that has none, and removes
the rows of batches that are gone. Both loops read the tables in pieces. After a run the two tables
have the same ids, the rows that stay are not touched, and the next run finds nothing to do
(`sync_exact`). -/

namespace HorizonNewDawn

/-- A batch of the batch table, with its column `options`. -/
structure BatchOptions where
  id : String
  options : Option String

namespace DatabaseBatchMetadata

variable (unserialize : List UInt8 → Option Php)

/-- `options`; what `unserialize` makes of the bytes of a value is a parameter, `none` where it
fails. -/
def options (value : Option String) (postgres : Bool) : List (String × Php) :=
  match value with
  | none => []
  | some value =>
      if value = "" then []
      else
        let encoded := postgres && !value.toList.contains ':' && !value.toList.contains ';'
        match (if encoded then Php.base64Decode value.toList else some (Php.bytes value)) with
        | none => []
        | some bytes =>
            match unserialize bytes with
            | some (.array options) => options
            | _ => []

/-- `fromSerializedOptions` -/
def fromSerializedOptions (batchId : String) (serializedOptions : Option String) (postgres : Bool) :
    DatabaseBatchMetadata :=
  let options := options unserialize serializedOptions postgres
  let queue := explicitString options "queue"
  let connection := explicitString options "connection"
  { batchId := batchId
    queue := queue
    connection := connection
    queueIsExplicit := queue.isSome
    connectionIsExplicit := connection.isSome }

end DatabaseBatchMetadata

namespace DatabaseBatchMetadataSynchronizer

/-- `CHUNK_SIZE` -/
def chunkSize : ℕ := 500

/-- `nullableString` -/
def nullableString (value : Php) : Option String :=
  match value with
  | .str value => Php.nonEmpty (some value)
  | _ => none

variable (config : String → Php)

/-- `configuredDefaultConnection` -/
def configuredDefaultConnection : Option String := nullableString (config "queue.default")

/-- `configuredQueue` -/
def configuredQueue (connection : Option String) : Option String :=
  connection.bind fun connection =>
    nullableString (config ("queue.connections." ++ connection ++ ".queue"))

/-- `resolvedMetadata` -/
def resolvedMetadata (metadata : DatabaseBatchMetadata) : DatabaseBatchMetadata :=
  let connection := metadata.connection.or (configuredDefaultConnection config)
  let queue := (metadata.queue.or (configuredQueue config connection)).getD "default"
  { batchId := metadata.batchId
    queue := some queue
    connection := connection
    queueIsExplicit := metadata.queueIsExplicit
    connectionIsExplicit := metadata.connectionIsExplicit }

/-- `insertOrIgnore`: the table with the rows whose ids are new, and their number. -/
def insertOrIgnore (metadata : List DatabaseBatchMetadata) :
    List DatabaseBatchMetadata → List DatabaseBatchMetadata × ℕ
  | [] => (metadata, 0)
  | row :: payload =>
      if metadata.any fun stored => stored.batchId = row.batchId then
        insertOrIgnore metadata payload
      else
        let inserted := insertOrIgnore (metadata ++ [row]) payload
        (inserted.1, inserted.2 + 1)

/-- A batch has no metadata: the `LEFT JOIN` finds no row for it. -/
def lacks (metadata : List DatabaseBatchMetadata) (row : BatchOptions) : Bool :=
  metadata.all fun stored => decide (stored.batchId ≠ row.id)

/-- Metadata have no batch. -/
def isStale (source : List BatchOptions) (stored : DatabaseBatchMetadata) : Bool :=
  source.all fun row => decide (row.id ≠ stored.batchId)

/-- `id > lastId`, `ORDER BY id` are those of the database. -/
def missingRows (idLe : String → String → Bool) (source : List BatchOptions)
    (metadata : List DatabaseBatchMetadata) (lastId : Option String) : List BatchOptions :=
  let rows := source.filter fun row => lacks metadata row &&
    lastId.all fun lastId => !idLe row.id lastId
  (rows.mergeSort fun a b => idLe a.id b.id).take chunkSize

/-- A row that is read is one of the source. -/
theorem mem_of_mem_missingRows {idLe : String → String → Bool} {source : List BatchOptions}
    {metadata : List DatabaseBatchMetadata} {lastId : Option String} {row : BatchOptions}
    (h : row ∈ missingRows idLe source metadata lastId) : row ∈ source :=
  (List.mem_filter.mp (List.mem_mergeSort.mp (List.mem_of_mem_take h))).1

variable (unserialize : List UInt8 → Option Php) (postgres : Bool)
  (idLe : String → String → Bool) (source : List BatchOptions)

/-- The metadata of a batch. -/
def metadataOf (row : BatchOptions) : DatabaseBatchMetadata :=
  resolvedMetadata config
    (DatabaseBatchMetadata.fromSerializedOptions unserialize row.id row.options postgres)

/-- What a loop leaves: the table, and how many rows were inserted or the exception. -/
structure Outcome where
  metadata : List DatabaseBatchMetadata
  result : Except String ℕ

/-- The loop of `sync` over the batches without metadata. -/
def insertMissing (metadata : List DatabaseBatchMetadata) (inserted : ℕ) (lastId : Option String) :
    Outcome :=
  let rows := missingRows idLe source metadata lastId
  match _hlast : rows.getLast? with
  | none => ⟨metadata, .ok inserted⟩
  | some last =>
      let payload := rows.map (metadataOf config unserialize postgres)
      let stored := insertOrIgnore metadata payload
      if _hstuck : lastId.any fun lastId => (strcmp last.id lastId).isLE then
        ⟨stored.1, .error "The batch metadata synchronizer did not advance."⟩
      else if rows.length = chunkSize then
        insertMissing stored.1 (inserted + stored.2) (some last.id)
      else ⟨stored.1, .ok (inserted + stored.2)⟩
termination_by (Keys.behind (fun row : BatchOptions => row.id) source lastId).length
decreasing_by
  apply Keys.length_behind_lt (fun row : BatchOptions => row.id)
    (mem_of_mem_missingRows (List.mem_of_getLast? _hlast))
  rintro id rfl
  rw [Option.any_some, Bool.not_eq_true, Ordering.isLE_eq_false] at _hstuck
  exact compare_gt_iff_gt.mp _hstuck

/-- The ids that a round of `removeStaleMetadata` deletes. -/
def staleIds (metadata : List DatabaseBatchMetadata) : List String :=
  let stale := (metadata.filter (isStale source)).mergeSort fun a b => idLe a.batchId b.batchId
  ((stale.take chunkSize).map (·.batchId)).filter fun id => decide (id ≠ "")

/-- `whereIn(ids)->delete()` -/
def deleteIds (metadata : List DatabaseBatchMetadata) (ids : List String) :
    List DatabaseBatchMetadata :=
  metadata.filter fun stored => stored.batchId ∉ ids

/-- `removeStaleMetadata` -/
def removeStaleMetadata (metadata : List DatabaseBatchMetadata) : List DatabaseBatchMetadata :=
  let ids := staleIds idLe source metadata
  if _hsome : ids = [] then metadata
  else
    let rest := deleteIds metadata ids
    if ids.length = chunkSize then removeStaleMetadata rest else rest
termination_by metadata.length
decreasing_by
  obtain ⟨id, hid⟩ := List.exists_mem_of_ne_nil _ _hsome
  obtain ⟨stored, hstored, rfl⟩ := List.mem_map.mp (List.mem_filter.mp hid).1
  have hmem := (List.mem_filter.mp (List.mem_mergeSort.mp (List.mem_of_mem_take hstored))).1
  apply List.length_filter_lt_length_iff_exists.mpr
  refine ⟨stored, hmem, ?_⟩
  rw [decide_eq_true_eq, not_not]
  exact hid

/-- `sync`, of a synchronizer that has `synchronized` before or not: whether it has now, the metadata
it leaves, and what it returns. -/
def sync (synchronized attributionSupported : Bool) (metadata : List DatabaseBatchMetadata) :
    Bool × Outcome :=
  if synchronized then (true, ⟨metadata, .ok 0⟩)
  else if !attributionSupported then (true, ⟨metadata, .ok 0⟩)
  else
    let outcome := insertMissing config unserialize postgres idLe source metadata 0 none
    match outcome.result with
    | .error message => (false, ⟨outcome.metadata, .error message⟩)
    | .ok inserted =>
        if source.length < outcome.metadata.length then
          (true, ⟨removeStaleMetadata idLe source outcome.metadata, .ok inserted⟩)
        else (true, ⟨outcome.metadata, .ok inserted⟩)

/-! ## The batches without metadata -/

variable {config unserialize postgres idLe source} {metadata : List DatabaseBatchMetadata}

/-- A batch table as it is read: with distinct ids, in a database that orders them by their bytes. -/
structure Readable (idLe : String → String → Bool) (source : List BatchOptions) : Prop where
  distinct : (source.map (·.id)).Nodup
  bytewise : ∀ s s', idLe s s' = decide (s ≤ s')

/-- The batches without metadata, by their ids. -/
def missing (source : List BatchOptions) (metadata : List DatabaseBatchMetadata) :
    List BatchOptions :=
  Keys.byKey (·.id) (source.filter (lacks metadata))

/-- The metadata lack a row where none is of its batch. -/
theorem lacks_eq_true {row : BatchOptions} :
    lacks metadata row ↔ ∀ stored ∈ metadata, stored.batchId ≠ row.id := by
  simp [lacks]

/-- Metadata are stale where no row is of their batch. -/
theorem isStale_eq_true {stored : DatabaseBatchMetadata} :
    isStale source stored ↔ ∀ row ∈ source, row.id ≠ stored.batchId := by
  simp [isStale]

/-- The missing rows are those the metadata lack. -/
theorem mem_missing {row : BatchOptions} :
    row ∈ missing source metadata ↔ row ∈ source ∧ lacks metadata row := by
  rw [missing, Keys.mem_byKey, List.mem_filter]

/-- A selection of the rows lists no id twice. -/
theorem Readable.distinct_filter (h : Readable idLe source) (p : BatchOptions → Bool) :
    ((source.filter p).map (·.id)).Nodup := h.distinct.sublist (List.filter_sublist.map _)

/-- The missing rows are in the order of their ids. -/
theorem pairwise_missing (h : Readable idLe source) :
    (missing source metadata).Pairwise fun a b => a.id < b.id :=
  Keys.pairwise_byKey (h.distinct_filter _)

/-- A query returns the first batches without metadata behind the last id. -/
theorem missingRows_eq (h : Readable idLe source) (lastId : Option String) :
    missingRows idLe source metadata lastId =
      (Keys.behind (·.id) (missing source metadata) lastId).take chunkSize := by
  have hfilter : (source.filter fun row => lacks metadata row &&
      lastId.all fun lastId => !idLe row.id lastId) =
        (source.filter (lacks metadata)).filter
          fun row => lastId.all fun lastId => decide (lastId < row.id) := by
    rw [List.filter_filter]
    apply List.filter_congr
    intro row _
    rw [Bool.and_comm]
    congr 1
    cases lastId with
    | none => rfl
    | some id =>
        rw [Option.all_some, Option.all_some, h.bytewise, ← decide_not, decide_eq_decide, not_le]
  have hle : (fun a b : BatchOptions => idLe a.id b.id) =
      fun a b : BatchOptions => decide (a.id ≤ b.id) := by
    funext a b
    exact h.bytewise a.id b.id
  rw [missingRows, hfilter, hle]
  exact congrArg _ (Keys.byKey_filter (h.distinct_filter _) _)

/-- Metadata are of the batch they are made from. -/
@[simp] theorem batchId_metadataOf (row : BatchOptions) :
    (metadataOf config unserialize postgres row).batchId = row.id := rfl

/-- Rows with new and different ids are all inserted. -/
theorem insertOrIgnore_eq {payload : List DatabaseBatchMetadata}
    (hpayload : (payload.map (·.batchId)).Nodup)
    (hnew : ∀ row ∈ payload, ∀ stored ∈ metadata, stored.batchId ≠ row.batchId) :
    insertOrIgnore metadata payload = (metadata ++ payload, payload.length) := by
  induction payload generalizing metadata with
  | nil => simp [insertOrIgnore]
  | cons row payload ih =>
      rw [List.map_cons, List.nodup_cons] at hpayload
      have hrow : ¬(metadata.any fun stored => stored.batchId = row.batchId) := by
        rw [List.any_eq_true]
        rintro ⟨stored, hstored, heq⟩
        exact hnew row List.mem_cons_self stored hstored (of_decide_eq_true heq)
      have hnew' : ∀ row' ∈ payload, ∀ stored ∈ metadata ++ [row], stored.batchId ≠ row'.batchId := by
        intro row' hrow' stored hstored
        rcases List.mem_append.mp hstored with hstored | hstored
        · exact hnew row' (List.mem_cons_of_mem _ hrow') stored hstored
        · rw [List.mem_singleton.mp hstored]
          intro heq
          exact hpayload.1 (heq ▸ List.mem_map_of_mem hrow')
      rw [insertOrIgnore, if_neg hrow, ih hpayload.2 hnew']
      simp

/-- Inserting the first batches behind an id leaves the rest of them behind the last one. -/
theorem behind_missing_append (h : Readable idLe source) {lastId : Option String}
    {rows : List BatchOptions} {last : BatchOptions}
    (hrows : rows = (Keys.behind (·.id) (missing source metadata) lastId).take chunkSize)
    (hlast : rows.getLast? = some last) :
    Keys.behind (·.id) (missing source (metadata ++ rows.map (metadataOf config unserialize
        postgres))) (some last.id) =
      (Keys.behind (·.id) (missing source metadata) lastId).drop chunkSize := by
  subst hrows
  obtain ⟨hdrop, hle⟩ := Keys.behind_last (pairwise_missing h) hlast
  generalize hr : (Keys.behind (·.id) (missing source metadata) lastId).take chunkSize = rows at hle
  rw [← hdrop, Keys.behind, Keys.behind, missing, missing, ← Keys.byKey_filter (h.distinct_filter _),
    ← Keys.byKey_filter (h.distinct_filter _), List.filter_filter, List.filter_filter]
  congr 1
  apply List.filter_congr
  intro row _
  rw [Bool.eq_iff_iff, Bool.and_eq_true, Bool.and_eq_true, Option.all_some, decide_eq_true_eq,
    lacks_eq_true, lacks_eq_true]
  apply and_congr_right
  intro hbehind
  constructor
  · intro hlacks stored hstored
    exact hlacks stored (List.mem_append_left _ hstored)
  · intro hlacks stored hstored
    rcases List.mem_append.mp hstored with hstored | hstored
    · exact hlacks stored hstored
    · -- What was inserted stands no further than the last row.
      obtain ⟨row', hrow', rfl⟩ := List.mem_map.mp hstored
      exact ne_of_lt (lt_of_le_of_lt (hle row' hrow') hbehind)

/-- **The first loop** inserts a row for every batch without metadata behind its id. -/
theorem insertMissing_eq (h : Readable idLe source) (metadata : List DatabaseBatchMetadata)
    (inserted : ℕ) (lastId : Option String) :
    let rows := Keys.behind (·.id) (missing source metadata) lastId
    insertMissing config unserialize postgres idLe source metadata inserted lastId =
      ⟨metadata ++ rows.map (metadataOf config unserialize postgres),
        .ok (inserted + rows.length)⟩ := by
  intro rows
  -- Induction on the batches that are left.
  induction hn : rows.length using Nat.strongRecOn generalizing metadata inserted lastId with
  | ind n ih =>
      have hquery : missingRows idLe source metadata lastId = rows.take chunkSize :=
        missingRows_eq h lastId
      rw [insertMissing]
      dsimp only
      cases hlast : (missingRows idLe source metadata lastId).getLast? with
      | none =>
          rw [hquery] at hlast
          have hempty : rows = [] := by
            rcases List.take_eq_nil_iff.mp (List.getLast?_eq_none_iff.mp hlast) with hzero | hempty
            · exact absurd hzero (by decide)
            · exact hempty
          rw [hempty] at hn
          simp [hempty, ← hn]
      | some last =>
          rw [hquery] at hlast
          have hmem : last ∈ rows := List.mem_of_mem_take (List.mem_of_getLast? hlast)
          have hadvances : ¬(lastId.any fun lastId => (strcmp last.id lastId).isLE) := by
            obtain ⟨-, hbehind⟩ := Keys.mem_behind.mp hmem
            cases lastId with
            | none => simp
            | some id =>
                rw [Option.any_some, Bool.not_eq_true, Ordering.isLE_eq_false]
                exact compare_gt_iff_gt.mpr (hbehind id rfl)
          have hnodup : (((rows.take chunkSize).map (metadataOf config unserialize postgres)).map
              (·.batchId)).Nodup := by
            have hsub : (rows.take chunkSize).Sublist (missing source metadata) :=
              (List.take_sublist _ _).trans Keys.behind_sublist
            rw [List.map_map]
            exact (Keys.nodup_map_byKey (h.distinct_filter _)).sublist (hsub.map _)
          have hnew : ∀ row ∈ (rows.take chunkSize).map (metadataOf config unserialize postgres),
              ∀ stored ∈ metadata, stored.batchId ≠ row.batchId := by
            intro row hrow stored hstored
            obtain ⟨batch, hbatch, rfl⟩ := List.mem_map.mp hrow
            have hmissing := Keys.behind_sublist.subset (List.mem_of_mem_take hbatch)
            exact lacks_eq_true.mp (mem_missing.mp hmissing).2 stored hstored
          simp only [hquery]
          rw [insertOrIgnore_eq hnodup hnew, dif_neg hadvances, List.length_map]
          split
          · rename_i hfull
            have hrest : Keys.behind (·.id) (missing source (metadata ++
                (rows.take chunkSize).map (metadataOf config unserialize postgres)))
                (some last.id) = rows.drop chunkSize := behind_missing_append h rfl hlast
            have hpos : 0 < chunkSize := by decide
            rw [List.length_take] at hfull
            have hshorter : (Keys.behind (·.id) (missing source (metadata ++
                (rows.take chunkSize).map (metadataOf config unserialize postgres)))
                (some last.id)).length < n := by
              rw [hrest, List.length_drop]
              omega
            have hnext := ih _ hshorter (metadata ++
                (rows.take chunkSize).map (metadataOf config unserialize postgres))
              (inserted + (rows.take chunkSize).length) (some last.id) rfl
            have hcount : inserted + (rows.take chunkSize).length + (rows.drop chunkSize).length =
                inserted + n := by
              rw [List.length_take, List.length_drop]
              omega
            rw [hnext, hrest, List.append_assoc, ← List.map_append, List.take_append_drop, hcount]
          · rename_i hshort
            -- A short chunk is the last one.
            rw [List.length_take] at hshort
            have hall : rows.take chunkSize = rows := List.take_of_length_le (by omega)
            rw [hall, hn]

/-! ## The metadata without batches -/

/-- **The second loop** removes all stale rows, if these have ids. -/
theorem removeStaleMetadata_eq (metadata : List DatabaseBatchMetadata)
    (hids : ∀ stored ∈ metadata, isStale source stored → stored.batchId ≠ "") :
    removeStaleMetadata idLe source metadata =
      metadata.filter fun stored => !isStale source stored := by
  -- Induction on the rows that are left.
  induction hn : metadata.length using Nat.strongRecOn generalizing metadata with
  | ind n ih =>
      have hstale : ∀ id, id ∈ staleIds idLe source metadata →
          ∃ stored ∈ metadata, isStale source stored ∧ stored.batchId = id := by
        intro id hid
        obtain ⟨stored, hstored, rfl⟩ := List.mem_map.mp (List.mem_filter.mp hid).1
        obtain ⟨hmem, hstale⟩ := List.mem_filter.mp
          (List.mem_mergeSort.mp (List.mem_of_mem_take hstored))
        exact ⟨stored, hmem, hstale, rfl⟩
      have hkept : ∀ stored ∈ metadata, !isStale source stored →
          stored.batchId ∉ staleIds idLe source metadata := by
        intro stored _ hstays hid
        obtain ⟨stored', -, hstale', hid'⟩ := hstale _ hid
        rw [isStale, hid', ← isStale] at hstale'
        rw [hstale'] at hstays
        exact absurd hstays (by decide)
      have hcomplete : (staleIds idLe source metadata).length ≠ chunkSize →
          ∀ stored ∈ metadata, isStale source stored →
            stored.batchId ∈ staleIds idLe source metadata := by
        intro hshort stored hstored hgone
        have hall : (((metadata.filter (isStale source)).mergeSort fun a b =>
            idLe a.batchId b.batchId).take chunkSize).map (·.batchId) =
              staleIds idLe source metadata := by
          rw [staleIds, eq_comm, List.filter_eq_self]
          intro id hid
          obtain ⟨stored', hstored', rfl⟩ := List.mem_map.mp hid
          obtain ⟨hmem, hstale'⟩ := List.mem_filter.mp
            (List.mem_mergeSort.mp (List.mem_of_mem_take hstored'))
          exact decide_eq_true (hids stored' hmem hstale')
        rw [← hall, List.length_map, List.length_take] at hshort
        rw [← hall, List.take_of_length_le (by omega)]
        exact List.mem_map_of_mem (List.mem_mergeSort.mpr (List.mem_filter.mpr ⟨hstored, hgone⟩))
      rw [removeStaleMetadata]
      dsimp only
      split
      · rename_i hnil
        rw [eq_comm, List.filter_eq_self]
        intro stored hstored
        rw [Bool.not_eq_true']
        by_contra hgone
        rw [Bool.not_eq_false] at hgone
        have hshort : (staleIds idLe source metadata).length ≠ chunkSize := by
          rw [hnil]
          decide
        have hid := hcomplete hshort stored hstored hgone
        rw [hnil] at hid
        exact List.not_mem_nil hid
      · rename_i hsome
        have hrest : (deleteIds metadata (staleIds idLe source metadata)).filter
            (fun stored => !isStale source stored) =
              metadata.filter fun stored => !isStale source stored := by
          rw [deleteIds, List.filter_filter]
          apply List.filter_congr
          intro stored hstored
          rw [Bool.and_eq_left_iff_imp]
          intro hstays
          exact decide_eq_true (hkept stored hstored hstays)
        split
        · have hshorter : (deleteIds metadata (staleIds idLe source metadata)).length < n := by
            obtain ⟨id, hid⟩ := List.exists_mem_of_ne_nil _ hsome
            obtain ⟨stored, hstored, -, heq⟩ := hstale id hid
            rw [← hn]
            apply List.length_filter_lt_length_iff_exists.mpr
            refine ⟨stored, hstored, ?_⟩
            rw [decide_eq_true_eq, not_not, heq]
            exact hid
          have hids' : ∀ stored ∈ deleteIds metadata (staleIds idLe source metadata),
              isStale source stored → stored.batchId ≠ "" :=
            fun stored hstored => hids stored (List.mem_filter.mp hstored).1
          rw [ih _ hshorter _ hids' rfl, hrest]
        · rename_i hshort
          rw [← hrest, eq_comm, List.filter_eq_self]
          intro stored hstored
          obtain ⟨hmem, hleft⟩ := List.mem_filter.mp hstored
          rw [Bool.not_eq_true']
          by_contra hgone
          rw [Bool.not_eq_false] at hgone
          exact of_decide_eq_true hleft (hcomplete hshort stored hmem hgone)

/-! ## A run -/

/-- Metadata that carry the explicit options of a batch, with what is missing resolved. -/
structure Resolves (config : String → Php) (explicit stored : DatabaseBatchMetadata) : Prop where
  batchId : stored.batchId = explicit.batchId
  connection : stored.connection = explicit.connection.or (configuredDefaultConnection config)
  queue : stored.queue =
    some ((explicit.queue.or (configuredQueue config stored.connection)).getD "default")
  queueIsExplicit : stored.queueIsExplicit = explicit.queue.isSome
  connectionIsExplicit : stored.connectionIsExplicit = explicit.connection.isSome

/-- The metadata of a row are those of its options. -/
theorem resolves_metadataOf (row : BatchOptions) : Resolves config
    (DatabaseBatchMetadata.fromSerializedOptions unserialize row.id row.options postgres)
    (metadataOf config unserialize postgres row) := ⟨rfl, rfl, rfl, rfl, rfl⟩

/-- What a run of `sync` leaves, and how many rows it has inserted. -/
structure Synchronized (config : String → Php) (unserialize : List UInt8 → Option Php)
    (postgres : Bool) (source : List BatchOptions) (metadata after : List DatabaseBatchMetadata)
    (inserted : ℕ) : Prop where
  ids : ∀ id, id ∈ after.map (·.batchId) ↔ id ∈ source.map (·.id)
  distinct : (after.map (·.batchId)).Nodup
  kept : ∀ stored ∈ metadata, ¬isStale source stored → stored ∈ after
  inserts : ∀ stored ∈ after, stored ∉ metadata → ∃ row ∈ source, lacks metadata row ∧
    Resolves config
      (DatabaseBatchMetadata.fromSerializedOptions unserialize row.id row.options postgres) stored
  count : inserted = (after.filter fun stored =>
    decide (stored.batchId ∉ metadata.map (·.batchId))).length

/-- The table with a row for every batch that had none. -/
def completed (config : String → Php) (unserialize : List UInt8 → Option Php) (postgres : Bool)
    (source : List BatchOptions) (metadata : List DatabaseBatchMetadata) :
    List DatabaseBatchMetadata :=
  metadata ++ (missing source metadata).map (metadataOf config unserialize postgres)

/-- No batch has metadata twice. -/
theorem nodup_completed (h : Readable idLe source) (hdistinct : (metadata.map (·.batchId)).Nodup) :
    ((completed config unserialize postgres source metadata).map (·.batchId)).Nodup := by
  rw [completed, List.map_append, List.map_map]
  apply hdistinct.append (Keys.nodup_map_byKey (h.distinct_filter _))
  intro id hid hid'
  obtain ⟨stored, hstored, rfl⟩ := List.mem_map.mp hid
  obtain ⟨row, hrow, heq⟩ := List.mem_map.mp hid'
  exact lacks_eq_true.mp (mem_missing.mp hrow).2 stored hstored heq.symm

/-- Every batch has metadata in the completed table. -/
theorem source_subset_completed : source.map (·.id) ⊆
    (completed config unserialize postgres source metadata).map (·.batchId) := by
  intro id hid
  obtain ⟨row, hrow, rfl⟩ := List.mem_map.mp hid
  rw [completed, List.map_append, List.map_map, List.mem_append]
  by_cases hlacks : lacks metadata row
  · right
    exact List.mem_map.mpr ⟨row, mem_missing.mpr ⟨hrow, hlacks⟩, rfl⟩
  · left
    rw [lacks_eq_true] at hlacks
    push Not at hlacks
    obtain ⟨stored, hstored, heq⟩ := hlacks
    exact List.mem_map.mpr ⟨stored, hstored, heq⟩

/-- Only rows that were there before can be stale. -/
theorem isStale_completed {stored : DatabaseBatchMetadata} :
    stored ∈ completed config unserialize postgres source metadata ∧ isStale source stored ↔
      stored ∈ metadata ∧ isStale source stored := by
  rw [completed, List.mem_append]
  constructor
  · rintro ⟨hstored | hstored, hstale⟩
    · exact ⟨hstored, hstale⟩
    · obtain ⟨row, hrow, rfl⟩ := List.mem_map.mp hstored
      exact absurd rfl (isStale_eq_true.mp hstale row (mem_missing.mp hrow).1)
  · rintro ⟨hstored, hstale⟩
    exact ⟨Or.inl hstored, hstale⟩

/-- **The comparison of the numbers of rows** detects stale rows. -/
theorem source_length_lt_iff (h : Readable idLe source)
    (hdistinct : (metadata.map (·.batchId)).Nodup) :
    source.length < (completed config unserialize postgres source metadata).length ↔
      ∃ stored ∈ metadata, isStale source stored := by
  have hnodup : ((completed config unserialize postgres source metadata).map (·.batchId)).Nodup :=
    nodup_completed h hdistinct
  have hlt := Keys.length_lt_iff h.distinct hnodup source_subset_completed
  rw [List.length_map, List.length_map] at hlt
  rw [hlt]
  constructor
  · rintro ⟨id, hid, hgone⟩
    obtain ⟨stored, hstored, rfl⟩ := List.mem_map.mp hid
    have hstale : isStale source stored := by
      rw [isStale_eq_true]
      intro row hrow heq
      exact hgone (List.mem_map.mpr ⟨row, hrow, heq⟩)
    exact ⟨stored, isStale_completed.mp ⟨hstored, hstale⟩⟩
  · rintro ⟨stored, hstored, hstale⟩
    refine ⟨stored.batchId, List.mem_map_of_mem (isStale_completed.mpr ⟨hstored, hstale⟩).1, ?_⟩
    intro hid
    obtain ⟨row, hrow, heq⟩ := List.mem_map.mp hid
    exact isStale_eq_true.mp hstale row hrow heq

/-- What a run comes to: the completed table without the stale rows. -/
theorem sync_eq (h : Readable idLe source) (hdistinct : (metadata.map (·.batchId)).Nodup)
    (hnames : ∀ stored ∈ metadata, isStale source stored → stored.batchId ≠ "") :
    sync config unserialize postgres idLe source false true metadata =
      (true, ⟨(completed config unserialize postgres source metadata).filter
        fun stored => !isStale source stored, .ok (missing source metadata).length⟩) := by
  have hloop : insertMissing config unserialize postgres idLe source metadata 0 none =
      ⟨completed config unserialize postgres source metadata,
        .ok (missing source metadata).length⟩ := by
    rw [insertMissing_eq h, Keys.behind_none, Nat.zero_add, completed]
  rw [sync]
  simp only [hloop, Bool.false_eq_true, if_false, Bool.not_true]
  split
  · rw [removeStaleMetadata_eq]
    intro stored hstored hstale
    exact hnames stored (isStale_completed.mp ⟨hstored, hstale⟩).1 hstale
  · rename_i hcount
    rw [source_length_lt_iff h hdistinct] at hcount
    push Not at hcount
    -- Without stale rows nothing is to be removed.
    have hall : (completed config unserialize postgres source metadata).filter
        (fun stored => !isStale source stored) =
          completed config unserialize postgres source metadata := by
      rw [List.filter_eq_self]
      intro stored hstored
      rw [Bool.not_eq_true']
      by_contra hstale
      rw [Bool.not_eq_false] at hstale
      obtain ⟨hold, -⟩ := isStale_completed.mp ⟨hstored, hstale⟩
      exact hcount stored hold hstale
    rw [hall]

/-- The completed table without the stale rows is synchronized. -/
theorem synchronized_completed (h : Readable idLe source)
    (hdistinct : (metadata.map (·.batchId)).Nodup) :
    Synchronized config unserialize postgres source metadata
      ((completed config unserialize postgres source metadata).filter
        fun stored => !isStale source stored) (missing source metadata).length where
  ids id := by
    constructor
    · intro hid
      obtain ⟨stored, hstored, rfl⟩ := List.mem_map.mp hid
      have hstays := (List.mem_filter.mp hstored).2
      rw [Bool.not_eq_true', ← Bool.not_eq_true, isStale_eq_true] at hstays
      push Not at hstays
      obtain ⟨row, hrow, heq⟩ := hstays
      exact List.mem_map.mpr ⟨row, hrow, heq⟩
    · intro hid
      obtain ⟨stored, hstored, heq⟩ := List.mem_map.mp (source_subset_completed hid)
      obtain ⟨row, hrow, hrow'⟩ := List.mem_map.mp hid
      refine List.mem_map.mpr ⟨stored, List.mem_filter.mpr ⟨hstored, ?_⟩, heq⟩
      rw [Bool.not_eq_true', ← Bool.not_eq_true, isStale_eq_true]
      intro hstale
      exact hstale row hrow (hrow'.trans heq.symm)
  distinct := (nodup_completed h hdistinct).sublist (List.filter_sublist.map _)
  kept stored hstored hstays := by
    apply List.mem_filter.mpr
    refine ⟨List.mem_append_left _ hstored, ?_⟩
    rw [Bool.not_eq_true', ← Bool.not_eq_true]
    exact hstays
  inserts stored hstored hnew := by
    rcases List.mem_append.mp (List.mem_filter.mp hstored).1 with hold | hinserted
    · exact absurd hold hnew
    · obtain ⟨row, hrow, rfl⟩ := List.mem_map.mp hinserted
      obtain ⟨hmem, hlacks⟩ := mem_missing.mp hrow
      exact ⟨row, hmem, hlacks, resolves_metadataOf row⟩
  count := by
    -- What is new and stays is exactly what was inserted: no old row counts, every inserted one does.
    have hold : metadata.filter (fun stored => !isStale source stored &&
        decide (stored.batchId ∉ metadata.map (·.batchId))) = [] := by
      rw [List.filter_eq_nil_iff]
      intro stored hstored hboth
      rw [Bool.and_eq_true, decide_eq_true_eq] at hboth
      exact hboth.2 (List.mem_map_of_mem hstored)
    have hinserted : ((missing source metadata).map
        (metadataOf config unserialize postgres)).filter (fun stored => !isStale source stored &&
          decide (stored.batchId ∉ metadata.map (·.batchId))) =
        (missing source metadata).map (metadataOf config unserialize postgres) := by
      rw [List.filter_eq_self]
      intro stored hstored
      obtain ⟨row, hrow, rfl⟩ := List.mem_map.mp hstored
      obtain ⟨hmem, hlacks⟩ := mem_missing.mp hrow
      rw [Bool.and_eq_true, decide_eq_true_eq, Bool.not_eq_true', ← Bool.not_eq_true,
        isStale_eq_true]
      constructor
      · intro hstale
        exact hstale row hmem rfl
      · -- An inserted row has an id no old row has.
        intro hid
        obtain ⟨stored, hstored, heq⟩ := List.mem_map.mp hid
        exact lacks_eq_true.mp hlacks stored hstored heq
    have hswap : ∀ l : List DatabaseBatchMetadata, (l.filter fun stored =>
        !isStale source stored).filter (fun stored =>
          decide (stored.batchId ∉ metadata.map (·.batchId))) =
        l.filter fun stored => !isStale source stored &&
          decide (stored.batchId ∉ metadata.map (·.batchId)) := by
      intro l
      rw [List.filter_filter]
      exact List.filter_congr fun _ _ => Bool.and_comm _ _
    rw [hswap, completed, List.filter_append, hold, hinserted, List.nil_append, List.length_map]

/-- **A run** ends with metadata for exactly the batches that there are. The rows of batches that
stay are not touched, every row that is inserted carries the explicit options of its batch, and
`sync` returns their number. The next run changes nothing. The comparison of the numbers of rows says
whether there are stale ones. -/
theorem sync_exact (config : String → Php) (unserialize : List UInt8 → Option Php)
    (postgres : Bool) (h : Readable idLe source) (hdistinct : (metadata.map (·.batchId)).Nodup)
    (hnames : ∀ stored ∈ metadata, isStale source stored → stored.batchId ≠ "") :
    ∃ after inserted,
      sync config unserialize postgres idLe source false true metadata =
          (true, ⟨after, .ok inserted⟩) ∧
        Synchronized config unserialize postgres source metadata after inserted ∧
        sync config unserialize postgres idLe source false true after =
          (true, ⟨after, .ok 0⟩) ∧
        (source.length < (insertMissing config unserialize postgres idLe source metadata 0
            none).metadata.length ↔ ∃ stored ∈ metadata, isStale source stored) := by
  have hsynchronized : Synchronized config unserialize postgres source metadata _ _ :=
    synchronized_completed h hdistinct
  refine ⟨_, _, sync_eq h hdistinct hnames, hsynchronized, ?_, ?_⟩
  · generalize (completed config unserialize postgres source metadata).filter
      (fun stored => !isStale source stored) = after at hsynchronized
    have hfresh : ∀ stored ∈ after, isStale source stored = false := by
      intro stored hstored
      obtain ⟨row, hrow, heq⟩ :=
        List.mem_map.mp ((hsynchronized.ids _).mp (List.mem_map_of_mem hstored))
      rw [← Bool.not_eq_true, isStale_eq_true]
      intro hstale
      exact hstale row hrow heq
    have hnone : missing source after = [] := by
      rw [List.eq_nil_iff_forall_not_mem]
      intro row hrow
      obtain ⟨hmem, hlacks⟩ := mem_missing.mp hrow
      obtain ⟨stored, hstored, heq⟩ :=
        List.mem_map.mp ((hsynchronized.ids row.id).mpr (List.mem_map_of_mem hmem))
      exact lacks_eq_true.mp hlacks stored hstored heq
    rw [sync_eq h hsynchronized.distinct, completed, hnone, List.map_nil, List.append_nil,
      List.length_nil, List.filter_eq_self.mpr]
    · intro stored hstored
      rw [hfresh stored hstored]
      rfl
    · intro stored hstored hstale
      rw [hfresh stored hstored] at hstale
      cases hstale
  · rw [insertMissing_eq h, Keys.behind_none]
    exact source_length_lt_iff h hdistinct

/-- A batch without metadata, and metadata without a batch. -/
theorem sync_exact_stale : ∃ after inserted,
    sync (fun _ => .null) (fun _ => none) false (fun s s' => decide (s ≤ s')) [⟨"b", none⟩] false
        true [⟨"a", some "default", none, false, false⟩] = (true, ⟨after, .ok inserted⟩) ∧
      ∀ id, id ∈ after.map (·.batchId) ↔ id ∈ ["b"] := by
  have hreadable : Readable (fun s s' => decide (s ≤ s')) [⟨"b", none⟩] :=
    ⟨List.nodup_singleton _, fun _ _ => rfl⟩
  have hdistinct : ([(⟨"a", some "default", none, false, false⟩ : DatabaseBatchMetadata)].map
      (·.batchId)).Nodup := List.nodup_singleton _
  have hnames : ∀ stored ∈ [(⟨"a", some "default", none, false, false⟩ : DatabaseBatchMetadata)],
      isStale [⟨"b", none⟩] stored → stored.batchId ≠ "" := by
    intro stored hstored _
    rw [List.mem_singleton.mp hstored]
    decide
  obtain ⟨after, inserted, hsync, hsynchronized, -⟩ :=
    sync_exact (fun _ => .null) (fun _ => none) false hreadable hdistinct hnames
  exact ⟨after, inserted, hsync, hsynchronized.ids⟩

/-- Stale metadata without an id are not removed. -/
theorem sync_nameless :
    sync (fun _ => .null) (fun _ => none) false (fun s s' => decide (s ≤ s')) [] false true
        [⟨"", some "default", none, false, false⟩] =
      (true, ⟨[⟨"", some "default", none, false, false⟩], .ok 0⟩) := by
  have hreadable : Readable (fun s s' => decide (s ≤ s')) ([] : List BatchOptions) :=
    ⟨List.nodup_nil, fun _ _ => rfl⟩
  have hnone : insertMissing (fun _ => .null) (fun _ => none) false (fun s s' => decide (s ≤ s'))
      [] [⟨"", some "default", none, false, false⟩] 0 none =
        ⟨[⟨"", some "default", none, false, false⟩], .ok 0⟩ := by
    rw [insertMissing_eq hreadable]
    simp [missing, Keys.byKey]
  rw [sync]
  simp only [hnone]
  have hstale : staleIds (fun s s' => decide (s ≤ s')) []
      [⟨"", some "default", none, false, false⟩] = [] := by
    rw [staleIds, List.filter_eq_nil_iff]
    intro id hid
    obtain ⟨stored, hstored, rfl⟩ := List.mem_map.mp hid
    have hmem := List.mem_mergeSort.mp (List.mem_of_mem_take hstored)
    rw [List.mem_singleton.mp (List.mem_of_mem_filter hmem)]
    decide
  rw [removeStaleMetadata]
  simp [hstale]

end DatabaseBatchMetadataSynchronizer

end HorizonNewDawn

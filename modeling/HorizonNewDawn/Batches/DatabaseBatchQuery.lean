import HorizonNewDawn.Batches.BatchesData
import HorizonNewDawn.Collections.Keyset
import HorizonNewDawn.Php.Base64
import HorizonNewDawn.Php.Document
import Mathlib

/-! # Pages of the batch table

The batches of the batch table, filtered, in the order of a computed column and of their ids, page
by page: a page ends with a cursor that names the column's value and the id of its last batch. What
the database does itself (the order of its values, the case of its texts, its arithmetic) is a
parameter. A reader who follows the cursors gets every matching batch once and in order
(`follow_page`). -/

namespace HorizonNewDawn

/-- `BatchCreatedRange` -/
inductive BatchCreatedRange
  | lastHour
  | last24Hours
  | last7Days
  | last30Days
  deriving DecidableEq

/-- `value` of a created range -/
def BatchCreatedRange.value : BatchCreatedRange → String
  | .lastHour => "hour"
  | .last24Hours => "day"
  | .last7Days => "week"
  | .last30Days => "month"

/-- Different ranges have different values. -/
theorem BatchCreatedRange.value_injective {range range' : BatchCreatedRange}
    (h : range.value = range'.value) : range = range' := by
  cases range <;> cases range' <;> first | rfl | exact absurd h (by decide)

/-- `cutoffTimestamp` -/
def BatchCreatedRange.cutoffTimestamp (now : ℤ) (range : BatchCreatedRange) : ℤ :=
  let hours := match range with
    | .lastHour => 1
    | .last24Hours => 24
    | .last7Days => 24 * 7
    | .last30Days => 24 * 30
  now - hours * 3600

/-- `BatchStatus` -/
inductive BatchStatus
  | pending
  | finished
  | failures
  | cancelled
  deriving DecidableEq

/-- `value` of a status -/
def BatchStatus.value : BatchStatus → String
  | .pending => "pending"
  | .finished => "finished"
  | .failures => "failures"
  | .cancelled => "cancelled"

/-- Different statuses have different values. -/
theorem BatchStatus.value_injective {status status' : BatchStatus}
    (h : status.value = status'.value) : status = status' := by
  cases status <;> cases status' <;> first | rfl | exact absurd h (by decide)

/-- `BatchSort` -/
inductive BatchSort
  | name
  | totalJobs
  | pendingJobs
  | failedJobs
  | progress
  | createdAt
  | queueActivity
  deriving DecidableEq

/-- `value` of a sort -/
def BatchSort.value : BatchSort → String
  | .name => "name"
  | .totalJobs => "totalJobs"
  | .pendingJobs => "pendingJobs"
  | .failedJobs => "failedJobs"
  | .progress => "progress"
  | .createdAt => "createdAt"
  | .queueActivity => "queueActivity"

/-- Different sorts have different values. -/
theorem BatchSort.value_injective {sort sort' : BatchSort} (h : sort.value = sort'.value) :
    sort = sort' := by
  cases sort <;> cases sort' <;> first | rfl | exact absurd h (by decide)

/-- `BatchSortDirection` -/
inductive BatchSortDirection
  | ascending
  | descending
  deriving DecidableEq

/-- `value` of a direction -/
def BatchSortDirection.value : BatchSortDirection → String
  | .ascending => "asc"
  | .descending => "desc"

/-- Different directions have different values. -/
theorem BatchSortDirection.value_injective {direction direction' : BatchSortDirection}
    (h : direction.value = direction'.value) : direction = direction' := by
  cases direction <;> cases direction' <;> first | rfl | exact absurd h (by decide)

/-- `BatchIndexFiltersData` -/
structure BatchIndexFiltersData where
  query : Option String
  queue : Option String
  connection : Option String
  created : Option BatchCreatedRange
  status : Option BatchStatus
  sort : BatchSort
  direction : BatchSortDirection

/-- What an inspection of the batch database says. -/
inductive SchemaState
  | supported
  | metadataMissing
  | driverUnsupported
  | sourceMissing
  | failed
  deriving DecidableEq

/-- `DatabaseBatchCapability`: whether the batch repository is the one on a database, and what an
inspection of the database says. -/
structure DatabaseBatchCapability where
  databaseRepository : Bool
  schemaState : SchemaState

namespace DatabaseBatchCapability

variable (capability : DatabaseBatchCapability)

/-- `supported` -/
def supported : Bool :=
  capability.databaseRepository &&
    (capability.schemaState = .supported || capability.schemaState = .metadataMissing)

/-- `attributionSupported` -/
def attributionSupported : Bool :=
  capability.databaseRepository && capability.schemaState = .supported

/-- `message` -/
def message : Option String :=
  if !capability.databaseRepository then
    some "Exact retained batch queries require Laravel's database batch repository."
  else match capability.schemaState with
    | .supported | .metadataMissing => none
    | .driverUnsupported =>
        some "The configured batch database driver is not supported for exact filters and sorting."
    | .sourceMissing => some "The configured Laravel batch table is unavailable."
    | .failed => some "The configured batch database could not be inspected."

/-- `attributionMessage` -/
def attributionMessage : Option String :=
  if !capability.databaseRepository then
    some "Queue and connection attribution require Laravel's database batch repository."
  else match capability.schemaState with
    | .supported => none
    | .metadataMissing => some ("Run the Horizon New Dawn batch metadata migration to enable " ++
        "queue and connection attribution.")
    | .driverUnsupported => some ("The configured batch database driver is not supported for " ++
        "queue and connection attribution.")
    | .sourceMissing => some "The configured Laravel batch table is unavailable."
    | .failed => some "The configured batch database could not be inspected."

end DatabaseBatchCapability

/-- A row of the batch table. -/
structure BatchSource where
  id : String
  name : String
  totalJobs : ℤ
  pendingJobs : ℤ
  failedJobs : ℤ
  createdAt : ℤ
  cancelledAt : Option ℤ
  finishedAt : Option ℤ

/-- The batch table and the table of the queues and connections its batches are attributed to, in
which a batch has at most one row. -/
structure BatchTables where
  source : List BatchSource
  metadata : String → Option DatabaseBatchMetadata

/-- A value that a query sorts by. -/
inductive SqlValue
  | number (q : ℚ)
  | text (s : String)
  deriving DecidableEq

/-- What a database does with the values of a query, and PHP with the numbers the database
returns. -/
structure Dialect where
  /-- `LOWER(s)` -/
  lower : String → String
  /-- `TRIM(s)` -/
  trim : String → String
  /-- `INSTR(text, search) > 0`, `POSITION(search IN text) > 0` -/
  contains : String → String → Bool
  /-- `=` of texts -/
  equal : String → String → Bool
  /-- `ROUND(((total_jobs - pending_jobs) * 100.0) / total_jobs)` -/
  percentage : ℤ → ℤ → ℚ
  /-- The order of the values a query sorts by. -/
  le : SqlValue → SqlValue → Bool
  /-- The order of the ids. -/
  idLe : String → String → Bool
  /-- The value that a bound integer, float or string stands for. -/
  bind : Php → SqlValue
  /-- `(int)` of a number -/
  toInt : ℚ → ℤ

/-- A row of the subquery `batch_rows`. -/
structure BatchRow where
  id : String
  name : String
  totalJobs : ℤ
  pendingJobs : ℤ
  failedJobs : ℤ
  createdAt : ℤ
  cancelledAt : Option ℤ
  finishedAt : Option ℤ
  queue : Option String
  connection : Option String
  queueIsExplicit : Bool
  connectionIsExplicit : Bool
  attributionCaptured : Bool
  pendingCount : ℤ
  failedCount : ℤ
  processedCount : ℤ
  progress : ℚ
  status : BatchStatus
  sortName : String
  queueActivityRank : ℚ

/-- `DatabaseBatchQueryRow` -/
structure DatabaseBatchQueryRow where
  id : String
  name : String
  totalJobs : ℤ
  pendingJobs : ℤ
  failedJobAttempts : ℤ
  pendingCount : ℤ
  failedCount : ℤ
  processedCount : ℤ
  progress : ℤ
  status : String
  createdAt : ℤ
  cancelledAt : Option ℤ
  finishedAt : Option ℤ
  queue : Option String
  connection : Option String
  queueIsExplicit : Bool
  connectionIsExplicit : Bool
  attributionCaptured : Bool
  sortName : String
  queueActivityRank : ℤ

/-- `DatabaseBatchQueryRow::from` -/
def DatabaseBatchQueryRow.ofRow (dialect : Dialect) (row : BatchRow) : DatabaseBatchQueryRow where
  id := row.id
  name := row.name
  totalJobs := dialect.toInt row.totalJobs
  pendingJobs := dialect.toInt row.pendingJobs
  failedJobAttempts := dialect.toInt row.failedJobs
  pendingCount := dialect.toInt row.pendingCount
  failedCount := dialect.toInt row.failedCount
  processedCount := dialect.toInt row.processedCount
  progress := dialect.toInt row.progress
  status := row.status.value
  createdAt := dialect.toInt row.createdAt
  cancelledAt := row.cancelledAt.map fun time => dialect.toInt time
  finishedAt := row.finishedAt.map fun time => dialect.toInt time
  queue := row.queue
  connection := row.connection
  queueIsExplicit := row.queueIsExplicit
  connectionIsExplicit := row.connectionIsExplicit
  attributionCaptured := row.attributionCaptured
  sortName := row.sortName
  queueActivityRank := dialect.toInt row.queueActivityRank

/-- `BatchPageData` -/
structure BatchPageData where
  available : Bool
  batches : List BatchRowData
  complete : Bool
  current : Option String
  next : Option String
  message : Option String

namespace DatabaseBatchQuery

/-- `PAGE_SIZE` -/
def pageSize : ℕ := 50

variable (dialect : Dialect)

/-- What `rowsQuery` selects of a batch and its metadata. -/
def selectRow (withAttribution : Bool) (metadata : Option DatabaseBatchMetadata)
    (source : BatchSource) : BatchRow :=
  let progress := if 0 < source.totalJobs then
      dialect.percentage source.totalJobs source.pendingJobs
    else 0
  let attributed := if withAttribution then metadata else none
  { id := source.id
    name := source.name
    totalJobs := source.totalJobs
    pendingJobs := source.pendingJobs
    failedJobs := source.failedJobs
    createdAt := source.createdAt
    cancelledAt := source.cancelledAt
    finishedAt := source.finishedAt
    queue := attributed.bind (·.queue)
    connection := attributed.bind (·.connection)
    queueIsExplicit := (attributed.map (·.queueIsExplicit)).getD false
    connectionIsExplicit := (attributed.map (·.connectionIsExplicit)).getD false
    attributionCaptured := withAttribution
    pendingCount :=
      if source.pendingJobs ≤ 0 then 0
      else if source.failedJobs ≤ 0 then source.pendingJobs
      else if source.failedJobs < source.pendingJobs then source.pendingJobs - source.failedJobs
      else 0
    failedCount :=
      if source.pendingJobs ≤ 0 ∨ source.failedJobs ≤ 0 then 0
      else if source.pendingJobs < source.failedJobs then source.pendingJobs
      else source.failedJobs
    processedCount := source.totalJobs - source.pendingJobs
    progress := progress
    status :=
      if source.cancelledAt.isSome then .cancelled
      else if source.pendingJobs = 0 then .finished
      else if 0 < source.failedJobs then .failures
      else .pending
    sortName := dialect.lower
      (if dialect.equal (dialect.trim source.name) "" then source.id else source.name)
    queueActivityRank :=
      if source.cancelledAt.isNone ∧ source.failedJobs < source.pendingJobs then 101 + progress
      else 0 }

/-- `rowsQuery` -/
def rowsQuery (tables : BatchTables) (withAttribution : Bool) : List BatchRow :=
  tables.source.map fun source =>
    selectRow dialect withAttribution (tables.metadata source.id) source

/-- `applyLiteralSearch`: the condition on a row -/
def literalSearch (search : String) (row : BatchRow) : Bool :=
  dialect.contains (dialect.lower row.name) (dialect.lower search) ||
    dialect.contains (dialect.lower row.id) (dialect.lower search)

/-- `applyFilters` and `applyStatus`: the conditions on a row -/
def filter (filters : BatchIndexFiltersData) (now : ℤ) (row : BatchRow) : Bool :=
  (match filters.query with
    | some query => if Php.trim query ≠ "" then literalSearch dialect (Php.trim query) row else true
    | none => true) &&
  (match filters.queue with
    | some queue => row.queue.any fun value => dialect.equal value queue
    | none => true) &&
  (match filters.connection with
    | some connection => row.connection.any fun value => dialect.equal value connection
    | none => true) &&
  (match filters.created with
    | some range => decide (range.cutoffTimestamp now ≤ row.createdAt)
    | none => true) &&
  (match filters.status with
    | some status => dialect.equal row.status.value status.value
    | none => true)

/-- `sortColumn`: the column's value in a row -/
def sortColumn (sort : BatchSort) (row : BatchRow) : SqlValue :=
  match sort with
  | .name => .text row.sortName
  | .totalJobs => .number row.totalJobs
  | .pendingJobs => .number row.pendingCount
  | .failedJobs => .number row.failedCount
  | .progress => .number row.progress
  | .createdAt => .number row.createdAt
  | .queueActivity => .number row.queueActivityRank

/-- `sortValue` -/
def sortValue (row : DatabaseBatchQueryRow) (sort : BatchSort) : Php :=
  match sort with
  | .name => .str row.sortName
  | .totalJobs => .int row.totalJobs
  | .pendingJobs => .int row.pendingCount
  | .failedJobs => .int row.failedCount
  | .progress => .int row.progress
  | .createdAt => .int row.createdAt
  | .queueActivity => .int row.queueActivityRank

/-- `x operator y`, where the operator is `>` in ascending and `<` in descending order. -/
def compares {α : Type} (le : α → α → Bool) (direction : BatchSortDirection) (x y : α) : Bool :=
  match direction with
  | .ascending => !le x y
  | .descending => !le y x

/-- The condition on the rows behind a cursor. -/
def behind (filters : BatchIndexFiltersData) (value : SqlValue) (id : String) (row : BatchRow) :
    Bool :=
  compares dialect.le filters.direction (sortColumn filters.sort row) value ||
    (dialect.le (sortColumn filters.sort row) value &&
      dialect.le value (sortColumn filters.sort row) &&
      compares dialect.idLe filters.direction row.id id)

/-- `x` stands before `y` or at the same place: by their values, and where these are equal by their
ids. -/
def lexLe (x y : SqlValue × String) : Bool :=
  dialect.le x.1 y.1 && (!dialect.le y.1 x.1 || dialect.idLe x.2 y.2)

/-- `ORDER BY` the sort column, then the id -/
def orderLe (filters : BatchIndexFiltersData) (a b : BatchRow) : Bool :=
  match filters.direction with
  | .ascending => lexLe dialect (sortColumn filters.sort a, a.id) (sortColumn filters.sort b, b.id)
  | .descending => lexLe dialect (sortColumn filters.sort b, b.id) (sortColumn filters.sort a, a.id)

variable (sha256 : List UInt8 → String)

/-- The entries that the signature of the filters is made of. -/
def signatureEntries (filters : BatchIndexFiltersData) : List (String × Php) :=
  [("query", Php.nullable (filters.query.map Php.trim)),
    ("queue", Php.nullable filters.queue),
    ("connection", Php.nullable filters.connection),
    ("created", Php.nullable (filters.created.map (·.value))),
    ("status", Php.nullable (filters.status.map (·.value))),
    ("sort", .str filters.sort.value),
    ("direction", .str filters.direction.value)]

/-- `cursorSignature` -/
def cursorSignature (filters : BatchIndexFiltersData) : String :=
  sha256 (Php.jsonBytes (signatureEntries filters))

/-- The entries of a cursor. -/
def cursorEntries (value : Php) (id : String) (filters : BatchIndexFiltersData) :
    List (String × Php) :=
  [("sort", .str filters.sort.value),
    ("direction", .str filters.direction.value),
    ("filters", .str (cursorSignature sha256 filters)),
    ("value", value),
    ("id", .str id)]

/-- `encodeCursor` -/
def encodeCursor (value : Php) (id : String) (filters : BatchIndexFiltersData) : String :=
  String.ofList (Php.base64UrlEncode (Php.jsonBytes (cursorEntries sha256 value id filters)))

/-- `cursorForRow` -/
def cursorForRow (row : Option DatabaseBatchQueryRow) (filters : BatchIndexFiltersData) :
    Option String :=
  row.map fun row => encodeCursor sha256 (sortValue row filters.sort) row.id filters

/-- The checks of `decodeCursor` on the decoded document. -/
def readCursor (payload : List (String × Php)) (filters : BatchIndexFiltersData) :
    Option (Php × String) :=
  match Php.entry "sort" payload, Php.entry "direction" payload, Php.entry "filters" payload,
    Php.entry "id" payload with
  | .str sort, .str direction, .str signature, .str id =>
      if sort ≠ filters.sort.value ∨ direction ≠ filters.direction.value ∨
          signature ≠ cursorSignature sha256 filters then none
      else
        match Php.entry "value" payload with
        | .int n => some (.int n, id)
        | .float literal => some (.float literal, id)
        | .str s => some (.str s, id)
        | _ => none
  | _, _, _, _ => none

/-- `decodeCursor` -/
def decodeCursor (cursor : Option String) (filters : BatchIndexFiltersData) :
    Option (Php × String) :=
  match cursor with
  | none => none
  | some cursor =>
      if cursor = "" then none
      else
        match (Php.base64Decode (cursor.toList.map Php.ofUrl)).bind Php.jsonParse with
        | some (.array payload) => readCursor sha256 payload filters
        | _ => none

/-- `row` -/
def row (row : DatabaseBatchQueryRow) : BatchRowData :=
  let name := Php.trim row.name
  { id := row.id
    name := if name = "" then none else some name
    displayName := if name = "" then row.id else name
    connection := row.connection
    queue := row.queue
    totalJobs := row.totalJobs
    pendingJobs := row.pendingCount
    failedJobs := row.failedCount
    failedJobAttempts := max 0 row.failedJobAttempts
    processedJobs := row.processedCount
    progress := row.progress
    status := row.status
    createdAt := row.createdAt
    cancelledAt := row.cancelledAt
    finishedAt := row.finishedAt
    queueExplicit := row.queueIsExplicit
    connectionExplicit := row.connectionIsExplicit
    attributionCaptured := row.attributionCaptured }

/-- `ensureSupported` -/
def ensureSupported (capability : DatabaseBatchCapability) : Except String Unit :=
  if capability.supported then .ok ()
  else .error (capability.message.getD "Exact retained batch queries are unavailable.")

/-- `ensureAttributionSupported` -/
def ensureAttributionSupported (capability : DatabaseBatchCapability) : Except String Unit :=
  if capability.attributionSupported then .ok ()
  else .error (capability.attributionMessage.getD
    "Batch queue and connection attribution are unavailable.")

/-- Whether a page needs the table of queues and connections. -/
def withAttribution (filters : BatchIndexFiltersData) : Bool :=
  filters.queue.isSome || filters.connection.isSome

/-- The rows a page's query returns. -/
def pageRows (tables : BatchTables) (filters : BatchIndexFiltersData) (now : ℤ)
    (cursor : Option String) : List BatchRow :=
  let rows := (rowsQuery dialect tables (withAttribution filters)).filter
    (filter dialect filters now)
  let rows := match decodeCursor sha256 cursor filters with
    | some (value, id) => rows.filter (behind dialect filters (dialect.bind value) id)
    | none => rows
  (rows.mergeSort (orderLe dialect filters)).take (pageSize + 1)

/-- `page`, of tables whose metadata are synchronized -/
def page (capability : DatabaseBatchCapability) (tables : BatchTables)
    (filters : BatchIndexFiltersData) (now : ℤ) (cursor : Option String) :
    Except String BatchPageData := do
  ensureSupported capability
  (if withAttribution filters then ensureAttributionSupported capability else .ok ())
  let source := (pageRows dialect sha256 tables filters now cursor).map
    (DatabaseBatchQueryRow.ofRow dialect)
  let hasMore := pageSize < source.length
  let source := source.take pageSize
  return {
    available := true
    batches := source.map row
    complete := true
    current := cursor
    next := if hasMore then cursorForRow sha256 source.getLast? filters else none
    message := none }

/-- A reader who follows the pages, the `n`-th of which is asked for at `times n`, and what the pages
show; `none` where an exception is thrown, or pages are left when the fuel is used up. -/
def follow (capability : DatabaseBatchCapability) (tables : BatchTables)
    (filters : BatchIndexFiltersData) (times : ℕ → ℤ) :
    ℕ → ℕ → Option String → Option (List BatchRowData)
  | 0, _, _ => none
  | fuel + 1, n, cursor =>
      match page dialect sha256 capability tables filters (times n) cursor with
      | .error _ => none
      | .ok page =>
          match page.next with
          | none => some page.batches
          | some next =>
              (follow capability tables filters times fuel (n + 1) (some next)).map
                (page.batches ++ ·)

/-! ## What the pages rely on -/

/-- Values and ids are compared by total preorders, and integers of PHP have 64 bits. -/
structure Lawful : Prop where
  le_total : ∀ x y, dialect.le x y ∨ dialect.le y x
  le_trans : ∀ x y z, dialect.le x y → dialect.le y z → dialect.le x z
  idLe_total : ∀ x y, dialect.idLe x y ∨ dialect.idLe y x
  idLe_trans : ∀ x y z, dialect.idLe x y → dialect.idLe y z → dialect.idLe x z
  toInt_mem : ∀ q, -9223372036854775808 ≤ dialect.toInt q ∧
    dialect.toInt q ≤ 9223372036854775807

/-- No two batches have ids that are compared as equal. -/
def DistinctIds (tables : BatchTables) : Prop :=
  tables.source.Pairwise fun a b => ¬(dialect.idLe a.id b.id ∧ dialect.idLe b.id a.id)

/-- The value that a cursor names compares equal to the value of its row. -/
def BoundEqual (tables : BatchTables) (filters : BatchIndexFiltersData) : Prop :=
  ∀ row ∈ rowsQuery dialect tables (withAttribution filters),
    dialect.le (sortColumn filters.sort row)
        (dialect.bind (sortValue (.ofRow dialect row) filters.sort)) ∧
      dialect.le (dialect.bind (sortValue (.ofRow dialect row) filters.sort))
        (sortColumn filters.sort row)

/-- Filters that ask for the same batches in the same order: only the white space around what is
searched for may differ. -/
structure SameFilters (filters filters' : BatchIndexFiltersData) : Prop where
  query : filters.query.map Php.trim = filters'.query.map Php.trim
  queue : filters.queue = filters'.queue
  connection : filters.connection = filters'.connection
  created : filters.created = filters'.created
  status : filters.status = filters'.status
  sort : filters.sort = filters'.sort
  direction : filters.direction = filters'.direction

/-! ## The order of the rows -/

variable {dialect} {sha256} {tables : BatchTables} {filters filters' : BatchIndexFiltersData}

/-- Any two keys with ids are ordered. -/
theorem lexLe_total (hdialect : Lawful dialect) (x y : SqlValue × String) :
    lexLe dialect x y ∨ lexLe dialect y x := by
  simp only [lexLe, Bool.and_eq_true, Bool.or_eq_true, Bool.not_eq_true']
  rcases hdialect.le_total x.1 y.1 with h | h <;>
    rcases hdialect.idLe_total x.2 y.2 with hid | hid <;> grind

/-- The order of keys with ids is transitive. -/
theorem lexLe_trans (hdialect : Lawful dialect) {x y z : SqlValue × String}
    (hxy : lexLe dialect x y) (hyz : lexLe dialect y z) : lexLe dialect x z := by
  simp only [lexLe, Bool.and_eq_true, Bool.or_eq_true, Bool.not_eq_true'] at hxy hyz ⊢
  refine ⟨hdialect.le_trans _ _ _ hxy.1 hyz.1, ?_⟩
  by_cases hzx : dialect.le z.1 x.1
  · -- All three values are equal, so the ids decide.
    have hyx := hdialect.le_trans _ _ _ hyz.1 hzx
    have hzy := hdialect.le_trans _ _ _ hzx hxy.1
    refine Or.inr (hdialect.idLe_trans _ y.2 _ ?_ ?_)
    · exact hxy.2.resolve_left (by rw [hyx]; exact Bool.noConfusion)
    · exact hyz.2.resolve_left (by rw [hzy]; exact Bool.noConfusion)
  · exact Or.inl (Bool.eq_false_iff.mpr hzx)

/-- What is behind a cursor is not in order before it. -/
theorem behind_eq (value : SqlValue) (id : String) (row : BatchRow) :
    behind dialect filters value id row =
      !(match filters.direction with
        | .ascending => lexLe dialect (sortColumn filters.sort row, row.id) (value, id)
        | .descending => lexLe dialect (value, id) (sortColumn filters.sort row, row.id)) := by
  rw [behind]
  cases filters.direction with
  | ascending =>
      simp only [compares, lexLe]
      cases dialect.le (sortColumn filters.sort row) value <;> simp
  | descending =>
      simp only [compares, lexLe]
      cases dialect.le value (sortColumn filters.sort row) <;> simp

/-- The relation of a row and one behind it. -/
def Behind (dialect : Dialect) (filters : BatchIndexFiltersData) (a b : BatchRow) : Prop :=
  behind dialect filters (sortColumn filters.sort a) a.id b

instance : DecidableRel (Behind dialect filters) := fun _ _ => inferInstanceAs (Decidable (_ = _))

/-- A row stands behind another where it does not stand before it. -/
theorem behind_iff {a b : BatchRow} :
    Behind dialect filters a b ↔ ¬orderLe dialect filters b a := by
  rw [Behind, behind_eq, orderLe]
  cases filters.direction <;> simp

/-- Any two rows are ordered. -/
theorem orderLe_total (hdialect : Lawful dialect) (a b : BatchRow) :
    orderLe dialect filters a b ∨ orderLe dialect filters b a := by
  rw [orderLe, orderLe]
  cases filters.direction with
  | ascending => exact lexLe_total hdialect _ _
  | descending => exact lexLe_total hdialect _ _

/-- The order of the rows is transitive. -/
theorem orderLe_trans (hdialect : Lawful dialect) {a b c : BatchRow}
    (hab : orderLe dialect filters a b) (hbc : orderLe dialect filters b c) :
    orderLe dialect filters a c := by
  rw [orderLe] at hab hbc ⊢
  cases hdirection : filters.direction with
  | ascending =>
      rw [hdirection] at hab hbc
      exact lexLe_trans hdialect hab hbc
  | descending =>
      rw [hdirection] at hab hbc
      exact lexLe_trans hdialect hbc hab

/-- No row stands behind itself. -/
theorem behind_irrefl (hdialect : Lawful dialect) : Std.Irrefl (Behind dialect filters) where
  irrefl a h := by
    have htotal : orderLe dialect filters a a ∨ _ := orderLe_total hdialect a a
    rcases htotal with hle | hle <;> exact behind_iff.mp h hle

/-- Standing behind is transitive. -/
theorem behind_trans (hdialect : Lawful dialect) : IsTrans BatchRow (Behind dialect filters) where
  trans a b c hab hbc := by
    rw [behind_iff] at hab hbc ⊢
    intro hca
    have htotal : orderLe dialect filters b a ∨ _ := orderLe_total hdialect b a
    rcases htotal with hba | hab'
    · exact hab hba
    · exact hbc (orderLe_trans hdialect hca hab')

/-- A value that compares equal to the one of a row stands for the row. -/
theorem behind_congr (hdialect : Lawful dialect) {value : SqlValue} {a : BatchRow}
    (hle : dialect.le (sortColumn filters.sort a) value)
    (hge : dialect.le value (sortColumn filters.sort a)) (b : BatchRow) :
    behind dialect filters value a.id b = decide (Behind dialect filters a b) := by
  have hid : dialect.idLe a.id a.id := (hdialect.idLe_total a.id a.id).elim id id
  have hfrom : lexLe dialect (sortColumn filters.sort a, a.id) (value, a.id) := by
    simp [lexLe, hle, hid]
  have hto : lexLe dialect (value, a.id) (sortColumn filters.sort a, a.id) := by
    simp [lexLe, hge, hid]
  rw [Bool.eq_iff_iff, decide_eq_true_eq, Behind, behind_eq, behind_eq]
  cases filters.direction with
  | ascending =>
      simp only [Bool.not_eq_true']
      rw [Bool.eq_false_iff, Bool.eq_false_iff, not_iff_not]
      exact ⟨fun h => lexLe_trans hdialect h hto, fun h => lexLe_trans hdialect h hfrom⟩
  | descending =>
      simp only [Bool.not_eq_true']
      rw [Bool.eq_false_iff, Bool.eq_false_iff, not_iff_not]
      exact ⟨fun h => lexLe_trans hdialect hfrom h, fun h => lexLe_trans hdialect hto h⟩

/-- Where two rows may stand in either order, their ids are equal. -/
theorem idLe_of_orderLe {a b : BatchRow} (hab : orderLe dialect filters a b)
    (hba : orderLe dialect filters b a) :
    dialect.idLe a.id b.id ∧ dialect.idLe b.id a.id := by
  have hlex : ∀ {x y : SqlValue × String}, lexLe dialect x y → lexLe dialect y x →
      dialect.idLe x.2 y.2 := by
    intro x y hxy hyx
    simp only [lexLe, Bool.and_eq_true, Bool.or_eq_true, Bool.not_eq_true'] at hxy hyx
    exact hxy.2.resolve_left (by rw [hyx.1]; exact Bool.noConfusion)
  rw [orderLe] at hab hba
  cases hdirection : filters.direction with
  | ascending =>
      rw [hdirection] at hab hba
      exact ⟨hlex hab hba, hlex hba hab⟩
  | descending =>
      rw [hdirection] at hab hba
      exact ⟨hlex hba hab, hlex hab hba⟩

/-- Rows with distinct ids are sorted strictly. -/
theorem pairwise_mergeSort (hdialect : Lawful dialect) {rows : List BatchRow}
    (hids : rows.Pairwise fun a b => ¬(dialect.idLe a.id b.id ∧ dialect.idLe b.id a.id)) :
    (rows.mergeSort (orderLe dialect filters)).Pairwise (Behind dialect filters) := by
  have hsorted : (rows.mergeSort (orderLe dialect filters)).Pairwise fun a b =>
      orderLe dialect filters a b := by
    have htrans : ∀ a b c, orderLe dialect filters a b → orderLe dialect filters b c →
        orderLe dialect filters a c := fun _ _ _ => orderLe_trans hdialect
    have htotal : ∀ a b, (orderLe dialect filters a b || orderLe dialect filters b a) = true :=
      fun a b => (Bool.or_eq_true _ _).mpr (orderLe_total hdialect a b)
    exact List.pairwise_mergeSort htrans htotal rows
  have hdistinct : (rows.mergeSort (orderLe dialect filters)).Pairwise fun a b =>
      ¬(dialect.idLe a.id b.id ∧ dialect.idLe b.id a.id) :=
    (List.mergeSort_perm rows _).symm.pairwise hids fun h hswap => h hswap.symm
  exact hsorted.imp₂
    (fun a b hle hne => behind_iff.mpr fun hge => hne (idLe_of_orderLe hle hge)) hdistinct

/-- Sorting what is selected is selecting from what is sorted. -/
theorem mergeSort_filter (hdialect : Lawful dialect) {rows : List BatchRow}
    (hids : rows.Pairwise fun a b => ¬(dialect.idLe a.id b.id ∧ dialect.idLe b.id a.id))
    (p : BatchRow → Bool) :
    (rows.filter p).mergeSort (orderLe dialect filters) =
      (rows.mergeSort (orderLe dialect filters)).filter p := by
  have hirrefl : Std.Irrefl (Behind dialect filters) := behind_irrefl hdialect
  have htrans : IsTrans BatchRow (Behind dialect filters) := behind_trans hdialect
  refine Keyset.eq_of_perm (r := Behind dialect filters) ?_
    (pairwise_mergeSort hdialect (hids.sublist List.filter_sublist))
    ((pairwise_mergeSort hdialect hids).sublist List.filter_sublist)
  exact (List.mergeSort_perm _ _).trans ((List.mergeSort_perm rows _).symm.filter p)

/-! ## Cursors -/

/-- The values that are signed are scalars. -/
theorem scalar_signatureEntries (filters : BatchIndexFiltersData) :
    ∀ e ∈ signatureEntries filters, Php.Scalar e.2 := by
  intro e he
  simp only [signatureEntries, List.mem_cons, List.not_mem_nil, or_false] at he
  rcases he with rfl | rfl | rfl | rfl | rfl | rfl | rfl
  · exact Php.scalar_nullable _
  · exact Php.scalar_nullable _
  · exact Php.scalar_nullable _
  · exact Php.scalar_nullable _
  · exact Php.scalar_nullable _
  · trivial
  · trivial

/-- The texts the signatures are made of are the same for the same filters only. -/
theorem sameFilters_of_jsonBytes
    (h : Php.jsonBytes (signatureEntries filters) = Php.jsonBytes (signatureEntries filters')) :
    SameFilters filters filters' := by
  have hnodup : ∀ filters, (Php.keys (signatureEntries filters)).Nodup := fun _ => by
    simp only [signatureEntries, Php.keys, List.map_cons, List.map_nil]
    decide
  have hlist : ∀ filters, Php.keys (signatureEntries filters) ≠
      Php.listKeys (signatureEntries filters).length := fun _ =>
    Php.keys_ne_listKeys (show "query" ≠ "0" by decide)
  have hentries := Php.eq_of_jsonBytes_eq (hnodup filters) (hlist filters)
    (scalar_signatureEntries filters) (hnodup filters') (hlist filters')
    (scalar_signatureEntries filters') h
  simp only [signatureEntries, List.cons.injEq, Prod.mk.injEq, true_and, and_true,
    Php.str.injEq] at hentries
  obtain ⟨hquery, hqueue, hconnection, hcreated, hstatus, hsort, hdirection⟩ := hentries
  exact {
    query := Php.nullable_injective hquery
    queue := Php.nullable_injective hqueue
    connection := Php.nullable_injective hconnection
    created := Option.map_injective (fun _ _ => BatchCreatedRange.value_injective)
      (Php.nullable_injective hcreated)
    status := Option.map_injective (fun _ _ => BatchStatus.value_injective)
      (Php.nullable_injective hstatus)
    sort := BatchSort.value_injective hsort
    direction := BatchSortDirection.value_injective hdirection }

/-- The values that cursors name: texts, and integers of 64 bits. -/
def CursorValue : Php → Prop
  | .int n => -9223372036854775808 ≤ n ∧ n ≤ 9223372036854775807
  | .str _ => True
  | _ => False

/-- The values of cursors are scalars. -/
theorem CursorValue.scalar {value : Php} (h : CursorValue value) : Php.Scalar value := by
  cases value with
  | int n => exact h
  | str s => trivial
  | _ => exact h.elim

/-- A sort value is a value of cursors. -/
theorem cursorValue_sortValue (hdialect : Lawful dialect) (a : BatchRow) (sort : BatchSort) :
    CursorValue (sortValue (.ofRow dialect a) sort) := by
  cases sort with
  | name => trivial
  | _ => exact hdialect.toInt_mem _

/-- A cursor is read again where sort, direction and signature agree. -/
theorem readCursor_cursorEntries {value : Php} (hvalue : CursorValue value) (id : String) :
    readCursor sha256 (cursorEntries sha256 value id filters) filters' =
      if filters.sort = filters'.sort ∧ filters.direction = filters'.direction ∧
          cursorSignature sha256 filters = cursorSignature sha256 filters' then some (value, id)
      else none := by
  have hentries : Php.entry "sort" (cursorEntries sha256 value id filters) =
        .str filters.sort.value ∧
      Php.entry "direction" (cursorEntries sha256 value id filters) =
        .str filters.direction.value ∧
      Php.entry "filters" (cursorEntries sha256 value id filters) =
        .str (cursorSignature sha256 filters) ∧
      Php.entry "id" (cursorEntries sha256 value id filters) = .str id ∧
      Php.entry "value" (cursorEntries sha256 value id filters) = value := by
    simp [Php.entry, cursorEntries, Php.get_cons]
  obtain ⟨hsort, hdirection, hsignature, hid, hentry⟩ := hentries
  simp only [readCursor, hsort, hdirection, hsignature, hid, hentry]
  by_cases hsame : filters.sort = filters'.sort ∧ filters.direction = filters'.direction ∧
      cursorSignature sha256 filters = cursorSignature sha256 filters'
  · rw [if_pos hsame, if_neg]
    · cases value with
      | int n => rfl
      | str s => rfl
      | _ => exact hvalue.elim
    · rintro (hne | hne | hne)
      · exact hne (congrArg BatchSort.value hsame.1)
      · exact hne (congrArg BatchSortDirection.value hsame.2.1)
      · exact hne hsame.2.2
  · rw [if_neg hsame, if_pos]
    by_contra hnot
    push Not at hnot
    exact hsame ⟨BatchSort.value_injective hnot.1, BatchSortDirection.value_injective hnot.2.1,
      hnot.2.2⟩

/-- **A cursor is read back** for its own sort, direction and signature, and is no cursor for any
other. -/
theorem decodeCursor_encodeCursor {value : Php} (hvalue : CursorValue value) (id : String) :
    decodeCursor sha256 (some (encodeCursor sha256 value id filters)) filters' =
      if filters.sort = filters'.sort ∧ filters.direction = filters'.direction ∧
          cursorSignature sha256 filters = cursorSignature sha256 filters' then some (value, id)
      else none := by
  have hparse : Php.jsonParse (Php.jsonBytes (cursorEntries sha256 value id filters)) =
      some (.array (cursorEntries sha256 value id filters)) := by
    refine Php.jsonParse_jsonBytes ?_
      (Php.keys_ne_listKeys (show "sort" ≠ "0" by decide)) fun e he => ?_
    · simp only [cursorEntries, Php.keys, List.map_cons, List.map_nil]
      decide
    · simp only [cursorEntries, List.mem_cons, List.not_mem_nil, or_false] at he
      rcases he with rfl | rfl | rfl | rfl | rfl
      · trivial
      · trivial
      · trivial
      · exact hvalue.scalar
      · trivial
  have hdecode : Php.base64Decode ((Php.base64UrlEncode
      (Php.jsonBytes (cursorEntries sha256 value id filters))).map Php.ofUrl) =
      some (Php.jsonBytes (cursorEntries sha256 value id filters)) := by
    have hpadding := Php.base64Decode_base64UrlEncode
      (Php.jsonBytes (cursorEntries sha256 value id filters)) (Or.inl rfl)
    rwa [List.replicate_zero, List.append_nil] at hpadding
  have hne : encodeCursor sha256 value id filters ≠ "" := by
    intro hempty
    have hnil : Php.base64UrlEncode (Php.jsonBytes (cursorEntries sha256 value id filters)) = [] := by
      have htext := congrArg String.toList hempty
      rwa [encodeCursor, String.toList_ofList] at htext
    have hbytes : [] = Php.jsonBytes (cursorEntries sha256 value id filters) := by
      rw [hnil] at hdecode
      exact Option.some.inj hdecode
    rw [← hbytes, Php.jsonParse_nil] at hparse
    cases hparse
  have hread : decodeCursor sha256 (some (encodeCursor sha256 value id filters)) filters' =
      readCursor sha256 (cursorEntries sha256 value id filters) filters' := by
    simp only [decodeCursor]
    rw [if_neg hne, encodeCursor, String.toList_ofList, hdecode, Option.bind_some, hparse]
  rw [hread, readCursor_cursorEntries hvalue]

/-! ## Pages and what follows a row -/

/-- All batches, in the order of the filters. -/
def sortedRows (dialect : Dialect) (tables : BatchTables) (filters : BatchIndexFiltersData) :
    List BatchRow :=
  (rowsQuery dialect tables (withAttribution filters)).mergeSort (orderLe dialect filters)

/-- The cursor that a page which ends with a row hands out; no cursor where the listing starts. -/
def cursorFor (dialect : Dialect) (sha256 : List UInt8 → String) (filters : BatchIndexFiltersData)
    (position : Option BatchRow) : Option String :=
  cursorForRow sha256 (position.map (.ofRow dialect)) filters

/-- **A page shows the first matching rows behind its position.** -/
theorem pageRows_cursorFor (hdialect : Lawful dialect) (hids : DistinctIds dialect tables)
    (hbound : BoundEqual dialect tables filters) (now : ℤ) {position : Option BatchRow}
    (hposition : ∀ a ∈ position, a ∈ rowsQuery dialect tables (withAttribution filters)) :
    pageRows dialect sha256 tables filters now (cursorFor dialect sha256 filters position) =
      ((Keyset.following (Behind dialect filters) (sortedRows dialect tables filters)
        position).filter (filter dialect filters now)).take (pageSize + 1) := by
  have hpairwise : (rowsQuery dialect tables (withAttribution filters)).Pairwise fun a b =>
      ¬(dialect.idLe a.id b.id ∧ dialect.idLe b.id a.id) := by
    rw [rowsQuery, List.pairwise_map]
    exact hids
  cases position with
  | none =>
      simp only [pageRows, cursorFor, Option.map_none, cursorForRow, decodeCursor,
        Keyset.following_none]
      rw [mergeSort_filter hdialect hpairwise]
      rfl
  | some a =>
      obtain ⟨hle, hge⟩ := hbound a (hposition a rfl)
      have hdecode : decodeCursor sha256 (cursorFor dialect sha256 filters (some a)) filters =
          some (sortValue (.ofRow dialect a) filters.sort, a.id) := by
        simp only [cursorFor, Option.map_some, cursorForRow]
        rw [decodeCursor_encodeCursor (cursorValue_sortValue hdialect a filters.sort),
          if_pos ⟨rfl, rfl, rfl⟩]
        rfl
      have hbehind : behind dialect filters
          (dialect.bind (sortValue (.ofRow dialect a) filters.sort)) a.id = fun b =>
            decide (Behind dialect filters a b) := by
        funext b
        exact behind_congr hdialect hle hge b
      simp only [pageRows, hdecode]
      rw [hbehind, mergeSort_filter hdialect (hpairwise.sublist List.filter_sublist),
        mergeSort_filter hdialect hpairwise, Keyset.following, List.filter_comm]
      rfl

/-- The row of the page that shows a batch. -/
def shown (dialect : Dialect) (a : BatchRow) : BatchRowData := row (.ofRow dialect a)

/-- The page behind a position, in terms of the rows its query matches. -/
theorem page_eq {capability : DatabaseBatchCapability} (hsupported : capability.supported)
    (hattribution : withAttribution filters → capability.attributionSupported) {now : ℤ}
    {cursor : Option String} {rows : List BatchRow}
    (hrows : pageRows dialect sha256 tables filters now cursor = rows.take (pageSize + 1)) :
    page dialect sha256 capability tables filters now cursor = .ok {
      available := true
      batches := (rows.take pageSize).map (shown dialect)
      complete := true
      current := cursor
      next := if pageSize < rows.length then
          cursorFor dialect sha256 filters (rows.take pageSize).getLast?
        else none
      message := none } := by
  have hensure : (if withAttribution filters then ensureAttributionSupported capability
      else .ok ()) = .ok () := by
    split
    · rw [ensureAttributionSupported, if_pos (hattribution ‹_›)]
    · rfl
  have hmore : pageSize < (rows.take (pageSize + 1)).length ↔ pageSize < rows.length := by
    rw [List.length_take]
    omega
  have htake : (rows.take (pageSize + 1)).take pageSize = rows.take pageSize := by
    rw [List.take_take, Nat.min_eq_left (Nat.le_succ pageSize)]
  rw [page, ensureSupported, if_pos hsupported, hensure, hrows]
  change Except.ok _ = Except.ok _
  simp only [List.length_map, hmore, ← List.map_take, htake, List.map_map, List.getLast?_map]
  rfl

/-- Following the cursors is following the rows. -/
theorem follow_cursorFor (hdialect : Lawful dialect) (hids : DistinctIds dialect tables)
    (hbound : BoundEqual dialect tables filters) {capability : DatabaseBatchCapability}
    (hsupported : capability.supported)
    (hattribution : withAttribution filters → capability.attributionSupported) (times : ℕ → ℤ)
    (fuel n : ℕ) {position : Option BatchRow}
    (hposition : ∀ a ∈ position, a ∈ rowsQuery dialect tables (withAttribution filters)) :
    follow dialect sha256 capability tables filters times fuel n
        (cursorFor dialect sha256 filters position) =
      (Keyset.follow (Behind dialect filters) (sortedRows dialect tables filters) pageSize
        (fun n => filter dialect filters (times n)) fuel n position).map
          (List.map (shown dialect)) := by
  induction fuel generalizing n position with
  | zero => rfl
  | succ fuel ih =>
      rw [follow, page_eq hsupported hattribution
        (pageRows_cursorFor hdialect hids hbound (times n) hposition), Keyset.follow]
      set rows := (Keyset.following (Behind dialect filters) (sortedRows dialect tables filters)
        position).filter (filter dialect filters (times n)) with hrows
      by_cases hmore : pageSize < rows.length
      · have hne : rows.take pageSize ≠ [] := by
          rw [ne_eq, List.take_eq_nil_iff]
          rintro (hzero | hnil)
          · exact absurd hzero (by decide)
          · rw [hnil] at hmore
            exact Nat.not_lt_zero _ hmore
        obtain ⟨a, ha⟩ : ∃ a, (rows.take pageSize).getLast? = some a :=
          ⟨_, List.getLast?_eq_some_getLast hne⟩
        have hmem : a ∈ rowsQuery dialect tables (withAttribution filters) := by
          have harow : a ∈ rows := List.mem_of_mem_take (List.mem_of_getLast? ha)
          have hsorted := (Keyset.following_sublist position).subset (List.mem_filter.mp harow).1
          exact List.mem_mergeSort.mp hsorted
        have hposition' : ∀ b ∈ some a, b ∈ rowsQuery dialect tables (withAttribution filters) := by
          intro b hb
          cases hb
          exact hmem
        have hnext := ih (n + 1) hposition'
        simp only [if_pos hmore, ha]
        change ((follow dialect sha256 capability tables filters times fuel (n + 1)
          (cursorFor dialect sha256 filters (some a))).map _) = _
        rw [hnext, Option.map_map, Option.map_map]
        refine congrFun (congrArg Option.map ?_) _
        funext ids
        exact (List.map_append).symm
      · simp only [if_neg hmore, Option.map_some]
        rw [List.take_of_length_le (not_lt.mp hmore)]

/-- White space around what is searched for does not matter. -/
theorem SameFilters.filter_eq (h : SameFilters filters filters') (dialect : Dialect) (now : ℤ) :
    filter dialect filters now = filter dialect filters' now := by
  funext a
  have hquery : (match filters.query with
        | some query => if Php.trim query ≠ "" then literalSearch dialect (Php.trim query) a else true
        | none => true) =
      match filters'.query with
        | some query => if Php.trim query ≠ "" then literalSearch dialect (Php.trim query) a else true
        | none => true := by
    have htrim := h.query
    cases hq : filters.query with
    | none =>
        rw [hq, Option.map_none, eq_comm, Option.map_eq_none_iff] at htrim
        rw [htrim]
    | some query =>
        rw [hq, Option.map_some, eq_comm, Option.map_eq_some_iff] at htrim
        obtain ⟨query', hquery', htrim⟩ := htrim
        simp only [hquery', htrim]
  rw [filter, filter, hquery, h.queue, h.connection, h.created, h.status]

/-- A cursor is no cursor for other filters, unless the texts their signatures are made of have the
same hash. -/
theorem decodeCursor_of_ne (hdialect : Lawful dialect)
    (hsha256 : cursorSignature sha256 filters = cursorSignature sha256 filters' →
      Php.jsonBytes (signatureEntries filters) = Php.jsonBytes (signatureEntries filters'))
    (hother : ¬SameFilters filters filters') (a : BatchRow) :
    decodeCursor sha256 (cursorFor dialect sha256 filters (some a)) filters' = none := by
  simp only [cursorFor, Option.map_some, cursorForRow]
  rw [decodeCursor_encodeCursor (cursorValue_sortValue hdialect a filters.sort), if_neg]
  rintro ⟨-, -, hsignature⟩
  exact hother (sameFilters_of_jsonBytes (hsha256 hsignature))

/-- The integer part of a number, in 64 bits. -/
def integerPart (q : ℚ) : ℤ :=
  max (-9223372036854775808) (min 9223372036854775807 (if 0 ≤ q then q.floor else q.ceil))

/-- Numbers before texts, each in their own order. -/
def valueLe : SqlValue → SqlValue → Bool
  | .number q, .number q' => decide (q ≤ q')
  | .number _, .text _ => true
  | .text _, .number _ => false
  | .text s, .text s' => decide (s ≤ s')

/-- A database that compares texts by their bytes. -/
def sqlite : Dialect where
  lower := String.toLower
  trim s := Php.trim s
  contains text search := decide (search.toList <:+: text.toList)
  equal a b := decide (a = b)
  percentage total pending := ((((total - pending) * 100 : ℚ) / total + 1 / 2).floor : ℤ)
  le := valueLe
  idLe a b := decide (a ≤ b)
  bind
    | .int n => .number n
    | .str s => .text s
    | _ => .number 0
  toInt := integerPart

/-- The dialect of the example meets the assumptions. -/
theorem sqlite_lawful : Lawful sqlite where
  le_total x y := by
    cases x <;> cases y <;> simp [sqlite, valueLe, le_total]
  le_trans x y z hxy hyz := by
    cases x <;> cases y <;> cases z <;> simp_all [sqlite, valueLe]
    · exact le_trans hxy hyz
    · exact le_trans hxy hyz
  idLe_total x y := by simp [sqlite, le_total]
  idLe_trans x y z hxy hyz := by
    simp only [sqlite, decide_eq_true_eq] at hxy hyz ⊢
    exact le_trans hxy hyz
  toInt_mem q := by
    show _ ≤ integerPart q ∧ integerPart q ≤ _
    rw [integerPart]
    omega

/-- Two batches of one second. -/
def twoBatches : BatchTables where
  source := [
    { id := "a", name := "Import", totalJobs := 3, pendingJobs := 1, failedJobs := 0
      createdAt := 1700000000, cancelledAt := none, finishedAt := none },
    { id := "b", name := "", totalJobs := 2, pendingJobs := 0, failedJobs := 1
      createdAt := 1700000000, cancelledAt := none, finishedAt := some 1700000100 }]
  metadata id := some ⟨id, some "default", some "redis", false, false⟩

/-- The batches of a queue, newest first. -/
def newestFirst : BatchIndexFiltersData where
  query := none
  queue := some "default"
  connection := none
  created := none
  status := none
  sort := .createdAt
  direction := .descending

/-- The batches of a queue, oldest first. -/
def oldestFirst : BatchIndexFiltersData := { newestFirst with direction := .ascending }

/-- The hash, for the signatures of two filters. -/
def twoHashes (text : List UInt8) : String :=
  if text = Php.jsonBytes (signatureEntries newestFirst) then
    "244806b08aa5ace7e997f280a252867fea23586a585edbef9832e44cebf92658"
  else "be710e3eb454b4248a4459401d2cb8e32efb1638a9346b40c6b88490bbf093f9"

end DatabaseBatchQuery

end HorizonNewDawn

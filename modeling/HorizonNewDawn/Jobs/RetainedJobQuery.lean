import HorizonNewDawn.Jobs.PendingJobStateIndex.Targets
import HorizonNewDawn.Jobs.RetainedJobIndex.CatalogValues
import HorizonNewDawn.Jobs.RetainedJobIndex.ScoredIds
import Mathlib

/-! # Pages of retained jobs

A page of retained jobs is a page of their ids, read off the index, with the job objects of the ids.
Pending jobs without a state filter are listed in two parts: first the reserved ones, in the order they
are retained in, then the rest, where a delayed job stands at the time it becomes available. Both kinds
of the rest are paged by themselves and the two pages are merged. Which jobs are reserved or delayed is
asked of the queues the target catalog of the index names.

Cursors are taken as decoded: the text of a cursor is `RetainedJobCursor`'s. -/

namespace HorizonNewDawn

open Program

/-- `JobIndexFiltersData` -/
structure JobIndexFiltersData where
  job : Option String
  queue : Option String
  connection : Option String
  state : Option String

/-- `JobIndexFiltersData::none` -/
def JobIndexFiltersData.none : JobIndexFiltersData := ⟨.none, .none, .none, .none⟩

namespace RetainedJobQuery

/-- Which listing a cursor belongs to. -/
inductive Phase
  | default
  | reserved
  | rest
  deriving DecidableEq

/-- A decoded cursor: the listing and the position in it. -/
structure CursorState where
  position : Option RetainedJobPosition
  phase : Phase
  deriving DecidableEq

/-- `RetainedJobQueryPage`: the job objects with their indexes, the total, and the cursors of this page
and of the next one. -/
structure Page where
  jobs : List (JobObject × ℤ)
  total : ℕ
  current : Option CursorState
  next : Option CursorState

end RetainedJobQuery

/-- The collaborators of a query: the index, the states of the pending jobs where they are available, and
what the index is called with. -/
structure RetainedJobQuery where
  index : RetainedJobIndex
  pendingStates : Option PendingStates
  lower : String → String
  trimmed : Bool
  synchronized : Bool

namespace RetainedJobQuery

open RetainedJobIndex

/-- `PAGE_SIZE` -/
def pageSize : ℕ := 50

variable (query : RetainedJobQuery)

/-! ## What a query is about -/

/-- `normalizedSearch` -/
def normalizedSearch (search : Option String) : Option String :=
  let search := Php.trim (search.getD "")
  if search = "" then none else some search

/-- `facets` -/
def facets (t : RetainedJobType) (filters : JobIndexFiltersData) (failedTag : Option String) :
    Redis (List (FacetDimension × String)) :=
  let facets := (filters.job.toList.map (FacetDimension.job, ·)) ++
    (filters.queue.toList.map (FacetDimension.queue, ·)) ++
    (filters.connection.toList.map (FacetDimension.connection, ·))
  let failedTag := Php.trim (failedTag.getD "")
  if failedTag ≠ "" then
    if t ≠ .failed then .fail (.invalidArgument "Exact failed tags can only filter failed jobs.")
    else return facets ++ [(.tag, failedTag)]
  else return facets

/-- `pendingTargetCatalogValues`: the catalog is built where none is published. -/
def pendingTargetCatalogValues (t : RetainedJobType) : Redis (List String) :=
  (catalogValuesFromPublishedIndex t .target).tryCatch fun e =>
    if e = .retainedJobIndexWarming then
      query.index.catalogValues query.trimmed query.synchronized t .target
    else .fail e

/-- The connection and the queue a value of the target catalog encodes. -/
def targetOf (encoded : String) : Option PendingJobStateIndex.Target :=
  match (Json.read encoded.toList).map Php.jsonDecode with
  | some (.array target) =>
      match Php.entry "0" target, Php.entry "1" target with
      | .str connection, .str queue => some ⟨connection, queue⟩
      | _, _ => none
  | _ => none

/-- Whether the filters let a target pass. -/
def allowsTarget (filters : JobIndexFiltersData) (target : PendingJobStateIndex.Target) : Bool :=
  filters.connection.all (· = target.connection) && filters.queue.all (· = target.queue)

/-- The targets among the values of a catalog. -/
def targetsOf (filters : JobIndexFiltersData) (values : List String) :
    List PendingJobStateIndex.Target :=
  (values.filterMap targetOf).filter (allowsTarget filters)

/-- `pendingTargets` -/
def pendingTargets (t : RetainedJobType) (filters : JobIndexFiltersData) :
    Redis (List PendingJobStateIndex.Target) := do
  let values ← query.pendingTargetCatalogValues t
  return targetsOf filters values

/-- The ids of an array, every one of them once. -/
def arrayKeys (ids : List String) : IdSet where
  ids := ids.eraseDups
  nodup := ids.nodup_eraseDups

/-- `matchingIds` of the states, with the targets of a type. -/
def matchingIds (states : PendingStates) (t : RetainedJobType) (filters : JobIndexFiltersData)
    (state : String) : Redis IdSet := do
  let targets ← query.pendingTargets t filters
  let entries ← states.matchingEntries targets state
  return arrayKeys (entries.map (·.id))

/-- `stateIds` -/
def stateIds (t : RetainedJobType) (filters : JobIndexFiltersData) : Redis (Option IdSet) :=
  match filters.state with
  | none => return none
  | some state =>
      if t ≠ .pending then
        .fail (.invalidArgument "Pending state can only filter pending jobs.")
      else
        match query.pendingStates with
        | none => throwRuntime "Pending state queries are unavailable."
        | some states => some <$> query.matchingIds states t filters state

/-- `reservedIds` -/
def reservedIds (filters : JobIndexFiltersData) : Redis IdSet :=
  match query.pendingStates with
  | none => return ⟨[], List.nodup_nil⟩
  | some states => query.matchingIds states .pending filters "reserved"

/-- `delayedOrderingScores`: the scores of pending jobs are negated times. -/
def delayedOrderingScores (filters : JobIndexFiltersData) (excludeIds : List String) :
    Redis (List (String × ℚ)) :=
  match query.pendingStates with
  | none => return []
  | some states => do
      let targets ← query.pendingTargets .pending filters
      let availability ← states.delayedAvailabilityScores targets
      return (availability.filter fun e => e.1 ∉ excludeIds).map fun e => (e.1, -e.2)

/-- `positionsToScoreMap` -/
def positionsToScoreMap (ids : List String) : Redis (List (String × ℚ)) :=
  if ids = [] then return [] else scoresForRetainedIds none .pending ids

/-- `hydrate`: the last job object of every id, in the order of the ids. -/
def hydrate (ids : List String) (startingAt : ℤ) : Redis (List (JobObject × ℤ)) :=
  if ids = [] then return []
  else do
    let jobs : List JobObject ← command (.getJobs ids)
    return ids.filterMap fun id =>
      (jobs.reverse.find? fun job => job.id = some id).map fun job =>
        (job, startingAt + ids.idxOf id)

/-! ## Pages of ids -/

/-- `pageIds` -/
def pageIds (t : RetainedJobType) (facets : List (FacetDimension × String))
    (additionalIds : Option IdSet) (after : Option RetainedJobPosition) (limit : ℕ)
    (search : Option String) (published : Bool) : Redis ScoredPage :=
  if published then pageIdsFromPublishedIndex t facets additionalIds after limit
  else
    query.index.pageIds query.lower query.trimmed query.synchronized t facets additionalIds after limit
      search

/-- `pageExcluding` -/
def pageExcluding (t : RetainedJobType) (facets : List (FacetDimension × String))
    (excludeIds : List String) (after : Option RetainedJobPosition) (limit : ℕ)
    (search : Option String) (published : Bool) : Redis ScoredPage :=
  if limit = 0 then return ⟨[], 0, after.elim 0 (·.offset), none⟩
  else if published then
    pageIdsFromPublishedIndexExcluding t facets none excludeIds after limit
  else
    query.index.pageIdsExcluding query.lower query.trimmed query.synchronized t facets none excludeIds
      after limit search

/-- The ids of a stream that have a score, with that score. -/
def scoredStream (ids : List String) (scores : List (String × ℚ)) : List (String × ℚ) :=
  ids.filterMap fun id => (Assignments.get id scores).map fun score => (id, score)

/-- `mergePendingRestStreams` -/
def mergePendingRestStreams (nonDelayedIds : List String) (nonDelayedScores : List (String × ℚ))
    (delayedIds : List String) (delayedScores : List (String × ℚ))
    (after : Option RetainedJobPosition) (limit : ℕ) (reverse : Bool) : ScoredPage :=
  let pairs := (scoredStream nonDelayedIds nonDelayedScores ++
    scoredStream delayedIds delayedScores).mergeSort fun left right =>
      (comparePairs reverse left right).isLE
  let hasMore := decide (limit < pairs.length)
  let pagePairs := pairs.take limit
  let ids := pagePairs.map Prod.fst
  let currentOffset := after.elim 0 (·.offset)
  { ids := ids
    total := 0
    currentOffset := currentOffset
    next :=
      if hasMore then
        pagePairs.getLast?.map fun last =>
          { score := some last.2, id := last.1, offset := currentOffset + ids.length }
      else none }

/-- `pagePendingRest` -/
def pagePendingRest (t : RetainedJobType) (facets : List (FacetDimension × String))
    (filters : JobIndexFiltersData) (excludeIds : List String)
    (after : Option RetainedJobPosition) (limit : ℕ) (search : Option String) (published : Bool) :
    Redis ScoredPage :=
  if limit = 0 then return ⟨[], 0, after.elim 0 (·.offset), none⟩
  else do
    let delayedOrderingScores ← query.delayedOrderingScores filters excludeIds
    if delayedOrderingScores = [] then
      query.pageExcluding t facets excludeIds after limit search published
    else do
      let nonDelayedExclude := (arrayKeys (excludeIds ++ delayedOrderingScores.map Prod.fst)).ids
      let fetch := limit + 1
      let nonDelayed ←
        query.pageExcluding t facets nonDelayedExclude after fetch search published
      let delayed ← query.index.pageScoredIds query.lower query.trimmed query.synchronized t facets
        delayedOrderingScores excludeIds after fetch search published
      let nonDelayedScores ← positionsToScoreMap nonDelayed.ids
      return mergePendingRestStreams nonDelayed.ids nonDelayedScores delayed.ids delayed.scores after
        limit (!t.newestFirst)

/-! ## Pages of jobs -/

/-- A page of ids with the job objects. -/
def toPage (page : ScoredPage) (total : ℕ) (current next : Option CursorState) : Redis Page := do
  let jobs ← hydrate page.ids page.currentOffset
  return { jobs := jobs, total := total, current := current, next := next }

/-- `pagePendingDelayedByAvailability` -/
def pagePendingDelayedByAvailability (t : RetainedJobType) (filters : JobIndexFiltersData)
    (cursor : Option CursorState) (search : Option String) (published : Bool) : Redis Page := do
  let after := cursor.bind (·.position)
  let facets ← facets t filters none
  let scores ← query.delayedOrderingScores filters []
  if scores = [] then return { jobs := [], total := 0, current := cursor, next := none }
  let page ← query.index.pageScoredIds query.lower query.trimmed query.synchronized t facets scores []
    after pageSize search published
  toPage page.toScoredPage page.total cursor (page.next.map fun next => ⟨some next, .default⟩)

/-- `pageReservedLead`: what is left of a page behind the reserved jobs is filled with the rest. -/
def pageReservedLead (t : RetainedJobType) (facets : List (FacetDimension × String))
    (filters : JobIndexFiltersData) (reservedIds : IdSet) (after : Option RetainedJobPosition)
    (search : Option String) (published : Bool) (total : ℕ) (currentCursor : Option CursorState) :
    Redis Page := do
  let reservedPage ← query.pageIds t facets (some reservedIds) after pageSize search published
  match reservedPage.next with
  | some next => toPage reservedPage total currentCursor (some ⟨some next, .reserved⟩)
  | none =>
      if reservedPage.ids.length < pageSize then do
        let fill ← query.pagePendingRest t facets filters reservedIds.ids none
          (pageSize - reservedPage.ids.length) search published
        toPage { reservedPage with ids := reservedPage.ids ++ fill.ids } total currentCursor
          (fill.next.map fun next => ⟨some next, .rest⟩)
      else do
        let probe ← query.pagePendingRest t facets filters reservedIds.ids none 1 search published
        toPage reservedPage total currentCursor
          (if probe.ids ≠ [] then some ⟨none, .rest⟩ else none)

/-- `pagePendingReservedFirst` -/
def pagePendingReservedFirst (t : RetainedJobType) (filters : JobIndexFiltersData)
    (cursor : Option CursorState) (search : Option String) (published : Bool) : Redis Page := do
  let reservedIds ← query.reservedIds filters
  let facets ← facets t filters none
  let total ← (·.total) <$> query.pageIds t facets none none 1 search published
  let after := cursor.bind (·.position)
  if reservedIds.ids = [] then do
    let page ← query.pagePendingRest t facets filters [] after pageSize search published
    toPage page total cursor (page.next.map fun next => ⟨some next, .default⟩)
  else
    let phase := cursor.elim .reserved (·.phase)
    -- A cursor of the ordinary listing goes on among the rest.
    let phase := if phase = .default then .rest else phase
    if phase = .reserved then
      query.pageReservedLead t facets filters reservedIds after search published total cursor
    else do
      let rest ← query.pagePendingRest t facets filters reservedIds.ids after pageSize search published
      toPage rest total cursor (rest.next.map fun next => ⟨some next, .rest⟩)

/-- `shouldLeadWithReserved` -/
def shouldLeadWithReserved (t : RetainedJobType) (filters : JobIndexFiltersData) : Bool :=
  decide (t = .pending ∧ filters.state = none) && query.pendingStates.isSome

/-- `shouldPageDelayedByAvailability` -/
def shouldPageDelayedByAvailability (t : RetainedJobType) (filters : JobIndexFiltersData) : Bool :=
  decide (t = .pending ∧ filters.state = some "delayed") && query.pendingStates.isSome

/-- `page` -/
def page (t : RetainedJobType) (filters : JobIndexFiltersData) (cursor : Option CursorState)
    (failedTag search : Option String) : Redis Page :=
  let search := normalizedSearch search
  if query.shouldLeadWithReserved t filters then
    query.pagePendingReservedFirst t filters cursor search false
  else if query.shouldPageDelayedByAvailability t filters then
    query.pagePendingDelayedByAvailability t filters cursor search false
  else do
    let stateIds ← query.stateIds t filters
    let facets ← facets t filters failedTag
    let page ← query.index.pageIds query.lower query.trimmed query.synchronized t facets stateIds
      (cursor.bind (·.position)) pageSize search
    toPage page page.total cursor (page.next.map fun next => ⟨some next, .default⟩)

/-- `pageFromPublishedIndex` -/
def pageFromPublishedIndex (t : RetainedJobType) (filters : JobIndexFiltersData)
    (cursor : Option CursorState) : Redis Page :=
  if query.shouldLeadWithReserved t filters then
    query.pagePendingReservedFirst t filters cursor none true
  else if query.shouldPageDelayedByAvailability t filters then
    query.pagePendingDelayedByAvailability t filters cursor none true
  else do
    let facets ← facets t filters none
    let stateIds ← query.stateIds t filters
    let page ← pageIdsFromPublishedIndex t facets stateIds (cursor.bind (·.position)) pageSize
    toPage page page.total cursor (page.next.map fun next => ⟨some next, .default⟩)

/-! ## Counts and revisions -/

/-- `count` -/
def count (t : RetainedJobType) (filters : JobIndexFiltersData) (since : Option ℚ) : Redis ℕ := do
  let facets ← facets t filters none
  let stateIds ← query.stateIds t filters
  query.index.count query.lower query.trimmed query.synchronized t facets stateIds since

/-- `periodCounts` -/
def periodCounts (t : RetainedJobType) (filters : JobIndexFiltersData) (hourCutoff dayCutoff : ℚ) :
    Redis PeriodCounts := do
  let facets ← facets t filters none
  query.index.periodCounts query.lower query.trimmed query.synchronized t facets hourCutoff dayCutoff

/-- `periodCountsFromPublishedIndex` -/
def periodCountsFromPublishedIndex (t : RetainedJobType) (filters : JobIndexFiltersData)
    (hourCutoff dayCutoff : ℚ) : Redis PeriodCounts := do
  let facets ← facets t filters none
  RetainedJobIndex.periodCountsFromPublishedIndex t facets hourCutoff dayCutoff

/-- `publishedRevision` -/
def publishedRevision (t : RetainedJobType) : Redis (Option PublishedState) := publishedState t

/-- `array{total: int, headId: string|null}` -/
structure PageMetadata where
  total : ℕ
  headId : Option String
  deriving DecidableEq

/-- `publishedPageMetadata` -/
def publishedPageMetadata (t : RetainedJobType) (filters : JobIndexFiltersData) :
    Redis PageMetadata := do
  let facets ← facets t filters none
  let stateIds ← query.stateIds t filters
  let page ← pageIdsFromPublishedIndex t facets stateIds none 1
  return { total := page.total, headId := page.ids.head? }

/-- `refreshPublishedIndex` -/
def refreshPublishedIndex (t : RetainedJobType) : Redis Unit :=
  query.index.synchronize query.trimmed query.synchronized t false [] []

end RetainedJobQuery

end HorizonNewDawn

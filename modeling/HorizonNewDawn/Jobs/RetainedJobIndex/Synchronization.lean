import HorizonNewDawn.Jobs.RetainedJobIndex.Reading
import Mathlib

/-! # The retained-job index: synchronization

The programs that bring a generation in line with a snapshot of Horizon's retained source and
publish it. Every function keeps its name; `fuel` bounds the loops whose number of iterations the
source does not bound. -/

namespace HorizonNewDawn

open Program

/-- The constructor arguments of the index, and the bound on its loops. -/
structure RetainedJobIndex where
  hydrationChunkSize : ℕ
  fuel : ℕ

namespace RetainedJobIndex

/-! ## The synchronization lock -/

/-- `releaseSynchronizationLock` -/
def releaseSynchronizationLock (t : RetainedJobType) (token : Token) : Redis Unit :=
  (command (.releaseLock t token)).tryCatch fun _ => return ()

/-- `renewSynchronizationLock` -/
def renewSynchronizationLock (t : RetainedJobType) (token : Token) : Redis Unit := do
  let renewed : Bool ← command (.renewLock t token synchronizationLockSeconds)
  if !renewed then throwRuntime "The retained job synchronization lock expired."

/-- `acquireSynchronizationLock` -/
def acquireSynchronizationLock (t : RetainedJobType) : Redis (Option Token) := do
  let token ← randomToken
  let acquired : Bool ← command (.setLockNx t token synchronizationLockSeconds)
  return if acquired then some token else none

/-- `renewSynchronizationState` -/
def renewSynchronizationState (t : RetainedJobType) (token : Token) (source : SourceSnapshot) :
    Redis Unit := do
  renewSourceSnapshot source
  renewSynchronizationLock t token

/-- `renewWorkingSet` -/
def renewWorkingSet (t : RetainedJobType) (token : Token) (workingKey : Token)
    (source : SourceSnapshot) : Redis Unit := do
  if !(← expire (.temporary workingKey) temporaryKeyTtlSeconds) then
    throwRuntime "The retained job synchronization working set expired."
  renewSourceSnapshot source
  renewSynchronizationLock t token

/-- `assertNamespaceOwnership` -/
def assertNamespaceOwnership : Redis Unit := do
  command (.setnxOwner "nckrtl/horizon-new-dawn:retained-jobs:v2")
  let owner : Option String ← command .getOwner
  if owner ≠ some "nckrtl/horizon-new-dawn:retained-jobs:v2" then
    throwRuntime "The retained job index Redis namespace is already in use."

/-! ## Hydration -/

/-- The writes that store one job in a generation. -/
def storeJob (t : RetainedJobType) (g : Generation) (m : RetainedJobMetadata) (id : String)
    (score : ℚ) : List Write :=
  .hset id m ::
    (FacetDimension.cases.flatMap fun d => (facetValues t m d).flatMap fun value =>
      [.zadd (.facet t g d value) score id, .sadd ⟨t, g, d⟩ value]) ++
    [.zadd (.projection t g) score id, .zrem (.unresolved t g) [id]]

/-- The writes that remove one job from a generation, from its facets only where its metadata is
known. -/
def removeJob (t : RetainedJobType) (g : Generation) (known : Option RetainedJobMetadata)
    (id : String) : List Write :=
  .zrem (.projection t g) [id] ::
    match known with
    | none => []
    | some m => FacetDimension.cases.flatMap fun d =>
        (facetValues t m d).map fun value => .zrem (.facet t g d value) [id]

/-- The writes that store a job. -/
theorem mem_storeJob {t : RetainedJobType} {g : Generation} {m : RetainedJobMetadata} {id : String}
    {score : ℚ} {w : Write} : w ∈ storeJob t g m id score ↔
      w = .hset id m ∨ (∃ d, ∃ value ∈ facetValues t m d,
        w = .zadd (.facet t g d value) score id ∨ w = .sadd ⟨t, g, d⟩ value) ∨
        w = .zadd (.projection t g) score id ∨ w = .zrem (.unresolved t g) [id] := by
  simp only [storeJob, List.cons_append, List.mem_cons, List.mem_append, List.mem_flatMap,
    List.not_mem_nil, or_false, FacetDimension.mem_cases, true_and]

/-- The writes that remove a job. -/
theorem mem_removeJob {t : RetainedJobType} {g : Generation} {known : Option RetainedJobMetadata}
    {id : String} {w : Write} : w ∈ removeJob t g known id ↔
      w = .zrem (.projection t g) [id] ∨ ∃ m, known = some m ∧ ∃ d, ∃ value ∈ facetValues t m d,
        w = .zrem (.facet t g d value) [id] := by
  cases known with
  | none => simp [removeJob]
  | some m =>
      simp only [removeJob, List.mem_cons, List.mem_flatMap, List.mem_map, FacetDimension.mem_cases,
        true_and, Option.some.injEq, exists_eq_left', eq_comm]

/-- Metadata by id, after more of it was fetched; what was fetched last counts. -/
def remember (fetched : List RetainedJobMetadata) (known : String → Option RetainedJobMetadata) :
    String → Option RetainedJobMetadata :=
  fetched.foldl (fun f m => Function.update f m.id (some m)) known

variable (index : RetainedJobIndex)

/-- `hydrateAndStore` -/
def hydrateAndStore (working : Working) (t : RetainedJobType) (scores : List (String × ℚ))
    (heartbeat : Redis Unit) : Redis Unit := do
  let existing ← existingMetadata (scores.map Prod.fst)
  let missingMetadata := (scores.map Prod.fst).filter fun id => (existing id).isNone
  let fetched : List (List RetainedJobMetadata) ← Prog.collect
    (missingMetadata.arrayChunk (max 1 index.hydrationChunkSize)) fun chunk => do
      let jobs : List JobObject ← command (.getJobs chunk)
      heartbeat
      return jobs.filterMap RetainedJobMetadata.fromJob
  let metadataById := remember fetched.flatten existing
  let unresolved ← Prog.collect (scores.filter fun e => (metadataById e.1).isNone) fun e => do
    let now ← microtime
    return if -e.2 ≤ now - unresolvedReferenceGraceSeconds then some e else none
  Prog.forEach (unresolved.reduceOption.arrayChunk sourceChunkSize) fun chunk => do
    transaction working fun g => chunk.map fun e => .zadd (.unresolved t (g t)) e.2 e.1
    heartbeat
  let resolved := scores.filter fun e => (metadataById e.1).isSome
  Prog.forEach (resolved.arrayChunk sourceChunkSize) fun chunk => do
    transaction working fun g => chunk.flatMap fun e =>
      match metadataById e.1 with
      | none => []
      | some m => storeJob t (g t) m e.1 e.2
    heartbeat

/-- `addMissingJobs` -/
def addMissingJobs (working : Working) (t : RetainedJobType) (lockToken : Token)
    (source : SourceSnapshot) : Redis ℕ := do
  let missingKey ← temporaryKey
  Prog.tryFinally
    (do
      let projection ← projectionKey working t
      let unresolved ← unresolvedKey working t
      let missingCount ← difference working missingKey
        [.temporary source.key, projection, unresolved]
      Prog.ifThen (0 < missingCount) (renewWorkingSet t lockToken missingKey source)
      Prog.iterate index.fuel (fun start => do
        let scores ← sortedSetScores (.temporary missingKey) start (start + sourceChunkSize - 1)
          false
        if scores = [] then return .inr ()
        let heartbeat := renewWorkingSet t lockToken missingKey source
        heartbeat
        index.hydrateAndStore working t scores heartbeat
        return if scores.length < sourceChunkSize then .inr () else .inl (start + sourceChunkSize))
        0
      return missingCount)
    (deleteQuietly missingKey)

/-! ## Removal -/

/-- `retainedByAnySource` -/
def retainedByAnySource (working : Working) (ids : List String) : Redis (List Bool) := do
  let results ← pipeline working (ids.flatMap fun id => RetainedJobType.cases.map (id, ·))
    fun e => zscore (.source e.2) e.1
  return ids.zipIdx.map fun e =>
    ((results.drop (e.2 * RetainedJobType.cases.length)).take RetainedJobType.cases.length).any
      Option.isSome

/-- Drop the shared metadata of the ids that no source retains any more. -/
def removeUnretainedMetadata (working : Working) (ids : List String) : Redis Unit := do
  let retained ← retainedByAnySource working ids
  Prog.forEach (ids.zip retained) fun e => if e.2 then return () else write [.hdel e.1]

/-- The loop body of `removeUnknownFacetMemberships` for some values of a catalog. -/
def removeMembershipsFromFacets (working : Working) (t : RetainedJobType) (ids : List String)
    (lockToken : Token) (d : FacetDimension) (values : List String) : Redis Unit := do
  renewSynchronizationLock t lockToken
  let facetKeys ← Prog.collect values (facetKey working t d)
  transaction working fun _ => facetKeys.map fun k => .zrem k ids
  let counts ← pipeline working facetKeys sortedSetCount
  let emptyFacets := ((values.zip facetKeys).zip counts).filter fun e => e.2 = 0
  if emptyFacets = [] then return ()
  renewSynchronizationLock t lockToken
  transaction working fun g => emptyFacets.flatMap fun e =>
    [.srem ⟨t, g t, d⟩ e.1.1, .del (.sortedSet e.1.2)]

/-- `removeUnknownFacetMemberships` -/
def removeUnknownFacetMemberships (working : Working) (t : RetainedJobType) (ids : List String)
    (lockToken : Token) : Redis Unit :=
  Prog.forEach FacetDimension.cases fun d => do
    let catalog ← catalogKey working t d
    forCatalogChunks index.fuel catalog (removeMembershipsFromFacets working t ids lockToken d)

/-- The facets of some jobs (`affectedFacets`). -/
def affectedFacets (t : RetainedJobType) (ms : List RetainedJobMetadata) :
    List (FacetDimension × String) :=
  (ms.flatMap fun m => FacetDimension.cases.flatMap fun d =>
    (facetValues t m d).map (d, ·)).eraseDups

/-- The facets of some jobs. -/
theorem mem_affectedFacets {t : RetainedJobType} {ms : List RetainedJobMetadata}
    {f : FacetDimension × String} :
    f ∈ affectedFacets t ms ↔ ∃ m ∈ ms, f.2 ∈ facetValues t m f.1 := by
  rw [affectedFacets, List.mem_eraseDups, List.mem_flatMap]
  refine exists_congr fun m => and_congr_right fun _ => ?_
  obtain ⟨d, value⟩ := f
  rw [List.mem_flatMap]
  constructor
  · rintro ⟨d', -, hmem⟩
    obtain ⟨value', hv, heq⟩ := List.mem_map.mp hmem
    cases heq
    exact hv
  · exact fun hv => ⟨d, FacetDimension.mem_cases d, List.mem_map.mpr ⟨value, hv, rfl⟩⟩

/-- The loop of `removeStaleChunk` over the affected facets with their keys and their counts before
the removal, which tell a facet the removal has emptied from one that was missing. -/
def pruneAffectedFacets (working : Working) (t : RetainedJobType)
    (facets : List (((FacetDimension × String) × SortedSetKey) × ℕ)) : Redis Unit :=
  Prog.forEach facets fun e => do
    if (← sortedSetCount e.1.2) ≠ 0 then return ()
    if e.2 = 0 then return ()
    let catalog ← catalogKey working t e.1.1.1
    write [.srem catalog e.1.1.2]
    write [.del (.sortedSet e.1.2)]

/-- `removeStaleChunk` -/
def removeStaleChunk (working : Working) (t : RetainedJobType) (ids : List String)
    (lockToken : Token) : Redis Unit := do
  let metadataById ← existingMetadata ids
  let idsWithoutMetadata := ids.filter fun id => (metadataById id).isNone
  let facets := affectedFacets t (ids.filterMap metadataById)
  let facetKeys ← Prog.collect facets fun f => facetKey working t f.1 f.2
  let facetCountsBefore ←
    (if facetKeys = [] then return [] else pipeline working facetKeys sortedSetCount)
  transaction working fun g => ids.flatMap fun id => removeJob t (g t) (metadataById id) id
  Prog.ifThen (idsWithoutMetadata ≠ [])
    (index.removeUnknownFacetMemberships working t idsWithoutMetadata lockToken)
  pruneAffectedFacets working t ((facets.zip facetKeys).zip facetCountsBefore)
  removeUnretainedMetadata working ids

/-- `removeStaleJobs` -/
def removeStaleJobs (working : Working) (t : RetainedJobType) (lockToken : Token)
    (source : SourceSnapshot) : Redis Unit := do
  let staleKey ← temporaryKey
  Prog.tryFinally
    (do
      let projection ← projectionKey working t
      let _ ← difference working staleKey [projection, .temporary source.key]
      Prog.iterate index.fuel (fun _ => do
        let ids ← zrange (.temporary staleKey) 0 (sourceChunkSize - 1)
        if ids = [] then return .inr ()
        renewWorkingSet t lockToken staleKey source
        index.removeStaleChunk working t ids lockToken
        write [.zrem (.temporary staleKey) ids]
        return .inl ()) ())
    (deleteQuietly staleKey)

/-- `removeStaleUnresolvedReferences` -/
def removeStaleUnresolvedReferences (working : Working) (t : RetainedJobType) (lockToken : Token)
    (source : SourceSnapshot) : Redis Unit := do
  let staleKey ← temporaryKey
  Prog.tryFinally
    (do
      let unresolved ← unresolvedKey working t
      let _ ← difference working staleKey [unresolved, .temporary source.key]
      Prog.iterate index.fuel (fun _ => do
        let ids ← zrange (.temporary staleKey) 0 (sourceChunkSize - 1)
        if ids = [] then return .inr ()
        renewWorkingSet t lockToken staleKey source
        let unresolved ← unresolvedKey working t
        write [.zrem unresolved ids]
        write [.zrem (.temporary staleKey) ids]
        return .inl ()) ())
    (deleteQuietly staleKey)

/-- `reconcileProjection` -/
def reconcileProjection (working : Working) (t : RetainedJobType) (lockToken : Token)
    (source : SourceSnapshot) : Redis Unit := do
  let sourceCount ← sortedSetCount (.temporary source.key)
  let projectionCount ← sortedSetCount (← projectionKey working t)
  let unresolvedCount ← sortedSetCount (← unresolvedKey working t)
  let missingCount ← index.addMissingJobs working t lockToken source
  -- |coverage - source| = indexed + unresolved + missing - source.
  if sourceCount < projectionCount + unresolvedCount + missingCount then
    index.removeStaleJobs working t lockToken source
    if 0 < unresolvedCount then
      index.removeStaleUnresolvedReferences working t lockToken source

/-! ## Consistency -/

/-- `unionKeysInChunks` -/
def unionKeysInChunks (working : Working) (keys : List SortedSetKey) (heartbeat : Redis Unit) :
    ScopedRedis (Option SortedSetKey) :=
  Scoped.iterate index.fuel (fun keys =>
    if keys.length ≤ 1 then pure (.inr keys.head?)
    else do
      Scoped.lift heartbeat
      let nextKeys ← Scoped.collect (keys.arrayChunk catalogScanChunkSize) fun chunk => do
        Scoped.lift heartbeat
        match chunk with
        | [k] => pure k
        | _ =>
            let unionKey ← Scoped.lift temporaryKey
            Scoped.register unionKey
            Scoped.lift (transaction working fun _ =>
              [.zunionstore (.temporary unionKey) chunk,
                expireTemporary unionKey temporaryKeyTtlSeconds])
            pure (.temporary unionKey)
      pure (.inl nextKeys)) keys.eraseDups

/-- The loop of `catalogPartitionIsExact`: how many members the facets of the values have together,
and the keys of these facets; none as soon as a facet has no members. -/
def countMemberships (working : Working) (t : RetainedJobType) (d : FacetDimension)
    (heartbeat : Redis Unit) :
    List (List String) → ℕ → List SortedSetKey → Redis (Option (ℕ × List SortedSetKey))
  | [], membershipCount, keys => return some (membershipCount, keys)
  | chunk :: chunks, membershipCount, keys => do
      heartbeat
      let facetKeys ← Prog.collect chunk (facetKey working t d)
      let counts ← pipeline working facetKeys sortedSetCount
      if 0 ∈ counts then return none
      let chunkKeys ← Prog.collect chunk (facetKey working t d)
      countMemberships working t d heartbeat chunks (membershipCount + counts.sum)
        (keys ++ chunkKeys)

/-- `catalogPartitionIsExact` -/
def catalogPartitionIsExact (working : Working) (t : RetainedJobType) (d : FacetDimension)
    (projectionCount : ℕ) (heartbeat : Redis Unit) : Redis Bool := do
  heartbeat
  let values : List String ← command (.smembers (← catalogKey working t d))
  if values = [] then return projectionCount = 0
  match ← countMemberships working t d heartbeat (values.arrayChunk catalogScanChunkSize) 0 [] with
  | none => return false
  | some (membershipCount, facetKeys) =>
      if membershipCount ≠ projectionCount then return false
      Scoped.scope deleteQuietly do
        match ← index.unionKeysInChunks working facetKeys heartbeat with
        | none => pure (decide (projectionCount = 0))
        | some unionKey =>
            let outsideProjectionKey ← Scoped.lift temporaryKey
            let missingFromCatalogKey ← Scoped.lift temporaryKey
            Scoped.register outsideProjectionKey
            Scoped.register missingFromCatalogKey
            Scoped.lift do
              heartbeat
              let projection ← projectionKey working t
              let outsideProjectionCount ←
                difference working outsideProjectionKey [unionKey, projection]
              heartbeat
              let projection ← projectionKey working t
              let missingFromCatalogCount ←
                difference working missingFromCatalogKey [projection, unionKey]
              return outsideProjectionCount = 0 && missingFromCatalogCount = 0

/-- `indexStructureIsConsistent` -/
def indexStructureIsConsistent (working : Working) (t : RetainedJobType)
    (requiredFacets : List (FacetDimension × String))
    (requiredCatalogPartitions : List FacetDimension) (heartbeat : Redis Unit) : Redis Bool := do
  heartbeat
  let projectionCount ← sortedSetCount (← projectionKey working t)
  let emptyCatalog ← (if 0 < projectionCount then
      Prog.firstSome (requiredCatalogDimensions t) fun d => do
        heartbeat
        return if (← setCount (← catalogKey working t d)) = 0 then some () else none
    else return none)
  if emptyCatalog.isSome then return false
  let inexactPartition ← Prog.firstSome requiredCatalogPartitions.eraseDups fun d => do
    heartbeat
    if !d.isSingleValued then return some ()
    let exact ← index.catalogPartitionIsExact working t d projectionCount heartbeat
    return if exact then none else some ()
  if inexactPartition.isSome then return false
  let wrongFacet ← Prog.firstSome requiredFacets fun f => do
    heartbeat
    let facetCount ← sortedSetCount (← facetKey working t f.1 f.2)
    let catalogHasMember ← setContains (← catalogKey working t f.1) f.2
    return if decide (0 < facetCount) ≠ catalogHasMember then some () else none
  return wrongFacet.isNone

/-- `indexIsConsistent` -/
def indexIsConsistent (working : Working) (t : RetainedJobType)
    (requiredFacets : List (FacetDimension × String))
    (requiredCatalogPartitions : List FacetDimension) (source : SourceSnapshot)
    (heartbeat : Redis Unit) : Redis Bool := do
  heartbeat
  let coverageGapKey ← temporaryKey
  let coverageIsExact ← Prog.tryFinally
    (do
      let projection ← projectionKey working t
      let unresolved ← unresolvedKey working t
      let gap ← difference working coverageGapKey
        [.temporary source.key, projection, unresolved]
      return decide (gap = 0))
    (deleteQuietly coverageGapKey)
  if !coverageIsExact then return false
  let projectionCount ← sortedSetCount (← projectionKey working t)
  let unresolvedCount ← sortedSetCount (← unresolvedKey working t)
  let sourceCount ← sortedSetCount (.temporary source.key)
  if projectionCount + unresolvedCount ≠ sourceCount then return false
  index.indexStructureIsConsistent working t requiredFacets requiredCatalogPartitions heartbeat

/-! ## Rebuilding -/

/-- `deleteIndexKeys` -/
def deleteIndexKeys (t : RetainedJobType) (lockToken : Token) (source : SourceSnapshot)
    (keys : List Key) : Redis Unit :=
  Prog.forEach (keys.eraseDups.arrayChunk catalogScanChunkSize) fun chunk => do
    renewSynchronizationState t lockToken source
    write (chunk.map .del)

/-- `rebuildTypeIndex` -/
def rebuildTypeIndex (working : Working) (t : RetainedJobType) (lockToken : Token)
    (requiredFacets : List (FacetDimension × String)) (source : SourceSnapshot) : Redis Unit := do
  let projection ← projectionKey working t
  let unresolved ← unresolvedKey working t
  deleteIndexKeys t lockToken source [.sortedSet projection, .sortedSet unresolved]
  Prog.forEach FacetDimension.cases fun d => do
    let catalog ← catalogKey working t d
    forCatalogChunks index.fuel catalog fun values => do
      let facetKeys ← Prog.collect values (facetKey working t d)
      deleteIndexKeys t lockToken source (facetKeys.map .sortedSet)
    let catalog ← catalogKey working t d
    deleteIndexKeys t lockToken source [.catalog catalog]
  let facetKeys ← Prog.collect requiredFacets fun f => facetKey working t f.1 f.2
  deleteIndexKeys t lockToken source (facetKeys.map .sortedSet)
  let _ ← index.addMissingJobs working t lockToken source
  renewSynchronizationState t lockToken source

/-- `synchronizeSnapshotUnderLock` -/
def synchronizeSnapshotUnderLock (working : Working) (t : RetainedJobType) (lockToken : Token)
    (source : SourceSnapshot) (requiredFacets : List (FacetDimension × String))
    (requiredCatalogPartitions : List FacetDimension) (heartbeat : Redis Unit)
    (allowIncomplete : Bool) : Redis Unit := do
  index.reconcileProjection working t lockToken source
  heartbeat
  let consistent ← Prog.inside (.inspecting working requiredFacets requiredCatalogPartitions)
    (index.indexStructureIsConsistent working t requiredFacets requiredCatalogPartitions heartbeat)
  Prog.ifThen (!consistent) (index.rebuildTypeIndex working t lockToken requiredFacets source)
  let _ ← Prog.firstSome (List.range postRebuildReconciliationAttempts) fun _ => do
    if ← index.indexIsConsistent working t requiredFacets requiredCatalogPartitions source
      heartbeat then return some ()
    index.reconcileProjection working t lockToken source
    heartbeat
    return none
  if ← index.indexIsConsistent working t requiredFacets requiredCatalogPartitions source
    heartbeat then return ()
  if allowIncomplete then return ()
  throwRuntime "The retained job index could not be synchronized."

/-! ## Generations -/

/-- `deleteGeneration` -/
def deleteGeneration (t : RetainedJobType) (g : Generation) (heartbeat : Redis Unit) :
    Redis Unit := do
  Prog.forEach FacetDimension.cases fun d => do
    forCatalogChunks index.fuel ⟨t, g, d⟩ fun values => do
      heartbeat
      write (values.map fun value => .del (.sortedSet (.facet t g d value)))
    write [.del (.catalog ⟨t, g, d⟩)]
  heartbeat
  write [.del (.sortedSet (.projection t g)), .del (.sortedSet (.unresolved t g)),
    .del (.initialized t g)]

/-- The generation that is not published: the first one unless that is published. -/
def workingGenerationFor (published : Generation) : Generation :=
  if published = .a then .b else .a

/-- The working generation is not the published one. -/
theorem workingGenerationFor_ne (published : Generation) :
    workingGenerationFor published ≠ published := by
  cases published <;> decide

/-- The working generation is never the legacy one. -/
theorem workingGenerationFor_ne_legacy (published : Generation) :
    workingGenerationFor published ≠ .legacy := by
  cases published <;> decide

/-- The part of `prepareWorkingGeneration` that follows the choice of the working generation: a
slot that is not initialized is emptied and takes over the unresolved references. -/
def initializeWorkingGeneration (t : RetainedJobType)
    (publishedGeneration workingGeneration : Generation) (heartbeat : Redis Unit) :
    Redis Unit := do
  let initialized : Bool ← command (.getInitialized t workingGeneration)
  if initialized then return ()
  index.deleteGeneration t workingGeneration heartbeat
  heartbeat
  transaction (some (t, workingGeneration)) fun _ =>
    [.zunionstore (.unresolved t workingGeneration) [.unresolved t publishedGeneration]]
  command (.setInitialized t workingGeneration)

/-- `prepareWorkingGeneration`: the working generation. -/
def prepareWorkingGeneration (t : RetainedJobType) (heartbeat : Redis Unit) :
    Redis Generation := do
  let publishedGeneration := generationFromPublishedState (← publishedState t)
  let workingGeneration := workingGenerationFor publishedGeneration
  index.initializeWorkingGeneration t publishedGeneration workingGeneration heartbeat
  return workingGeneration

/-- `publishGenerationState` -/
def publishGenerationState (t : RetainedJobType) (g : Generation) (revision : Token) :
    Redis Unit := do
  Prog.ifThen (g = .legacy) (command (.setRevision t revision))
  command (.setPublished t ⟨g, revision⟩)

/-- `removeUnretainedMetadataFromGeneration` -/
def removeUnretainedMetadataFromGeneration (working : Working) (t : RetainedJobType)
    (g : Generation) (lockToken : Token) (source : SourceSnapshot) : Redis Unit := do
  let staleKey ← temporaryKey
  Prog.tryFinally
    (do
      let _ ← difference working staleKey [.projection t g, .temporary source.key]
      Prog.iterate index.fuel (fun _ => do
        let ids ← zrange (.temporary staleKey) 0 (sourceChunkSize - 1)
        if ids = [] then return .inr ()
        renewWorkingSet t lockToken staleKey source
        removeUnretainedMetadata working ids
        write [.zrem (.temporary staleKey) ids]
        return .inl ()) ())
    (deleteQuietly staleKey)

/-- `publishWorkingGeneration` -/
def publishWorkingGeneration (working : Working) (t : RetainedJobType) (g : Generation)
    (lockToken : Token) (source : SourceSnapshot) : Redis Unit := do
  let replacedGeneration ← Prog.inside (.synchronizing t lockToken) do
    let replacedGeneration := generationFromPublishedState (← publishedState t)
    publishGenerationState t g (← randomToken)
    return replacedGeneration
  -- Shared metadata is cleaned again when the old slot is reused.
  (index.removeUnretainedMetadataFromGeneration working t replacedGeneration lockToken
    source).tryCatch fun _ => return ()

/-- `ensureSynchronizationRevision` -/
def ensureSynchronizationRevision (t : RetainedJobType) : Redis Unit := do
  match ← publishedStateIn [.ensuring t] t with
  | some _ => return ()
  | none => Prog.inside (.ensuring t) do
      publishGenerationState t .legacy (← randomToken)

/-! ## Whole synchronizations -/

/-- `synchronizeSnapshot`; `synchronized` is the index object's memory of an earlier success. -/
def synchronizeSnapshot (synchronized : Bool) (t : RetainedJobType) (source : SourceSnapshot)
    (force : Bool) (requiredFacets : List (FacetDimension × String))
    (requiredCatalogPartitions : List FacetDimension) : Redis Unit := do
  let isConsistent := index.indexIsConsistent none t requiredFacets requiredCatalogPartitions
    source (renewSourceSnapshot source)
  if ← (if !force && synchronized then isConsistent else return false) then return ()
  assertNamespaceOwnership
  if ← (if !force then isConsistent else return false) then return ()
  match ← acquireSynchronizationLock t with
  | none =>
      if ← (if force then return true else return !(← isConsistent)) then
        throwRuntime "The retained job index is currently warming."
  | some lockToken =>
      let heartbeat := renewSynchronizationState t lockToken source
      Prog.tryFinally
        (do
          let g ← Prog.inside (.synchronizing t lockToken) do
            let g ← index.prepareWorkingGeneration t heartbeat
            index.synchronizeSnapshotUnderLock (some (t, g)) t lockToken source requiredFacets
              requiredCatalogPartitions heartbeat false
            return g
          index.publishWorkingGeneration (some (t, g)) t g lockToken source)
        (releaseSynchronizationLock t lockToken)

/-- `trimSource` -/
def trimSource (t : RetainedJobType) : Redis Unit :=
  if t = .failed then command .trimFailedJobs else command .trimRecentJobs

/-- `materializeSourceSnapshot` -/
def materializeSourceSnapshot (working : Working) (t : RetainedJobType) : Redis SourceSnapshot := do
  let sourceSnapshotKey ← temporaryKey
  transaction working fun _ =>
    [intersect sourceSnapshotKey [(.source t, 1)],
      expireTemporary sourceSnapshotKey synchronizationLockSeconds]
  return ⟨sourceSnapshotKey, ← sortedSetCount (.temporary sourceSnapshotKey)⟩

/-- `refreshSourceSnapshot` -/
def refreshSourceSnapshot (working : Working) (t : RetainedJobType) (snapshot : SourceSnapshot)
    (heartbeat : Redis Unit) : Redis SourceSnapshot := do
  let additionsKey ← temporaryKey
  let removalsKey ← temporaryKey
  let source : SortedSetKey := .source t
  let snapshotKey : SortedSetKey := .temporary snapshot.key
  let renewals := [expireTemporary additionsKey temporaryKeyTtlSeconds,
    expireTemporary removalsKey temporaryKeyTtlSeconds,
    expireTemporary snapshot.key synchronizationLockSeconds]
  Prog.tryFinally
    (do
      transaction working fun _ =>
        [.zdiffstore (.temporary additionsKey) [source, snapshotKey],
          .zdiffstore (.temporary removalsKey) [snapshotKey, source],
          expireTemporary additionsKey temporaryKeyTtlSeconds,
          expireTemporary removalsKey temporaryKeyTtlSeconds]
      heartbeat
      Prog.iterate index.fuel (fun _ => do
        let scores ← sortedSetScores (.temporary additionsKey) 0 (sourceChunkSize - 1) false
        if scores = [] then return .inr ()
        heartbeat
        transaction working fun _ =>
          scores.map (fun e => .zadd snapshotKey e.2 e.1) ++
            .zrem (.temporary additionsKey) (scores.map Prod.fst) :: renewals
        return .inl ()) ()
      Prog.iterate index.fuel (fun _ => do
        let ids ← zrange (.temporary removalsKey) 0 (sourceChunkSize - 1)
        if ids = [] then return .inr ()
        heartbeat
        transaction working fun _ =>
          .zrem snapshotKey ids :: .zrem (.temporary removalsKey) ids :: renewals
        return .inl ()) ()
      let refreshed : SourceSnapshot := ⟨snapshot.key, ← sortedSetCount snapshotKey⟩
      renewSourceSnapshot refreshed
      return refreshed)
    (do
      deleteQuietly additionsKey
      deleteQuietly removalsKey)

/-- `synchronizeGrowingSourceSnapshot`: the snapshot with the count recorded for it last. -/
def synchronizeGrowingSourceSnapshot (t : RetainedJobType) (source : SourceSnapshot)
    (requiredFacets : List (FacetDimension × String))
    (requiredCatalogPartitions : List FacetDimension) : Redis SourceSnapshot := do
  assertNamespaceOwnership
  match ← acquireSynchronizationLock t with
  | none => throwRuntime "The retained job index is currently warming."
  | some lockToken =>
      let heartbeat := renewSynchronizationState t lockToken source
      Prog.tryFinally
        (do
          let (g, source) ← Prog.inside (.synchronizing t lockToken) do
            let g ← index.prepareWorkingGeneration t heartbeat
            index.synchronizeSnapshotUnderLock (some (t, g)) t lockToken source requiredFacets
              requiredCatalogPartitions heartbeat true
            trimSource t
            let source ← index.refreshSourceSnapshot (some (t, g)) t source heartbeat
            -- The heartbeat reads the recorded count, which the refresh has replaced.
            let heartbeat := renewSynchronizationState t lockToken source
            index.synchronizeSnapshotUnderLock (some (t, g)) t lockToken source requiredFacets
              requiredCatalogPartitions heartbeat false
            return (g, source)
          index.publishWorkingGeneration (some (t, g)) t g lockToken source
          return source)
        (releaseSynchronizationLock t lockToken)

/-- `synchronizedSourceSnapshot`; `trimmed` and `synchronized` are the index object's memory
(`trimmedSources`, `synchronized`). -/
def synchronizedSourceSnapshot (trimmed synchronized : Bool) (t : RetainedJobType) (force : Bool)
    (requiredFacets : List (FacetDimension × String))
    (requiredCatalogPartitions : List FacetDimension) : ScopedRedis SourceSnapshot := do
  Scoped.lift (if force || !trimmed then trimSource t else return ())
  let sourceSnapshot ← Scoped.lift (materializeSourceSnapshot none t)
  Scoped.register sourceSnapshot.key
  Scoped.lift do
    let consistent ← (if !force then
        index.indexIsConsistent none t requiredFacets requiredCatalogPartitions sourceSnapshot
          (renewSourceSnapshot sourceSnapshot)
      else return false)
    if consistent then
      trimSource t
      let refreshed ← index.refreshSourceSnapshot none t sourceSnapshot
        (renewSourceSnapshot sourceSnapshot)
      index.synchronizeSnapshot synchronized t refreshed false requiredFacets
        requiredCatalogPartitions
      return refreshed
    index.synchronizeGrowingSourceSnapshot t sourceSnapshot requiredFacets
      requiredCatalogPartitions

/-- `synchronize` -/
def synchronize (trimmed synchronized : Bool) (t : RetainedJobType) (force : Bool)
    (requiredFacets : List (FacetDimension × String))
    (requiredCatalogPartitions : List FacetDimension) : Redis Unit :=
  Scoped.scope deleteQuietly do
    let _ ← index.synchronizedSourceSnapshot trimmed synchronized t force requiredFacets
      requiredCatalogPartitions
    Scoped.lift (ensureSynchronizationRevision t)

end RetainedJobIndex

end HorizonNewDawn

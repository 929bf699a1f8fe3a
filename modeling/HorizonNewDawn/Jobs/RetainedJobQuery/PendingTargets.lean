import HorizonNewDawn.Jobs.RetainedJobQuery
import Mathlib

/-! # The targets of the pending jobs

Which jobs are reserved and which are delayed is read off the queues that the published target catalog
names. In a store that stays as it is the query finds the jobs of these queues (`eval_reservedIds`,
`eval_delayedOrderingScores`); jobs of a queue that no value of the catalog names are not found. -/

namespace HorizonNewDawn

open Program SortedSet RetainedJobIndex PendingStates PendingJobStateIndex

namespace RetainedJobQuery

variable {query : RetainedJobQuery} {states : PendingStates} {scan : ScanOrder} {i : ProcessId}
  {s s' : Store} {filters : JobIndexFiltersData}

/-! ## The targets of the catalog -/

/-- What the index encodes is decoded again. -/
theorem targetOf_encodeStrings (connection queue : String) :
    targetOf (Json.encodeStrings [connection, queue]) = some ⟨connection, queue⟩ := by
  have htext : (Json.encodeStrings [connection, queue]).toList =
      Json.spell (.arr [.str connection, .str queue]) := by
    simp [Json.encodeStrings, Json.spell, Json.spellValues, Json.spellString]
  have hspellable : Json.Spellable 512 (.arr [.str connection, .str queue]) := by
    apply Json.Spellable.arr
    intro v hv
    rcases List.mem_pair.mp hv with rfl | rfl <;> exact .str _
  have hkeys : Php.listKeys 2 = ["0", "1"] := by decide
  rw [targetOf, htext, Json.read_spell hspellable]
  simp [Php.jsonDecode, Php.jsonDecodeValues, hkeys, Php.entry, Php.get]

/-- **The target of a job** is its connection and its queue. -/
theorem targetOf_targetValue (m : RetainedJobMetadata) :
    targetOf m.targetValue = some ⟨m.connection, m.queue⟩ := targetOf_encodeStrings _ _

/-! ## The jobs of the queues -/

/-- The targets the published catalog names. -/
def targetsAt (s : Store) (filters : JobIndexFiltersData) : List Target :=
  targetsOf filters (s.catalog ⟨.pending, s.publishedGeneration .pending, .target⟩)

/-- The ids of the reserved jobs of a queue. -/
def reservedIn (queue : PendingJobStateIndex.Queue ℚ) : List String :=
  queue.reserved.entries.filterMap fun e => jobId (decodePayload e.1)

/-- The reserved jobs of the targets. -/
def reservedAt (s : Store) (filters : JobIndexFiltersData) : List String :=
  (snapshotsAt s (targetsAt s filters)).flatMap fun target => reservedIn target.2.1

/-- The delayed jobs of the targets, with the times they become available. -/
def delayedAt (s : Store) (filters : JobIndexFiltersData) : List (String × ℚ) :=
  Assignments.collapse
    ((snapshotsAt s (targetsAt s filters)).flatMap fun target => delayedScores target.2.1 target.2.2)

/-- The target catalog is published, and the targets have Redis queues whose sorted sets can be
scanned. -/
structure Scanned (states : PendingStates) (filters : JobIndexFiltersData) (s : Store) : Prop where
  published : (s.publishedState .pending).isSome
  queues : ∀ target ∈ targetsAt s filters, ∃ queue asOf,
    s.queues target.connection target.queue = some (queue, asOf) ∧ queue.Scannable states.isFinite

/-- A delayed job is listed once. -/
theorem nodup_delayedAt : ((delayedAt s filters).map Prod.fst).Nodup := Assignments.nodup_collapse

/-- A target has a Redis queue. -/
theorem Scanned.isSome (h : Scanned states filters s) {target : Target}
    (htarget : target ∈ targetsAt s filters) :
    (s.queues target.connection target.queue).isSome := by
  obtain ⟨queue, asOf, hqueue, -⟩ := h.queues target htarget
  rw [hqueue]
  rfl

/-- The sorted sets of the targets can be scanned. -/
theorem Scanned.scannable (h : Scanned states filters s) :
    ∀ target ∈ snapshotsAt s (targetsAt s filters), target.2.1.Scannable states.isFinite := by
  intro target htarget
  obtain ⟨x, hx, hsnapshot⟩ := List.mem_filterMap.mp htarget
  obtain ⟨queue, asOf, hqueue, hscannable⟩ := h.queues x hx
  rw [hqueue] at hsnapshot
  cases hsnapshot
  exact hscannable

/-- The entries of the reserved state are the reserved jobs. -/
theorem ids_reserved {toFloat : Php → Option ℚ}
    {targets : List (Target × PendingJobStateIndex.Queue ℚ × ℚ)} :
    (targets.flatMap fun t => ((groups toFloat t.2.1 t.2.2).filter fun group =>
        group.1 = .reserved).flatMap (jobs t.1)).map Entry.id =
      targets.flatMap fun t => reservedIn t.2.1 := by
  rw [List.map_flatMap]
  congr 1
  funext t
  -- Of the five groups one is that of the reserved set.
  simp [groups, jobs, reservedIn, List.filterMap_map, List.map_filterMap,
    Function.comp_def]

/-! ## What the query finds -/

/-- The values of a catalog that is published and stays so. -/
theorem eval_catalogValuesFromPublishedIndex (hs : s.failing = false) {t : RetainedJobType}
    (hpublished : (s.publishedState t).isSome) (d : FacetDimension) :
    (catalogValuesFromPublishedIndex t d).eval (exec scan i) s =
      (.returned (s.catalog ⟨t, s.publishedGeneration t, d⟩), s) := by
  obtain ⟨p, hp⟩ := Option.isSome_iff_exists.mp hpublished
  have hgeneration : s.publishedGeneration t = p.generation := congrArg generationFromPublishedState hp
  have hvalues : (command (.smembers ⟨t, p.generation, d⟩)).eval (exec scan i) s =
      (.returned (s.catalog ⟨t, p.generation, d⟩), s) := eval_command hs _
  rw [catalogValuesFromPublishedIndex, Prog.eval_bind_of (eval_publishedState hs t), hp]
  apply (Prog.eval_bind_of hvalues).trans
  apply (Prog.eval_bind_of (eval_publishedState hs t)).trans
  rw [hp, hgeneration]
  simp only [ne_eq, not_true_eq_false, if_false]
  rfl

/-- **The targets** are those of the published catalog. -/
theorem eval_pendingTargets (hs : s.failing = false) (h : Scanned states filters s) :
    (query.pendingTargets .pending filters).eval (exec scan i) s =
      (.returned (targetsAt s filters), s) := by
  have hcatalog : (query.pendingTargetCatalogValues .pending).eval (exec scan i) s =
      (.returned (s.catalog ⟨.pending, s.publishedGeneration .pending, .target⟩), s) :=
    Prog.eval_tryCatch_of (eval_catalogValuesFromPublishedIndex hs h.published .target)
  exact Prog.eval_bind_of hcatalog

/-- **The reserved ids** are those of the reserved jobs of the targets. -/
theorem eval_reservedIds (hstates : query.pendingStates = some states) (hs : s.failing = false)
    (h : Scanned states filters s) :
    (query.reservedIds filters).eval (exec scan i) s =
      (.returned (arrayKeys (reservedAt s filters)), s) := by
  have hentries : PendingJobStateIndex.matchingEntries states.toFloat states.isFinite
      (snapshotsAt s (targetsAt s filters)) .reserved = .ok _ := matchingEntries_ok h.scannable
  rw [RetainedJobQuery.reservedIds, hstates]
  simp only [matchingIds]
  rw [Prog.eval_bind_of (eval_pendingTargets hs h),
    Prog.eval_bind_of (eval_matchingEntries hs (fun _ => h.isSome) rfl hentries)]
  exact congrArg (fun ids => (Outcome.returned (arrayKeys ids), s)) ids_reserved

/-- The scores the delayed ids that are not excluded are ranked by. -/
def orderingScores (delayed : List (String × ℚ)) (excludeIds : List String) : List (String × ℚ) :=
  (delayed.filter fun e => e.1 ∉ excludeIds).map fun e => (e.1, -e.2)

/-- **The delayed jobs** are those of the targets. -/
theorem eval_delayedOrderingScores (hstates : query.pendingStates = some states)
    (hs : s.failing = false) (h : Scanned states filters s) (excludeIds : List String) :
    (query.delayedOrderingScores filters excludeIds).eval (exec scan i) s =
      (.returned (orderingScores (delayedAt s filters) excludeIds), s) := by
  have hscores : PendingJobStateIndex.delayedAvailabilityScores states.isFinite
      (snapshotsAt s (targetsAt s filters)) = .ok (delayedAt s filters) :=
    delayedAvailabilityScores_ok h.scannable
  rw [RetainedJobQuery.delayedOrderingScores, hstates]
  simp only
  rw [Prog.eval_bind_of (eval_pendingTargets hs h),
    Prog.eval_bind_of (eval_delayedAvailabilityScores hs (fun _ => h.isSome) hscores)]
  rfl

end RetainedJobQuery

end HorizonNewDawn

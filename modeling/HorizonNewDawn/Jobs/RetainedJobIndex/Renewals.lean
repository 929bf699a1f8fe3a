import HorizonNewDawn.Jobs.RetainedJobIndex.Footprint
import HorizonNewDawn.Program.Heeds
import Mathlib

/-! # A refused renewal ends a synchronization

The renewal of a lock compares the token and is refused when the lease has lapsed. Every function of the
critical section heeds this: after a refused renewal it throws, whatever Redis answers then
(`Heeding`). -/

namespace HorizonNewDawn

open Program

/-- The renewal of a lock that is refused. -/
def Refused : (c : Command) → c.Reply → Prop
  | .renewLock _ _ _, some renewed => (show Bool from renewed) = false
  | _, _ => False

/-- After a refused renewal the program has no result. -/
def Heeding {α : Type} (p : Redis α) : Prop := Heeds Refused p

/-- After a refused renewal the scoped program ends with an exception. -/
def ScopedHeeding {α : Type} (p : ScopedRedis α) : Prop := Scoped.Heeds Refused p

/-- A command that is no renewal is not refused. -/
theorem not_refused {c : Command} (h : ∀ t token seconds, c ≠ .renewLock t token seconds)
    (x : c.Reply) : ¬Refused c x := by
  cases c with
  | renewLock t token seconds => exact absurd rfl (h t token seconds)
  | _ => cases x <;> exact id

namespace Heeding

variable {α β σ : Type} {p : Redis α}

/-- A result. -/
theorem ret {a : α} : Heeding (return a : Redis α) := trivial

/-- An exception. -/
theorem throwRuntime {message : String} : Heeding (throwRuntime message : Redis α) := trivial

/-- Sequencing. -/
theorem bind {f : α → Redis β} (h : Heeding p) (hf : ∀ a, Heeding (f a)) : Heeding (p >>= f) :=
  Heeds.bind h hf

/-- A section. -/
theorem inside {l : Section} (h : Heeding p) : Heeding (p.inside l) := Heeds.inside h

/-- `try … finally …` -/
theorem tryFinally {cleanup : Redis Unit} (h : Heeding p) (hc : Heeding cleanup) :
    Heeding (p.tryFinally cleanup) :=
  Heeds.tryFinally h hc

/-- A branch. -/
theorem ite {c : Prop} [Decidable c] {q : Redis α} (h : Heeding p) (h' : Heeding q) :
    Heeding (if c then p else q) :=
  Heeds.ite h h'

/-- `if` without an alternative. -/
theorem ifThen {c : Prop} [Decidable c] {p : Redis Unit} (h : Heeding p) :
    Heeding (Prog.ifThen c p) :=
  Heeds.ifThen h

/-- A loop over a list. -/
theorem forEach {as : List α} {body : α → Redis Unit} (h : ∀ a, Heeding (body a)) :
    Heeding (Prog.forEach as body) :=
  Heeds.forEach h

/-- A collecting loop over a list. -/
theorem collect {as : List α} {body : α → Redis β} (h : ∀ a, Heeding (body a)) :
    Heeding (Prog.collect as body) :=
  Heeds.collect h

/-- A search through a list. -/
theorem firstSome {as : List α} {body : α → Redis (Option β)} (h : ∀ a, Heeding (body a)) :
    Heeding (Prog.firstSome as body) :=
  Heeds.firstSome h

/-- A bounded loop. -/
theorem iterate {fuel : ℕ} {body : σ → Redis (σ ⊕ α)} {s : σ} (h : ∀ s, Heeding (body s)) :
    Heeding (Prog.iterate fuel body s) :=
  Heeds.iterate h

/-- A command that is no renewal. -/
theorem command {c : Command} (h : ∀ t token seconds, c ≠ .renewLock t token seconds) :
    Heeding (HorizonNewDawn.command c) := by
  intro x
  constructor
  · cases x <;> trivial
  · exact fun hrefused => absurd hrefused (not_refused h x)

/-- A block of writes. -/
theorem write {ws : List Write} : Heeding (HorizonNewDawn.write ws) := command (by simp)

end Heeding

namespace ScopedHeeding

variable {α β σ : Type} {p : ScopedRedis α}

/-- A result. -/
theorem pure {a : α} : ScopedHeeding (Pure.pure a : ScopedRedis α) := Scoped.Heeds.pure

/-- Sequencing. -/
theorem bind {f : α → ScopedRedis β} (h : ScopedHeeding p) (hf : ∀ a, ScopedHeeding (f a)) :
    ScopedHeeding (p >>= f) :=
  Scoped.Heeds.bind h hf

/-- A program that registers nothing. -/
theorem lift {p : Redis α} (h : Heeding p) : ScopedHeeding (Scoped.lift p) := Scoped.Heeds.lift h

/-- Registering a temporary key. -/
theorem register {k : Token} : ScopedHeeding (Scoped.register k) := Scoped.Heeds.register

/-- A collecting loop over a list. -/
theorem collect {as : List α} {body : α → ScopedRedis β} (h : ∀ a, ScopedHeeding (body a)) :
    ScopedHeeding (Scoped.collect as body) :=
  Scoped.Heeds.collect h

/-- A bounded loop. -/
theorem iterate {fuel : ℕ} {body : σ → ScopedRedis (σ ⊕ α)} {s : σ}
    (h : ∀ s, ScopedHeeding (body s)) : ScopedHeeding (Scoped.iterate fuel body s) :=
  Scoped.Heeds.iterate h

/-- A scope. -/
theorem scope {cleanup : Token → Redis Unit} (h : ScopedHeeding p) (hc : ∀ k, Heeding (cleanup k)) :
    Heeding (Scoped.scope cleanup p) :=
  Scoped.Heeds.scope h hc

end ScopedHeeding

namespace RetainedJobIndex

variable {t : RetainedJobType} {working : Working} {source : SourceSnapshot} {token k : Token}
  {g : Generation} {ids : List String}

/-! ## Programs without a renewal -/

/-- The published state is read without a renewal. -/
theorem publishedState_heeding : Heeding (publishedState t) := by
  apply Heeding.bind (.command (by simp))
  intro state
  cases state with
  | some state => exact .ret
  | none => exact Heeding.bind (.command (by simp)) fun _ => .ret

/-- So is the current generation. -/
theorem currentGeneration_heeding : Heeding (currentGeneration working t) := by
  have hread : Heeding (currentGeneration.readPublished t) :=
    publishedState_heeding.bind fun _ => .ret
  unfold currentGeneration
  split
  · exact .ite .ret hread
  · exact hread

/-- So are the generations of all types. -/
theorem withAtomicGenerationSnapshot_heeding : Heeding (withAtomicGenerationSnapshot working) :=
  currentGeneration_heeding.bind fun _ => currentGeneration_heeding.bind fun _ =>
    currentGeneration_heeding.bind fun _ => currentGeneration_heeding.bind fun _ => .ret

/-- A transaction renews nothing. -/
theorem transaction_heeding {ws : (RetainedJobType → Generation) → List Write} :
    Heeding (transaction working ws) :=
  withAtomicGenerationSnapshot_heeding.bind fun _ => .write

/-- A pipeline heeds what its reads heed. -/
theorem pipeline_heeding {α β : Type} {as : List α} {read : α → Redis β}
    (h : ∀ a, Heeding (read a)) : Heeding (pipeline working as read) :=
  withAtomicGenerationSnapshot_heeding.bind fun _ => .collect h

/-- A count renews nothing. -/
theorem sortedSetCount_heeding {k : SortedSetKey} : Heeding (sortedSetCount k) := .command (by simp)

/-- A range renews nothing. -/
theorem zrange_heeding {k : SortedSetKey} {start stop : ℕ} : Heeding (zrange k start stop) :=
  Heeding.bind (.command (by simp)) fun _ => .ret

/-- A range with scores renews nothing. -/
theorem sortedSetScores_heeding {k : SortedSetKey} {start stop : ℕ} {reverse : Bool} :
    Heeding (sortedSetScores k start stop reverse) := by
  cases reverse <;> exact Heeding.bind (.command (by simp)) fun _ => .ret

/-- A fresh token renews nothing. -/
theorem randomToken_heeding : Heeding randomToken := .command (by simp)

/-- The key of the projection is found without a renewal. -/
theorem projectionKey_heeding : Heeding (projectionKey working t) :=
  currentGeneration_heeding.bind fun _ => .ret

/-- So is the key of the unresolved references. -/
theorem unresolvedKey_heeding : Heeding (unresolvedKey working t) :=
  currentGeneration_heeding.bind fun _ => .ret

/-- So is the key of a facet. -/
theorem facetKey_heeding {d : FacetDimension} {value : String} :
    Heeding (facetKey working t d value) :=
  currentGeneration_heeding.bind fun _ => .ret

/-- So is the key of a catalog. -/
theorem catalogKey_heeding {d : FacetDimension} : Heeding (catalogKey working t d) :=
  currentGeneration_heeding.bind fun _ => .ret

/-- Metadata is read without a renewal. -/
theorem existingMetadata_heeding : Heeding (existingMetadata ids) := by
  unfold existingMetadata
  apply Heeding.ite .ret
  apply Heeding.bind (.command (by simp))
  intro (n : ℕ)
  apply Heeding.ite .ret
  apply Heeding.bind _ fun _ => .ret
  exact Heeding.collect fun _ => Heeding.bind (.command (by simp)) fun _ => .ret

/-- The iteration over a catalog heeds what its body heeds. -/
theorem forCatalogChunks_heeding {fuel : ℕ} {k : CatalogKey} {body : List String → Redis Unit}
    (h : ∀ values, Heeding (body values)) : Heeding (forCatalogChunks fuel k body) := by
  apply Heeding.iterate
  intro cursor
  apply Heeding.bind (.command (by simp))
  exact fun _ => (Heeding.forEach h).bind fun _ => .ret

/-- Metadata is removed without a renewal. -/
theorem removeUnretainedMetadata_heeding : Heeding (removeUnretainedMetadata working ids) := by
  have hscore : ∀ k id, Heeding (zscore k id) := fun _ _ => .command (by simp)
  apply Heeding.bind
  · exact (pipeline_heeding fun _ => hscore _ _).bind fun _ => .ret
  · exact fun _ => .forEach fun _ => .ite .ret .write

/-- A key that cannot be deleted is left to its expiry: nothing is renewed there. -/
theorem deleteQuietly_heeding : Heeding (deleteQuietly k) := by
  apply Heeds.tryCatch
  · exact ⟨not_refused (by simp), fun x _ => by cases x <;> trivial⟩
  · exact fun _ => trivial

/-- A difference renews nothing. -/
theorem difference_heeding {keys : List SortedSetKey} : Heeding (difference working k keys) :=
  transaction_heeding.bind fun _ => sortedSetCount_heeding

/-- Trimming renews nothing. -/
theorem trimSource_heeding : Heeding (trimSource t) := .ite (.command (by simp)) (.command (by simp))

/-! ## Renewals -/

/-- The renewal of the source snapshot is none of the lock. -/
theorem renewSourceSnapshot_heeding : Heeding (renewSourceSnapshot source) := by
  apply Heeding.bind (.command (by simp))
  intro (renewed : Bool)
  exact .ite .ret (.ite .ret .throwRuntime)

/-- **A refused renewal is an exception.** -/
theorem renewSynchronizationLock_heeding : Heeding (renewSynchronizationLock t token) := by
  intro x
  cases x with
  | none => exact ⟨trivial, fun hrefused => absurd hrefused id⟩
  | some renewed =>
      cases (show Bool from renewed) with
      | false => exact ⟨trivial, fun _ => trivial⟩
      | true =>
          constructor
          · trivial
          · intro hrefused
            cases (show true = false from hrefused)

/-- The renewal of a synchronization heeds the one of the lock. -/
theorem renewSynchronizationState_heeding : Heeding (renewSynchronizationState t token source) :=
  renewSourceSnapshot_heeding.bind fun _ => renewSynchronizationLock_heeding

/-- So does the renewal of a working set. -/
theorem renewWorkingSet_heeding : Heeding (renewWorkingSet t token k source) := by
  have hrest : Heeding (renewSourceSnapshot source >>= fun _ => renewSynchronizationLock t token) :=
    renewSourceSnapshot_heeding.bind fun _ => renewSynchronizationLock_heeding
  exact Heeding.bind (.command (by simp)) fun _ => .ite .throwRuntime hrest

variable (index : RetainedJobIndex) {heartbeat : Redis Unit}
  {requiredFacets : List (FacetDimension × String)}
  {requiredCatalogPartitions : List FacetDimension} {d : FacetDimension}

/-! ## Consistency -/

/-- A union by chunks heeds its heartbeat. -/
theorem unionKeysInChunks_heeding (hh : Heeding heartbeat) {keys : List SortedSetKey} :
    ScopedHeeding (index.unionKeysInChunks working keys heartbeat) := by
  apply ScopedHeeding.iterate
  intro keys
  split
  · exact .pure
  · apply (ScopedHeeding.lift hh).bind
    intro _
    apply ScopedHeeding.bind _ fun _ => .pure
    apply ScopedHeeding.collect
    intro chunk
    apply (ScopedHeeding.lift hh).bind
    intro _
    split
    · exact .pure
    · apply (ScopedHeeding.lift randomToken_heeding).bind
      intro k
      apply ScopedHeeding.register.bind
      exact fun _ => (ScopedHeeding.lift transaction_heeding).bind fun _ => .pure

/-- So does the counting of memberships. -/
theorem countMemberships_heeding (hh : Heeding heartbeat) {chunks : List (List String)} {n : ℕ}
    {keys : List SortedSetKey} :
    Heeding (countMemberships working t d heartbeat chunks n keys) := by
  induction chunks generalizing n keys with
  | nil => exact .ret
  | cons chunk chunks ih =>
      apply hh.bind
      intro _
      apply (Heeding.collect fun _ => facetKey_heeding).bind
      intro _
      apply (pipeline_heeding fun _ => sortedSetCount_heeding).bind
      exact fun _ => .ite .ret ((Heeding.collect fun _ => facetKey_heeding).bind fun _ => ih)

/-- So does the check of a catalog. -/
theorem catalogPartitionIsExact_heeding (hh : Heeding heartbeat) {n : ℕ} :
    Heeding (index.catalogPartitionIsExact working t d n heartbeat) := by
  apply hh.bind
  intro _
  apply catalogKey_heeding.bind
  intro _
  apply Heeding.bind (.command (by simp))
  intro (values : List String)
  apply Heeding.ite .ret
  apply (countMemberships_heeding hh).bind
  intro counted
  cases counted with
  | none => exact .ret
  | some counted =>
      apply Heeding.ite .ret
      apply ScopedHeeding.scope _ fun _ => deleteQuietly_heeding
      apply (unionKeysInChunks_heeding index hh).bind
      intro unionKey
      cases unionKey with
      | none => exact .pure
      | some unionKey =>
          apply (ScopedHeeding.lift randomToken_heeding).bind
          intro _
          apply (ScopedHeeding.lift randomToken_heeding).bind
          intro _
          apply ScopedHeeding.register.bind
          intro _
          apply ScopedHeeding.register.bind
          intro _
          apply ScopedHeeding.lift
          apply hh.bind
          intro _
          apply projectionKey_heeding.bind
          intro _
          apply difference_heeding.bind
          intro _
          exact hh.bind fun _ => projectionKey_heeding.bind fun _ =>
            difference_heeding.bind fun _ => .ret

/-- So does the check of the structure. -/
theorem indexStructureIsConsistent_heeding (hh : Heeding heartbeat) :
    Heeding (index.indexStructureIsConsistent working t requiredFacets requiredCatalogPartitions
      heartbeat) := by
  apply hh.bind
  intro _
  apply projectionKey_heeding.bind
  intro _
  apply sortedSetCount_heeding.bind
  intro n
  apply Heeding.bind
  · apply Heeding.ite _ .ret
    apply Heeding.firstSome
    intro d
    exact hh.bind fun _ => catalogKey_heeding.bind fun _ =>
      Heeding.bind (.command (by simp)) fun _ => .ret
  · intro _
    apply Heeding.ite .ret
    apply Heeding.bind
    · apply Heeding.firstSome
      intro d
      exact hh.bind fun _ => .ite .ret
        ((catalogPartitionIsExact_heeding index hh).bind fun _ => .ret)
    · intro _
      apply Heeding.ite .ret
      apply Heeding.bind _ fun _ => .ret
      apply Heeding.firstSome
      intro f
      exact hh.bind fun _ => facetKey_heeding.bind fun _ => sortedSetCount_heeding.bind fun _ =>
        catalogKey_heeding.bind fun _ => Heeding.bind (.command (by simp)) fun _ => .ret

/-- So does the check of the index. -/
theorem indexIsConsistent_heeding (hh : Heeding heartbeat) :
    Heeding (index.indexIsConsistent working t requiredFacets requiredCatalogPartitions source
      heartbeat) := by
  apply hh.bind
  intro _
  apply randomToken_heeding.bind
  intro k
  apply Heeding.bind
  · apply Heeding.tryFinally _ deleteQuietly_heeding
    exact projectionKey_heeding.bind fun _ => unresolvedKey_heeding.bind fun _ =>
      difference_heeding.bind fun _ => .ret
  · intro _
    apply Heeding.ite .ret
    apply projectionKey_heeding.bind
    intro _
    apply sortedSetCount_heeding.bind
    intro _
    apply unresolvedKey_heeding.bind
    intro _
    apply sortedSetCount_heeding.bind
    intro _
    apply sortedSetCount_heeding.bind
    exact fun _ => .ite .ret (indexStructureIsConsistent_heeding index hh)

/-- So does the refreshing of a source snapshot. -/
theorem refreshSourceSnapshot_heeding (hh : Heeding heartbeat) :
    Heeding (index.refreshSourceSnapshot working t source heartbeat) := by
  apply randomToken_heeding.bind
  intro additions
  apply randomToken_heeding.bind
  intro removals
  apply Heeding.tryFinally _ (deleteQuietly_heeding.bind fun _ => deleteQuietly_heeding)
  apply transaction_heeding.bind
  intro _
  apply hh.bind
  intro _
  apply Heeding.bind
  · apply Heeding.iterate
    exact fun _ => sortedSetScores_heeding.bind fun _ => .ite .ret
      (hh.bind fun _ => transaction_heeding.bind fun _ => .ret)
  · intro _
    apply Heeding.bind
    · apply Heeding.iterate
      exact fun _ => zrange_heeding.bind fun _ => .ite .ret
        (hh.bind fun _ => transaction_heeding.bind fun _ => .ret)
    · exact fun _ => sortedSetCount_heeding.bind fun _ =>
        renewSourceSnapshot_heeding.bind fun _ => .ret

/-! ## The working slot -/

/-- Hydrating heeds its heartbeat. -/
theorem hydrateAndStore_heeding (hh : Heeding heartbeat) {scores : List (String × ℚ)} :
    Heeding (index.hydrateAndStore working t scores heartbeat) := by
  apply existingMetadata_heeding.bind
  intro existing
  apply Heeding.bind
  · apply Heeding.collect
    exact fun _ => Heeding.bind (.command (by simp)) fun _ => hh.bind fun _ => .ret
  · intro fetched
    apply Heeding.bind
    · exact Heeding.collect fun _ => Heeding.bind (.command (by simp)) fun _ => .ret
    · intro _
      apply (Heeding.forEach fun _ => transaction_heeding.bind fun _ => hh).bind
      exact fun _ => .forEach fun _ => transaction_heeding.bind fun _ => hh

/-- Adding the missing jobs heeds the renewals of its working set. -/
theorem addMissingJobs_heeding : Heeding (index.addMissingJobs working t token source) := by
  apply randomToken_heeding.bind
  intro missing
  apply Heeding.tryFinally _ deleteQuietly_heeding
  apply projectionKey_heeding.bind
  intro _
  apply unresolvedKey_heeding.bind
  intro _
  apply difference_heeding.bind
  intro n
  apply (Heeding.ifThen renewWorkingSet_heeding).bind
  intro _
  apply Heeding.bind _ fun _ => .ret
  apply Heeding.iterate
  intro start
  apply sortedSetScores_heeding.bind
  intro scores
  apply Heeding.ite .ret
  apply renewWorkingSet_heeding.bind
  exact fun _ => (hydrateAndStore_heeding index renewWorkingSet_heeding).bind fun _ => .ret

/-- Removing unknown memberships heeds the renewals between the facets. -/
theorem removeUnknownFacetMemberships_heeding :
    Heeding (index.removeUnknownFacetMemberships working t ids token) := by
  apply Heeding.forEach
  intro d
  apply catalogKey_heeding.bind
  intro _
  apply forCatalogChunks_heeding
  intro values
  apply renewSynchronizationLock_heeding.bind
  intro _
  apply (Heeding.collect fun _ => facetKey_heeding).bind
  intro _
  apply transaction_heeding.bind
  intro _
  apply (pipeline_heeding fun _ => sortedSetCount_heeding).bind
  exact fun _ => .ite .ret (renewSynchronizationLock_heeding.bind fun _ => transaction_heeding)

/-- Pruning renews nothing. -/
theorem pruneAffectedFacets_heeding
    {facets : List (((FacetDimension × String) × SortedSetKey) × ℕ)} :
    Heeding (pruneAffectedFacets working t facets) := by
  apply Heeding.forEach
  intro e
  apply sortedSetCount_heeding.bind
  intro _
  apply Heeding.ite .ret
  apply Heeding.ite .ret
  exact catalogKey_heeding.bind fun _ => Heeding.write.bind fun _ => .write

/-- Removing a chunk of stale jobs heeds the renewals of its clean-up. -/
theorem removeStaleChunk_heeding : Heeding (index.removeStaleChunk working t ids token) := by
  apply existingMetadata_heeding.bind
  intro metadataById
  apply (Heeding.collect fun _ => facetKey_heeding).bind
  intro facetKeys
  apply (Heeding.ite .ret (pipeline_heeding fun _ => sortedSetCount_heeding)).bind
  intro counts
  apply transaction_heeding.bind
  intro _
  apply (Heeding.ifThen (removeUnknownFacetMemberships_heeding index)).bind
  exact fun _ => pruneAffectedFacets_heeding.bind fun _ => removeUnretainedMetadata_heeding

/-- Removing the stale jobs heeds the renewals of its working set. -/
theorem removeStaleJobs_heeding : Heeding (index.removeStaleJobs working t token source) := by
  apply randomToken_heeding.bind
  intro stale
  apply Heeding.tryFinally _ deleteQuietly_heeding
  apply projectionKey_heeding.bind
  intro _
  apply difference_heeding.bind
  intro _
  apply Heeding.iterate
  intro _
  apply zrange_heeding.bind
  intro ids
  apply Heeding.ite .ret
  apply renewWorkingSet_heeding.bind
  exact fun _ => (removeStaleChunk_heeding index).bind fun _ => Heeding.write.bind fun _ => .ret

/-- So does removing the stale unresolved references. -/
theorem removeStaleUnresolvedReferences_heeding :
    Heeding (index.removeStaleUnresolvedReferences working t token source) := by
  apply randomToken_heeding.bind
  intro stale
  apply Heeding.tryFinally _ deleteQuietly_heeding
  apply unresolvedKey_heeding.bind
  intro _
  apply difference_heeding.bind
  intro _
  apply Heeding.iterate
  intro _
  apply zrange_heeding.bind
  intro ids
  apply Heeding.ite .ret
  apply renewWorkingSet_heeding.bind
  intro _
  apply unresolvedKey_heeding.bind
  exact fun _ => Heeding.write.bind fun _ => Heeding.write.bind fun _ => .ret

/-- So does reconciling. -/
theorem reconcileProjection_heeding :
    Heeding (index.reconcileProjection working t token source) := by
  apply sortedSetCount_heeding.bind
  intro _
  apply projectionKey_heeding.bind
  intro _
  apply sortedSetCount_heeding.bind
  intro _
  apply unresolvedKey_heeding.bind
  intro _
  apply sortedSetCount_heeding.bind
  intro n
  apply (addMissingJobs_heeding index).bind
  intro _
  apply Heeding.ite _ .ret
  apply (removeStaleJobs_heeding index).bind
  exact fun _ => .ite (removeStaleUnresolvedReferences_heeding index) .ret

/-- Deleting keys heeds the renewal before each chunk. -/
theorem deleteIndexKeys_heeding {keys : List Key} :
    Heeding (deleteIndexKeys t token source keys) :=
  .forEach fun _ => renewSynchronizationState_heeding.bind fun _ => .write

/-- So does rebuilding. -/
theorem rebuildTypeIndex_heeding :
    Heeding (index.rebuildTypeIndex working t token requiredFacets source) := by
  apply projectionKey_heeding.bind
  intro _
  apply unresolvedKey_heeding.bind
  intro _
  apply deleteIndexKeys_heeding.bind
  intro _
  apply Heeding.bind
  · apply Heeding.forEach
    intro d
    apply catalogKey_heeding.bind
    intro _
    apply Heeding.bind
    · exact forCatalogChunks_heeding fun _ =>
        (Heeding.collect fun _ => facetKey_heeding).bind fun _ => deleteIndexKeys_heeding
    · exact fun _ => catalogKey_heeding.bind fun _ => deleteIndexKeys_heeding
  · intro _
    apply (Heeding.collect fun _ => facetKey_heeding).bind
    intro _
    apply deleteIndexKeys_heeding.bind
    exact fun _ => (addMissingJobs_heeding index).bind fun _ => renewSynchronizationState_heeding

/-- **A synchronization of a snapshot** that is refused a renewal has no result. -/
theorem synchronizeSnapshotUnderLock_heeding (hh : Heeding heartbeat) {allowIncomplete : Bool} :
    Heeding (index.synchronizeSnapshotUnderLock working t token source requiredFacets
      requiredCatalogPartitions heartbeat allowIncomplete) := by
  apply (reconcileProjection_heeding index).bind
  intro _
  apply hh.bind
  intro _
  apply (indexStructureIsConsistent_heeding index hh).inside.bind
  intro _
  apply (Heeding.ifThen (rebuildTypeIndex_heeding index)).bind
  intro _
  apply Heeding.bind
  · apply Heeding.firstSome
    intro _
    apply (indexIsConsistent_heeding index hh).bind
    exact fun _ => .ite .ret
      ((reconcileProjection_heeding index).bind fun _ => hh.bind fun _ => .ret)
  · exact fun _ => (indexIsConsistent_heeding index hh).bind fun _ =>
      .ite .ret (.ite .ret .throwRuntime)

/-! ## Generations -/

/-- Deleting a generation heeds its heartbeat. -/
theorem deleteGeneration_heeding (hh : Heeding heartbeat) :
    Heeding (index.deleteGeneration t g heartbeat) := by
  apply Heeding.bind
  · apply Heeding.forEach
    intro d
    apply (forCatalogChunks_heeding fun _ => hh.bind fun _ => .write).bind
    exact fun _ => .write
  · exact fun _ => hh.bind fun _ => .write

/-- So does initializing one. -/
theorem initializeWorkingGeneration_heeding (hh : Heeding heartbeat) {published : Generation} :
    Heeding (index.initializeWorkingGeneration t published g heartbeat) := by
  apply Heeding.bind (.command (by simp))
  intro (initialized : Bool)
  apply Heeding.ite .ret
  apply (deleteGeneration_heeding index hh).bind
  intro _
  apply hh.bind
  exact fun _ => transaction_heeding.bind fun _ => .command (by simp)

/-- So does preparing the working one. -/
theorem prepareWorkingGeneration_heeding (hh : Heeding heartbeat) :
    Heeding (index.prepareWorkingGeneration t heartbeat) := by
  apply publishedState_heeding.bind
  exact fun _ => (initializeWorkingGeneration_heeding index hh).bind fun _ => .ret

end RetainedJobIndex

end HorizonNewDawn

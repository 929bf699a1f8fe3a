import HorizonNewDawn.Jobs.RetainedJobIndex.CatalogValues
import HorizonNewDawn.Jobs.RetainedJobIndex.Selection
import Mathlib

/-! # The retained-job index: candidates

A filter is answered by intersecting sorted sets. `withCandidateKey` intersects a snapshot of the live
source with the facets of the published slot, with the facets of the job names a search matches and with
ids that are given; `withPublishedCandidateKey` does without the source. Both hand the key of the
intersection to a callback and give its result away only where the published state has stayed what it
was. -/

namespace HorizonNewDawn

open Program

namespace RetainedJobIndex

variable (index : RetainedJobIndex)

/-! ## Searching -/

/-- `Str::contains` without regard to case; `lower` is `mb_strtolower`. -/
def containsIgnoringCase (lower : String → String) (haystack needle : String) : Bool :=
  lower needle ≠ "" && decide ((lower needle).toList <:+: (lower haystack).toList)

/-- `matchingJobNames`: nothing where every job name of the snapshot matches. -/
def matchingJobNames (lower : String → String) (t : RetainedJobType) (search : String)
    (source : SourceSnapshot) : Redis (Option (List String)) := do
  let jobNames ← availableCatalogValues index t .job source
  let sawNonMatchingJobName := jobNames.any fun jobName => !containsIgnoringCase lower jobName search
  if jobNames ≠ [] ∧ sawNonMatchingJobName = false then return none
  return some (jobNames.filter fun jobName => containsIgnoringCase lower jobName search).eraseDups

/-- A key that holds one id. -/
def idKey (id : String) : ScopedRedis SortedSetKey := do
  let idKey ← Scoped.lift temporaryKey
  Scoped.register idKey
  Scoped.lift (transaction none fun _ =>
    [.zadd (.temporary idKey) 0 id, expireTemporary idKey temporaryKeyTtlSeconds])
  return .temporary idKey

/-- `searchKey`: the key of the jobs a search finds by their name or their id. -/
def searchKey (lower : String → String) (t : RetainedJobType) (search : String)
    (source : SourceSnapshot) : ScopedRedis (Option SortedSetKey) := do
  match ← Scoped.lift (matchingJobNames index lower t search source) with
  | none => return none
  | some names => do
      let nameKeys ← Scoped.lift (Prog.collect names (facetKey none t .job))
      let idScore ← Scoped.lift (zscore (.temporary source.key) search)
      let idKeys ← (if idScore.isSome then do return [← idKey search] else return [])
      match (nameKeys ++ idKeys).eraseDups with
      | [] =>
          let emptyKey ← Scoped.lift temporaryKey
          Scoped.register emptyKey
          return some (.temporary emptyKey)
      | [k] => return some k
      | keys => index.unionKeysInChunks none keys (return ())

/-! ## The live candidate -/

/-- A key that holds the ids that are given, which are stored a thousand at a time. -/
def stateKey (heartbeat : Redis Unit) (additionalIds : IdSet) : ScopedRedis SortedSetKey := do
  let stateKey ← Scoped.lift temporaryKey
  Scoped.register stateKey
  Scoped.lift (Prog.forEach (additionalIds.ids.arrayChunk sourceChunkSize) fun chunk => do
    heartbeat
    transaction none fun _ => chunk.map (fun id => .zadd (.temporary stateKey) 0 id) ++
      [expireTemporary stateKey temporaryKeyTtlSeconds])
  return .temporary stateKey

/-- The weights of an intersection that keeps the scores of its first set. -/
def firstWeighted : List SortedSetKey → List (SortedSetKey × ℚ)
  | [] => []
  | k :: keys => (k, 1) :: keys.map (·, 0)

/-- The keys that are intersected with the snapshot. -/
def candidateKeys (lower : String → String) (t : RetainedJobType)
    (facets : List (FacetDimension × String)) (additionalIds : Option IdSet) (search : String)
    (source : SourceSnapshot) : ScopedRedis (List SortedSetKey) := do
  let facetKeys ← Scoped.lift (Prog.collect facets fun facet => facetKey none t facet.1 facet.2)
  let searchKey ← (if search = "" then return none else searchKey index lower t search source)
  let stateKeys ← (match additionalIds with
    | none => return []
    | some additionalIds => do return [← stateKey (renewSourceSnapshot source) additionalIds])
  return facetKeys ++ searchKey.toList ++ stateKeys

variable {α : Type}

/-- The part of an attempt that reads: the result of the callback on the candidate, nothing where a
synchronization is active or the snapshot is not covered. -/
def readCandidate (lower : String → String) (t : RetainedJobType)
    (facets : List (FacetDimension × String)) (additionalIds : Option IdSet) (search : String)
    (callback : SortedSetKey → Redis α) (retained : SourceSnapshot) : ScopedRedis (Option α) := do
  if ← Scoped.lift (synchronizationIsActive t) then return none
  match ← inspectableSourceSnapshot t retained with
  | none => return none
  | some source => do
      let keys ← candidateKeys index lower t facets additionalIds search source
      let candidateKey ← Scoped.lift temporaryKey
      Scoped.register candidateKey
      Scoped.lift do
        renewSourceSnapshot source
        transaction none fun _ => [intersect candidateKey (firstWeighted (.temporary source.key :: keys)),
          expireTemporary candidateKey temporaryKeyTtlSeconds]
        return some (← callback (.temporary candidateKey))

/-- One attempt of `withCandidateKey`. -/
def candidateAttempt (lower : String → String) (trimmed synchronized : Bool) (t : RetainedJobType)
    (facets : List (FacetDimension × String)) (additionalIds : Option IdSet) (search : String)
    (callback : SortedSetKey → Redis α) : ScopedRedis (Option α) := do
  let retained ← index.synchronizedSourceSnapshot trimmed synchronized t false facets
    (if search = "" then [] else [.job])
  let revision ← Scoped.lift (synchronizationRevision t)
  match ← readCandidate index lower t facets additionalIds search callback retained with
  | none => return none
  | some result => Scoped.lift do
      if ← synchronizationHasMoved t revision then return none
      return some result

/-- `withCandidateKey`; `trimmed` and `synchronized` are the index object's memory, which every attempt
leaves set. -/
def withCandidateKey (lower : String → String) (trimmed synchronized : Bool) (t : RetainedJobType)
    (facets : List (FacetDimension × String)) (additionalIds : Option IdSet) (search : String)
    (callback : SortedSetKey → Redis α) : Redis α := do
  let result ← Prog.firstSome (List.range candidateSynchronizationAttempts) fun attempt =>
    Scoped.scope deleteQuietly (candidateAttempt index lower (trimmed || 0 < attempt)
      (synchronized || 0 < attempt) t facets additionalIds search callback)
  match result with
  | some result => return result
  | none => throwRuntime "The retained job index could not be synchronized."

/-! ## The published candidate -/

/-- The keys of a slot that are intersected, the first of which gives the scores. -/
def slotKeys (t : RetainedJobType) (g : Generation) (facets : List (FacetDimension × String)) :
    List SortedSetKey :=
  if facets = [] then [.projection t g] else facets.map fun facet => .facet t g facet.1 facet.2

/-- The key the callback is applied to. -/
def publishedKey (t : RetainedJobType) (g : Generation) (facets : List (FacetDimension × String))
    (additionalIds : Option IdSet) : ScopedRedis SortedSetKey := do
  let stateKeys ← (match additionalIds with
    | none => return []
    | some additionalIds => do return [← stateKey (return ()) additionalIds])
  match slotKeys t g facets ++ stateKeys with
  | [k] => return k
  | keys => do
      let candidateKey ← Scoped.lift temporaryKey
      Scoped.register candidateKey
      Scoped.lift (transaction none fun _ => [intersect candidateKey (firstWeighted keys),
        expireTemporary candidateKey temporaryKeyTtlSeconds])
      return .temporary candidateKey

/-- `withPublishedCandidateKey` -/
def withPublishedCandidateKey (t : RetainedJobType) (facets : List (FacetDimension × String))
    (additionalIds : Option IdSet) (callback : SortedSetKey → Redis α) : Redis α := do
  match ← publishedState t with
  | none => .fail .retainedJobIndexWarming
  | some state => Scoped.scope deleteQuietly do
      let key ← publishedKey t state.generation facets additionalIds
      Scoped.lift do
        let result ← callback key
        if (← publishedState t) ≠ some state then .fail .retainedJobIndexWarming
        else return result

/-! ## Reading one key -/

/-- A command that reads one sorted set. -/
inductive ReadsOnly (k : SortedSetKey) : Command → Prop
  | zcard : ReadsOnly k (.zcard k)
  | zcount (min max : ScoreBound) : ReadsOnly k (.zcount k min max)
  | zscore (id : String) : ReadsOnly k (.zscore k id)
  | zrange (start stop : ℕ) : ReadsOnly k (.zrange k start stop)
  | zrevrange (start stop : ℕ) : ReadsOnly k (.zrevrange k start stop)

/-- A program reads one sorted set only, and a failing connection ends it. -/
def ReadsKey (k : SortedSetKey) : Redis α → Prop
  | .ret _ => True
  | .fail _ => True
  | .stopped => True
  | .op _ c next =>
      ReadsOnly k c ∧ (∃ e, next none = .fail e) ∧ ∀ x, ReadsKey k (next (some x))

namespace ReadsKey

variable {β : Type} {k : SortedSetKey} {p : Redis α} {c : Command}

/-- Programs that read one key, one after the other. -/
theorem bind {f : α → Redis β} (h : ReadsKey k p) (hf : ∀ a, ReadsKey k (f a)) :
    ReadsKey k (p >>= f) := by
  induction p with
  | ret a => exact hf a
  | fail e => trivial
  | stopped => trivial
  | op ls c next ih =>
      obtain ⟨hc, ⟨e, he⟩, hnext⟩ := h
      refine ⟨hc, ⟨e, ?_⟩, fun x => ih (some x) (hnext x)⟩
      show (next none >>= f) = .fail e
      rw [he]
      rfl

/-- A command that reads the key only. -/
theorem command (hc : ReadsOnly k c) : ReadsKey k (command c) :=
  ⟨hc, ⟨.connection, rfl⟩, fun _ => trivial⟩

/-- Both branches read the key. -/
theorem ite {a : Prop} [Decidable a] {q : Redis α} (h : ReadsKey k p) (h' : ReadsKey k q) :
    ReadsKey k (if a then p else q) := by
  split
  · exact h
  · exact h'

/-- A range of the set is read off its key. -/
theorem sortedSetScores (start stop : ℕ) (reverse : Bool) :
    ReadsKey k (sortedSetScores k start stop reverse) := by
  cases reverse with
  | false => exact bind (command (.zrange start stop)) fun _ => trivial
  | true => exact bind (command (.zrevrange start stop)) fun _ => trivial

/-- So is the place among the tied members. -/
theorem tieBoundary (lowerScoreCount : ℕ) (cursorId : String) (includeEqual : Bool) (low high : ℕ) :
    ReadsKey k (tieBoundary k lowerScoreCount cursorId includeEqual low high) := by
  induction hn : high - low using Nat.strongRecOn generalizing low high with
  | ind n ih =>
      subst hn
      rw [RetainedJobIndex.tieBoundary]
      split
      · apply bind
        · exact bind (command (.zrange _ _)) fun _ => trivial
        · intro members
          cases members.head? with
          | none => trivial
          | some member =>
              exact ite (ih _ (by omega) _ _ rfl) (ih _ (by omega) _ _ rfl)
      · trivial

/-- So are the entries of a page. -/
theorem pageEntries (after : Option RetainedJobPosition) (limit : ℕ) (reverse : Bool) :
    ReadsKey k (pageEntries k after limit reverse) := by
  cases after with
  | none => exact sortedSetScores _ _ _
  | some after =>
      simp only [RetainedJobIndex.pageEntries]
      cases after.score with
      | none => trivial
      | some score =>
          apply bind (command (.zcount _ _))
          intro lowerScoreCount
          apply bind (command (.zcount _ _))
          intro sameScoreCount
          apply bind (tieBoundary _ _ _ _ _)
          intro boundary
          apply bind
          · cases reverse
            · trivial
            · exact bind (command .zcard) fun _ => trivial
          · exact fun _ => sortedSetScores _ _ _

/-- So is a page. -/
theorem sourcePage (t : RetainedJobType) (after : Option RetainedJobPosition) (limit : ℕ) :
    ReadsKey k (sourcePage t k after limit) :=
  bind (pageEntries _ _ _) fun _ => bind (command .zcard) fun _ => trivial

/-- So are the pages behind one another. -/
theorem excludingPages (t : RetainedJobType) (excludeIds : List String) (limit total : ℕ)
    (currentOffset : ℤ) (maxRawPages : ℕ) (collected : List String)
    (cursor : Option RetainedJobPosition) :
    ReadsKey k (excludingPages t k excludeIds limit total currentOffset maxRawPages collected
      cursor) := by
  induction maxRawPages generalizing collected cursor with
  | zero => trivial
  | succ maxRawPages ih =>
      unfold RetainedJobIndex.excludingPages
      apply ite
      · trivial
      · apply bind (sourcePage _ _ _)
        intro page
        apply ite
        · trivial
        · show ReadsKey k (if _ then _ else _)
          apply ite
          · trivial
          · cases page.next with
            | none => trivial
            | some next => exact ih _ _

/-- So is a page without the excluded ids. -/
theorem sourcePageExcluding (t : RetainedJobType) (excludeIds : List String)
    (after : Option RetainedJobPosition) (limit : ℕ) :
    ReadsKey k (sourcePageExcluding t k excludeIds after limit) :=
  ite (bind (command .zcard) fun _ => trivial)
    (bind (command .zcard) fun _ => excludingPages _ _ _ _ _ _ _ _)

end ReadsKey

section ReadsKey

variable {scan : ScanOrder} {i : ProcessId} {k : SortedSetKey} {z : ZSet} {c : Command}
  {s s' : Store} {p : Redis α} {rank : Option PublishedState → ℕ} {t : RetainedJobType}

/-- Reading changes nothing. -/
theorem ReadsOnly.effect (hc : ReadsOnly k c) (s : Store) : c.effect i s = s := by
  cases hc <;> rfl

/-- The answer depends on the set only. -/
theorem ReadsOnly.answer (hc : ReadsOnly k c) (h : s.zset k = s'.zset k) :
    c.answer scan i s = c.answer scan i s' := by
  cases hc <;> simp only [Command.answer, h] <;> rfl

/-- The result of a program on a sorted set that nobody changes. -/
def ResultOn (scan : ScanOrder) (i : ProcessId) (k : SortedSetKey) (z : ZSet) (p : Redis α) (a : α) :
    Prop :=
  ∀ s : Store, s.failing = false → s.zset k = z → p.eval (exec scan i) s = (.returned a, s)

/-- **A program that reads one sorted set**, which stays as it is, comes to the result it would come to
alone. -/
theorem ReadsKey.wp {Φ : Store → Prop} (hp : ReadsKey k p) (hΦ : (undisturbed rank i t).Stable Φ)
    (hz : ∀ s, Φ s → s.zset k = z) (hs : Φ s) :
    Program.wp (exec scan i) (undisturbed rank i t) p (fun a s => ResultOn scan i k z p a ∧ Φ s)
      (fun _ _ => True) s := by
  induction p generalizing s with
  | ret a => exact ⟨fun _ _ _ => rfl, hs⟩
  | fail e => trivial
  | stopped => trivial
  | op ls c next ih =>
      obtain ⟨hc, ⟨e, he⟩, hnext⟩ := hp
      intro s' hrely _
      have hs' : Φ s' := hΦ ls s s' hrely hs
      refine ⟨trivial, ?_⟩
      cases hfailing : s'.failing with
      | true =>
          have hexec : exec scan i c s' = (none, { s' with failing := false }) := if_pos hfailing
          rw [hexec, he]
          trivial
      | false =>
          have hexec : exec scan i c s' = (some (c.answer scan i s'), c.effect i s') := by
            simp [exec, hfailing]
          rw [hexec, hc.effect]
          apply wp_mono _ (fun _ _ h => h) (ih _ (hnext _) hs')
          rintro a s'' ⟨hresult, hs''⟩
          refine ⟨fun s₀ hs₀ hz₀ => ?_, hs''⟩
          have hanswer : c.answer scan i s₀ = c.answer scan i s' :=
            hc.answer (hz₀.trans (hz s' hs').symm)
          rw [Prog.eval_op]
          simp only [exec, hs₀, Bool.false_eq_true, if_false, hc.effect, hanswer]
          exact hresult s₀ hs₀ hz₀

end ReadsKey

end RetainedJobIndex

end HorizonNewDawn

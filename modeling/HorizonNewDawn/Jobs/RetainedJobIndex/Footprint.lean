import HorizonNewDawn.Jobs.RetainedJobIndex.Synchronization

/-! # What the synchronizer writes

`Writes K p` says that a program writes and deletes only keys of the set `K`, whatever it reads.
Every function of the synchronizer is shown to write temporary keys, the metadata hash and the
slot it is working on, and nothing else; the few commands on the lock and on the published state
are set apart. -/

namespace HorizonNewDawn

open Program

/-- Only keys of `K` may be written. -/
def Allows (K : Key → Prop) (_ : List Section) (c : Command) : Prop := ∀ k ∈ c.writes, K k

/-- A program that writes only keys of `K`, whatever it reads. -/
def Writes {α : Type} (K : Key → Prop) (p : Redis α) : Prop :=
  Obeys (Allows K) (fun _ _ => True) p fun _ => True

/-- A scoped program that writes only keys of `K`, whatever it reads. -/
def ScopedWrites {α : Type} (K : Key → Prop) (p : ScopedRedis α) : Prop :=
  Scoped.Obeys (Allows K) (fun _ _ => True) p fun _ => True

/-- The temporary keys. -/
def Key.IsTemporary : Key → Prop
  | .sortedSet (.temporary _) => True
  | _ => False

namespace Writes

variable {α β σ : Type} {K K' : Key → Prop} {p : Redis α}

/-- What writes keys of `K` only writes keys of any larger `K'` only. -/
theorem mono (hK : ∀ k, K k → K' k) (h : Writes K p) : Writes K' p :=
  Obeys.mono (fun _ _ hc k hk => hK k (hc k hk)) (fun _ h => h) h

/-- A return writes nothing. -/
theorem ret {a : α} : Writes K (return a : Redis α) := trivial

/-- An exception writes nothing. -/
theorem fail {e : Failure} : Writes K (.fail e : Redis α) := trivial

/-- Throwing a runtime exception writes nothing. -/
theorem throwRuntime {message : String} : Writes K (throwRuntime message : Redis α) := trivial

/-- A sequence writes what its parts write. -/
theorem bind {f : α → Redis β} (h : Writes K p) (hf : ∀ a, Writes K (f a)) : Writes K (p >>= f) :=
  Obeys.bind h fun a _ => hf a

/-- Sequencing where something is known of the result of the first program. -/
theorem bind_of {R : α → Prop} {f : α → Redis β}
    (h : Obeys (Allows K) (fun _ _ => True) p R) (hf : ∀ a, R a → Writes K (f a)) :
    Writes K (p >>= f) :=
  Obeys.bind h hf

/-- Changing the result writes nothing more. -/
theorem map {f : α → β} (h : Writes K p) : Writes K (f <$> p) := by
  rw [map_eq_pure_bind]
  exact h.bind fun _ => ret

/-- A program writes the same keys inside a section. -/
theorem inside {l : Section} (h : Writes K p) : Writes K (p.inside l) :=
  Obeys.inside h

/-- A clean-up adds what it writes itself. -/
theorem tryFinally {cleanup : Redis Unit} (h : Writes K p) (hc : Writes K cleanup) :
    Writes K (p.tryFinally cleanup) :=
  Obeys.tryFinally h hc

/-- A handler adds what it writes itself. -/
theorem tryCatch {handler : Failure → Redis α} (h : Writes K p) (hc : ∀ e, Writes K (handler e)) :
    Writes K (p.tryCatch handler) :=
  Obeys.tryCatch h hc

/-- A conditional program writes what its body writes. -/
theorem ifThen {c : Prop} [Decidable c] {p : Redis Unit} (h : Writes K p) :
    Writes K (Prog.ifThen c p) :=
  Obeys.ifThen fun _ => h

/-- A loop writes what its body writes. -/
theorem forEach {as : List α} {body : α → Redis Unit} (h : ∀ a ∈ as, Writes K (body a)) :
    Writes K (Prog.forEach as body) :=
  Obeys.forEach h

/-- A loop that collects results writes what its body writes. -/
theorem collect {as : List α} {body : α → Redis β} (h : ∀ a ∈ as, Writes K (body a)) :
    Writes K (Prog.collect as body) :=
  (Obeys.collect (Q := fun _ => True) h).weaken fun _ _ => trivial

/-- A loop that stops at the first result writes what its body writes. -/
theorem firstSome {as : List α} {body : α → Redis (Option β)} (h : ∀ a ∈ as, Writes K (body a)) :
    Writes K (Prog.firstSome as body) :=
  Obeys.firstSome trivial h

/-- A loop with a state writes what its body writes. -/
theorem iterate {fuel : ℕ} {body : σ → Redis (σ ⊕ α)} {s : σ} (h : ∀ s, Writes K (body s)) :
    Writes K (Prog.iterate fuel body s) :=
  Obeys.iterate (I := fun _ => True)
    (fun s _ => (h s).weaken fun r _ => by cases r <;> trivial) fuel trivial

/-- A choice between two programs writes what both write. -/
theorem ite {c : Prop} [Decidable c] {q : Redis α} (h : Writes K p) (h' : Writes K q) :
    Writes K (if c then p else q) := by
  split
  · exact h
  · exact h'

/-- A single command. -/
theorem command {c : Command} (h : ∀ k ∈ c.writes, K k) : Writes K (command c) := by
  refine ⟨h, fun x _ => ?_⟩
  cases x <;> trivial

/-- A command that only reads. -/
theorem read {c : Command} (h : c.writes = []) : Writes K (HorizonNewDawn.command c) :=
  command (by simp [h])

/-- A block of writes writes the keys of its writes. -/
theorem write {ws : List Write} (h : ∀ w ∈ ws, K w.key) : Writes K (write ws) := by
  refine command fun k hk => ?_
  simp only [Command.writes, List.mem_map, List.mem_filter] at hk
  obtain ⟨w, ⟨hw, -⟩, rfl⟩ := hk
  exact h w hw

/-- **From footprints to behaviour**: an assertion that the environment keeps and that does not
depend on the keys of `K` holds throughout a program that writes only keys of `K`. -/
theorem wp {scan : ScanOrder} {i : ProcessId} {D : Discipline Command Section Store}
    {Φ : Store → Prop} {s : Store} (hΦ : D.Stable Φ)
    (hok : ∀ ls c s, (∀ k ∈ c.writes, K k) → Φ s → D.assume ls c s → D.ok ls c s)
    (hkeep : ∀ s s', (∀ k, ¬K k → s.SameAt s' k) → Φ s → Φ s') (h : Writes K p) (hs : Φ s) :
    wp (exec scan i) D p (fun _ s => Φ s) (fun _ s => Φ s) s := by
  refine wp_mono (fun _ _ h => h.2) (fun _ _ h => h) (wp_of_obeys hΦ ?_ h hs)
  intro ls c s hc hs ha
  exact ⟨hok ls c s hc hs ha, trivial,
    hkeep s _ (fun k hk => exec_sameAt fun hmem => hk (hc k hmem)) hs⟩

end Writes

namespace ScopedWrites

variable {α β σ : Type} {K : Key → Prop}

/-- A scoped return writes nothing. -/
theorem pure {a : α} : ScopedWrites K (Pure.pure a : ScopedRedis α) := Scoped.Obeys.pure trivial

/-- A scoped sequence writes what its parts write. -/
theorem bind {p : ScopedRedis α} {f : α → ScopedRedis β} (h : ScopedWrites K p)
    (hf : ∀ a, ScopedWrites K (f a)) : ScopedWrites K (p >>= f) :=
  Scoped.Obeys.bind h fun a _ => hf a

/-- A program writes the same keys in a scope. -/
theorem lift {p : Redis α} (h : Writes K p) : ScopedWrites K (Scoped.lift p) := Scoped.Obeys.lift h

/-- Registering a key writes nothing. -/
theorem register {k : Token} : ScopedWrites K (Scoped.register k) := Scoped.Obeys.register

/-- A scoped loop that collects results writes what its body writes. -/
theorem collect {as : List α} {body : α → ScopedRedis β}
    (h : ∀ a ∈ as, ScopedWrites K (body a)) : ScopedWrites K (Scoped.collect as body) :=
  fun l => (Scoped.Obeys.collect (Q := fun _ => True) h l).weaken fun _ _ _ _ => trivial

/-- A scoped loop with a state writes what its body writes. -/
theorem iterate {fuel : ℕ} {body : σ → ScopedRedis (σ ⊕ α)} {s : σ}
    (h : ∀ s, ScopedWrites K (body s)) : ScopedWrites K (Scoped.iterate fuel body s) :=
  Scoped.Obeys.iterate (I := fun _ => True)
    (fun s _ l => (h s l).weaken fun _ _ r _ => by cases r <;> trivial) fuel trivial

/-- A scope writes what its body and the clean-up of its keys write. -/
theorem scope {p : ScopedRedis α} {cleanup : Token → Redis Unit} (h : ScopedWrites K p)
    (hc : ∀ k, Writes K (cleanup k)) : Writes K (Scoped.scope cleanup p) :=
  Scoped.Obeys.scope h hc

end ScopedWrites

namespace RetainedJobIndex

variable {K : Key → Prop} {A : (c : Command) → c.Reply → Prop} {t : RetainedJobType}
  {working : Working} {g : Generation}

/-! ## Reading -/

/-- Reading the published state writes nothing. -/
theorem publishedState_writes : Writes K (publishedState t) := by
  refine (Writes.read rfl).bind fun state => ?_
  cases state with
  | some state => exact .ret
  | none => exact Writes.bind (Writes.read rfl) fun _ => .ret

/-- Reading the current generation writes nothing. -/
theorem currentGeneration_writes : Writes K (currentGeneration working t) := by
  have hread : Writes K (currentGeneration.readPublished t) :=
    publishedState_writes.bind fun _ => .ret
  unfold currentGeneration
  split
  · exact Writes.ite .ret hread
  · exact hread

/-- While an index object works on a generation, that is the current one. -/
@[simp] theorem currentGeneration_working : currentGeneration (some (t, g)) t = .ret g := by
  simp [currentGeneration]

/-- The working generation is in every snapshot of the generations. -/
theorem withAtomicGenerationSnapshot_obeys :
    Obeys (Allows K) (fun _ _ => True) (withAtomicGenerationSnapshot working)
      fun generations => ∀ t g, working = some (t, g) → generations t = g := by
  have hcurrent : ∀ t, Obeys (Allows K) (fun _ _ => True) (currentGeneration working t)
      fun g' => ∀ g, working = some (t, g) → g' = g := by
    intro t
    by_cases h : ∃ g, working = some (t, g)
    · obtain ⟨g, rfl⟩ := h
      rw [currentGeneration_working]
      rintro g' ⟨⟩
      rfl
    · exact currentGeneration_writes.weaken fun g' _ g hg => absurd ⟨g, hg⟩ h
  refine (hcurrent .pending).bind fun pending hp => ?_
  refine (hcurrent .completed).bind fun completed hc => ?_
  refine (hcurrent .silenced).bind fun silenced hs => ?_
  refine (hcurrent .failed).bind fun failed hf => ?_
  intro t g h
  cases t with
  | pending => exact hp g h
  | completed => exact hc g h
  | silenced => exact hs g h
  | failed => exact hf g h

/-- A transaction writes the keys of its writes, for all generations it may find. -/
theorem transaction_writes {ws : (RetainedJobType → Generation) → List Write}
    (h : ∀ generations, (∀ t g, working = some (t, g) → generations t = g) →
      ∀ w ∈ ws generations, K w.key) : Writes K (transaction working ws) :=
  Writes.bind_of withAtomicGenerationSnapshot_obeys fun generations hg => .write (h generations hg)

/-- A pipeline of reads writes what the reads write. -/
theorem pipeline_writes {α β : Type} {as : List α} {read : α → Redis β}
    (h : ∀ a ∈ as, Writes K (read a)) : Writes K (pipeline working as read) :=
  Writes.bind_of withAtomicGenerationSnapshot_obeys fun _ _ => .collect h

/-- Counting a sorted set writes nothing. -/
theorem sortedSetCount_writes {k : SortedSetKey} : Writes K (sortedSetCount k) := .read rfl

/-- Reading a score writes nothing. -/
theorem zscore_writes {k : SortedSetKey} {id : String} : Writes K (zscore k id) := .read rfl

/-- Reading a range writes nothing. -/
theorem zrange_writes {k : SortedSetKey} {start stop : ℕ} : Writes K (zrange k start stop) :=
  Writes.bind (.read rfl) fun _ => .ret

/-- Reading a range with its scores writes nothing. -/
theorem sortedSetScores_writes {k : SortedSetKey} {start stop : ℕ} {reverse : Bool} :
    Writes K (sortedSetScores k start stop reverse) := by
  cases reverse <;> exact Writes.bind (.read rfl) fun _ => .ret

/-- Drawing a token writes nothing. -/
theorem randomToken_writes : Writes K randomToken := .read rfl

/-- Finding the projection writes nothing. -/
theorem projectionKey_writes : Writes K (projectionKey working t) :=
  currentGeneration_writes.bind fun _ => .ret

/-- Finding the set of unresolved ids writes nothing. -/
theorem unresolvedKey_writes : Writes K (unresolvedKey working t) :=
  currentGeneration_writes.bind fun _ => .ret

/-- Finding a facet writes nothing. -/
theorem facetKey_writes {d : FacetDimension} {value : String} :
    Writes K (facetKey working t d value) :=
  currentGeneration_writes.bind fun _ => .ret

/-- Finding a catalog writes nothing. -/
theorem catalogKey_writes {d : FacetDimension} : Writes K (catalogKey working t d) :=
  currentGeneration_writes.bind fun _ => .ret

/-- While a generation is worked on the projection is its projection. -/
@[simp] theorem projectionKey_working : projectionKey (some (t, g)) t = .ret (.projection t g) := by
  simp [projectionKey]

/-- While a generation is worked on the unresolved ids are those of it. -/
@[simp] theorem unresolvedKey_working : unresolvedKey (some (t, g)) t = .ret (.unresolved t g) := by
  simp [unresolvedKey]

/-- While a generation is worked on a facet is a facet of it. -/
@[simp] theorem facetKey_working {d : FacetDimension} {value : String} :
    facetKey (some (t, g)) t d value = .ret (.facet t g d value) := by
  simp [facetKey]

/-- While a generation is worked on a catalog is a catalog of it. -/
@[simp] theorem catalogKey_working {d : FacetDimension} :
    catalogKey (some (t, g)) t d = .ret ⟨t, g, d⟩ := by
  simp [catalogKey]

/-- While a generation is worked on some facets are facets of it. -/
@[simp] theorem collect_facetKeys_working {facets : List (FacetDimension × String)} :
    Prog.collect facets (fun f => facetKey (some (t, g)) t f.1 f.2) =
      .ret (facets.map fun f => SortedSetKey.facet t g f.1 f.2) := by
  induction facets with
  | nil => rfl
  | cons f facets ih => rw [Prog.collect, facetKey_working, Prog.ret_bind, ih]; rfl

/-- While a generation is worked on the facets of some values are facets of it. -/
@[simp] theorem collect_facetKey_working {d : FacetDimension} {values : List String} :
    Prog.collect values (facetKey (some (t, g)) t d) =
      .ret (values.map (SortedSetKey.facet t g d)) := by
  induction values with
  | nil => rfl
  | cons value values ih => rw [Prog.collect, facetKey_working, Prog.ret_bind, ih]; rfl

/-- Reading the metadata writes nothing. -/
theorem existingMetadata_writes {ids : List String} : Writes K (existingMetadata ids) := by
  unfold existingMetadata
  refine .ite .ret (Writes.bind (.read rfl) fun _ => .ite .ret ?_)
  exact (Writes.collect fun _ _ => Writes.bind (.read rfl) fun _ => .ret).bind fun _ => .ret

/-- Going through a catalog writes what the body writes. -/
theorem forCatalogChunks_writes {fuel : ℕ} {k : CatalogKey} {body : List String → Redis Unit}
    (h : ∀ values, Writes K (body values)) : Writes K (forCatalogChunks fuel k body) := by
  refine .iterate fun cursor => Writes.bind (.read rfl) fun result => ?_
  exact (Writes.forEach fun chunk _ => h chunk).bind fun _ => .ret

/-- Asking which ids are retained writes nothing. -/
theorem retainedByAnySource_writes {ids : List String} :
    Writes K (retainedByAnySource working ids) :=
  (pipeline_writes fun _ _ => zscore_writes).bind fun _ => .ret

/-- Asserting the ownership of the namespace writes the owner key. -/
theorem assertNamespaceOwnership_writes {K : Key → Prop} (h : K .owner) :
    Writes K assertNamespaceOwnership := by
  refine Writes.bind (Writes.command fun k hk => ?_) fun _ => ?_
  · rw [List.mem_singleton.mp hk]
    exact h
  · exact Writes.bind (.read rfl) fun _ => .ite .throwRuntime .ret

/-! ## Temporary keys -/

variable (htemp : ∀ k, K (.sortedSet (.temporary k)))
include htemp

/-- Deleting a temporary key quietly writes that key. -/
theorem deleteQuietly_writes {k : Token} : Writes K (deleteQuietly k) := by
  refine Writes.tryCatch (.write ?_) fun _ => .ret
  rintro w hw
  rw [List.mem_singleton.mp hw]
  exact htemp k

/-- A difference of sets writes the temporary key it is stored in. -/
theorem difference_writes {k : Token} {keys : List SortedSetKey} :
    Writes K (difference working k keys) := by
  refine (transaction_writes fun _ _ w hw => ?_).bind fun _ => sortedSetCount_writes
  simp only [expireTemporary, List.mem_cons, List.not_mem_nil, or_false] at hw
  rcases hw with rfl | rfl <;> exact htemp k

/-! ## Renewals and checks -/

omit htemp in
/-- Renewing a snapshot writes nothing. -/
theorem renewSourceSnapshot_writes {source : SourceSnapshot} :
    Writes K (renewSourceSnapshot source) := by
  refine Writes.bind (.read rfl) fun _ => .ite .ret (.ite .ret .throwRuntime)

omit htemp in
/-- Renewing the lock writes nothing. -/
theorem renewSynchronizationLock_writes {token : Token} :
    Writes K (renewSynchronizationLock t token) :=
  Writes.bind (.read rfl) fun _ => .ite .throwRuntime .ret

omit htemp in
/-- Renewing the lock and the snapshot writes nothing. -/
theorem renewSynchronizationState_writes {token : Token} {source : SourceSnapshot} :
    Writes K (renewSynchronizationState t token source) :=
  renewSourceSnapshot_writes.bind fun _ => renewSynchronizationLock_writes

omit htemp in
/-- Renewing the lock, the snapshot and a working set writes nothing. -/
theorem renewWorkingSet_writes {token k : Token} {source : SourceSnapshot} :
    Writes K (renewWorkingSet t token k source) := by
  have hrest : Writes K (renewSourceSnapshot source >>= fun _ =>
      renewSynchronizationLock t token) :=
    renewSourceSnapshot_writes.bind fun _ => renewSynchronizationLock_writes
  exact Writes.bind (.read rfl) fun _ => .ite .throwRuntime hrest

variable (index : RetainedJobIndex) {heartbeat : Redis Unit}
  {requiredFacets : List (FacetDimension × String)}
  {requiredCatalogPartitions : List FacetDimension} {source : SourceSnapshot} {token : Token}

/-- A union in chunks writes temporary keys and what the heartbeat writes. -/
theorem unionKeysInChunks_writes (hh : Writes K heartbeat) {keys : List SortedSetKey} :
    ScopedWrites K (index.unionKeysInChunks working keys heartbeat) := by
  refine .iterate fun keys => ?_
  split
  · exact .pure
  · refine (ScopedWrites.lift hh).bind fun _ => ?_
    refine (ScopedWrites.collect fun chunk _ => ?_).bind fun _ => .pure
    refine (ScopedWrites.lift hh).bind fun _ => ?_
    split
    · exact .pure
    · refine (ScopedWrites.lift randomToken_writes).bind fun k => ?_
      refine ScopedWrites.register.bind fun _ => ?_
      refine (ScopedWrites.lift (transaction_writes fun _ _ w hw => ?_)).bind fun _ => .pure
      simp only [expireTemporary, List.mem_cons, List.not_mem_nil, or_false] at hw
      rcases hw with rfl | rfl <;> exact htemp k

omit htemp in
/-- Counting memberships writes temporary keys and what the heartbeat writes. -/
theorem countMemberships_writes (hh : Writes K heartbeat) {d : FacetDimension}
    {chunks : List (List String)} {n : ℕ} {keys : List SortedSetKey} :
    Writes K (countMemberships working t d heartbeat chunks n keys) := by
  induction chunks generalizing n keys with
  | nil => exact .ret
  | cons chunk chunks ih =>
      refine hh.bind fun _ => (Writes.collect fun _ _ => facetKey_writes).bind fun _ => ?_
      refine (pipeline_writes fun _ _ => sortedSetCount_writes).bind fun _ => ?_
      exact .ite .ret ((Writes.collect fun _ _ => facetKey_writes).bind fun _ => ih)

/-- The comparison of the union of the facets with the projection. -/
theorem unionAgrees_writes (hh : Writes K heartbeat) {projectionCount : ℕ}
    {facetKeys : List SortedSetKey} :
    Writes K (Scoped.scope deleteQuietly do
      match ← index.unionKeysInChunks working facetKeys heartbeat with
      | none => pure (decide (projectionCount = 0))
      | some unionKey =>
          let outsideProjectionKey ← Scoped.lift temporaryKey
          let missingFromCatalogKey ← Scoped.lift temporaryKey
          Scoped.register outsideProjectionKey
          Scoped.register missingFromCatalogKey
          Scoped.lift do
            heartbeat
            let projection ← projectionKey working t
            let outsideProjectionCount ←
              difference working outsideProjectionKey [unionKey, projection]
            heartbeat
            let projection ← projectionKey working t
            let missingFromCatalogCount ←
              difference working missingFromCatalogKey [projection, unionKey]
            return outsideProjectionCount = 0 && missingFromCatalogCount = 0) := by
  refine ScopedWrites.scope ?_ fun k => deleteQuietly_writes htemp
  refine (unionKeysInChunks_writes htemp index hh).bind fun unionKey => ?_
  cases unionKey with
  | none => exact .pure
  | some unionKey =>
      refine (ScopedWrites.lift randomToken_writes).bind fun outside => ?_
      refine (ScopedWrites.lift randomToken_writes).bind fun missing => ?_
      refine ScopedWrites.register.bind fun _ => ScopedWrites.register.bind fun _ => .lift ?_
      refine hh.bind fun _ => projectionKey_writes.bind fun _ => ?_
      refine (difference_writes htemp).bind fun _ => ?_
      refine hh.bind fun _ => projectionKey_writes.bind fun _ => ?_
      exact (difference_writes htemp).bind fun _ => .ret

/-- Checking a partition writes temporary keys and what the heartbeat writes. -/
theorem catalogPartitionIsExact_writes (hh : Writes K heartbeat) {d : FacetDimension}
    {projectionCount : ℕ} :
    Writes K (index.catalogPartitionIsExact working t d projectionCount heartbeat) := by
  refine hh.bind fun _ => catalogKey_writes.bind fun _ => Writes.bind (.read rfl) fun _ => ?_
  refine .ite .ret ((countMemberships_writes hh).bind fun counted => ?_)
  cases counted with
  | none => exact .ret
  | some counted => exact .ite .ret (unionAgrees_writes htemp index hh)

/-- Checking the structure writes temporary keys and what the heartbeat writes. -/
theorem indexStructureIsConsistent_writes (hh : Writes K heartbeat) :
    Writes K (index.indexStructureIsConsistent working t requiredFacets requiredCatalogPartitions
      heartbeat) := by
  refine hh.bind fun _ => projectionKey_writes.bind fun _ => sortedSetCount_writes.bind fun n => ?_
  have hcatalogs : Writes K (Prog.firstSome (requiredCatalogDimensions t) fun d => do
      heartbeat
      return if (← setCount (← catalogKey working t d)) = 0 then some () else none) :=
    .firstSome fun d _ => hh.bind fun _ => catalogKey_writes.bind fun _ =>
      Writes.bind (.read rfl) fun _ => .ret
  refine Writes.bind (.ite hcatalogs .ret) fun _ => .ite .ret ?_
  refine (Writes.firstSome fun d _ => ?_).bind fun _ => .ite .ret ?_
  · refine hh.bind fun _ => .ite .ret ?_
    exact (catalogPartitionIsExact_writes htemp index hh).bind fun _ => .ret
  · refine (Writes.firstSome fun f _ => ?_).bind fun _ => .ret
    refine hh.bind fun _ => facetKey_writes.bind fun _ => sortedSetCount_writes.bind fun _ => ?_
    exact catalogKey_writes.bind fun _ => Writes.bind (.read rfl) fun _ => .ret

/-- Checking the index writes temporary keys and what the heartbeat writes. -/
theorem indexIsConsistent_writes (hh : Writes K heartbeat) :
    Writes K (index.indexIsConsistent working t requiredFacets requiredCatalogPartitions source
      heartbeat) := by
  refine hh.bind fun _ => randomToken_writes.bind fun k => ?_
  refine (Writes.tryFinally ?_ (deleteQuietly_writes htemp)).bind fun _ => .ite .ret ?_
  · refine projectionKey_writes.bind fun _ => unresolvedKey_writes.bind fun _ => ?_
    exact (difference_writes htemp).bind fun _ => .ret
  · refine projectionKey_writes.bind fun _ => sortedSetCount_writes.bind fun _ => ?_
    refine unresolvedKey_writes.bind fun _ => sortedSetCount_writes.bind fun _ => ?_
    refine sortedSetCount_writes.bind fun _ => .ite .ret ?_
    exact indexStructureIsConsistent_writes htemp index hh

/-- Taking a snapshot writes the temporary key it is stored in. -/
theorem materializeSourceSnapshot_writes : Writes K (materializeSourceSnapshot working t) := by
  refine randomToken_writes.bind fun k => ?_
  refine (transaction_writes fun _ _ w hw => ?_).bind fun _ =>
    sortedSetCount_writes.bind fun _ => .ret
  simp only [intersect, expireTemporary, List.mem_cons, List.not_mem_nil, or_false] at hw
  rcases hw with rfl | rfl <;> exact htemp k

omit htemp in
/-- Trimming a source writes no key of the index. -/
theorem trimSource_writes : Writes K (trimSource t) := .ite (.read rfl) (.read rfl)

/-- Refreshing a snapshot writes temporary keys and what the heartbeat writes. -/
theorem refreshSourceSnapshot_writes (hh : Writes K heartbeat) :
    Writes K (index.refreshSourceSnapshot working t source heartbeat) := by
  refine randomToken_writes.bind fun additions => randomToken_writes.bind fun removals => ?_
  refine .tryFinally ?_ ((deleteQuietly_writes htemp).bind fun _ => deleteQuietly_writes htemp)
  refine (transaction_writes fun _ _ w hw => ?_).bind fun _ => hh.bind fun _ => ?_
  · simp only [expireTemporary, List.mem_cons, List.not_mem_nil, or_false] at hw
    rcases hw with rfl | rfl | rfl | rfl <;> exact htemp _
  refine (Writes.iterate fun _ => ?_).bind fun _ => (Writes.iterate fun _ => ?_).bind fun _ => ?_
  · refine sortedSetScores_writes.bind fun scores => .ite .ret (hh.bind fun _ => ?_)
    refine (transaction_writes fun _ _ w hw => ?_).bind fun _ => .ret
    simp only [expireTemporary, List.mem_append, List.mem_map, List.mem_cons, List.not_mem_nil,
      or_false] at hw
    rcases hw with ⟨e, -, rfl⟩ | rfl | rfl | rfl | rfl <;> exact htemp _
  · refine zrange_writes.bind fun ids => .ite .ret (hh.bind fun _ => ?_)
    refine (transaction_writes fun _ _ w hw => ?_).bind fun _ => .ret
    simp only [expireTemporary, List.mem_cons, List.not_mem_nil, or_false] at hw
    rcases hw with rfl | rfl | rfl | rfl | rfl <;> exact htemp _
  · exact sortedSetCount_writes.bind fun _ => renewSourceSnapshot_writes.bind fun _ => .ret

/-! ## Writing the working slot -/

section Slot

variable (hslot : ∀ k, k.InSlot t g → K k) (hmeta : K .metadata)
include hslot hmeta

omit htemp in
/-- The writes that store a job write the slot and the metadata. -/
theorem storeJob_key {m : RetainedJobMetadata} {id : String} {score : ℚ} {w : Write}
    (hw : w ∈ storeJob t g m id score) : K w.key := by
  obtain rfl | ⟨d, value, -, rfl | rfl⟩ | rfl | rfl := mem_storeJob.mp hw
  · exact hmeta
  all_goals exact hslot _ ⟨rfl, rfl⟩

omit htemp in
/-- Hydrating jobs writes the slot and the metadata. -/
theorem hydrateAndStore_writes (hh : Writes K heartbeat) {scores : List (String × ℚ)} :
    Writes K (index.hydrateAndStore (some (t, g)) t scores heartbeat) := by
  refine existingMetadata_writes.bind fun existing => ?_
  refine (Writes.collect fun chunk _ => ?_).bind fun fetched => ?_
  · exact Writes.bind (.read rfl) fun _ => hh.bind fun _ => .ret
  refine (Writes.collect fun e _ => Writes.bind (.read rfl) fun _ => .ret).bind fun _ => ?_
  refine (Writes.forEach fun chunk _ => ?_).bind fun _ => .forEach fun chunk _ => ?_
  · refine (transaction_writes fun generations hg w hw => ?_).bind fun _ => hh
    obtain ⟨e, -, rfl⟩ := List.mem_map.mp hw
    exact hslot _ ⟨rfl, hg t g rfl⟩
  · refine (transaction_writes fun generations hg w hw => ?_).bind fun _ => hh
    obtain ⟨e, -, hw⟩ := List.mem_flatMap.mp hw
    split at hw
    · cases hw
    · rw [hg t g rfl] at hw
      exact storeJob_key hslot hmeta hw

/-- Adding the missing jobs writes the slot, the metadata and temporary keys. -/
theorem addMissingJobs_writes :
    Writes K (index.addMissingJobs (some (t, g)) t token source) := by
  refine randomToken_writes.bind fun missing => .tryFinally ?_ (deleteQuietly_writes htemp)
  refine projectionKey_writes.bind fun _ => unresolvedKey_writes.bind fun _ => ?_
  refine (difference_writes htemp).bind fun n => ?_
  refine (Writes.ifThen renewWorkingSet_writes).bind fun _ => ?_
  refine (Writes.iterate fun start => ?_).bind fun _ => .ret
  refine sortedSetScores_writes.bind fun scores => .ite .ret ?_
  refine renewWorkingSet_writes.bind fun _ => ?_
  exact (hydrateAndStore_writes index hslot hmeta renewWorkingSet_writes).bind fun _ => .ret

omit htemp hslot in
/-- Removing metadata that is not retained writes the metadata. -/
theorem removeUnretainedMetadata_writes {ids : List String} :
    Writes K (removeUnretainedMetadata working ids) := by
  refine retainedByAnySource_writes.bind fun _ => .forEach fun e _ => .ite .ret (.write ?_)
  rintro w hw
  rw [List.mem_singleton.mp hw]
  exact hmeta

omit htemp hslot hmeta in
/-- Removing unknown memberships writes the facets and catalogs of the slot and temporary keys. -/
theorem removeUnknownFacetMemberships_writes
    (hfacet : ∀ d value, K (.sortedSet (.facet t g d value))) (hcatalog : ∀ d, K (.catalog ⟨t, g, d⟩))
    {ids : List String} :
    Writes K (index.removeUnknownFacetMemberships (some (t, g)) t ids token) := by
  refine .forEach fun d _ => ?_
  rw [catalogKey_working, Prog.ret_bind]
  refine forCatalogChunks_writes fun values => renewSynchronizationLock_writes.bind fun _ => ?_
  rw [collect_facetKey_working, Prog.ret_bind]
  refine (transaction_writes fun _ _ w hw => ?_).bind fun _ => ?_
  · obtain ⟨k, hk, rfl⟩ := List.mem_map.mp hw
    obtain ⟨value, -, rfl⟩ := List.mem_map.mp hk
    exact hfacet d value
  refine (pipeline_writes fun _ _ => sortedSetCount_writes).bind fun counts => .ite .ret ?_
  refine renewSynchronizationLock_writes.bind fun _ => transaction_writes fun generations hg w hw => ?_
  obtain ⟨e, he, hw⟩ := List.mem_flatMap.mp hw
  have hkey := (List.of_mem_zip (List.of_mem_zip (List.mem_filter.mp he).1).1).2
  obtain ⟨value, -, hvalue⟩ := List.mem_map.mp hkey
  simp only [List.mem_cons, List.not_mem_nil, or_false] at hw
  rcases hw with rfl | rfl
  · rw [Write.key, hg t g rfl]
    exact hcatalog d
  · rw [Write.key, ← hvalue]
    exact hfacet d value

omit htemp hslot hmeta in
/-- Pruning facets writes them and the catalogs of the slot. -/
theorem pruneAffectedFacets_writes (hcatalog : ∀ d, K (.catalog ⟨t, g, d⟩))
    {facets : List (((FacetDimension × String) × SortedSetKey) × ℕ)}
    (hkeys : ∀ e ∈ facets, K (.sortedSet e.1.2)) :
    Writes K (pruneAffectedFacets (some (t, g)) t facets) := by
  refine .forEach fun e he => sortedSetCount_writes.bind fun _ => .ite .ret (.ite .ret ?_)
  rw [catalogKey_working, Prog.ret_bind]
  refine (Writes.write fun w hw => ?_).bind fun _ => .write fun w hw => ?_
  · rw [List.mem_singleton.mp hw]
    exact hcatalog _
  · rw [List.mem_singleton.mp hw]
    exact hkeys e he

omit htemp hslot in
/-- What `removeStaleChunk` does after it has removed the jobs. -/
theorem cleanStaleChunk_writes (hfacet : ∀ d value, K (.sortedSet (.facet t g d value)))
    (hcatalog : ∀ d, K (.catalog ⟨t, g, d⟩)) {ids idsWithoutMetadata : List String}
    {facets : List (FacetDimension × String)} {counts : List ℕ} :
    Writes K (do
      Prog.ifThen (idsWithoutMetadata ≠ [])
        (index.removeUnknownFacetMemberships (some (t, g)) t idsWithoutMetadata token)
      pruneAffectedFacets (some (t, g)) t
        ((facets.zip (facets.map fun f => SortedSetKey.facet t g f.1 f.2)).zip counts)
      removeUnretainedMetadata (some (t, g)) ids) := by
  refine (Writes.ifThen (removeUnknownFacetMemberships_writes index hfacet hcatalog)).bind fun _ => ?_
  refine (pruneAffectedFacets_writes hcatalog fun e he => ?_).bind fun _ =>
    removeUnretainedMetadata_writes hmeta
  have hkey := (List.of_mem_zip (List.of_mem_zip he).1).2
  obtain ⟨f, -, hf⟩ := List.mem_map.mp hkey
  rw [← hf]
  exact hfacet f.1 f.2

omit htemp in
/-- Removing a chunk of stale jobs writes the slot and the metadata. -/
theorem removeStaleChunk_writes {ids : List String} :
    Writes K (index.removeStaleChunk (some (t, g)) t ids token) := by
  refine existingMetadata_writes.bind fun metadataById => ?_
  simp only [collect_facetKeys_working, Prog.ret_bind]
  refine Writes.bind (.ite .ret (pipeline_writes fun _ _ => sortedSetCount_writes)) fun counts => ?_
  refine (transaction_writes fun generations hg w hw => ?_).bind fun _ => ?_
  · obtain ⟨id, -, hw⟩ := List.mem_flatMap.mp hw
    rcases mem_removeJob.mp hw with rfl | ⟨m, -, d, value, -, rfl⟩
    · exact hslot _ ⟨rfl, hg t g rfl⟩
    · exact hslot _ ⟨rfl, hg t g rfl⟩
  exact cleanStaleChunk_writes index hmeta (fun _ _ => hslot _ ⟨rfl, rfl⟩) fun _ => hslot _ ⟨rfl, rfl⟩

/-- Removing the stale jobs writes the slot, the metadata and temporary keys. -/
theorem removeStaleJobs_writes : Writes K (index.removeStaleJobs (some (t, g)) t token source) := by
  refine randomToken_writes.bind fun stale => .tryFinally ?_ (deleteQuietly_writes htemp)
  refine projectionKey_writes.bind fun _ => (difference_writes htemp).bind fun _ => ?_
  refine .iterate fun _ => zrange_writes.bind fun ids => .ite .ret ?_
  refine renewWorkingSet_writes.bind fun _ => ?_
  refine (removeStaleChunk_writes index hslot hmeta).bind fun _ => ?_
  refine (Writes.write fun w hw => ?_).bind fun _ => .ret
  rw [List.mem_singleton.mp hw]
  exact htemp stale

omit hslot hmeta in
/-- Removing stale references writes the unresolved ids of the slot and temporary keys. -/
theorem removeStaleUnresolvedReferences_writes (hunresolved : K (.sortedSet (.unresolved t g))) :
    Writes K (index.removeStaleUnresolvedReferences (some (t, g)) t token source) := by
  refine randomToken_writes.bind fun stale => .tryFinally ?_ (deleteQuietly_writes htemp)
  refine unresolvedKey_writes.bind fun _ => (difference_writes htemp).bind fun _ => ?_
  refine .iterate fun _ => zrange_writes.bind fun ids => .ite .ret ?_
  refine renewWorkingSet_writes.bind fun _ => ?_
  rw [unresolvedKey_working, Prog.ret_bind]
  refine (Writes.write fun w hw => ?_).bind fun _ => (Writes.write fun w hw => ?_).bind fun _ => .ret
  · rw [List.mem_singleton.mp hw]
    exact hunresolved
  · rw [List.mem_singleton.mp hw]
    exact htemp stale

/-- A reconciliation writes the slot, the metadata and temporary keys. -/
theorem reconcileProjection_writes :
    Writes K (index.reconcileProjection (some (t, g)) t token source) := by
  refine sortedSetCount_writes.bind fun _ => projectionKey_writes.bind fun _ => ?_
  refine sortedSetCount_writes.bind fun _ => unresolvedKey_writes.bind fun _ => ?_
  refine sortedSetCount_writes.bind fun n => ?_
  refine (addMissingJobs_writes htemp index hslot hmeta).bind fun _ => .ite ?_ .ret
  refine (removeStaleJobs_writes htemp index hslot hmeta).bind fun _ => .ite ?_ .ret
  exact removeStaleUnresolvedReferences_writes htemp index (hslot _ ⟨rfl, rfl⟩)

omit htemp hslot hmeta in
/-- Deleting some keys writes these keys. -/
theorem deleteIndexKeys_writes {keys : List Key} (h : ∀ k ∈ keys, K k) :
    Writes K (deleteIndexKeys t token source keys) := by
  refine .forEach fun chunk hchunk => renewSynchronizationState_writes.bind fun _ => .write ?_
  intro w hw
  obtain ⟨k, hk, rfl⟩ := List.mem_map.mp hw
  exact h k (List.mem_eraseDups.mp (List.mem_of_mem_arrayChunk hchunk hk))

omit htemp hslot hmeta in
/-- Deleting the facets of a dimension writes facets of the slot. -/
theorem deleteFacets_writes (hfacet : ∀ d value, K (.sortedSet (.facet t g d value)))
    {d : FacetDimension} {values : List String} :
    Writes K (deleteIndexKeys t token source
      ((values.map (SortedSetKey.facet t g d)).map .sortedSet)) := by
  refine deleteIndexKeys_writes fun k hk => ?_
  obtain ⟨k', hk', rfl⟩ := List.mem_map.mp hk
  obtain ⟨value, -, rfl⟩ := List.mem_map.mp hk'
  exact hfacet d value

/-- Rebuilding an index writes the slot, the metadata and temporary keys. -/
theorem rebuildTypeIndex_writes :
    Writes K (index.rebuildTypeIndex (some (t, g)) t token requiredFacets source) := by
  unfold rebuildTypeIndex
  simp only [projectionKey_working, unresolvedKey_working, catalogKey_working, Prog.ret_bind,
    collect_facetKey_working]
  refine (deleteIndexKeys_writes fun k hk => ?_).bind fun _ => ?_
  · simp only [List.mem_cons, List.not_mem_nil, or_false] at hk
    rcases hk with rfl | rfl <;> exact hslot _ ⟨rfl, rfl⟩
  refine (Writes.forEach fun d _ => ?_).bind fun _ => ?_
  · refine (forCatalogChunks_writes fun values => deleteFacets_writes fun _ _ =>
      hslot _ ⟨rfl, rfl⟩).bind fun _ => ?_
    refine deleteIndexKeys_writes fun k hk => ?_
    rw [List.mem_singleton.mp hk]
    exact hslot _ ⟨rfl, rfl⟩
  have hkeys : Obeys (Allows K) (fun _ _ => True)
      (Prog.collect requiredFacets fun f => facetKey (some (t, g)) t f.1 f.2)
      fun keys => ∀ k ∈ keys, K (.sortedSet k) := by
    refine Obeys.collect fun f _ => ?_
    rw [facetKey_working]
    exact hslot _ ⟨rfl, rfl⟩
  refine Writes.bind_of hkeys fun keys hk => ?_
  refine (deleteIndexKeys_writes fun k hmem => ?_).bind fun _ => ?_
  · obtain ⟨k', hk', rfl⟩ := List.mem_map.mp hmem
    exact hk k' hk'
  exact (addMissingJobs_writes htemp index hslot hmeta).bind fun _ =>
    renewSynchronizationState_writes

/-- Synchronizing under the lock writes the slot, the metadata and temporary keys. -/
theorem synchronizeSnapshotUnderLock_writes (hh : Writes K heartbeat) {allowIncomplete : Bool} :
    Writes K (index.synchronizeSnapshotUnderLock (some (t, g)) t token source requiredFacets
      requiredCatalogPartitions heartbeat allowIncomplete) := by
  refine (reconcileProjection_writes htemp index hslot hmeta).bind fun _ => hh.bind fun _ => ?_
  refine (indexStructureIsConsistent_writes htemp index hh).inside.bind fun _ => ?_
  refine (Writes.ifThen (rebuildTypeIndex_writes htemp index hslot hmeta)).bind fun _ => ?_
  refine (Writes.firstSome fun _ _ => ?_).bind fun _ => ?_
  · refine (indexIsConsistent_writes htemp index hh).bind fun _ => .ite .ret ?_
    exact (reconcileProjection_writes htemp index hslot hmeta).bind fun _ => hh.bind fun _ => .ret
  · exact (indexIsConsistent_writes htemp index hh).bind fun _ =>
      .ite .ret (.ite .ret .throwRuntime)

omit htemp hmeta in
/-- Deleting a generation writes its slot and its flag. -/
theorem deleteGeneration_writes (hinit : K (.initialized t g)) (hh : Writes K heartbeat) :
    Writes K (index.deleteGeneration t g heartbeat) := by
  refine (Writes.forEach fun d _ => ?_).bind fun _ => hh.bind fun _ => .write fun w hw => ?_
  · refine (forCatalogChunks_writes fun values => hh.bind fun _ => ?_).bind fun _ => ?_
    · refine .write fun w hw => ?_
      obtain ⟨value, -, rfl⟩ := List.mem_map.mp hw
      exact hslot _ ⟨rfl, rfl⟩
    · refine .write fun w hw => ?_
      rw [List.mem_singleton.mp hw]
      exact hslot _ ⟨rfl, rfl⟩
  · simp only [List.mem_cons, List.not_mem_nil, or_false] at hw
    obtain rfl | rfl | rfl := hw
    · exact hslot _ ⟨rfl, rfl⟩
    · exact hslot _ ⟨rfl, rfl⟩
    · exact hinit

omit htemp hmeta in
/-- Initializing a generation writes its slot, its flag and the metadata. -/
theorem initializeWorkingGeneration_writes (hinit : K (.initialized t g))
    (hh : Writes K heartbeat) {published : Generation} :
    Writes K (index.initializeWorkingGeneration t published g heartbeat) := by
  refine Writes.bind (.read rfl) fun _ => .ite .ret ?_
  refine (deleteGeneration_writes index hslot hinit hh).bind fun _ => hh.bind fun _ => ?_
  refine (transaction_writes fun _ _ w hw => ?_).bind fun _ => Writes.command fun k hk => ?_
  · rw [List.mem_singleton.mp hw]
    exact hslot _ ⟨rfl, rfl⟩
  · rw [List.mem_singleton.mp hk]
    exact hinit

end Slot

/-- Removing the unretained metadata of a generation writes the metadata and temporary keys. -/
theorem removeUnretainedMetadataFromGeneration_writes (hmeta : K .metadata) :
    Writes K (index.removeUnretainedMetadataFromGeneration working t g token source) := by
  refine randomToken_writes.bind fun stale => .tryFinally ?_ (deleteQuietly_writes htemp)
  refine (difference_writes htemp).bind fun _ => .iterate fun _ => ?_
  refine zrange_writes.bind fun ids => .ite .ret ?_
  refine renewWorkingSet_writes.bind fun _ => ?_
  refine (removeUnretainedMetadata_writes hmeta).bind fun _ => ?_
  refine (Writes.write fun w hw => ?_).bind fun _ => .ret
  rw [List.mem_singleton.mp hw]
  exact htemp stale

end RetainedJobIndex

end HorizonNewDawn

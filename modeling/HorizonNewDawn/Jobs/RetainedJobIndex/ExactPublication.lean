import HorizonNewDawn.Jobs.RetainedJobIndex.PublishedSlot
import HorizonNewDawn.Jobs.RetainedJobIndex.SlotInspection
import HorizonNewDawn.Program.Sequence

/-! # What a published generation says

Synchronizations of one retained-job type run one after the other, while the source changes at any
time, and each may be aborted anywhere. A removal that is aborted leaves residue in the working slot.
The published slot is exact (`exact_published`) as long as every inspection of a working slot looks
where the residue is; the inspection looks at required partitions and facets only, so that a value
with an empty facet can be published (`idle_value_published`). -/

namespace HorizonNewDawn

open Program

namespace RetainedJobIndex

variable {jobs : String → RetainedJobMetadata} {t : RetainedJobType} {g : Generation}
  {s : Store} {scan : ScanOrder} {i : ProcessId} {token : Token} {source : SourceSnapshot}
  (index : RetainedJobIndex) {heartbeat : Redis Unit}
  {requiredFacets : List (FacetDimension × String)}
  {requiredCatalogPartitions : List FacetDimension}

/-! ## Working on a ready slot -/

section Reconciling

variable {stray idle : FacetDimension → String → Prop}

/-- What was left over before stays; nothing is added to it. -/
theorem removeStaleJobs_preserves :
    Preserves scan i jobs t (fun s => Ready jobs t g s ∧ Loose jobs t g stray idle s)
      (index.removeStaleJobs (some (t, g)) t token source) := by
  have hread : ∀ {α : Type} {p : Redis α}, Writes (Key.Aside t) p →
      Preserves scan i jobs t (fun s => Ready jobs t g s ∧ Loose jobs t g stray idle s) p :=
    .of_writes (steady_ready ofSlot_loose)
  refine .bind (hread randomToken_writes) fun stale => .tryFinally ?_
    (hread (deleteQuietly_writes aside_temporary))
    (.of_writes steady_clean (deleteQuietly_writes aside_temporary))
  refine .bind (hread projectionKey_writes) fun _ => ?_
  refine .bind (hread (difference_writes aside_temporary)) fun _ => .iterate fun _ => ?_
  refine .bind (hread zrange_writes) fun ids => .ite .ret ?_
  refine .bind (hread renewWorkingSet_writes) fun _ => ?_
  refine .bind (removeStaleChunk_preserves index) fun _ => ?_
  refine .bind (hread (.write fun w hw => ?_)) fun _ => .ret
  rw [List.mem_singleton.mp hw]
  exact aside_temporary stale

/-- Reconciling leaves nothing over that was not there before. -/
theorem reconcileProjection_preserves :
    Preserves scan i jobs t (fun s => Ready jobs t g s ∧ Loose jobs t g stray idle s)
      (index.reconcileProjection (some (t, g)) t token source) := by
  have hread : ∀ {α : Type} {p : Redis α}, Writes (Key.Aside t) p →
      Preserves scan i jobs t (fun s => Ready jobs t g s ∧ Loose jobs t g stray idle s) p :=
    .of_writes (steady_ready ofSlot_loose)
  refine .bind (hread sortedSetCount_writes) fun _ => .bind (hread projectionKey_writes) fun _ => ?_
  refine .bind (hread sortedSetCount_writes) fun _ => .bind (hread unresolvedKey_writes) fun _ => ?_
  refine .bind (hread sortedSetCount_writes) fun n => ?_
  refine .bind (addMissingJobs_preserves index) fun _ => .ite ?_ .ret
  refine .bind (removeStaleJobs_preserves index) fun _ => .ite ?_ .ret
  exact hread (removeStaleUnresolvedReferences_writes aside_temporary index trivial)

/-- An exact slot is still exact after it has been reconciled. -/
theorem reconcileProjection_exact :
    Preserves scan i jobs t (fun s => Ready jobs t g s ∧ Exact jobs t g s)
      (index.reconcileProjection (some (t, g)) t token source) := by
  simp only [exact_iff_loose]
  exact reconcileProjection_preserves index

end Reconciling

/-- **Repair**: a synchronization that returns has made its working slot exact, whatever was left over
in it, as long as the inspection looks where it is. -/
theorem synchronizeSnapshotUnderLock_exact (hh : Writes (Key.Aside t) heartbeat)
    {allowIncomplete : Bool} (hs : Ready jobs t g s) :
    wp (exec scan i) (repairing scan i jobs t)
      (index.synchronizeSnapshotUnderLock (some (t, g)) t token source requiredFacets
        requiredCatalogPartitions heartbeat allowIncomplete)
      (fun _ s => Ready jobs t g s ∧ Exact jobs t g s) (fun _ => Clean jobs t) s := by
  have hread : ∀ {α : Type} {p : Redis α}, Writes (Key.Aside t) p →
      Preserves scan i jobs t (fun s => Ready jobs t g s ∧ Exact jobs t g s) p :=
    .of_writes (steady_ready ofSlot_exact)
  refine wp_bind_of (reconcileProjection_preserves index s ⟨hs, hs.frayed g⟩) fun _ s hs => ?_
  refine wp_bind_of (Preserves.of_writes (steady_ready ofSlot_loose) hh s hs) fun _ s hs => ?_
  refine wp_bind_of (inspection_exact index hh hs.1) fun consistent s hs => ?_
  refine wp_bind_of (Q := fun _ s => Ready jobs t g s ∧ Exact jobs t g s)
    (wp_ifThen (fun _ => rebuildTypeIndex_exact index hs.1) fun hconsistent =>
      ⟨hs.1, hs.2 (by simpa using hconsistent)⟩) fun _ s hs => ?_
  -- From here on the slot is only reconciled.
  have hconsistent : Preserves scan i jobs t (fun s => Ready jobs t g s ∧ Exact jobs t g s)
      (index.indexIsConsistent (some (t, g)) t requiredFacets requiredCatalogPartitions source
        heartbeat) :=
    hread (indexIsConsistent_writes aside_temporary index hh)
  refine Preserves.bind (.firstSome fun _ _ => .bind hconsistent fun consistent => .ite .ret ?_)
    (fun _ => ?_) s hs
  · exact .bind (reconcileProjection_exact index) fun _ => .bind (hread hh) fun _ => .ret
  · refine .bind hconsistent fun consistent => .ite .ret (.ite .ret ?_)
    exact hread .throwRuntime

/-! ## Preparing a slot -/

/-- A slot that is not published and holds nothing. -/
structure Blank (jobs : String → RetainedJobMetadata) (t : RetainedJobType) (g : Generation)
    (s : Store) : Prop extends Clean jobs t s where
  unpublished : s.publishedGeneration t ≠ g
  vacant : Vacant t g s

/-- A blank slot is told by the index. -/
theorem steady_blank : Steady jobs t (Blank jobs t g) := by
  refine ⟨fun hapart h => ⟨h.toClean.congr hapart, ?_, h.vacant.congr (hapart.slots g)⟩,
    Blank.toClean⟩
  rw [hapart.publishedGeneration]
  exact h.unpublished

/-- Deletions keep the slot blank. -/
theorem Blank.deleteKeys {keys : List Key} (h : Blank jobs t g s)
    (hkeys : ∀ k ∈ keys, k.InSlot t g ∨ k = .initialized t g) :
    Blank jobs t g (s.writeAll (keys.map .del)) := by
  have hvacant : Vacant t g (s.writeAll (keys.map .del)) := h.vacant.deleteKeys keys
  have hsame : ∀ k : Key, ¬k.InSlot t g → k ≠ .initialized t g →
      s.SameAt (s.writeAll (keys.map .del)) k := by
    intro k hk hne
    refine Store.sameAt_writeAll_of_keys fun w hw heq => ?_
    obtain ⟨key, hkey, rfl⟩ := List.mem_map.mp hw
    obtain rfl : key = k := heq
    exact (hkeys key hkey).elim hk hne
  have hother : ∀ g', g' ≠ g → SameSlot t g' s (s.writeAll (keys.map .del)) := by
    refine fun g' hg' => SameSlot.of_sameAt fun k hk => hsame k (fun hin => hg' ?_) ?_
    · cases k with
      | sortedSet k => cases k <;> first | exact hk.2.symm.trans hin.2 | exact hk.elim
      | catalog k => exact hk.2.symm.trans hin.2
      | _ => exact hk.elim
    · rintro rfl
      exact hk.elim
  have hpublished : (s.writeAll (keys.map .del)).publishedGeneration t =
      s.publishedGeneration t := by
    rw [Store.publishedGeneration, Store.publishedState_congr
      (hsame (.published t) id Key.noConfusion) (hsame (.revision t) id Key.noConfusion)]
    rfl
  refine ⟨⟨⟨?_, ?_⟩, ?_, fun g' => ?_, fun g' hl hi => ?_⟩, ?_, hvacant⟩
  · rw [show (s.writeAll (keys.map .del)).metadata = s.metadata from
      hsame .metadata id Key.noConfusion]
    exact h.truthful.kept
  · rw [show (s.writeAll (keys.map .del)).repository = s.repository from
      effect_repository (i := 0) (.write (keys.map .del))]
    exact h.truthful.fetched
  · rw [hpublished]
    exact h.published.congr (hother _ h.unpublished)
  · by_cases hg : g' = g
    · rw [hg]
      exact hvacant.exact.loose
    · exact (h.frayed g').congr (hother g' hg)
  · by_cases hg : g' = g
    · rw [hg]
      exact hvacant
    · have hne : Key.initialized t g' ≠ .initialized t g := fun heq => hg (by cases heq; rfl)
      rw [show (s.writeAll (keys.map .del)).initialized t g' = s.initialized t g' from
        hsame (.initialized t g') id hne] at hi
      exact (h.unused g' hl hi).congr (hother g' hg)
  · rw [hpublished]
    exact h.unpublished

/-- Deletions leave a slot blank. -/
theorem write_deletions_preserves (keys : List Key)
    (hkeys : ∀ k ∈ keys, k.InSlot t g ∨ k = .initialized t g) :
    Preserves scan i jobs t (Blank jobs t g) (write (keys.map .del)) :=
  .of_maintains (R := fun _ => True) steady_blank
    ⟨fun _ _ hs => hs.deleteKeys hkeys, fun x _ => by cases x <;> trivial⟩

/-- **The deletion of a generation** leaves the slot blank. -/
theorem deleteGeneration_preserves (hh : Writes (Key.Aside t) heartbeat) :
    Preserves scan i jobs t (Blank jobs t g) (index.deleteGeneration t g heartbeat) := by
  have hheartbeat : Preserves scan i jobs t (Blank jobs t g) heartbeat := .of_writes steady_blank hh
  refine .bind (.forEach fun d _ => .bind (.iterate fun cursor => .bind
    (.of_writes steady_blank (.read rfl)) fun result => .bind (.forEach fun values _ => ?_)
      fun _ => .ret) fun _ => ?_) fun _ => ?_
  · refine .bind hheartbeat fun _ => ?_
    rw [show (values.map fun value => Write.del (.sortedSet (.facet t g d value))) =
      (values.map fun value => Key.sortedSet (.facet t g d value)).map .del from
        (List.map_map).symm]
    refine write_deletions_preserves _ fun k hk => ?_
    obtain ⟨value, -, rfl⟩ := List.mem_map.mp hk
    exact Or.inl ⟨rfl, rfl⟩
  · refine write_deletions_preserves [.catalog ⟨t, g, d⟩] fun k hk => ?_
    rw [List.mem_singleton.mp hk]
    exact Or.inl ⟨rfl, rfl⟩
  · refine .bind hheartbeat fun _ => write_deletions_preserves [.sortedSet (.projection t g),
      .sortedSet (.unresolved t g), .initialized t g] fun k hk => ?_
    simp only [List.mem_cons, List.not_mem_nil, or_false] at hk
    rcases hk with rfl | rfl | rfl
    · exact Or.inl ⟨rfl, rfl⟩
    · exact Or.inl ⟨rfl, rfl⟩
    · exact Or.inr rfl

/-- A blank slot becomes ready when it is marked as initialized. -/
theorem Blank.markInitialized (h : Blank jobs t g s) :
    Ready jobs t g (s.markInitialized t g true) := by
  have hsame : ∀ g', SameSlot t g' s (s.markInitialized t g true) := fun g' =>
    ⟨rfl, fun _ _ => rfl, fun _ => rfl⟩
  refine ⟨⟨⟨h.truthful.kept, h.truthful.fetched⟩, h.published.congr (hsame _),
    fun g' => (h.frayed g').congr (hsame g'), fun g' hl hi => ?_⟩, ?_, h.unpublished⟩
  · by_cases hg : g' = g
    · rw [hg] at hi
      simp [Store.markInitialized] at hi
    · refine (h.unused g' hl ?_).congr (hsame g')
      simpa [Store.markInitialized, Function.update_of_ne hg] using hi
  · simp [Store.markInitialized]

/-- Preparing leads from an unpublished slot to a ready one. -/
theorem initializeWorkingGeneration_ready (hh : Writes (Key.Aside t) heartbeat)
    {published : Generation} (hlegacy : g ≠ .legacy)
    (hs : Clean jobs t s ∧ s.publishedGeneration t ≠ g) :
    wp (exec scan i) (repairing scan i jobs t)
      (index.initializeWorkingGeneration t published g heartbeat)
      (fun _ => Ready jobs t g) (fun _ => Clean jobs t) s := by
  have hsteady : Steady jobs t fun s => Clean jobs t s ∧ s.publishedGeneration t ≠ g := by
    refine ⟨fun hapart h => ⟨h.1.congr hapart, ?_⟩, And.left⟩
    rw [hapart.publishedGeneration]
    exact h.2
  refine wp_bind_of ((reads_repairing hsteady).command (c := .getInitialized t g)
    (fun _ => rfl) hs) fun initialized s hs => ?_
  obtain ⟨rfl, hclean, hunpublished⟩ := hs
  by_cases hinit : s.initialized t g = true
  · simp only [Command.answer, hinit]
    exact ⟨hclean, hinit, hunpublished⟩
  have hfalse : s.initialized t g = false := Bool.eq_false_of_not_eq_true hinit
  simp only [Command.answer, hfalse, Bool.false_eq_true]
  have hblank : Blank jobs t g s := ⟨hclean, hunpublished, hclean.unused g hlegacy hfalse⟩
  refine wp_bind_of (deleteGeneration_preserves index hh s hblank) fun _ s hs => ?_
  refine wp_bind_of (Preserves.of_writes steady_blank hh s hs) fun _ s hs => ?_
  refine wp_bind_of (Preserves.of_writes steady_blank
    (transaction_writes fun _ _ w hw => ?_) s hs) fun _ s hs => ?_
  · rw [List.mem_singleton.mp hw]
    trivial
  refine wp_command.mpr fun s' hr _ => ?_
  have hs' : Blank jobs t g s' := steady_blank.congr hr hs
  refine ⟨?_, fun _ => hs'.toClean.congr apart_failing, fun _ => hs'.markInitialized⟩
  show Clean jobs t (exec scan i _ s').2
  rw [exec]
  split
  · exact hs'.toClean.congr apart_failing
  · exact hs'.markInitialized.toClean

/-- A program in sections. -/
theorem wp_sections {α : Type} {p : Redis α} {Q : α → Store → Prop} {E : Failure → Store → Prop}
    (ls : List Section) (h : wp (exec scan i) (repairing scan i jobs t) p Q E s) :
    wp (exec scan i) (repairing scan i jobs t) (ls.foldr Prog.inside p) Q E s := by
  induction ls with
  | nil => exact h
  | cons l ls ih => exact wp_inside.mpr (wp_push l ih)

/-- What is read as the published state is the published state. -/
theorem publishedStateIn_current {fallback : List Section} (hs : Clean jobs t s) :
    wp (exec scan i) (repairing scan i jobs t) (publishedStateIn fallback t)
      (fun state s => Clean jobs t s ∧
        s.publishedGeneration t = generationFromPublishedState state)
      (fun _ => Clean jobs t) s := by
  have hsteady : Steady jobs t fun s' => Clean jobs t s' ∧ s'.published t = s.published t ∧
      s'.revision t = s.revision t :=
    ⟨fun hapart h => ⟨h.1.congr hapart, hapart.published.trans h.2.1,
      hapart.revision.trans h.2.2⟩, And.left⟩
  have hreads : Reads scan i (repairing scan i jobs t) (fun s' => Clean jobs t s' ∧
      s'.published t = s.published t ∧ s'.revision t = s.revision t) _ := reads_repairing hsteady
  refine wp_bind_of (hreads.command (c := .getPublished t) (fun _ => rfl) ⟨hs, rfl, rfl⟩)
    fun state s' h => ?_
  obtain ⟨rfl, h⟩ := h
  cases hp : s'.published t with
  | some state =>
      simp only [Command.answer, hp, Prog.pure_eq_ret, wp_ret]
      refine ⟨h.1, ?_⟩
      rw [Store.publishedGeneration, Store.publishedState, hp]
      rfl
  | none =>
      simp only [Command.answer, hp]
      refine wp_bind_of (wp_sections fallback (hreads.command (c := .getRevision t)
        (fun _ => rfl) h)) fun revision s'' h' => ?_
      obtain ⟨rfl, h'⟩ := h'
      refine ⟨h'.1, ?_⟩
      rw [Store.publishedGeneration, Store.publishedState, h'.2.1, ← h.2.1, hp]
      rfl

/-- The working slot that is prepared is ready. -/
theorem prepareWorkingGeneration_ready (hh : Writes (Key.Aside t) heartbeat)
    (hs : Clean jobs t s) :
    wp (exec scan i) (repairing scan i jobs t) (index.prepareWorkingGeneration t heartbeat)
      (fun g => Ready jobs t g) (fun _ => Clean jobs t) s := by
  refine wp_bind_of (publishedStateIn_current hs) fun state s hs => ?_
  refine wp_bind_of (initializeWorkingGeneration_ready index hh (workingGenerationFor_ne_legacy _)
    ⟨hs.1, ?_⟩) fun _ s hs => hs
  rw [hs.2]
  exact (workingGenerationFor_ne _).symm

/-! ## Publishing -/

/-- A slot that may be published. -/
def Finished (jobs : String → RetainedJobMetadata) (t : RetainedJobType) (g : Generation)
    (s : Store) : Prop :=
  Clean jobs t s ∧ Exact jobs t g s

/-- That a slot may be published. -/
theorem steady_finished : Steady jobs t (Finished jobs t g) :=
  ⟨fun hapart h => ⟨h.1.congr hapart, h.2.congr (hapart.slots g)⟩, And.left⟩

/-- **Publishing** an exact slot keeps the published slot exact. -/
theorem publishGenerationState_preserves {revision : Token} :
    Preserves scan i jobs t (Finished jobs t g) (publishGenerationState t g revision) := by
  have hcommand : ∀ c : Command, (∀ i s, Finished jobs t g s → Finished jobs t g (c.effect i s)) →
      Preserves scan i jobs t (Finished jobs t g) (command c) := fun c hc =>
    .of_maintains (R := fun _ => True) steady_finished ⟨hc, fun x _ => by cases x <;> trivial⟩
  refine .bind (.ifThen (hcommand (.setRevision t revision) fun i s hs => ?_))
    fun _ => hcommand (.setPublished t ⟨g, revision⟩) fun i s hs => ?_
  · -- The legacy revision names the legacy slot as the lack of one does.
    have hpublished : ((Command.setRevision t revision).effect i s).publishedGeneration t =
        s.publishedGeneration t := by
      simp only [Command.effect, Store.publishedGeneration, Store.publishedState]
      cases s.published t with
      | some state => rfl
      | none => cases s.revision t <;> simp [Function.update_self]
    have hsame : ∀ g', SameSlot t g' s ((Command.setRevision t revision).effect i s) :=
      fun g' => ⟨rfl, fun _ _ => rfl, fun _ => rfl⟩
    refine ⟨hs.1.of_slots hsame rfl ?_ ⟨hs.1.truthful.kept, hs.1.truthful.fetched⟩,
      hs.2.congr (hsame g)⟩
    rw [hpublished]
    exact hs.1.published
  · have hpublished : ((Command.setPublished t ⟨g, revision⟩).effect i s).publishedGeneration t =
        g := by
      simp [Command.effect, Store.publishedGeneration, Store.publishedState]
    have hsame : ∀ g', SameSlot t g' s ((Command.setPublished t ⟨g, revision⟩).effect i s) :=
      fun g' => ⟨rfl, fun _ _ => rfl, fun _ => rfl⟩
    refine ⟨hs.1.of_slots hsame rfl ?_ ⟨hs.1.truthful.kept, hs.1.truthful.fetched⟩,
      hs.2.congr (hsame g)⟩
    rw [hpublished]
    exact hs.2

/-- Removing the metadata of the replaced slot keeps the store clean. -/
theorem removeUnretainedMetadataFromGeneration_preserves {working : Working} :
    Preserves scan i jobs t (Clean jobs t)
      (index.removeUnretainedMetadataFromGeneration working t g token source) := by
  have hread : ∀ {α : Type} {p : Redis α}, Writes (Key.Aside t) p →
      Preserves scan i jobs t (Clean jobs t) p := .of_writes steady_clean
  refine .bind (hread randomToken_writes) fun stale => .tryFinally ?_
    (hread (deleteQuietly_writes aside_temporary)) (hread (deleteQuietly_writes aside_temporary))
  refine .bind (hread (difference_writes aside_temporary)) fun _ => .iterate fun _ => ?_
  refine .bind (hread zrange_writes) fun ids => .ite .ret ?_
  refine .bind (hread renewWorkingSet_writes) fun _ => ?_
  refine .bind (removeUnretainedMetadata_preserves steady_clean) fun _ => ?_
  refine .bind (hread (.write fun w hw => ?_)) fun _ => .ret
  rw [List.mem_singleton.mp hw]
  exact aside_temporary stale

/-- Publishing a slot that may be published keeps the store clean. -/
theorem publishWorkingGeneration_clean {working : Working} (hs : Finished jobs t g s) :
    wp (exec scan i) (repairing scan i jobs t)
      (index.publishWorkingGeneration working t g token source) (fun _ => Clean jobs t)
      (fun _ => Clean jobs t) s := by
  have hread : ∀ {α : Type} {p : Redis α}, Writes (Key.Aside t) p →
      Preserves scan i jobs t (Finished jobs t g) p := .of_writes steady_finished
  refine wp_bind_of (Preserves.inside (.bind (hread publishedState_writes) fun state =>
    .bind (hread randomToken_writes) fun revision =>
      .bind publishGenerationState_preserves fun _ => .ret) s hs) fun replaced s hs => ?_
  exact Preserves.tryCatch (removeUnretainedMetadataFromGeneration_preserves index)
    (fun _ => .ret) s hs.1

/-- Where nothing is published the legacy slot is, which is exact. -/
theorem ensureSynchronizationRevision_preserves :
    Preserves scan i jobs t (Clean jobs t) (ensureSynchronizationRevision t) := by
  refine fun s hs => wp_bind_of (publishedStateIn_current hs) fun state s hs => ?_
  cases state with
  | some state => exact hs.1
  | none =>
      have hfinished : Finished jobs t .legacy s := by
        refine ⟨hs.1, ?_⟩
        rw [show Generation.legacy = s.publishedGeneration t from hs.2.symm]
        exact hs.1.published
      refine wp_mono (fun _ _ h => h.1) (fun _ _ h => h) (Preserves.inside
        (.bind (.of_writes steady_finished randomToken_writes) fun _ =>
          publishGenerationState_preserves) s hfinished)

/-! ## Whole synchronizations -/

/-- A critical section ends with a slot that may be published. -/
theorem underLock_finished (hh : Writes (Key.Aside t) heartbeat) {α : Type}
    {body : Generation → Redis α} (slot : α → Generation)
    (hbody : ∀ g s, Ready jobs t g s → wp (exec scan i) (repairing scan i jobs t) (body g)
      (fun a s => Ready jobs t (slot a) s ∧ Exact jobs t (slot a) s) (fun _ => Clean jobs t) s)
    (hs : Clean jobs t s) :
    wp (exec scan i) (repairing scan i jobs t) (Prog.inside (.synchronizing t token) do
      let g ← index.prepareWorkingGeneration t heartbeat
      body g) (fun a => Finished jobs t (slot a)) (fun _ => Clean jobs t) s := by
  refine wp_inside.mpr (wp_push _ (wp_bind_of (prepareWorkingGeneration_ready index hh hs)
    fun g s hs => ?_))
  exact wp_mono (fun _ _ h => ⟨h.1.toClean, h.2⟩) (fun _ _ h => h) (hbody g s hs)

/-- Releasing the lock keeps the store clean. -/
theorem releaseSynchronizationLock_preserves :
    Preserves scan i jobs t (Clean jobs t) (releaseSynchronizationLock t token) := by
  refine .tryCatch (.of_writes steady_clean (.command fun k hk => ?_)) fun _ => .ret
  rw [List.mem_singleton.mp hk]
  trivial

/-- Acquiring the lock keeps the store clean. -/
theorem acquireSynchronizationLock_preserves :
    Preserves scan i jobs t (Clean jobs t) (acquireSynchronizationLock t) := by
  refine .of_writes steady_clean (Writes.bind (.read rfl) fun token =>
    Writes.bind (.command fun k hk => ?_) fun _ => .ret)
  rw [List.mem_singleton.mp hk]
  trivial

/-- Synchronizing with a snapshot keeps the store clean. -/
theorem synchronizeSnapshot_preserves {synchronized force : Bool} :
    Preserves scan i jobs t (Clean jobs t) (index.synchronizeSnapshot synchronized t source force
      requiredFacets requiredCatalogPartitions) := by
  have hconsistent : Preserves scan i jobs t (Clean jobs t) (index.indexIsConsistent none t
      requiredFacets requiredCatalogPartitions source (renewSourceSnapshot source)) :=
    .of_writes steady_clean
      (indexIsConsistent_writes aside_temporary index renewSourceSnapshot_writes)
  refine .bind (.ite hconsistent .ret) fun consistent => .ite .ret ?_
  refine .bind (.of_writes steady_clean (assertNamespaceOwnership_writes trivial)) fun _ => ?_
  refine .bind (.ite hconsistent .ret) fun consistent => .ite .ret ?_
  refine .bind acquireSynchronizationLock_preserves fun token => ?_
  cases token with
  | none =>
      refine .bind (.ite .ret (.bind hconsistent fun _ => .ret)) fun _ => .ite ?_ .ret
      exact .of_writes steady_clean .throwRuntime
  | some token =>
      refine .tryFinally (fun s hs => ?_) releaseSynchronizationLock_preserves
        releaseSynchronizationLock_preserves
      refine wp_bind_of (underLock_finished index renewSynchronizationState_writes id
        (fun g s hs => wp_bind_of (synchronizeSnapshotUnderLock_exact index
          renewSynchronizationState_writes hs) fun _ s hs => hs) hs) fun g s hs => ?_
      exact publishWorkingGeneration_clean index hs

/-- Synchronizing with a snapshot that grows keeps the store clean. -/
theorem synchronizeGrowingSourceSnapshot_preserves :
    Preserves scan i jobs t (Clean jobs t) (index.synchronizeGrowingSourceSnapshot t source
      requiredFacets requiredCatalogPartitions) := by
  refine .bind (.of_writes steady_clean (assertNamespaceOwnership_writes trivial)) fun _ => ?_
  refine .bind acquireSynchronizationLock_preserves fun token => ?_
  cases token with
  | none => exact .of_writes steady_clean .throwRuntime
  | some token =>
      refine .tryFinally (fun s hs => ?_) releaseSynchronizationLock_preserves
        releaseSynchronizationLock_preserves
      refine wp_bind_of (underLock_finished index renewSynchronizationState_writes Prod.fst
        (fun g s hs => ?_) hs) fun r s hs =>
          wp_bind_of (publishWorkingGeneration_clean index hs) fun _ s hs => hs
      have hread : ∀ {α : Type} {p : Redis α}, Writes (Key.Aside t) p →
          Preserves scan i jobs t (fun s => Ready jobs t g s ∧ Exact jobs t g s) p :=
        .of_writes (steady_ready ofSlot_exact)
      refine wp_bind_of (synchronizeSnapshotUnderLock_exact index renewSynchronizationState_writes
        hs) fun _ s hs => ?_
      refine wp_bind_of (hread trimSource_writes s hs) fun _ s hs => ?_
      refine wp_bind_of (hread (refreshSourceSnapshot_writes aside_temporary index
        renewSynchronizationState_writes) s hs) fun source s hs => ?_
      exact wp_bind_of (synchronizeSnapshotUnderLock_exact index renewSynchronizationState_writes
        hs.1) fun _ s hs => hs

/-- A whole synchronization keeps the store clean. -/
theorem synchronize_preserves {trimmed synchronized force : Bool} :
    Preserves scan i jobs t (Clean jobs t) (index.synchronize trimmed synchronized t force
      requiredFacets requiredCatalogPartitions) := by
  have hread : ∀ {α : Type} {p : Redis α}, Writes (Key.Aside t) p →
      Preserves scan i jobs t (Clean jobs t) p := .of_writes steady_clean
  have hlift : ∀ {α : Type} {p : Redis α}, Preserves scan i jobs t (Clean jobs t) p → ∀ s,
      Clean jobs t s → Scoped.wp (exec scan i) (repairing scan i jobs t)
        (Scoped.lift p : ScopedRedis α) (fun _ => Clean jobs t) (fun _ => Clean jobs t) s :=
    fun h s hs => Scoped.wp_lift (h s hs)
  have hdelete : ∀ k, Preserves scan i jobs t (Clean jobs t) (deleteQuietly k) := fun k =>
    hread (deleteQuietly_writes aside_temporary)
  refine fun s hs => Scoped.wp_scope (Q := fun _ => Clean jobs t) (E := fun _ => Clean jobs t) ?_
    (fun _ k s hs => hdelete k s hs) fun _ k s hs => hdelete k s hs
  refine Scoped.wp_bind_of (Q := fun _ => Clean jobs t) ?_ fun _ s hs =>
    hlift ensureSynchronizationRevision_preserves s hs
  refine Scoped.wp_bind_of (hlift (.ite (hread trimSource_writes) .ret) s hs) fun _ s hs => ?_
  refine Scoped.wp_bind_of (hlift (hread (materializeSourceSnapshot_writes aside_temporary)) s hs)
    fun snapshot s hs => ?_
  refine Scoped.wp_bind_of (Scoped.wp_register hs) fun _ s hs => hlift ?_ s hs
  refine .bind (.ite (hread (indexIsConsistent_writes aside_temporary index
    renewSourceSnapshot_writes)) .ret) fun consistent => .ite ?_
      (synchronizeGrowingSourceSnapshot_preserves index)
  refine .bind (hread trimSource_writes) fun _ => ?_
  refine .bind (hread (refreshSourceSnapshot_writes aside_temporary index
    renewSourceSnapshot_writes)) fun refreshed => ?_
  exact .bind (synchronizeSnapshot_preserves index) fun _ => .ret

/-! ## Sequences of runs -/

/-- The synchronization runs of a type. -/
inductive Synchronization (t : RetainedJobType) : Redis Unit → Prop
  | underLock {p : Redis Unit} (h : Synchronizer t p) : Synchronization t p
  | whole (index : RetainedJobIndex) (trimmed synchronized force : Bool)
      (requiredFacets : List (FacetDimension × String))
      (requiredCatalogPartitions : List FacetDimension) :
      Synchronization t (index.synchronize trimmed synchronized t force requiredFacets
        requiredCatalogPartitions)

/-- Every synchronization run keeps the store clean. -/
theorem Synchronization.preserves {p : Redis Unit} (h : Synchronization t p) :
    Preserves scan i jobs t (Clean jobs t) p := by
  cases h with
  | underLock h =>
      cases h with
      | snapshot index => exact synchronizeSnapshot_preserves index
      | growing index => exact .bind (synchronizeGrowingSourceSnapshot_preserves index) fun _ => .ret
  | whole index => exact synchronize_preserves index

/-- Runs one after the other that may be aborted anywhere: any command may fail, and a run may be
killed before any command. The metadata of an id is always `jobs id`. -/
def synchronizations (scan : ScanOrder) (jobs : String → RetainedJobMetadata)
    (t : RetainedJobType) :
    Circumstances ProcessId Command Command.Reply Section Failure Store Unit where
  exec := exec scan
  world := Apart jobs t
  runs := Synchronization t
  guard _ _ _ := True

/-- Such runs whose inspections look where the residue of their working slot is. -/
def sightedSynchronizations (scan : ScanOrder) (jobs : String → RetainedJobMetadata)
    (t : RetainedJobType) :
    Circumstances ProcessId Command Command.Reply Section Failure Store Unit where
  __ := synchronizations scan jobs t
  guard := Visible t

/-- A store without an index is clean. -/
theorem clean_of_vacant (ht : Truthful jobs s) (h : ∀ g, Vacant t g s) : Clean jobs t s :=
  ⟨ht, (h _).exact, fun g => (h g).exact.loose, fun g _ _ => h g⟩

/-- The lock expires. -/
def expireLock (s : Store) : Store := { s with lock := Function.update s.lock .pending none }

/-- The lock is apart from the index. -/
theorem apart_expireLock (s : Store) : Apart jobs t s (expireLock s) :=
  ⟨fun _ => ⟨rfl, fun _ _ => rfl, fun _ => rfl⟩, rfl, rfl, rfl, fun h => ⟨h.kept, h.fetched⟩⟩

/-- Another source is apart from the index. -/
theorem apart_source (z : ZSet) (s : Store) :
    Apart jobs .pending s (s.setZset (.source .pending) z) :=
  ⟨fun _ => ⟨rfl, fun _ _ => rfl, fun _ => rfl⟩, rfl, rfl, rfl, fun h => ⟨h.kept, h.fetched⟩⟩

/-- A forced synchronization of the pending jobs. -/
def forcedSynchronization (requiredCatalogPartitions : List FacetDimension) : Redis Unit :=
  (⟨500, 3⟩ : RetainedJobIndex).synchronize false false .pending true [] requiredCatalogPartitions

/-! ### Residue that an inspection sees -/

/-- Whether an inspection looks where the residue is. -/
def sees (t : RetainedJobType) (ls : List Section) (_ : Command) (s : Store) : Bool :=
  ls.all fun
    | .inspecting (some (t', g)) requiredFacets requiredCatalogPartitions =>
        t' ≠ t ∨ (∀ d ∈ FacetDimension.cases, ¬Residue t g s d) ∨
          Noticed t g requiredFacets requiredCatalogPartitions s
    | _ => true

/-- The check is sound. -/
theorem visible_of_sees {ls : List Section} {c : Command} (h : sees t ls c s = true) :
    Visible t ls c s := by
  intro g requiredFacets requiredCatalogPartitions hin
  have hsees := List.all_eq_true.mp h _ hin
  simp only [ne_eq, not_true_eq_false, false_or, decide_eq_true_eq] at hsees
  exact hsees.imp_left fun hnone d => hnone d (FacetDimension.mem_cases d)

/-- Jobs with their id for a name. -/
def namedJobs (id : String) : RetainedJobMetadata := ⟨id, id, "default", "redis", []⟩

/-- A pending source with one job, and no index. -/
def namedStore : Store where
  __ := Store.empty
  zset k := if k = .source .pending then .ofFun ["App"] fun _ => some (-10) else ∅
  clock := 20
  repository ids := ids.map fun id => ⟨some id, some id, some "default", some "redis", none⟩

/-- A store without an index and with every job in the repository is clean. -/
theorem clean_namedStore : Clean namedJobs .pending namedStore := by
  refine clean_of_vacant ⟨fun e he => absurd he List.not_mem_nil, fun ids job hjob m hm => ?_⟩
    fun g => ⟨fun _ => SortedSet.not_mem_empty, fun _ _ _ => SortedSet.not_mem_empty,
      fun _ _ => List.not_mem_nil⟩
  obtain ⟨id, -, rfl⟩ := List.mem_map.mp hjob
  simp only [RetainedJobMetadata.fromJob] at hm
  split at hm
  · simp at hm
  · cases hm
    simp [namedJobs, RetainedJobMetadata.stringValue, RetainedJobMetadata.payloadTags]

/-- The first run stores the job `App`, sees it replaced in the source by `Mail`, stores that, removes
`App` and is killed before the clean-up. The second run inspects the catalog of job names, rebuilds
the slot and publishes it. -/
def repairedSchedule :
    List (Sequence.Move ProcessId Command Command.Reply Section Failure Store Unit) :=
  .begin 0 (forcedSynchronization []) :: List.replicate 154 .own ++
    .world (Store.setZset · (.source .pending) (.ofFun ["Mail"] fun _ => some (-15))) ::
      List.replicate 106 .own ++ .kill :: .world expireLock ::
        .begin 1 (forcedSynchronization [.job]) :: List.replicate 510 .own

/-- Jobs of one name on one queue. -/
def appJobs (id : String) : RetainedJobMetadata := ⟨id, "App", "default", "redis", []⟩

/-- A pending source with one job, and no index. -/
def appStore : Store where
  __ := Store.empty
  zset k := if k = .source .pending then .ofFun ["job"] fun _ => some (-10) else ∅
  clock := 20
  repository _ := [⟨some "job", some "App", some "default", some "redis", none⟩]

/-- A store without an index and with its job in the repository is clean. -/
theorem clean_appStore : Clean appJobs .pending appStore := by
  refine clean_of_vacant ⟨fun e he => absurd he List.not_mem_nil, fun ids job hjob m hm => ?_⟩
    fun g => ⟨fun _ => SortedSet.not_mem_empty, fun _ _ _ => SortedSet.not_mem_empty,
      fun _ _ => List.not_mem_nil⟩
  rw [List.mem_singleton.mp hjob] at hm
  cases hm
  rfl

/-- The first run stores the job, sees it leave the source, removes it and is killed before the
clean-up. The second run finds nothing to do and publishes the slot. -/
def abortedSchedule :
    List (Sequence.Move ProcessId Command Command.Reply Section Failure Store Unit) :=
  .begin 0 (forcedSynchronization []) :: List.replicate 154 .own ++
    .world (Store.setZset · (.source .pending) ∅) :: List.replicate 74 .own ++ .kill ::
      .world expireLock :: .begin 1 (forcedSynchronization []) :: List.replicate 151 .own

end RetainedJobIndex

end HorizonNewDawn

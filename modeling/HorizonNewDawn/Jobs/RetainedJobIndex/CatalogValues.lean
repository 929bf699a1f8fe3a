import HorizonNewDawn.Jobs.RetainedJobIndex.Inspection
import HorizonNewDawn.Program.Evaluation
import HorizonNewDawn.Jobs.RetainedJobIndex.ExactPublication

/-! # The values of the facet catalogs

`catalogValuesFor` lists, for some dimensions, the values that occur among the retained jobs. It
reads the published generation under the fence of the published state, and what it returns is read
off a single generation (`catalogValuesFor_read`): the values some projected member of its source
snapshot has, in the order and as often as the iterations over the catalogs show them. So the lists
are exact as sets, but a value an iteration shows twice is listed twice. -/

namespace HorizonNewDawn

open Program

namespace RetainedJobIndex

/-- `PERSISTENT_READ_SYNCHRONIZATION_ATTEMPTS` -/
def persistentReadSynchronizationAttempts : ℕ := 2

variable (index : RetainedJobIndex)

/-- The part of an attempt that reads: nothing where a synchronization is active or the snapshot is
not covered. -/
def readCatalogs (t : RetainedJobType) (dimensions : List FacetDimension)
    (retained : SourceSnapshot) : ScopedRedis (Option (List (FacetDimension × List String))) := do
  if ← Scoped.lift (synchronizationIsActive t) then return none
  match ← inspectableSourceSnapshot t retained with
  | none => return none
  | some source => Scoped.lift do
      let available ← Prog.collect dimensions fun d => do
        return (d, ← availableCatalogValues index t d source)
      return some available

/-- Whether a synchronization is active or another state is published than the one read before. -/
def synchronizationHasMoved (t : RetainedJobType) (revision : Option PublishedState) :
    Redis Bool := do
  if ← synchronizationIsActive t then return true
  return decide ((← synchronizationRevision t) ≠ revision)

/-- One attempt of `catalogValuesFor`. -/
def catalogValuesAttempt (trimmed synchronized : Bool) (t : RetainedJobType)
    (dimensions requiredCatalogPartitions : List FacetDimension) :
    ScopedRedis (Option (List (FacetDimension × List String))) := do
  let retained ← index.synchronizedSourceSnapshot trimmed synchronized t false [] []
  let revision ← Scoped.lift (synchronizationRevision t)
  match ← readCatalogs index t dimensions retained with
  | none => return none
  | some available => Scoped.lift do
      if ← synchronizationHasMoved t revision then return none
      if requiredCatalogPartitions = [] then return some available
      index.synchronizeSnapshot true t retained false [] requiredCatalogPartitions
      if ← synchronizationHasMoved t revision then return none
      return some available

/-- `catalogValuesFor`; `trimmed` and `synchronized` are the index object's memory, which every
attempt leaves set. -/
def catalogValuesFor (trimmed synchronized : Bool) (t : RetainedJobType)
    (dimensions : List FacetDimension) : Redis (List (FacetDimension × List String)) := do
  let dimensions := dimensions.eraseDups
  if dimensions = [] then return []
  let requiredCatalogPartitions := dimensions.filter FacetDimension.isSingleValued
  let available ← Prog.firstSome (List.range persistentReadSynchronizationAttempts) fun attempt =>
    Scoped.scope deleteQuietly (index.catalogValuesAttempt (trimmed || 0 < attempt)
      (synchronized || 0 < attempt) t dimensions requiredCatalogPartitions)
  match available with
  | some available => return available
  | none => throwRuntime "The retained job facet catalogs could not be read consistently."

/-- `catalogValues` -/
def catalogValues (trimmed synchronized : Bool) (t : RetainedJobType) (d : FacetDimension) :
    Redis (List String) := do
  let available ← index.catalogValuesFor trimmed synchronized t [d]
  return (available.lookup d).getD []

variable {rank : Option PublishedState → ℕ} {i : ProcessId} {t : RetainedJobType}
  {s : Store} {scan : ScanOrder} {state : Option PublishedState} {d : FacetDimension}
  {dimensions : List FacetDimension}

/-! ## What is read -/

/-- The transaction that copies the source. -/
def materialization (t : RetainedJobType) (key : Token) : Command :=
  .write [intersect key [(.source t, 1)], expireTemporary key synchronizationLockSeconds]

/-- The transaction that intersects a source snapshot with the projection of the published slot. -/
def inspection (t : RetainedJobType) (g : Generation) (retained sourceKey gapKey : Token) :
    Command :=
  .write [intersect sourceKey [(.temporary retained, 1), (.projection t g, 0)],
    .zdiffstore (.temporary gapKey)
      [.temporary retained, .projection t g, .unresolved t g],
    expireTemporary sourceKey temporaryKeyTtlSeconds,
    expireTemporary gapKey temporaryKeyTtlSeconds]

/-- In the course of `history` the source was copied to the key `retained`, which was inspected in
the store `at₁`. -/
structure Inspected (t : RetainedJobType) (history : List (Command × Store)) (retained : Token)
    (at₁ : Store) : Prop where
  materialized : ∃ s, (materialization t retained, s) ∈ history
  inspected : ∃ sourceKey gapKey,
    (inspection t (at₁.publishedGeneration t) retained sourceKey gapKey, at₁) ∈ history

/-- The members of a source snapshot that are projected. -/
def projected (t : RetainedJobType) (at₁ : Store) (retained : Token) : ZSet :=
  interStore [(at₁.zset (.temporary retained), 1),
    (at₁.zset (.projection t (at₁.publishedGeneration t)), 0)]

/-- What an iteration over a catalog shows of the values that projected members have. -/
def availableValues (scan : ScanOrder) (t : RetainedJobType) (at₁ : Store) (retained : Token)
    (d : FacetDimension) : List String :=
  (scan.shown ⟨t, at₁.publishedGeneration t, d⟩
    (at₁.catalog ⟨t, at₁.publishedGeneration t, d⟩)).filter
      (isAvailable t (at₁.publishedState t) d at₁ (projected t at₁ retained))

/-- The values were read off one published generation. -/
def ReadOff (scan : ScanOrder) (t : RetainedJobType) (dimensions : List FacetDimension)
    (values : List (FacetDimension × List String)) (history : List (Command × Store)) : Prop :=
  ∃ retained at₁, Inspected t history retained at₁ ∧
    values = dimensions.map fun d => (d, availableValues scan t at₁ retained d)

/-- What was read off a part of a history was read off the whole. -/
theorem ReadOff.mono {values : List (FacetDimension × List String)}
    {history history' : List (Command × Store)} (hsub : history ⊆ history')
    (h : ReadOff scan t dimensions values history) : ReadOff scan t dimensions values history' := by
  obtain ⟨retained, at₁, ⟨⟨s, hs⟩, ⟨sourceKey, gapKey, hi⟩⟩, rfl⟩ := h
  exact ⟨retained, at₁, ⟨⟨s, hsub hs⟩, ⟨sourceKey, gapKey, hsub hi⟩⟩, rfl⟩

/-! ## The source snapshot -/

/-- Refreshing a snapshot keeps its key. -/
theorem refreshSourceSnapshot_key {snapshot : SourceSnapshot} {heartbeat : Redis Unit}
    {working : Working} :
    Obeys (fun _ _ => True) (fun _ _ => True)
      (index.refreshSourceSnapshot working t snapshot heartbeat) fun r => r.key = snapshot.key := by
  refine (Obeys.of_true _).bind fun _ _ => (Obeys.of_true _).bind fun _ _ => ?_
  refine Obeys.tryFinally ?_ (Obeys.of_true _)
  refine (Obeys.of_true _).bind fun _ _ => (Obeys.of_true _).bind fun _ _ => ?_
  refine (Obeys.of_true _).bind fun _ _ => (Obeys.of_true _).bind fun _ _ => ?_
  exact (Obeys.of_true _).bind fun _ _ => (Obeys.of_true _).bind fun _ _ => rfl

/-- A synchronized snapshot keeps its key. -/
theorem synchronizeGrowingSourceSnapshot_key {source : SourceSnapshot}
    {requiredFacets : List (FacetDimension × String)}
    {requiredCatalogPartitions : List FacetDimension} :
    Obeys (fun _ _ => True) (fun _ _ => True) (index.synchronizeGrowingSourceSnapshot t source
      requiredFacets requiredCatalogPartitions) fun r => r.key = source.key := by
  refine (Obeys.of_true _).bind fun _ _ => (Obeys.of_true _).bind fun token _ => ?_
  cases token with
  | none => trivial
  | some token =>
      refine Obeys.tryFinally ?_ (Obeys.of_true _)
      refine Obeys.bind (R := fun r : Generation × SourceSnapshot => r.2.key = source.key) ?_
        fun r hr => (Obeys.of_true _).bind fun _ _ => hr
      refine Obeys.inside ((Obeys.of_true _).bind fun g _ => (Obeys.of_true _).bind fun _ _ => ?_)
      refine (Obeys.of_true _).bind fun _ _ => ?_
      refine (refreshSourceSnapshot_key index).bind fun refreshed hkey => ?_
      exact (Obeys.of_true _).bind fun _ _ => hkey

/-- What a program obeys holds of its results, whatever the store. -/
theorem wp_of_results {α : Type} {p : Redis α} {R : α → Prop} {x : Recorded Command Store}
    (h : Obeys (fun _ _ => True) (fun _ _ => True) p R) {F : List (Command × Store) → Prop}
    (hF : ∀ h h', h ⊆ h' → F h → F h') (hx : F x.2) :
    wp (recording (exec scan i)) (advancing rank i t).recorded p (fun a y => R a ∧ F y.2)
      (fun _ _ => True) x := by
  have hresult : wp (exec scan i) (advancing rank i t) p (fun a _ => R a ∧ True)
      (fun _ _ => True) x.1 :=
    wp_of_obeys (Φ := fun _ => True) (Discipline.stable_const _ _)
      (fun _ _ _ _ _ _ => ⟨trivial, trivial, trivial⟩) h trivial
  exact wp_mono (fun a y hy => ⟨hy.1.1, hF _ _ hy.2 hx⟩) (fun _ _ _ => trivial)
    (wp_recording hresult)

/-- A transaction is recorded. -/
theorem transaction_recording {ws : (RetainedJobType → Generation) → List Write}
    {x : Recorded Command Store} :
    wp (recording (exec scan i)) (advancing rank i t).recorded (transaction none ws)
      (fun _ y => ∃ g s, (.write (ws g), s) ∈ y.2) (fun _ _ => True) x := by
  have hF : ∀ h h' : List (Command × Store), h ⊆ h' → True → True := fun _ _ _ h => h
  refine wp_bind_of (wp_mono (fun _ _ h => h) (fun _ _ _ => trivial)
    (wp_of_results (Obeys.of_true _) hF trivial)) fun g y _ => ?_
  refine wp_command_recording fun s _ _ => ⟨trivial, fun _ => trivial, fun _ => ?_⟩
  exact ⟨g, s, List.mem_cons_self⟩

/-- The snapshot a reader starts with was copied from the source. -/
theorem synchronizedSourceSnapshot_materialized {trimmed synchronized : Bool}
    {requiredFacets : List (FacetDimension × String)}
    {requiredCatalogPartitions : List FacetDimension} {x : Recorded Command Store} :
    Scoped.wp (recording (exec scan i)) (advancing rank i t).recorded
      (index.synchronizedSourceSnapshot trimmed synchronized t false requiredFacets
        requiredCatalogPartitions)
      (fun r y => ∃ s, (materialization t r.key, s) ∈ y.2) (fun _ _ => True) x := by
  have hF : ∀ h h' : List (Command × Store), h ⊆ h' → True → True := fun _ _ _ h => h
  have hkept : ∀ key (h h' : List (Command × Store)), h ⊆ h' →
      (∃ s, (materialization t key, s) ∈ h) → ∃ s, (materialization t key, s) ∈ h' :=
    fun key h h' hsub ⟨s, hs⟩ => ⟨s, hsub hs⟩
  refine Scoped.wp_bind_of (Scoped.wp_lift (wp_of_results (Obeys.of_true _) hF trivial))
    fun _ y _ => ?_
  refine Scoped.wp_bind_of (Q := fun r y => ∃ s, (materialization t r.key, s) ∈ y.2)
    (Scoped.wp_lift ?_) fun snapshot y hy => ?_
  · refine wp_bind_of (wp_of_results (Obeys.of_true _) hF trivial) fun key y _ => ?_
    refine wp_bind_of transaction_recording fun _ y hy => ?_
    obtain ⟨-, s, hs⟩ := hy
    exact wp_bind_of (wp_of_results (Obeys.of_true _) (hkept key) ⟨s, hs⟩) fun n y hy => hy.2
  · refine Scoped.wp_bind_of (Q := fun _ y => ∃ s, (materialization t snapshot.key, s) ∈ y.2)
      (Scoped.wp_register hy) fun _ y hy => Scoped.wp_lift ?_
    have hresult : Obeys (fun _ _ => True) (fun _ _ => True) (do
        let consistent ← (if !false then
            index.indexIsConsistent none t requiredFacets requiredCatalogPartitions snapshot
              (renewSourceSnapshot snapshot)
          else return false)
        if consistent then
          trimSource t
          let refreshed ← index.refreshSourceSnapshot none t snapshot
            (renewSourceSnapshot snapshot)
          index.synchronizeSnapshot synchronized t refreshed false requiredFacets
            requiredCatalogPartitions
          return refreshed
        index.synchronizeGrowingSourceSnapshot t snapshot requiredFacets
          requiredCatalogPartitions) fun r => r.key = snapshot.key := by
      refine (Obeys.of_true _).bind fun consistent _ => Obeys.ite (fun _ => ?_) fun _ =>
        synchronizeGrowingSourceSnapshot_key index
      refine (Obeys.of_true _).bind fun _ _ => ?_
      refine (refreshSourceSnapshot_key index).bind fun refreshed hkey => ?_
      exact (Obeys.of_true _).bind fun _ _ => hkey
    refine wp_mono (fun r y hr => ?_) (fun _ _ h => h) (wp_of_results hresult (hkept snapshot.key) hy)
    rw [hr.1]
    exact hr.2

/-! ## Reading under the fence -/

/-- The effect of the inspection on the temporary keys. -/
theorem viewing_inspection {g : Generation} {retained sourceKey gapKey : Token} {n : ℕ}
    (hstate : s.publishedState t = state) (hg : g = generationFromPublishedState state)
    (hown : sourceKey.pid = i) (hdrawn : sourceKey.serial < s.serial i)
    (hne : sourceKey ≠ gapKey) :
    Viewing i t state s ⟨sourceKey, n⟩ (projected t s retained)
      ((inspection t g retained sourceKey gapKey).effect i s) := by
  have hpublished : s.publishedGeneration t = g := by
    rw [hg, ← hstate]
    rfl
  have hsame : ∀ k : Key, ¬k.IsTemporary →
      s.SameAt ((inspection t g retained sourceKey gapKey).effect i s) k := by
    intro k hk
    refine Store.sameAt_writeAll_of_keys fun w hw heq => hk ?_
    simp only [List.mem_cons, List.not_mem_nil, or_false] at hw
    rcases hw with rfl | rfl | rfl | rfl <;> rw [← heq] <;> trivial
  refine ⟨?_, SameSlot.of_sameAt fun k hk => hsame k ?_, ?_, hown, ?_⟩
  · exact (Store.publishedState_congr (hsame _ id) (hsame _ id)).trans hstate
  · rcases k with k | k | _ | _ | _ | _ | _ | _
    · cases k <;> first | exact id | exact hk.elim
    all_goals exact id
  · have hkey : SortedSetKey.temporary sourceKey ≠ .temporary gapKey := by simpa using hne
    show ((s.setZset (.temporary sourceKey) _).setZset (.temporary gapKey) _).zset
      (.temporary sourceKey) = _
    rw [Store.setZset_zset, if_neg hkey, Store.setZset_zset, if_pos rfl, projected, hpublished]
    rfl
  · exact hdrawn.trans_le (Command.serial_le_effect _)

/-- Inspecting a snapshot: it is intersected with the projection of the published slot, which from
then on is viewed as it was in that moment. -/
theorem inspectableSourceSnapshot_undisturbed {retained : SourceSnapshot}
    {x : Recorded Command Store} (hx : x.1.publishedState t = state)
    (hmaterialized : ∃ s, (materialization t retained.key, s) ∈ x.2) :
    Scoped.wp (recording (exec scan i)) (undisturbed rank i t).recorded
      (inspectableSourceSnapshot t retained)
      (fun r y => ∀ source ∈ r, ∃ at₁, at₁.publishedState t = state ∧
        Inspected t y.2 retained.key at₁ ∧
        Viewing i t state at₁ source (projected t at₁ retained.key) y.1)
      (fun _ _ => True) x := by
  have hfresh : (undisturbed rank i t).Stable fun s => s.publishedState t = state :=
    fun ls s s' hr hs => (SlotKept.same hr).trans hs
  have hserial : ∀ n, (undisturbed rank i t).Stable fun s =>
      s.publishedState t = state ∧ s.serial i = n := fun n ls s s' hr hs =>
    ⟨hfresh ls s s' hr hs.1, (Advances.serial hr.toAdvances).trans hs.2⟩
  have hdraw : ∀ s : Store, s.publishedState t = state →
      (Command.random.effect i s).publishedState t = state := fun s hs => hs
  -- two keys are drawn, and registered for their deletion
  refine Scoped.wp_bind_of (Scoped.wp_lift (wp_mono (fun _ _ h => h) (fun _ _ _ => trivial)
    (wp_recording (temporaryKey_undisturbed hfresh hdraw hx)))) fun sourceKey y hy => ?_
  obtain ⟨⟨hsourceKey, hn, hy⟩, hsub⟩ := hy
  refine Scoped.wp_bind_of (Scoped.wp_lift (wp_mono (fun _ _ h => h) (fun _ _ _ => trivial)
    (wp_recording (temporaryKey_undisturbed hfresh hdraw hy)))) fun gapKey z hz => ?_
  obtain ⟨⟨hgapKey, hm, hz⟩, hsub'⟩ := hz
  have hmaterialized' : ∃ s, (materialization t retained.key, s) ∈ z.2 := by
    obtain ⟨s, hs⟩ := hmaterialized
    exact ⟨s, hsub' (hsub hs)⟩
  have hne : sourceKey ≠ gapKey := by
    rw [hsourceKey, hgapKey, hn]
    simp
  refine Scoped.wp_bind_of (Q := fun _ y => y = z) (Scoped.wp_register rfl) fun _ w hw => ?_
  subst hw
  refine Scoped.wp_bind_of (Q := fun _ z => z = w) (Scoped.wp_register rfl) fun _ z hw =>
    Scoped.wp_lift ?_
  subst hw
  -- the transaction is performed in the store `at₁`, which the snapshot is about from then on
  refine wp_bind_of (Q := fun _ z => ∃ at₁, at₁.publishedState t = state ∧
    Inspected t z.2 retained.key at₁ ∧
    Viewing i t state at₁ ⟨sourceKey, 0⟩ (projected t at₁ retained.key) z.1) ?_ fun _ w hw => ?_
  · refine wp_bind_of (wp_mono (fun _ _ h => h) (fun _ _ _ => trivial)
      (wp_recording (snapshot_undisturbed (hserial _) (fun s hs => hs.1) ⟨hz, hm⟩)))
      fun g w hw => ?_
    obtain ⟨⟨hg, hw⟩, hsub''⟩ := hw
    refine wp_command_recording fun s hr _ => ⟨trivial, fun _ => trivial, fun _ => ?_⟩
    obtain ⟨hstate, hserial'⟩ := hserial _ [] w.1 s hr hw
    have hgeneration : g t = s.publishedGeneration t := by
      rw [hg, ← hstate]
      rfl
    refine ⟨s, hstate, ⟨?_, sourceKey, gapKey, ?_⟩, viewing_inspection hstate hg ?_ ?_ hne⟩
    · obtain ⟨s', hs'⟩ := hmaterialized'
      exact ⟨s', List.mem_cons_of_mem _ (hsub'' hs')⟩
    · rw [← hgeneration]
      exact List.mem_cons_self
    · rw [hsourceKey]
    · rw [hsourceKey]
      show x.1.serial i < s.serial i
      omega
  · obtain ⟨at₁, hstate, hinspected, hview⟩ := hw
    -- counting the two keys changes nothing
    have hcounts : wp (exec scan i) (undisturbed rank i t) (do
        if (← sortedSetCount (.temporary gapKey)) ≠ 0 then return none
        return some ⟨sourceKey, ← sortedSetCount (.temporary sourceKey)⟩ :
          Redis (Option SourceSnapshot))
        (fun r s => ∀ source ∈ r, Viewing i t state at₁ source (projected t at₁ retained.key) s)
        (fun _ _ => True) w.1 := by
      refine wp_bind_of (reads_viewing.command (c := .zcard (.temporary gapKey)) (fun _ => rfl)
        hview) fun gap s hs => ?_
      split
      · intro source hsource
        cases hsource
      · refine wp_bind_of (reads_viewing.command (c := .zcard (.temporary sourceKey))
          (fun _ => rfl) hs.2) fun count s hs => ?_
        intro source hsource
        obtain rfl := Option.some.inj hsource
        exact ⟨hs.2.published, hs.2.slot, hs.2.snapshot, hs.2.own, hs.2.drawn⟩
    refine wp_mono (fun r v hv source hsource => ⟨at₁, hstate, ?_, hv.1 source hsource⟩)
      (fun _ _ _ => trivial) (wp_recording hcounts)
    exact ⟨hinspected.1.imp fun s hs => hv.2 hs,
      hinspected.2.imp fun k hk => hk.imp fun k' hk' => hv.2 hk'⟩

/-- **Reading without disturbance**: the values are read off the published generation. -/
theorem readCatalogs_undisturbed {retained : SourceSnapshot} {x : Recorded Command Store}
    (hx : x.1.publishedState t = state)
    (hmaterialized : ∃ s, (materialization t retained.key, s) ∈ x.2) :
    Scoped.wp (recording (exec scan i)) (undisturbed rank i t).recorded
      (readCatalogs index t dimensions retained)
      (fun r y => ∀ values ∈ r, ReadOff scan t dimensions values y.2) (fun _ _ => True) x := by
  have hfresh : (undisturbed rank i t).Stable fun s => s.publishedState t = state :=
    fun ls s s' hr hs => (SlotKept.same hr).trans hs
  have hactive : wp (exec scan i) (undisturbed rank i t) (synchronizationIsActive t)
      (fun _ s => s.publishedState t = state) (fun _ _ => True) x.1 :=
    wp_bind_of ((reads_undisturbed hfresh).command (c := .getLock t) (fun _ => rfl) hx)
      fun _ _ hs => hs.2
  refine Scoped.wp_bind_of (Scoped.wp_lift (wp_mono (fun _ _ h => h) (fun _ _ _ => trivial)
    (wp_recording hactive))) fun active y hy => ?_
  have hmaterialized' : ∃ s, (materialization t retained.key, s) ∈ y.2 :=
    hmaterialized.imp fun s hs => hy.2 hs
  -- no values while a synchronization is active
  split
  · intro l values hvalues
    cases hvalues
  refine Scoped.wp_bind_of (inspectableSourceSnapshot_undisturbed hy.1 hmaterialized')
    fun source z hz => ?_
  cases source with
  | none =>
      intro l values hvalues
      cases hvalues
  | some source =>
      obtain ⟨at₁, hstate, hinspected, hview⟩ := hz source rfl
      -- the values of the dimensions one after the other, all off the one snapshot
      have hcollect : wp (exec scan i) (undisturbed rank i t)
          (Prog.collect dimensions fun d => do
            let values ← availableCatalogValues index t d source
            return (d, values)) _ (fun _ _ => True) z.1 :=
        wp_collect_nil (I := fun rest found s =>
          found ++ rest.map (fun d => (d, availableValues scan t at₁ retained.key d)) =
            dimensions.map (fun d => (d, availableValues scan t at₁ retained.key d)) ∧
          Viewing i t state at₁ source (projected t at₁ retained.key) s) ?_ ⟨rfl, hview⟩
      · refine Scoped.wp_lift (wp_bind_of (wp_mono (fun _ _ h => h) (fun _ _ _ => trivial)
          (wp_recording hcollect)) fun available w hw values hvalues => ?_)
        obtain rfl := Option.some.inj hvalues
        obtain ⟨⟨havailable, -⟩, hsub⟩ := hw
        refine ⟨retained.key, at₁, ⟨?_, ?_⟩, ?_⟩
        · exact hinspected.1.imp fun s hs => hsub hs
        · exact hinspected.2.imp fun k hk => hk.imp fun k' hk' => hsub hk'
        · simpa using havailable
      · rintro d rest found s ⟨hfound, hs⟩
        refine wp_bind_of (availableCatalogValues_undisturbed index hs) fun values s hvalues => ?_
        obtain ⟨rfl, hs⟩ := hvalues
        refine ⟨?_, hs⟩
        rw [← hfound, List.map_cons, List.append_assoc, availableValues, Store.publishedGeneration,
          hstate]
        rfl

/-- The catalogs are read with temporary keys only. -/
theorem readCatalogs_writes {K : Key → Prop} (htemp : ∀ k, K (.sortedSet (.temporary k)))
    {retained : SourceSnapshot} : ScopedWrites K (readCatalogs index t dimensions retained) := by
  refine ScopedWrites.bind (.lift synchronizationIsActive_writes) fun active => ?_
  split
  · exact .pure
  refine ScopedWrites.bind (inspectableSourceSnapshot_writes htemp) fun source => ?_
  cases source with
  | none => exact .pure
  | some source =>
      refine .lift (Writes.bind (.collect fun d _ => ?_) fun _ => .ret)
      exact (availableCatalogValues_writes htemp).bind fun _ => .ret

/-- **Reading under the fence**: the values are read off the published generation, or the state
read before is not published any more. -/
theorem readCatalogs_fenced {retained : SourceSnapshot} {x : Recorded Command Store}
    (hx : x.1.publishedState t = state ∨ Stale rank t state x.1)
    (hmaterialized : ∃ s, (materialization t retained.key, s) ∈ x.2) :
    Scoped.Yields (recording (exec scan i)) (advancing rank i t).recorded
      (readCatalogs index t dimensions retained)
      (fun r y => Stale rank t state y.1 ∨ ∀ values ∈ r, ReadOff scan t dimensions values y.2)
      x := by
  intro l
  have hfence : Fence (recording (exec scan i)) (undisturbed rank i t).recorded
      (advancing rank i t).recorded (Allows (Key.Unpublishing t))
      (fun x => x.1.publishedState t = state) (fun x => Stale rank t state x.1) := fence.recorded
  have hobeys : Obeys (Allows (Key.Unpublishing t)) (fun _ _ => True)
      (readCatalogs index t dimensions retained l) fun _ => True :=
    (readCatalogs_writes index (fun k => ⟨by simp, by simp⟩) l).weaken fun _ _ => trivial
  rcases hx with hfresh | hstale
  · refine wp_mono (fun r y hy a ha => ?_) (fun _ _ _ => trivial)
      (wp_fenced hfence hobeys hfresh
        (readCatalogs_undisturbed index hfresh hmaterialized l))
    rcases hy with hy | ⟨-, hy⟩
    · exact Or.inl hy
    · rw [ha] at hy
      exact Or.inr hy
  · exact wp_mono (fun r y hy a _ => Or.inl hy) (fun _ _ _ => trivial)
      (hfence.wp_stale hobeys hstale)

/-- A reader that looks again finds out when the state it has read is not published any more. -/
theorem synchronizationHasMoved_stale (hs : Stale rank t state s) :
    wp (exec scan i) (advancing rank i t) (synchronizationHasMoved t state)
      (fun moved _ => moved = true) (fun _ _ => True) s := by
  refine wp_bind_of (Q := fun _ s => Stale rank t state s) ?_ fun active s hs => ?_
  · refine wp_bind.mpr (wp_command.mpr fun s' hr _ => ⟨trivial, fun _ => trivial, fun _ => ?_⟩)
    exact stable_stale [] s s' hr hs
  · split
    · rfl
    · refine wp_bind_of (publishedState_stale hs) fun st s hst => ?_
      exact decide_eq_true hst

/-- One attempt: the values are read off one published generation. -/
theorem catalogValuesAttempt_read {trimmed synchronized : Bool} {required : List FacetDimension}
    {x : Recorded Command Store} :
    Scoped.Yields (recording (exec scan i)) (advancing rank i t).recorded
      (index.catalogValuesAttempt trimmed synchronized t dimensions required)
      (fun r y => ∀ values ∈ r, ReadOff scan t dimensions values y.2) x := by
  refine Scoped.Yields.bind (.of_wp (synchronizedSourceSnapshot_materialized index))
    fun retained y hy => ?_
  refine Scoped.Yields.bind (.lift (wp_recording publishedState_advancing))
    fun revision z hz => ?_
  have hmaterialized : ∃ s, (materialization t retained.key, s) ∈ z.2 :=
    hy.imp fun s hs => hz.2 hs
  refine Scoped.Yields.bind (readCatalogs_fenced index hz.1 hmaterialized) fun r w hw => ?_
  cases r with
  | none => exact .pure fun values hvalues => by cases hvalues
  | some available =>
      -- What has been read off stays read off; a stale reader finds out that it is.
      have hread : ∀ {v : Recorded Command Store}, ReadOff scan t dimensions available v.2 →
          ∀ {α : Type} (p : Redis α), wp (recording (exec scan i)) (advancing rank i t).recorded p
            (fun _ v => ReadOff scan t dimensions available v.2) (fun _ _ => True) v :=
        fun hv α p => wp_mono (fun _ _ h => h) (fun _ _ _ => trivial)
          (wp_recording_const (F := ReadOff scan t dimensions available)
            (fun _ _ hsub h => h.mono hsub) (fun _ _ _ _ => trivial) hv)
      refine .lift (E := fun _ _ => True) ?_
      refine wp_bind_of (Q := fun moved v => moved = true ∨
        ReadOff scan t dimensions available v.2) ?_ fun moved v hv => ?_
      · rcases hw with hstale | hw
        · exact wp_mono (fun _ _ h => Or.inl h.1) (fun _ _ _ => trivial)
            (wp_recording (synchronizationHasMoved_stale hstale))
        · exact wp_mono (fun _ _ h => Or.inr h) (fun _ _ h => h) (hread (hw _ rfl) _)
      split
      · intro values hvalues
        cases hvalues
      · have hv := hv.resolve_left ‹_›
        have hdone : ∀ (u : Recorded Command Store), ReadOff scan t dimensions available u.2 →
            ∀ values ∈ some available, ReadOff scan t dimensions values u.2 := by
          intro u hu values hvalues
          obtain rfl := Option.some.inj hvalues
          exact hu
        split
        · exact hdone v hv
        · refine wp_bind_of (hread hv _) fun _ u hu => wp_bind_of (hread hu _) fun moved u hu => ?_
          split
          · intro values hvalues
            cases hvalues
          · exact hdone u hu

/-- **The values are read off one published generation** that was published at some moment of the
call, for a snapshot of the source that was copied in the call. -/
theorem catalogValuesFor_readOff {trimmed synchronized : Bool} {x : Recorded Command Store}
    (hdimensions : dimensions.eraseDups ≠ []) :
    wp (recording (exec scan i)) (advancing rank i t).recorded
      (index.catalogValuesFor trimmed synchronized t dimensions)
      (fun values y => ReadOff scan t dimensions.eraseDups values y.2) (fun _ _ => True) x := by
  unfold catalogValuesFor
  rw [if_neg hdimensions]
  refine wp_bind_of (wp_firstSome (Q := fun r y => ∀ values ∈ r,
    ReadOff scan t dimensions.eraseDups values y.2) (E := fun _ _ => True) (fun attempt _ y _ => ?_)
      fun values hvalues => by cases hvalues) fun available y hy => ?_
  · refine Scoped.Yields.scope (catalogValuesAttempt_read index) (fun r k y hr => ?_)
      fun _ _ _ _ => trivial
    refine wp_mono (fun _ _ h => h) (fun _ _ _ => trivial) (wp_recording_const
      (F := fun history => ∀ values ∈ r, ReadOff scan t dimensions.eraseDups values history)
      (fun _ _ hsub h values hvalues => (h values hvalues).mono hsub) (fun _ _ _ _ => trivial) hr)
  · cases available with
    | none => trivial
    | some available => exact hy available rfl

/-! ## Exactness -/

variable {jobs : String → RetainedJobMetadata} {at₁ : Store} {retained : Token} {v : String}

/-- The facets of the published slot hold the projected jobs with that value, and the catalogs list
the value of every facet that is not empty. -/
structure Agrees (jobs : String → RetainedJobMetadata) (t : RetainedJobType) (s : Store) :
    Prop where
  facets : ∀ d value, ∀ id ∈ s.zset (.projection t (s.publishedGeneration t)),
    id ∈ s.zset (.facet t (s.publishedGeneration t) d value) ↔ value ∈ facetValues t (jobs id) d
  catalogs : ∀ d value id, id ∈ s.zset (.facet t (s.publishedGeneration t) d value) →
    value ∈ s.catalog ⟨t, s.publishedGeneration t, d⟩

/-- An exact slot agrees with the metadata. -/
theorem PublishedExact.agrees (h : PublishedExact jobs t s) : Agrees jobs t s := by
  refine ⟨fun d value id hid => ?_, fun d value id hid => ?_⟩
  · rw [h.facets d value id]
    exact and_iff_right hid
  · exact (h.catalogs d value).mpr ⟨id, hid⟩

/-- A job that is in the source snapshot and in the projection has the value. -/
def Held (jobs : String → RetainedJobMetadata) (t : RetainedJobType) (at₁ : Store)
    (retained : Token) (d : FacetDimension) (value : String) : Prop :=
  ∃ id, id ∈ at₁.zset (.temporary retained) ∧
    id ∈ at₁.zset (.projection t (at₁.publishedGeneration t)) ∧ value ∈ facetValues t (jobs id) d

/-- A value is available where a job of the snapshot has it. -/
theorem isAvailable_iff (h : Agrees jobs t at₁) :
    isAvailable t (at₁.publishedState t) d at₁ (projected t at₁ retained) v ↔
      Held jobs t at₁ retained d v := by
  rw [isAvailable, decide_eq_true_eq, membershipCount, ← Nat.pos_iff_ne_zero,
    SortedSet.card_pos_iff]
  refine exists_congr fun id => ?_
  rw [mem_interStore]
  simp only [List.mem_cons, List.not_mem_nil, or_false, forall_eq_or_imp, forall_eq, projected]
  rw [mem_interStore]
  simp only [List.mem_cons, List.not_mem_nil, or_false, forall_eq_or_imp, forall_eq]
  constructor
  · rintro ⟨⟨hsource, hprojection⟩, hfacet⟩
    exact ⟨hsource, hprojection, (h.facets d v id hprojection).mp hfacet⟩
  · rintro ⟨hsource, hprojection, hvalue⟩
    exact ⟨⟨hsource, hprojection⟩, (h.facets d v id hprojection).mpr hvalue⟩

/-- The available values are those the jobs have. -/
theorem mem_availableValues (h : Agrees jobs t at₁) :
    v ∈ availableValues scan t at₁ retained d ↔ Held jobs t at₁ retained d v := by
  rw [availableValues, List.mem_filter, ScanOrder.mem_shown, isAvailable_iff h]
  refine and_iff_right_of_imp ?_
  rintro ⟨id, -, hprojection, hvalue⟩
  exact h.catalogs d v id ((h.facets d v id hprojection).mpr hvalue)

/-- A list of available values has no duplicates where the iteration shows no such value twice. -/
theorem nodup_availableValues (h : Agrees jobs t at₁) :
    (availableValues scan t at₁ retained d).Nodup ↔
      ∀ v, Held jobs t at₁ retained d v →
        (scan.shown ⟨t, at₁.publishedGeneration t, d⟩
          (at₁.catalog ⟨t, at₁.publishedGeneration t, d⟩)).count v ≤ 1 := by
  rw [List.nodup_iff_count_le_one, availableValues]
  refine forall_congr' fun v => ?_
  constructor
  · intro hcount hheld
    rwa [List.count_filter ((isAvailable_iff h).mpr hheld)] at hcount
  · intro hcount
    by_cases hheld : Held jobs t at₁ retained d v
    · rw [List.count_filter ((isAvailable_iff h).mpr hheld)]
      exact hcount hheld
    · have hnot : v ∉ availableValues scan t at₁ retained d := fun hv =>
        hheld ((mem_availableValues h).mp hv)
      rw [availableValues] at hnot
      rw [List.count_eq_zero.mpr hnot]
      exact Nat.zero_le 1

/-- **The catalog values are exact, and repeated exactly where an iteration repeats them.** In every
run of `catalogValuesFor` in which its own temporary keys do not lapse and the others replace the
published state by newer states only and leave a published slot as it is, a list that is returned for
a dimension holds exactly the values of the jobs that are in the source snapshot and in the projection
of the published slot it was read off, when that slot agrees with the metadata; and it holds each of
them once if and only if the iteration over the catalog shows none of them twice. -/
theorem catalogValuesFor_exact {trimmed synchronized : Bool}
    {values : List (FacetDimension × List String)} {y : Recorded Command Store}
    (hrun : Run (recording (exec scan i)) (advancing rank i t).recorded.rely
      (advancing rank i t).recorded.assume
      (index.catalogValuesFor trimmed synchronized t dimensions, (s, [])) (.ret values, y)) :
    values.map Prod.fst = dimensions.eraseDups ∧
      (dimensions = [] ∨ ∃ retained at₁, Inspected t y.2 retained at₁ ∧
        (Agrees jobs t at₁ → ∀ d vs, (d, vs) ∈ values →
          (∀ v, v ∈ vs ↔ Held jobs t at₁ retained d v) ∧
            (vs.Nodup ↔ ∀ v, Held jobs t at₁ retained d v →
              (scan.shown ⟨t, at₁.publishedGeneration t, d⟩
                (at₁.catalog ⟨t, at₁.publishedGeneration t, d⟩)).count v ≤ 1))) := by
  by_cases hdimensions : dimensions = []
  · subst hdimensions
    have hwp : wp (recording (exec scan i)) (advancing rank i t).recorded
        (index.catalogValuesFor trimmed synchronized t []) (fun values _ => values = [])
        (fun _ _ => True) (s, []) := rfl
    have hvalues : values = [] := hrun.sound (fun _ _ _ _ h => h) (fun _ _ _ _ h => h) hwp
    rw [hvalues]
    exact ⟨rfl, Or.inl rfl⟩
  · have hne : dimensions.eraseDups ≠ [] := by
      obtain ⟨d, hd⟩ := List.exists_mem_of_ne_nil dimensions hdimensions
      exact List.ne_nil_of_mem (List.mem_eraseDups.mpr hd)
    have hread : ReadOff scan t dimensions.eraseDups values y.2 := by
      refine hrun.sound (Q := fun values y => ReadOff scan t dimensions.eraseDups values y.2)
        (fun values x x' hr h => ?_) (fun _ _ _ _ h => h) (catalogValuesFor_readOff index hne)
      rw [hr.2]
      exact h
    obtain ⟨retained, at₁, hinspected, rfl⟩ := hread
    refine ⟨?_, Or.inr ⟨retained, at₁, hinspected, fun hagrees d vs hvs => ?_⟩⟩
    · rw [List.map_map]
      exact List.map_id _
    · obtain ⟨d', -, heq⟩ := List.mem_map.mp hvs
      rw [Prod.mk.injEq] at heq
      obtain ⟨rfl, rfl⟩ := heq
      exact ⟨fun v => mem_availableValues hagrees, nodup_availableValues hagrees⟩

/-! ## A value shown twice -/

/-- An iteration order that shows a whole set on both of its pages. -/
def twice : ScanOrder where
  pages := 2
  page _ _ members := members
  mem_of_mem_page _ _ _ _ h := h
  covers _ _ := ⟨0, by omega, fun _ h => h⟩

/-- A store with one pending job, which is indexed in a published slot. -/
def indexedStore : Store :=
  { appStore.writeAll (storeJob .pending .a (appJobs "job") "job" (-10)) with
    published := Function.update (fun _ => none) .pending (some ⟨.a, ⟨0, 0⟩⟩)
    initialized := fun _ g => g == .a
    serial := fun i => if i = 0 then 1 else 0 }

/-- The index of the example is exact. -/
theorem publishedExact_indexedStore : PublishedExact appJobs .pending indexedStore := by
  have hvacant : Vacant .pending .a appStore := ⟨fun _ => SortedSet.not_mem_empty,
    fun _ _ _ => SortedSet.not_mem_empty, fun _ _ => List.not_mem_nil⟩
  have hstored : Exact appJobs .pending .a
      (appStore.writeAll (storeJob .pending .a (appJobs "job") "job" (-10))) :=
    exact_iff_loose.mpr ((exact_iff_loose.mp hvacant.exact).storeJob rfl)
  have hsame : SameSlot .pending .a
      (appStore.writeAll (storeJob .pending .a (appJobs "job") "job" (-10))) indexedStore :=
    ⟨rfl, fun _ _ => rfl, fun _ => rfl⟩
  exact hstored.congr hsame

/-- The reader of the catalog of job names. -/
def jobNames : Redis (List (FacetDimension × List String)) :=
  (⟨500, 3⟩ : RetainedJobIndex).catalogValuesFor false false .pending [.job]

/-- The one job name is listed twice where the iteration over the catalog shows it twice. -/
theorem catalogValuesFor_repeated :
    PublishedExact appJobs .pending indexedStore ∧
      (jobNames.eval (exec twice 0) indexedStore).1 = .returned [(.job, ["App", "App"])] ∧
      ¬["App", "App"].Nodup :=
  ⟨publishedExact_indexedStore, by decide +kernel, by decide⟩

/-- Any published state is newer than none. -/
def publishedRank (state : Option PublishedState) : ℕ := if state.isSome then 1 else 0

/-- The run that nobody disturbs lists the job name twice, and the iteration shows it twice. -/
theorem catalogValuesFor_exact_twice : ∃ y : Recorded Command Store,
    Run (recording (exec twice 0)) (advancing publishedRank 0 .pending).recorded.rely
        (advancing publishedRank 0 .pending).recorded.assume (jobNames, (indexedStore, []))
        (.ret [(.job, ["App", "App"])], y) ∧
      ∃ retained at₁, Inspected .pending y.2 retained at₁ ∧
        (Agrees appJobs .pending at₁ → (["App", "App"].Nodup ↔
          ∀ v, Held appJobs .pending at₁ retained .job v →
            (twice.shown ⟨.pending, at₁.publishedGeneration .pending, .job⟩
              (at₁.catalog ⟨.pending, at₁.publishedGeneration .pending, .job⟩)).count v ≤ 1)) := by
  have houtcome : (jobNames.eval (recording (exec twice 0)) (indexedStore, [])).1 =
      .returned [(.job, ["App", "App"])] := by decide +kernel
  have halong : jobNames.Along (recording (exec twice 0))
      (fun _ x => legacyState .pending x.1 = none) (indexedStore, []) := by decide +kernel
  have hrun : Run (recording (exec twice 0)) (advancing publishedRank 0 .pending).recorded.rely
      (advancing publishedRank 0 .pending).recorded.assume (jobNames, (indexedStore, []))
      (.ret [(.job, ["App", "App"])],
        (jobNames.eval (recording (exec twice 0)) (indexedStore, [])).2) := by
    refine Prog.run_eval (C := fun _ x => legacyState .pending x.1 = none) ?_
      (Prod.ext houtcome rfl) halong
    intro _ _ x hx p _
    right
    rw [hx]
    exact Nat.one_pos
  have hread : _ ∧ (_ ∨ ∃ retained at₁, _ ∧ (Agrees appJobs .pending at₁ → _)) :=
    catalogValuesFor_exact ⟨500, 3⟩ hrun
  obtain ⟨-, hnil | ⟨retained, at₁, hinspected, hexact⟩⟩ := hread
  · cases hnil
  · exact ⟨_, hrun, retained, at₁, hinspected, fun hagrees =>
      (hexact hagrees .job _ List.mem_cons_self).2⟩

end RetainedJobIndex

end HorizonNewDawn

import HorizonNewDawn.Jobs.RetainedJobIndex.Removal

/-! # Inspecting the working slot

Before a synchronization accepts its working slot it inspects the structure of the slot: the catalogs
of the required partitions against the projection, and the required facets against their catalogs.
What an aborted removal has left over is found where the inspection looks (`Noticed`); a slot that is
accepted although the rest may hide residue is exact as long as there is none (`inspection_exact`). -/

namespace HorizonNewDawn

open Program

namespace RetainedJobIndex

variable {jobs : String → RetainedJobMetadata} {t : RetainedJobType} {g : Generation}
  {s s₁ : Store} {scan : ScanOrder} {i : ProcessId} {d : FacetDimension} {heartbeat : Redis Unit}

/-! ## Partitions without residue -/

/-- A job has one value at least in a single-valued dimension in which any job has one. -/
theorem exists_mem_facetValues (hd : d.isSingleValued = true) {m : RetainedJobMetadata}
    {value : String} (hv : value ∈ facetValues t m d) (m' : RetainedJobMetadata) : ∃ value', value' ∈ facetValues t m' d := by
  have hrequired : d ∈ requiredCatalogDimensions t := by
    cases d <;> cases t <;>
      simp_all [FacetDimension.isSingleValued, facetValues, requiredCatalogDimensions]
  exact List.exists_mem_of_ne_nil _ (facetValues_ne_nil hrequired m')

/-- **Counting members**: a dimension has no residue where every facet of its catalog has members and
they are as many as the projected jobs. -/
theorem Loose.not_residue (h : Frayed jobs t g s) (hd : d.isSingleValued = true)
    (hfilled : ∀ value ∈ s.catalog ⟨t, g, d⟩, (s.zset (.facet t g d value)).card ≠ 0)
    (hsum : ((s.catalog ⟨t, g, d⟩).map fun value => (s.zset (.facet t g d value)).card).sum =
      (s.zset (.projection t g)).card) : ¬Residue t g s d := by
  rintro ⟨value, hv, hempty | ⟨id, hid, hnot⟩⟩
  · exact hfilled value hv hempty
  let members := (s.catalog ⟨t, g, d⟩).flatMap fun value => (s.zset (.facet t g d value)).members
  have hlength : members.length = (s.zset (.projection t g)).card := by
    rw [← hsum, List.length_flatMap]
    exact congrArg List.sum (List.map_congr_left fun _ _ => List.length_map _)
  have hcovers : ∀ id' ∈ s.zset (.projection t g), id' ∈ members := by
    intro id' hid'
    obtain ⟨value', hv'⟩ := exists_mem_facetValues hd (h.truthful d value id hid)
      (jobs id')
    have hmember := h.complete id' hid' d value' hv'
    exact List.mem_flatMap.mpr ⟨value', h.cataloged d value' id' hmember, hmember⟩
  -- A list that covers the projection and is as long lists nothing else.
  have hmembers := (SortedSet.covers_iff.mp ⟨hcovers, hlength⟩).1
  exact hnot ((hmembers id).mp (List.mem_flatMap.mpr ⟨value, hv, hid⟩))

/-! ## The checks -/

/-- What the slot holds is what it held in `s₁`. -/
theorem ofSlot_same : OfSlot t g (SameSlot t g s₁) := fun _ _ hsame h => h.trans hsame

/-- Programs that only write aside keep the slot as it was. -/
theorem same_of_writes {α : Type} {p : Redis α} (h : Writes (Key.Aside t) p) :
    Preserves scan i jobs t (fun s => Ready jobs t g s ∧ SameSlot t g s₁ s) p :=
  .of_writes (steady_ready ofSlot_same) h

/-- What the counts of the facets of some values tell. -/
theorem repairing_countMemberships (hh : Writes (Key.Aside t) heartbeat)
    (chunks : List (List String)) {n : ℕ} {keys : List SortedSetKey}
    (hs : Ready jobs t g s ∧ SameSlot t g s₁ s) :
    wp (exec scan i) (repairing scan i jobs t)
      (countMemberships (some (t, g)) t d heartbeat chunks n keys)
      (fun counted s => (∀ e, counted = some e →
        (∀ value ∈ chunks.flatten, (s₁.zset (.facet t g d value)).card ≠ 0) ∧
          e.1 = n + (chunks.flatten.map fun value => (s₁.zset (.facet t g d value)).card).sum) ∧
        Ready jobs t g s ∧ SameSlot t g s₁ s) (fun _ => Clean jobs t) s := by
  induction chunks generalizing n keys s with
  | nil =>
      refine ⟨fun e he => ⟨fun value hv => absurd hv List.not_mem_nil, ?_⟩, hs⟩
      cases he
      simp
  | cons chunk chunks ih =>
      refine wp_bind_of (same_of_writes hh s hs) fun _ s hs => ?_
      rw [collect_facetKey_working, Prog.ret_bind]
      refine wp_bind_of ((reads_ready ofSlot_same).counts (n := fun k => (s₁.zset k).card)
        (fun s hs k hk => ?_) hs) fun counts s hcounts => ?_
      · obtain ⟨value, -, rfl⟩ := List.mem_map.mp hk
        rw [hs.2.facet]
      obtain ⟨rfl, hs⟩ := hcounts
      rw [List.map_map]
      split
      · exact ⟨fun e he => by simp at he, hs⟩
      · rename_i hzero
        rw [Prog.ret_bind]
        refine wp_mono (fun counted s h => ⟨fun e he => ?_, h.2⟩) (fun _ _ h => h) (ih hs)
        obtain ⟨hfilled, hsum⟩ := h.1 e he
        refine ⟨fun value hv hempty => ?_, ?_⟩
        · rw [List.flatten_cons, List.mem_append] at hv
          rcases hv with hv | hv
          · exact hzero (List.mem_map.mpr ⟨value, hv, hempty⟩)
          · exact hfilled value hv hempty
        · simp only [hsum, List.flatten_cons, List.map_append, List.sum_append, Nat.add_assoc,
            Function.comp_def]

variable (index : RetainedJobIndex)

/-- A required partition that passes has no residue. -/
theorem repairing_catalogPartitionIsExact (hh : Writes (Key.Aside t) heartbeat)
    (hd : d.isSingleValued = true) (hfrayed : Frayed jobs t g s₁)
    (hs : Ready jobs t g s ∧ SameSlot t g s₁ s) :
    wp (exec scan i) (repairing scan i jobs t)
      (index.catalogPartitionIsExact (some (t, g)) t d (s₁.zset (.projection t g)).card heartbeat)
      (fun b s => (b = true → ¬Residue t g s₁ d) ∧ Ready jobs t g s ∧ SameSlot t g s₁ s)
      (fun _ => Clean jobs t) s := by
  refine wp_bind_of (same_of_writes hh s hs) fun _ s hs => ?_
  rw [catalogKey_working, Prog.ret_bind]
  refine wp_bind_of ((reads_ready ofSlot_same).command (c := .smembers ⟨t, g, d⟩)
    (fun _ => rfl) hs) fun values s hvalues => ?_
  obtain ⟨rfl, hs⟩ := hvalues
  have hcatalog : Command.answer scan i s (.smembers ⟨t, g, d⟩) = s₁.catalog ⟨t, g, d⟩ :=
    hs.2.catalog d
  rw [hcatalog]
  split
  · rename_i hnil
    refine ⟨fun _ hresidue => ?_, hs⟩
    obtain ⟨value, hv, -⟩ := hresidue
    rw [hnil] at hv
    exact List.not_mem_nil hv
  refine wp_bind_of (repairing_countMemberships hh _ hs) fun counted s hcounted => ?_
  obtain ⟨hcounted, hs⟩ := hcounted
  cases counted with
  | none => exact ⟨fun h => absurd h Bool.false_ne_true, hs⟩
  | some counted =>
      obtain ⟨membershipCount, facetKeys⟩ := counted
      obtain ⟨hfilled, hsum⟩ := hcounted _ rfl
      rw [List.flatten_arrayChunk] at hfilled hsum
      change wp _ _ (if membershipCount ≠ _ then _ else _) _ _ s
      split
      · exact ⟨fun h => absurd h Bool.false_ne_true, hs⟩
      · rename_i hcount
        have hnone : ¬Residue t g s₁ d := hfrayed.not_residue hd hfilled
          (by rw [← not_not.mp hcount]; simpa using hsum.symm)
        refine wp_mono (fun _ s hs => ⟨fun _ => hnone, hs⟩) (fun _ _ h => h) ?_
        exact same_of_writes (unionAgrees_writes aside_temporary index hh) s hs

/-- A search for an inexact partition that finds none has found no residue in the required ones. -/
theorem repairing_inexactPartition (hh : Writes (Key.Aside t) heartbeat)
    (hfrayed : Frayed jobs t g s₁) {dimensions : List FacetDimension}
    (hs : Ready jobs t g s ∧ SameSlot t g s₁ s) :
    wp (exec scan i) (repairing scan i jobs t)
      (Prog.firstSome dimensions fun d => do
        heartbeat
        if !d.isSingleValued then return some ()
        let exact ← index.catalogPartitionIsExact (some (t, g)) t d
          (s₁.zset (.projection t g)).card heartbeat
        return if exact then none else some ())
      (fun r s => (r = none → ∀ d ∈ dimensions, ¬(d.isSingleValued = false ∨ Residue t g s₁ d)) ∧
        Ready jobs t g s ∧ SameSlot t g s₁ s) (fun _ => Clean jobs t) s := by
  refine wp_firstSome_none (fun d _ s hs => ?_) hs
  refine wp_bind_of (same_of_writes hh s hs) fun _ s hs => ?_
  cases hd : d.isSingleValued with
  | false => exact ⟨fun h => by simp at h, hs⟩
  | true =>
      refine wp_bind_of (repairing_catalogPartitionIsExact index hh hd hfrayed hs)
        fun b s h => ⟨fun hnone => ?_, h.2⟩
      cases b with
      | false => simp at hnone
      | true => simpa using h.1 rfl

/-- A search for a wrong facet that finds none has seen no idle value in the required ones. -/
theorem repairing_wrongFacet (hh : Writes (Key.Aside t) heartbeat)
    {requiredFacets : List (FacetDimension × String)}
    (hs : Ready jobs t g s ∧ SameSlot t g s₁ s) :
    wp (exec scan i) (repairing scan i jobs t)
      (Prog.firstSome requiredFacets fun f => do
        heartbeat
        let facetCount ← sortedSetCount (← facetKey (some (t, g)) t f.1 f.2)
        let catalogHasMember ← setContains (← catalogKey (some (t, g)) t f.1) f.2
        return if decide (0 < facetCount) ≠ catalogHasMember then some () else none)
      (fun r s => (r = none → ∀ f ∈ requiredFacets, ¬(f.2 ∈ s₁.catalog ⟨t, g, f.1⟩ ∧
        (s₁.zset (.facet t g f.1 f.2)).card = 0)) ∧ Ready jobs t g s ∧ SameSlot t g s₁ s)
      (fun _ => Clean jobs t) s := by
  refine wp_firstSome_none (fun f _ s hs => ?_) hs
  refine wp_bind_of (same_of_writes hh s hs) fun _ s hs => ?_
  rw [facetKey_working, Prog.ret_bind]
  refine wp_bind_of ((reads_ready ofSlot_same).command (c := .zcard (.facet t g f.1 f.2))
    (fun _ => rfl) hs) fun n s hn => ?_
  obtain ⟨rfl, hs⟩ := hn
  have hcard : Command.answer scan i s (.zcard (.facet t g f.1 f.2)) =
      (s₁.zset (.facet t g f.1 f.2)).card := congrArg SortedSet.card (hs.2.facet f.1 f.2)
  rw [hcard, catalogKey_working, Prog.ret_bind]
  refine wp_bind_of ((reads_ready ofSlot_same).command (c := .sismember ⟨t, g, f.1⟩ f.2)
    (fun _ => rfl) hs) fun b s hb => ?_
  obtain ⟨rfl, hs⟩ := hb
  have hcontains : Command.answer scan i s (.sismember ⟨t, g, f.1⟩ f.2) =
      decide (f.2 ∈ s₁.catalog ⟨t, g, f.1⟩) := by
    rw [← hs.2.catalog]
    rfl
  rw [hcontains]
  refine ⟨fun hnone hidle => ?_, hs⟩
  simp [hidle.1, hidle.2] at hnone

/-- **Inspecting the structure**: where residue is gone or shown, a slot that passes is exact. -/
theorem inspection_exact (hh : Writes (Key.Aside t) heartbeat)
    {requiredFacets : List (FacetDimension × String)}
    {requiredCatalogPartitions : List FacetDimension} (hs : Ready jobs t g s) :
    wp (exec scan i) (repairing scan i jobs t)
      (Prog.inside (.inspecting (some (t, g)) requiredFacets requiredCatalogPartitions)
        (index.indexStructureIsConsistent (some (t, g)) t requiredFacets requiredCatalogPartitions
          heartbeat))
      (fun b s => Ready jobs t g s ∧ (b = true → Exact jobs t g s)) (fun _ => Clean jobs t) s := by
  let shown := Section.inspecting (some (t, g)) requiredFacets requiredCatalogPartitions
  have hfrayed : Frayed jobs t g s := hs.frayed g
  apply wp_inside.mpr
  -- What the slot holds stays as it is, so that it is enough to judge the store of the start.
  refine wp_mono (Q := fun b s' => (b = true → ∀ d, ¬Residue t g s d) ∧
    Ready jobs t g s' ∧ SameSlot t g s s') (fun b s' h => ⟨h.2.1, fun hb => ?_⟩) (fun _ _ h => h) ?_
  · exact (hfrayed.exact_iff.mpr (h.1 hb)).congr h.2.2
  refine wp_bind_of (wp_push shown (same_of_writes hh s ⟨hs, .refl s⟩)) fun _ s' hs' => ?_
  rw [projectionKey_working, Prog.ret_bind]
  refine wp_bind_of (Q := fun n s' => n = (s.zset (.projection t g)).card ∧
    ((∀ d, ¬Residue t g s d) ∨ Noticed t g requiredFacets requiredCatalogPartitions s) ∧
      Ready jobs t g s' ∧ SameSlot t g s s') ?_ fun n s' hn => ?_
  · refine wp_command.mpr fun s'' hr hvisible => ?_
    have hs'' := (steady_ready ofSlot_same).congr hr hs'
    have hclean : Clean jobs t (exec scan i (.zcard (.projection t g)) s'').2 := by
      rw [exec]
      split
      · exact hs''.1.toClean.congr apart_failing
      · exact hs''.1.toClean
    refine ⟨hclean, fun _ => hs''.1.toClean.congr apart_failing, fun _ => ⟨?_, ?_, hs''⟩⟩
    · exact congrArg SortedSet.card hs''.2.projection
    · have hlooked := hvisible g requiredFacets requiredCatalogPartitions List.mem_cons_self
      simp only [hs''.2.residue_iff, hs''.2.noticed_iff] at hlooked
      exact hlooked
  obtain ⟨rfl, hvisible, hs'⟩ := hn
  have hrejected : ∀ {s' : Store}, Ready jobs t g s' ∧ SameSlot t g s s' →
      (false = true → ∀ d, ¬Residue t g s d) ∧ Ready jobs t g s' ∧ SameSlot t g s s' :=
    fun hs' => ⟨fun h => absurd h Bool.false_ne_true, hs'⟩
  refine wp_bind_of (wp_push shown (same_of_writes (.ite (.firstSome fun d _ => hh.bind fun _ =>
    catalogKey_writes.bind fun _ => Writes.bind (.read rfl) fun _ => .ret) .ret) s' hs'))
    fun emptyCatalog s' hs' => ?_
  split
  · exact hrejected hs'
  refine wp_bind_of (wp_push shown (repairing_inexactPartition index hh hfrayed hs'))
    fun inexactPartition s' hpartitions => ?_
  split
  · exact hrejected hpartitions.2
  rename_i hinexact
  refine wp_bind_of (wp_push shown (repairing_wrongFacet hh hpartitions.2))
    fun wrongFacet s' hfacets => ⟨fun hnone => hvisible.resolve_right ?_, hfacets.2⟩
  rintro (⟨d, hd, hresidue⟩ | ⟨f, hf, hidle⟩)
  · exact hpartitions.1 (by simpa using hinexact) d (List.mem_eraseDups.mpr hd) hresidue
  · exact hfacets.1 (by simpa using hnone) f hf hidle

end RetainedJobIndex

end HorizonNewDawn

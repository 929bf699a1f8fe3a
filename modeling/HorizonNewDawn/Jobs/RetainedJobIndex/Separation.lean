import HorizonNewDawn.Jobs.RetainedJobIndex.Reconciliation
import HorizonNewDawn.Program.Evaluation

/-! # The retained-job index: two sets that stay apart

No operation of a synchronizer puts a job into the projection and among the unresolved references of a
slot at once: in every state it reaches the two sets are apart, whatever the others do elsewhere. A
reconciliation ends, and what it ends with is what the metadata and the clock say (`Reconciled`). -/

namespace HorizonNewDawn

open Program

namespace RetainedJobIndex

variable {t : RetainedJobType} {g : Generation} {source : SourceSnapshot} {i : ProcessId}
  {scan : ScanOrder} {s s' : Store} {α : Type} {own : Token → Prop} {p u z src : ZSet}
  {token : Token}

/-! ## Keeping apart -/

/-- What every operation of a synchronizer starts with: the two sets of the slot are apart, and the key
of the snapshot is drawn. -/
structure Orderly (t : RetainedJobType) (g : Generation) (source : SourceSnapshot) (i : ProcessId)
    (s : Store) : Prop where
  split : Split t g s
  drawn : source.key.pid = i → source.key.serial < s.serial i

/-- Sets that stay apart need no guard over the token's own entries. -/
theorem guards_orderly :
    Guards t g source i (fun _ => False) (Orderly t g source i) where
  drawn _ hk := hk.elim
  stable _ _ hs h := ⟨guards_split.stable _ _ hs h.split, fun hpid => (h.drawn hpid).trans_le hs.serial⟩
  split _ h := h.split

/-- In an orderly store every set rests where it is. -/
theorem Orderly.rests (h : Orderly t g source i s) :
    Rests t g source i (s.zset (.temporary source.key)) (s.zset (.projection t g))
      (s.zset (.unresolved t g)) s :=
  ⟨rfl, rfl, rfl, fun _ hk => hk.elim, h.drawn⟩

/-- A store that stands in an orderly way is orderly. -/
theorem Stands.orderly (h : Stands t g source i own z src p u s) (hsplit : ∀ id ∈ p, id ∉ u) :
    Orderly t g source i s := by
  refine ⟨?_, h.drawn⟩
  rw [Split, h.projection, h.unresolved]
  exact hsplit

/-- A program that keeps the two sets apart in every state it reaches. -/
def KeepsApart (t : RetainedJobType) (g : Generation) (source : SourceSnapshot) (scan : ScanOrder)
    (i : ProcessId) (p : Redis α) : Prop :=
  ∀ s, Orderly t g source i s → wp (exec scan i) (sheltering t g source scan i) p
    (fun _ => Orderly t g source i) (fun _ => Split t g) s

/-- A key of neither of the two sets. -/
def Key.Elsewhere (t : RetainedJobType) (g : Generation) (k : Key) : Prop :=
  k ≠ .sortedSet (.projection t g) ∧ k ≠ .sortedSet (.unresolved t g)

/-- A command that leaves the two sets alone or deletes keys. -/
def Shrinks (t : RetainedJobType) (g : Generation) (_ : List Section) (c : Command) : Prop :=
  (∀ k ∈ c.writes, Key.Elsewhere t g k) ∨
    ∃ keys : List Key, c = .write (keys.map .del)

namespace KeepsApart

variable {β : Type} {p : Redis α}

/-- What keeps the sets apart in turn keeps them apart. -/
theorem bind {f : α → Redis β} (h : KeepsApart t g source scan i p)
    (hf : ∀ a, KeepsApart t g source scan i (f a)) : KeepsApart t g source scan i (p >>= f) :=
  fun s hs => wp_bind_of (h s hs) fun a s hs => hf a s hs

/-- A program that does nothing keeps the sets apart. -/
theorem ret {a : α} : KeepsApart t g source scan i (return a : Redis α) := fun _ hs => hs

/-- Both branches keep the sets apart. -/
theorem ite {c : Prop} [Decidable c] {q : Redis α} (h : KeepsApart t g source scan i p)
    (h' : KeepsApart t g source scan i q) : KeepsApart t g source scan i (if c then p else q) := by
  split
  · exact h
  · exact h'

/-- A search through programs that keep the sets apart keeps them apart. -/
theorem firstSome {as : List β} {body : β → Redis (Option α)}
    (h : ∀ a, KeepsApart t g source scan i (body a)) :
    KeepsApart t g source scan i (Prog.firstSome as body) := by
  induction as with
  | nil => exact ret
  | cons a as ih =>
      refine (h a).bind fun r => ?_
      cases r with
      | some b => exact ret
      | none => exact ih

/-- A program of which every command shrinks the sets or leaves them alone. -/
theorem of_obeys (h : Obeys (Shrinks t g) (fun _ _ => True) p fun _ => True) :
    KeepsApart t g source scan i p := by
  refine fun s hs => wp_mono (fun _ _ h => h.2) (fun _ _ h => h.split)
    (wp_of_obeys (guards_orderly.discipline scan) ?_ h hs)
  intro ls c s hc hs _
  have heffect : Orderly t g source i (c.effect i s) := by
    refine ⟨?_, fun hpid => (hs.drawn hpid).trans_le c.serial_le_effect⟩
    rcases hc with hc | ⟨keys, rfl⟩
    · have hsame : ∀ k, k = .projection t g ∨ k = .unresolved t g → (c.effect i s).zset k = s.zset k :=
        fun k hk => Command.effect_sameAt (k := .sortedSet k) fun hin => by
          rcases hk with rfl | rfl
          · exact (hc _ hin).1 rfl
          · exact (hc _ hin).2 rfl
      rw [Split, hsame _ (Or.inl rfl), hsame _ (Or.inr rfl)]
      exact hs.split
    · intro id hid hmem
      exact hs.split id (Store.mem_zset_writeAll_del.mp hid).1 (Store.mem_zset_writeAll_del.mp hmem).1
  have hexec : Orderly t g source i (exec scan i c s).2 := by
    rw [exec]
    split
    · exact guards_orderly.stable _ _ (spares_failing s false) hs
    · exact heffect
  exact ⟨hexec.split, trivial, hexec⟩

/-- So does a program that writes elsewhere. -/
theorem of_writes (h : Writes (Key.Elsewhere t g) p) : KeepsApart t g source scan i p :=
  of_obeys (Obeys.mono (fun _ _ hc => Or.inl hc) (fun _ h => h) h)

/-- What is shown on the record. -/
theorem of_recorded (h : ∀ x, Orderly t g source i x.1 →
      wpCut True (recording (exec scan i)) (recordedSheltering t g source scan i) p
        (fun _ y => Orderly t g source i y.1) (Thrown t g) x) : KeepsApart t g source scan i p :=
  fun s hs => wp_of_recording (x := (s, [])) (wp_of_wpCut (h (s, []) hs))

/-- **Apart in every state reached.** -/
theorem run (h : KeepsApart t g source scan i p) (hs : Orderly t g source i s) {p' : Redis α}
    (hrun : Run (exec scan i) (sheltering t g source scan i).rely
      (sheltering t g source scan i).assume (p, s) (p', s')) : Split t g s' :=
  Run.always (D := sheltering t g source scan i) (guards_split.discipline scan) (fun _ _ _ h => h)
    (fun _ s s' hr hs => guards_orderly.discipline scan [] s s' hr hs)
    (fun _ s s' hr hs => guards_split.discipline scan [] s s' hr hs) hrun (h s hs) hs.split

end KeepsApart

section Operations

variable (index : RetainedJobIndex)

/-- **Adding the missing jobs** keeps the projection and the unresolved ids apart. -/
theorem keepsApart_addMissingJobs :
    KeepsApart t g source scan i (index.addMissingJobs (some (t, g)) t token source) :=
  .of_recorded fun _ hx => wpCut_mono (fun _ _ ⟨_, _, hy, hsplit, _⟩ => hy.orderly hsplit)
    (fun _ _ h => h) (recorded_addMissingJobs index hx.split (Or.inl trivial) hx.rests)

/-- **Removing the stale jobs** keeps them apart. -/
theorem keepsApart_removeStaleJobs :
    KeepsApart t g source scan i (index.removeStaleJobs (some (t, g)) t token source) :=
  .of_recorded fun _ hx => wpCut_mono (fun _ _ ⟨_, _, hy, hsplit, _⟩ => hy.orderly hsplit)
    (fun _ _ h => h)
    (recorded_removeStaleJobs index hx.split (Or.inl trivial) (Or.inl trivial) hx.rests)

/-- **Removing the stale unresolved references** keeps them apart. -/
theorem keepsApart_removeStaleUnresolvedReferences :
    KeepsApart t g source scan i
      (index.removeStaleUnresolvedReferences (some (t, g)) t token source) :=
  .of_recorded fun _ hx => wpCut_mono (fun _ _ ⟨_, _, hy, hsplit, _⟩ => hy.orderly hsplit)
    (fun _ _ h => h)
    (recorded_removeStaleUnresolvedReferences index hx.split (Or.inl trivial) hx.rests)

/-- **Reconciling the projection** keeps them apart. -/
theorem keepsApart_reconcileProjection :
    KeepsApart t g source scan i (index.reconcileProjection (some (t, g)) t token source) :=
  .of_recorded fun _ hx => wpCut_mono (fun _ _ ⟨_, _, hy, hsplit, _⟩ => hy.orderly hsplit)
    (fun _ _ h => h) (recorded_reconcileProjection index hx.split (Or.inl trivial) hx.rests)

/-- A heartbeat puts nothing into the sets. -/
theorem shrinks_of_renews {p : Redis α} (h : Renews p) :
    Obeys (Shrinks t g) (fun _ _ => True) p fun _ => True :=
  Obeys.mono (fun _ _ hc => Or.inl hc) (fun _ h => h) (h.writes (Key.Elsewhere t g))

/-- Deleting keys only shrinks the sets. -/
theorem write_dels_shrinks (keys : List Key) :
    Obeys (Shrinks t g) (fun _ _ => True) (write (keys.map .del)) fun _ => True := by
  refine ⟨Or.inr ⟨keys, rfl⟩, fun x _ => ?_⟩
  cases x <;> trivial

/-- Nor does the deletion of the keys of an index. -/
theorem deleteIndexKeys_shrinks {keys : List Key} :
    Obeys (Shrinks t g) (fun _ _ => True) (deleteIndexKeys t token source keys) fun _ => True := by
  refine Obeys.forEach fun chunk _ => (shrinks_of_renews renews_renewSynchronizationState).bind
    fun _ _ => write_dels_shrinks chunk

/-- Going through a catalog. -/
theorem forCatalogChunks_shrinks {fuel : ℕ} {c : CatalogKey} {body : List String → Redis Unit}
    (h : ∀ values, Obeys (Shrinks t g) (fun _ _ => True) (body values) fun _ => True) :
    Obeys (Shrinks t g) (fun _ _ => True) (forCatalogChunks fuel c body) fun _ => True := by
  refine Obeys.iterate (I := fun _ => True) (fun cursor _ => Obeys.bind (R := fun _ => True) ?_
    fun result _ => ?_) fuel trivial
  · exact shrinks_of_renews (Renews.command (c := .sscan c cursor) rfl trivial)
  · refine (Obeys.forEach fun chunk _ => h chunk).bind fun _ _ => ?_
    split <;> trivial

/-- **Rebuilding an index** keeps the sets apart. -/
theorem keepsApart_rebuildTypeIndex {requiredFacets : List (FacetDimension × String)} :
    KeepsApart t g source scan i
      (index.rebuildTypeIndex (some (t, g)) t token requiredFacets source) := by
  unfold rebuildTypeIndex
  simp only [projectionKey_working, unresolvedKey_working, catalogKey_working, Prog.ret_bind,
    collect_facetKey_working, collect_facetKeys_working]
  refine (KeepsApart.of_obeys deleteIndexKeys_shrinks).bind fun _ => ?_
  refine (KeepsApart.of_obeys (Obeys.forEach fun d _ => ?_)).bind fun _ => ?_
  · exact (forCatalogChunks_shrinks fun values => deleteIndexKeys_shrinks).bind fun _ _ =>
      deleteIndexKeys_shrinks
  refine (KeepsApart.of_obeys deleteIndexKeys_shrinks).bind fun _ => ?_
  refine (keepsApart_addMissingJobs index).bind fun _ => ?_
  exact .of_writes (renews_renewSynchronizationState.writes _)

/-- Temporary keys are none of the sets of an index. -/
theorem elsewhere_temporary (k : Token) : Key.Elsewhere t g (.sortedSet (.temporary k)) := by
  constructor <;> exact fun h => by cases h

/-- **A synchronization under the lock** keeps the sets apart. -/
theorem keepsApart_synchronizeSnapshotUnderLock {heartbeat : Redis Unit} (hheartbeat : Renews heartbeat)
    {requiredFacets : List (FacetDimension × String)}
    {requiredCatalogPartitions : List FacetDimension} {allowIncomplete : Bool} :
    KeepsApart t g source scan i (index.synchronizeSnapshotUnderLock (some (t, g)) t token source
      requiredFacets requiredCatalogPartitions heartbeat allowIncomplete) := by
  have hbeat : KeepsApart t g source scan i heartbeat := .of_writes (hheartbeat.writes _)
  have hconsistent : KeepsApart t g source scan i (index.indexIsConsistent (some (t, g)) t
      requiredFacets requiredCatalogPartitions source heartbeat) :=
    .of_writes (indexIsConsistent_writes elsewhere_temporary index (hheartbeat.writes _))
  refine (keepsApart_reconcileProjection index).bind fun _ => hbeat.bind fun _ => ?_
  refine (KeepsApart.of_writes (indexStructureIsConsistent_writes elsewhere_temporary index
    (hheartbeat.writes _)).inside).bind fun consistent => ?_
  refine (KeepsApart.ite (keepsApart_rebuildTypeIndex index) .ret).bind fun _ => ?_
  refine (KeepsApart.firstSome fun _ => ?_).bind fun _ => ?_
  · refine hconsistent.bind fun _ => .ite .ret ?_
    exact (keepsApart_reconcileProjection index).bind fun _ => hbeat.bind fun _ => .ret
  · exact hconsistent.bind fun _ => .ite .ret (.ite .ret (.of_writes .throwRuntime))

/-- The slot lies open: its projection is empty. -/
def Emptied (t : RetainedJobType) (g : Generation) (source : SourceSnapshot) (i : ProcessId)
    (s : Store) : Prop :=
  s.zset (.projection t g) = ∅ ∧ (source.key.pid = i → source.key.serial < s.serial i)

/-- Sets that are empty stay empty while nobody else writes them. -/
theorem guards_emptied : Guards t g source i (fun _ => False) (Emptied t g source i) where
  drawn _ hk := hk.elim
  stable _ _ hs h := ⟨hs.projection.trans h.1, fun hpid => (h.2 hpid).trans_le hs.serial⟩
  split s h := by
    rw [Split, h.1]
    exact fun _ hid => absurd hid SortedSet.not_mem_empty

/-- **Slot preparation** empties the projection before it takes over the unresolved references. -/
theorem keepsApart_initializeWorkingGeneration {heartbeat : Redis Unit} (hheartbeat : Renews heartbeat)
    {published : Generation} :
    KeepsApart t g source scan i (index.initializeWorkingGeneration t published g heartbeat) := by
  have hbeat : ∀ s, Emptied t g source i s → wp (exec scan i) (sheltering t g source scan i) heartbeat
      (fun _ => Emptied t g source i) (fun _ => Split t g) s := fun s hs =>
    sheltering_of_writes guards_emptied (hheartbeat.writes _) hs
  refine KeepsApart.bind (.of_writes (.read (c := .getInitialized t g) rfl)) fun _ => .ite .ret ?_
  -- The catalogs and their facets come first: deleting them touches neither of the two sets.
  have hcatalogs : Obeys (Shrinks t g) (fun _ _ => True) (Prog.forEach FacetDimension.cases fun d => do
      forCatalogChunks index.fuel ⟨t, g, d⟩ fun values => do
        heartbeat
        write (values.map fun value => .del (.sortedSet (.facet t g d value)))
      write [.del (.catalog ⟨t, g, d⟩)]) fun _ => True := by
    refine Obeys.forEach fun d _ => (forCatalogChunks_shrinks fun values => ?_).bind fun _ _ =>
      write_dels_shrinks [.catalog ⟨t, g, d⟩]
    refine (shrinks_of_renews hheartbeat).bind fun _ _ => ?_
    have hdels := write_dels_shrinks (t := t) (g := g)
      (values.map fun value => Key.sortedSet (.facet t g d value))
    rwa [List.map_map] at hdels
  rw [deleteGeneration]
  simp only [bind_assoc]
  refine (KeepsApart.of_obeys hcatalogs).bind fun _ => ?_
  refine (KeepsApart.of_writes (hheartbeat.writes _)).bind fun _ s hs => ?_
  refine wp_bind_of (sheltering_write (Ψ := Emptied t g source i) guards_orderly guards_emptied.split
    (fun s hs => ⟨?_, ?_⟩) hs) fun _ s hs => ?_
  · -- The projection is empty once its key has been deleted.
    refine SortedSet.ext fun id => ?_
    rw [SortedSet.score_empty, SortedSet.score_eq_none_iff]
    intro hid
    have hdel := (Store.mem_zset_writeAll_of_dels (s := s) (k := .projection t g) ?_).mp hid
    · exact hdel.2 List.mem_cons_self
    · intro w hw hkey
      simp only [List.mem_cons, List.not_mem_nil, or_false] at hw
      obtain rfl | rfl | rfl := hw
      · rfl
      · cases hkey
      · cases hkey
  · rw [Store.serial_writeAll]
    exact hs.drawn
  refine wp_bind_of (hbeat s hs) fun _ s hs => ?_
  refine wp_bind_of (sheltering_transaction (Ψ := Emptied t g source i) guards_emptied guards_emptied.split
    (fun _ _ s hs => ⟨?_, ?_⟩) hs) fun _ s hs => ?_
  · rw [zset_writeAll_of_keys, hs.1]
    intro w hw hkey
    rw [List.mem_singleton.mp hw] at hkey
    cases hkey
  · rw [Store.serial_writeAll]
    exact hs.2
  refine wp_mono (fun _ s hs => ⟨guards_emptied.split s hs, hs.2⟩) (fun _ _ h => h)
    (sheltering_of_writes guards_emptied (.command fun k hk => ?_) hs)
  rw [List.mem_singleton.mp hk]
  exact fun k' _ h => by cases h

/-- **Preparing a generation** keeps the sets apart. -/
theorem keepsApart_prepareWorkingGeneration {heartbeat : Redis Unit} (hheartbeat : Renews heartbeat) :
    KeepsApart t g source scan i (index.prepareWorkingGeneration t heartbeat) := by
  refine (KeepsApart.of_writes publishedState_writes).bind fun state => ?_
  refine KeepsApart.bind ?_ fun _ => .ret
  by_cases hg : workingGenerationFor (generationFromPublishedState state) = g
  · subst hg
    exact keepsApart_initializeWorkingGeneration index hheartbeat
  · -- Another slot is prepared.
    refine .of_writes (initializeWorkingGeneration_writes index (fun k hk => ?_) ?_
      (hheartbeat.writes _))
    · constructor
      · rintro rfl
        exact hg hk.2.symm
      · rintro rfl
        exact hg hk.2.symm
    · constructor <;> exact fun h => by cases h

end Operations

/-! ## The reconciliation as a whole -/

/-- In every state a program reaches the two sets of the slot are apart. -/
def AlwaysSplit (t : RetainedJobType) (g : Generation) (source : SourceSnapshot) (scan : ScanOrder)
    (i : ProcessId) (s : Store) (p : Redis α) : Prop :=
  ∀ p' s', Run (exec scan i) (sheltering t g source scan i).rely
    (sheltering t g source scan i).assume (p, s) (p', s') → Split t g s'

/-- The runs of a program among the others, on the record. -/
abbrev RecordedRun (t : RetainedJobType) (g : Generation) (source : SourceSnapshot)
    (scan : ScanOrder) (i : ProcessId) (p : Redis α) (s : Store)
    (y : Redis α × Recorded Command Store) : Prop :=
  Run (recording (exec scan i)) (recordedSheltering t g source scan i).rely
    (recordedSheltering t g source scan i).assume (p, (s, [])) y

/-- What is known of the sheltered sets at the end nobody else changes. -/
theorem stable_of_rests {Q : Recorded Command Store → Prop}
    (h : ∀ x, Q x → ∃ p' u', Rests t g source i src p' u' x.1 ∧ (∀ id ∈ p', id ∉ u') ∧
      ∀ s', Rests t g source i src p' u' s' → Q (s', x.2)) :
    (recordedSheltering t g source scan i).Stable Q := by
  rintro _ x ⟨s', _⟩ ⟨hr, hhistory⟩ hx
  obtain rfl : _ = x.2 := hhistory
  obtain ⟨p', u', hrests, hsplit, hkeep⟩ := h x hx
  exact hkeep s' ((guards_rests hsplit).discipline scan [] x.1 s' hr hrests)

/-- What is shown on the record holds of the recorded runs. -/
theorem RecordedRun.sound (cut : Prop) {p : Redis α} {Q : α → Recorded Command Store → Prop}
    {y : Redis α × Recorded Command Store}
    (h : wpCut cut (recording (exec scan i)) (recordedSheltering t g source scan i) p Q (Thrown t g)
      (s, [])) (hQ : ∀ a, (recordedSheltering t g source scan i).Stable (Q a))
    (hrun : RecordedRun t g source scan i p s y) :
    wpCut cut (recording (exec scan i)) (recordedSheltering t g source scan i) y.1 Q (Thrown t g) y.2 :=
  Run.sound_cut (D := recordedSheltering t g source scan i) (fun a x x' hr hx => hQ a [] x x' hr hx)
    (fun _ x x' hr hx => guards_split.discipline scan [] x.1 x'.1 hr.1 hx) hrun h

/-- **The projection and the unresolved references of a slot.** Every operation of a synchronizer keeps
them apart in every state it reaches. A reconciliation is never cut off; where it returns the two sets
are apart and lie within the snapshot, every reference of the snapshot that was in neither set is filed as
the metadata and the clock say that were read on the way, and the other members are where they were. The
test that decides whether the removal runs is true exactly where one of the sets has a member outside the
snapshot. -/
theorem reconcileProjection_separates (index : RetainedJobIndex) (scan : ScanOrder) (i : ProcessId)
    (t : RetainedJobType) (g : Generation) (token : Token) (source : SourceSnapshot) (s : Store)
    (hsplit : Split t g s) (hdrawn : source.key.pid = i → source.key.serial < s.serial i) :
    (∀ heartbeat, Renews heartbeat → AlwaysSplit t g source scan i s
      (index.prepareWorkingGeneration t heartbeat)) ∧
    AlwaysSplit t g source scan i s (index.addMissingJobs (some (t, g)) t token source) ∧
    AlwaysSplit t g source scan i s (index.removeStaleJobs (some (t, g)) t token source) ∧
    AlwaysSplit t g source scan i s
      (index.removeStaleUnresolvedReferences (some (t, g)) t token source) ∧
    AlwaysSplit t g source scan i s (index.reconcileProjection (some (t, g)) t token source) ∧
    (∀ requiredFacets, AlwaysSplit t g source scan i s
      (index.rebuildTypeIndex (some (t, g)) t token requiredFacets source)) ∧
    (∀ heartbeat, Renews heartbeat → ∀ requiredFacets requiredCatalogPartitions allowIncomplete,
      AlwaysSplit t g source scan i s (index.synchronizeSnapshotUnderLock (some (t, g)) t token source
        requiredFacets requiredCatalogPartitions heartbeat allowIncomplete)) ∧
    ((s.zset (.temporary source.key)).card < index.fuel ∧ (s.zset (.projection t g)).card < index.fuel ∧
        (s.zset (.unresolved t g)).card < index.fuel ∧ scan.pages ≤ index.fuel →
      ∀ y, RecordedRun t g source scan i (index.reconcileProjection (some (t, g)) t token source) s y →
        y.1 ≠ .stopped) ∧
    ((∀ id ∈ s.zset (.temporary source.key), isIntegerKey id = false) →
      ∀ y, RecordedRun t g source scan i (index.reconcileProjection (some (t, g)) t token source) s
          (.ret (), y) →
        y.1.zset (.temporary source.key) = s.zset (.temporary source.key) ∧
          Reconciled y.2 (s.zset (.temporary source.key)) (s.zset (.projection t g))
            (s.zset (.unresolved t g)) (y.1.zset (.projection t g)) (y.1.zset (.unresolved t g))) ∧
    ∀ test y, RecordedRun t g source scan i (index.removalTest (some (t, g)) t token source) s
        (.ret test, y) →
      (test.1 = true ↔ ∃ id, (id ∈ s.zset (.projection t g) ∨ id ∈ s.zset (.unresolved t g)) ∧
        id ∉ s.zset (.temporary source.key)) := by
  have horderly : Orderly t g source i s := ⟨hsplit, hdrawn⟩
  have hrests := horderly.rests
  refine ⟨fun _ hrenews _ _ => (keepsApart_prepareWorkingGeneration index hrenews).run horderly,
    fun _ _ => (keepsApart_addMissingJobs index).run horderly,
    fun _ _ => (keepsApart_removeStaleJobs index).run horderly,
    fun _ _ => (keepsApart_removeStaleUnresolvedReferences index).run horderly,
    fun _ _ => (keepsApart_reconcileProjection index).run horderly,
    fun _ _ _ => (keepsApart_rebuildTypeIndex index).run horderly,
    fun _ hrenews _ _ _ _ _ => (keepsApart_synchronizeSnapshotUnderLock index hrenews).run horderly,
    fun hfuel y hrun hstopped => ?_, fun hids y hrun => ?_, fun test y hrun => ?_⟩
  · -- With enough fuel for every set the loops come to an end of their own.
    have hsound := RecordedRun.sound False
      (recorded_reconcileProjection index hsplit (Or.inr hfuel) hrests)
      (fun _ => stable_of_rests fun x ⟨p', u', hx, hsplit, hrest⟩ =>
        ⟨p', u', hx, hsplit, fun _ hs => ⟨p', u', hs, hsplit, hrest⟩⟩) hrun
    rw [hstopped] at hsound
    exact hsound
  · have hsound := RecordedRun.sound True
      (recorded_reconcileProjection index hsplit (Or.inl trivial) hrests)
      (fun _ => stable_of_rests fun x ⟨p', u', hx, hsplit, hrest⟩ =>
        ⟨p', u', hx, hsplit, fun _ hs => ⟨p', u', hs, hsplit, hrest⟩⟩) hrun
    obtain ⟨p', u', hy, -, hreconciled⟩ := hsound
    rw [hy.projection, hy.unresolved]
    exact ⟨hy.snapshot, hreconciled hids⟩
  · have hsound := RecordedRun.sound True
      (recorded_removalTest index hsplit (Or.inl trivial) hrests)
      (fun _ => stable_of_rests fun x ⟨p', u', hx, hsplit, hrest⟩ =>
        ⟨p', u', hx, hsplit, fun _ hs => ⟨p', u', hs, hsplit, hrest⟩⟩) hrun
    obtain ⟨_, _, -, -, htest, -⟩ := hsound
    exact htest

/-- A snapshot of three jobs; one is projected, and so is one that the snapshot does not hold. -/
def staleSnapshot : SourceSnapshot := ⟨⟨1, 0⟩, 3⟩

/-- The metadata of the job `b` is known, that of `c` is not. -/
def staleStore : Store :=
  { ((Store.empty.setZset (.temporary staleSnapshot.key)
      ((∅ : ZSet).insertAll [("a", -1), ("b", -2), ("c", -3)])).setZset (.projection .completed .a)
      ((∅ : ZSet).insertAll [("a", -1), ("z", -9)])) with
    lock := fun _ => some ⟨1, 1⟩
    clock := 100
    metadata := [("b", ⟨"b", "Report", "default", "redis", []⟩)] }

/-- The stale job goes, and the two others are added to the projection and to the unresolved
references. -/
theorem reconcileProjection_separates_stale : ∃ y : Recorded Command Store,
    Reconciled y.2 (staleStore.zset (.temporary staleSnapshot.key))
      (staleStore.zset (.projection .completed .a)) (staleStore.zset (.unresolved .completed .a))
      (y.1.zset (.projection .completed .a)) (y.1.zset (.unresolved .completed .a)) :=
  ⟨_, ((reconcileProjection_separates ⟨10, 10⟩ .single 0 .completed .a ⟨1, 1⟩ staleSnapshot staleStore
    (by unfold Split; decide) (fun h => absurd h (by decide))).2.2.2.2.2.2.2.2.1 (by decide) _
      (Prog.run_eval (C := fun _ _ => True) (fun _ _ _ _ => trivial) (Prod.ext (by decide +kernel) rfl)
        (Prog.along_true _ _))).2⟩

/-- More than half a minute passes, after which the temporary keys of the process that live that long
are gone; its lock and its source snapshot live for two minutes. -/
def lapseTemporary (i : ProcessId) (s : Store) : Store where
  __ := s
  zset
    | .temporary k => if k.pid = i then ∅ else s.zset (.temporary k)
    | k => s.zset k
  clock := s.clock + 31

/-- The key of the stale jobs, the second one the process draws, lapses before it is read. -/
def lapsingStale : Command → Store → Store
  | .zrange (.temporary k) _ _, s => if k = ⟨0, 1⟩ then lapseTemporary 0 s else s
  | _, s => s

/-- **A stale job stays projected** when the key of the stale jobs lapses while they are removed: the
reconciliation returns, and the job `z` outside the snapshot is still in the projection. -/
theorem stale_kept_after_lapse : ∃ y : Store,
    Split .completed .a staleStore ∧
      Run (exec .single 0) (fun _ s s' => s' = s ∨ s' = lapseTemporary 0 s) (fun _ _ _ => True)
        ((⟨10, 10⟩ : RetainedJobIndex).reconcileProjection (some (.completed, .a)) .completed ⟨1, 1⟩
          staleSnapshot, staleStore) (.ret (), y) ∧
      "z" ∈ y.zset (.projection .completed .a) ∧ "z" ∉ y.zset (.temporary staleSnapshot.key) := by
  have hworld : ∀ (ls : List Section) (c : Command) (s : Store),
      lapsingStale c s = s ∨ lapsingStale c s = lapseTemporary 0 s := by
    intro ls c s
    unfold lapsingStale
    split
    · split
      · exact Or.inr rfl
      · exact Or.inl rfl
    · exact Or.inl rfl
  refine ⟨_, by unfold Split; decide, Prog.run_eval_amid lapsingStale hworld (fun _ _ _ => trivial)
    (Prod.ext (by decide +kernel) rfl), ?_, ?_⟩
  · decide +kernel
  · decide +kernel

end RetainedJobIndex

end HorizonNewDawn

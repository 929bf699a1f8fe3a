import HorizonNewDawn.Collections.Partition
import HorizonNewDawn.Jobs.RetainedJobIndex.Hydration

/-! # The retained-job index: reconciling the projection

The synchronizer brings a slot in line with a snapshot of the source: it files the references the slot
lacks, as projected jobs or as unresolved references, and removes the references the snapshot does not
hold. It skips the removal where a count says that there is nothing to remove. -/

namespace HorizonNewDawn

open Program

namespace RetainedJobIndex

variable {t : RetainedJobType} {g : Generation} {source : SourceSnapshot} {i : ProcessId}
  {scan : ScanOrder} {s s' : Store} {α : Type} {own : Token → Prop} {p u z src : ZSet}
  {token k : Token} {cut : Prop} {Φ : Store → Prop}

/-! ## Programs that halt -/

/-- The answers that end the iteration over a set after its last page. -/
def Answers (scan : ScanOrder) : (c : Command) → c.Reply → Prop
  | .sscan _ cursor, some r => (show ℕ × List String from r).1 = scan.nextCursor cursor
  | _, _ => True

/-- A command answers as Redis does. -/
theorem answers_exec (c : Command) (s : Store) : Answers scan c (exec scan i c s).1 := by
  rw [exec]
  cases c with
  | sscan k cursor => cases s.failing <;> trivial
  | _ => trivial

/-- A program that is never cut off. -/
abbrev Halting (scan : ScanOrder) (p : Redis α) : Prop := Halts (Answers scan) p fun _ => True

section Halting

variable {working : Working}

/-- A command comes to an end. -/
theorem halting_command {c : Command} : Halting scan (command c) := by
  intro x _
  cases x <;> trivial

/-- Reading the published state comes to an end. -/
theorem halting_publishedState : Halting scan (publishedState t) := by
  refine halting_command.bind fun state => ?_
  cases state with
  | some state => trivial
  | none => exact Halts.bind halting_command fun _ => trivial

/-- Finding the generation comes to an end. -/
theorem halting_currentGeneration : Halting scan (currentGeneration working t) := by
  have hread : Halting scan (currentGeneration.readPublished t) :=
    halting_publishedState.bind fun _ => trivial
  unfold currentGeneration
  split
  · exact Halts.ite trivial hread
  · exact hread

/-- Finding the generations of a transaction comes to an end. -/
theorem halting_snapshot : Halting scan (withAtomicGenerationSnapshot working) :=
  halting_currentGeneration.bind fun _ => halting_currentGeneration.bind fun _ =>
    halting_currentGeneration.bind fun _ => halting_currentGeneration.bind fun _ => trivial

/-- A transaction comes to an end. -/
theorem halting_transaction {ws : (RetainedJobType → Generation) → List Write} :
    Halting scan (transaction working ws) := halting_snapshot.bind fun _ => halting_command

/-- A pipeline comes to an end. -/
theorem halting_pipeline {β γ : Type} {as : List β} {read : β → Redis γ}
    (h : ∀ a, Halting scan (read a)) : Halting scan (pipeline working as read) :=
  halting_snapshot.bind fun _ => .collect fun a _ => h a

/-- Reading the metadata comes to an end. -/
theorem halting_existingMetadata {ids : List String} : Halting scan (existingMetadata ids) := by
  unfold existingMetadata
  refine Halts.ite trivial (Halts.bind (halting_command (c := .hlen)) fun _ => Halts.ite trivial ?_)
  refine Halts.bind (Halts.collect fun ids _ => ?_) fun _ => trivial
  exact Halts.bind (halting_command (c := .hmget ids)) fun _ => trivial

/-- The iteration over a catalog ends after the last page. -/
theorem halting_forCatalogChunks {fuel : ℕ} {c : CatalogKey} {body : List String → Redis Unit}
    (hfuel : scan.pages ≤ fuel) (h : ∀ values, Halting scan (body values)) :
    Halting scan (forCatalogChunks fuel c body) := by
  have hpos := scan.pages_pos
  refine Halts.iterate (μ := fun cursor => scan.pages - 1 - cursor) (fun cursor => ?_) (by omega)
  have hcursor : Halts (Answers scan) (command (.sscan c cursor))
      fun r => (show ℕ × List String from r).1 = scan.nextCursor cursor := by
    intro x hx
    cases x with
    | none => trivial
    | some r => exact hx
  refine hcursor.bind_of fun r hr => (Halts.forEach fun chunk _ => h chunk).bind fun _ => ?_
  rw [ScanOrder.nextCursor] at hr
  split
  · trivial
  · show scan.pages - 1 - (show ℕ × List String from r).1 < scan.pages - 1 - cursor
    rename_i hne
    rw [hr]
    split at hr
    · rename_i hlt
      rw [if_pos hlt]
      omega
    · exact absurd hr hne

/-- Removing metadata comes to an end. -/
theorem halting_removeUnretainedMetadata {ids : List String} :
    Halting scan (removeUnretainedMetadata working ids) := by
  have hsources : Halting scan (retainedByAnySource working ids) :=
    Halts.bind (halting_pipeline fun e => halting_command (c := .zscore (.source e.2) e.1))
      fun _ => trivial
  refine hsources.bind fun _ => .forEach fun e _ => ?_
  exact Halts.ite trivial (halting_command (c := .write _))

/-- Removing unknown memberships comes to an end with enough fuel. -/
theorem halting_removeUnknownFacetMemberships (index : RetainedJobIndex)
    (hfuel : scan.pages ≤ index.fuel) {ids : List String} :
    Halting scan (index.removeUnknownFacetMemberships (some (t, g)) t ids token) := by
  refine .forEach fun d _ => ?_
  rw [catalogKey_working, Prog.ret_bind]
  refine halting_forCatalogChunks hfuel fun values => ?_
  rw [removeMembershipsFromFacets, collect_facetKey_working]
  refine (renews_renewSynchronizationLock.halts _).bind fun _ => halting_transaction.bind fun _ => ?_
  refine Halts.bind (halting_pipeline fun k => halting_command (c := .zcard k)) fun _ => ?_
  refine Halts.ite trivial ?_
  exact (renews_renewSynchronizationLock.halts _).bind fun _ => halting_transaction

/-- Pruning facets comes to an end. -/
theorem halting_pruneAffectedFacets
    {facets : List (((FacetDimension × String) × SortedSetKey) × ℕ)} :
    Halting scan (pruneAffectedFacets (some (t, g)) t facets) := by
  refine .forEach fun e _ => Halts.bind (halting_command (c := .zcard e.1.2)) fun _ => ?_
  refine Halts.ite trivial (Halts.ite trivial ?_)
  rw [catalogKey_working, Prog.ret_bind]
  exact Halts.bind (halting_command (c := .write _)) fun _ => halting_command (c := .write _)

/-- Removing a chunk of stale jobs comes to an end with enough fuel. -/
theorem halting_removeStaleChunk (index : RetainedJobIndex) (hfuel : scan.pages ≤ index.fuel)
    {ids : List String} : Halting scan (index.removeStaleChunk (some (t, g)) t ids token) := by
  refine halting_existingMetadata.bind fun _ => ?_
  simp only [collect_facetKeys_working, Prog.ret_bind]
  refine Halts.bind (Halts.ite trivial (halting_pipeline fun k => halting_command (c := .zcard k)))
    fun _ => ?_
  refine halting_transaction.bind fun _ => ?_
  exact (Halts.ifThen (halting_removeUnknownFacetMemberships index hfuel)).bind fun _ =>
    halting_pruneAffectedFacets.bind fun _ => halting_removeUnretainedMetadata

/-- Hydrating jobs comes to an end. -/
theorem halting_hydrateAndStore (index : RetainedJobIndex) {scores : List (String × ℚ)}
    {heartbeat : Redis Unit} (h : Renews heartbeat) :
    Halting scan (index.hydrateAndStore (some (t, g)) t scores heartbeat) := by
  refine halting_existingMetadata.bind fun _ => (Halts.collect fun chunk _ => ?_).bind fun _ => ?_
  · exact Halts.bind (halting_command (c := .getJobs chunk)) fun _ => (h.halts _).bind fun _ => trivial
  refine Halts.bind (Halts.collect fun e _ => ?_) fun _ => ?_
  · exact Halts.bind (halting_command (c := .microtime)) fun _ => trivial
  refine (Halts.forEach fun chunk _ => halting_transaction.bind fun _ => h.halts _).bind fun _ => ?_
  exact .forEach fun chunk _ => halting_transaction.bind fun _ => h.halts _

/-- Deleting a key quietly comes to an end. -/
theorem halting_deleteQuietly : Halting scan (deleteQuietly k) :=
  Halts.tryCatch halting_command fun _ => trivial

/-- A difference of sets comes to an end. -/
theorem halting_difference {keys : List SortedSetKey} :
    Halting scan (difference working k keys) := halting_transaction.bind fun _ => halting_command

end Halting

/-! ## Removing jobs -/

/-- Removing one job from the projection. -/
theorem Stands.removeJob (h : Stands t g source i own z src p u s)
    (known : Option RetainedJobMetadata) (id : String) :
    Stands t g source i own z src (p.eraseAll [id]) u (s.writeAll (removeJob t g known id)) := by
  set facets : List Write := (RetainedJobIndex.removeJob t g known id).tail with hfacets
  have hremove : RetainedJobIndex.removeJob t g known id = .zrem (.projection t g) [id] :: facets := rfl
  have hfacet : ∀ w ∈ facets, ∃ d value, w.key = .sortedSet (.facet t g d value) := by
    intro w hw
    have hin : w ∈ RetainedJobIndex.removeJob t g known id := List.mem_cons_of_mem _ hw
    rw [hfacets] at hw
    cases known with
    | none => cases hw
    | some m =>
        obtain ⟨d, -, hw⟩ := List.mem_flatMap.mp hw
        obtain ⟨value, -, rfl⟩ := List.mem_map.mp hw
        exact ⟨d, value, rfl⟩
  have hrest : ∀ (s : Store) (k : SortedSetKey), (∀ d value, k ≠ .facet t g d value) →
      (s.writeAll facets).zset k = s.zset k := fun s k hk =>
    zset_writeAll_of_keys fun w hw hkey => by
      obtain ⟨d, value, hfacet⟩ := hfacet w hw
      exact hk d value (Key.sortedSet.inj (hkey.symm.trans hfacet))
  refine h.writeAll (fun w hw k hk => ?_) ?_ ?_
  · rw [hremove] at hw
    rcases List.mem_cons.mp hw with rfl | hw
    · cases hk
    · obtain ⟨d, value, hkey⟩ := hfacet w hw
      rw [hkey] at hk
      cases hk
  · rw [hremove, Store.writeAll_cons, hrest _ _ (by simp), Write.effect, Store.setZset_zset,
      if_pos rfl, h.projection]
  · rw [hremove, Store.writeAll_cons, hrest _ _ (by simp), Write.effect, Store.setZset_zset,
      if_neg (by simp), h.unresolved]

/-- Removing some jobs from the projection. -/
theorem Stands.removeJobs (known : String → Option RetainedJobMetadata) (ids : List String)
    (h : Stands t g source i own z src p u s) :
    Stands t g source i own z src (p.eraseAll ids) u
      (s.writeAll (ids.flatMap fun id => RetainedJobIndex.removeJob t g (known id) id)) := by
  induction ids generalizing p s with
  | nil =>
      rw [SortedSet.eraseAll_nil]
      exact h
  | cons id ids ih =>
      rw [List.flatMap_cons, Store.writeAll_append, ← List.singleton_append,
        SortedSet.eraseAll_append]
      exact ih (h.removeJob (known id) id)

/-- The working set of a loop loses members. -/
theorem Stands.eraseTemporary (hne : k ≠ source.key)
    (h : Stands t g source i (· = k) z src p u s) (ids : List String) :
    Stands t g source i (· = k) (z.eraseAll ids) src p u
      (s.writeAll [.zrem (.temporary k) ids]) := by
  have hset : (s.writeAll [.zrem (.temporary k) ids]) =
    s.setZset (.temporary k) ((s.zset (.temporary k)).eraseAll ids) := rfl
  rw [hset]
  refine ⟨?_, ?_, ?_, ?_, h.drawn⟩
  · rw [Store.setZset_zset, if_neg (by simp), h.projection]
  · rw [Store.setZset_zset, if_neg (by simp), h.unresolved]
  · rw [Store.setZset_zset, if_neg (by simpa using Ne.symm hne), h.snapshot]
  · rintro k' rfl
    rw [Store.setZset_zset, if_pos rfl, h.temporary k' rfl]

/-- Fewer projected ids are still none of the unresolved ones. -/
theorem split_eraseAll_left (hsplit : ∀ id ∈ p, id ∉ u) (ids : List String) :
    ∀ id ∈ p.eraseAll ids, id ∉ u :=
  fun id hid => hsplit id (SortedSet.mem_eraseAll.mp hid).2

/-- The projected ids are still none of fewer unresolved ones. -/
theorem split_eraseAll_right (hsplit : ∀ id ∈ p, id ∉ u) (ids : List String) :
    ∀ id ∈ p, id ∉ u.eraseAll ids :=
  fun id hid hu => hsplit id hid (SortedSet.mem_eraseAll.mp hu).2

/-- `removeStaleChunk` takes the jobs out of the projection and leaves the other sets alone. -/
theorem sheltering_removeStaleChunk (index : RetainedJobIndex) {ids : List String}
    (hown : ∀ k, own k → k.pid = i) (hsplit : ∀ id ∈ p, id ∉ u)
    (hs : Stands t g source i own z src p u s) :
    wp (exec scan i) (sheltering t g source scan i)
      (index.removeStaleChunk (some (t, g)) t ids token)
      (fun _ => Stands t g source i own z src (p.eraseAll ids) u) (fun _ => Split t g) s := by
  have hΦ : Guards t g source i own (Stands t g source i own z src p u) := guards_stands hown hsplit
  have hΨ : Guards t g source i own (Stands t g source i own z src (p.eraseAll ids) u) :=
    guards_stands hown (split_eraseAll_left hsplit ids)
  have hunsheltered : ∀ k : Key, (∀ k', k = .sortedSet k' → ∃ d value, k' = .facet t g d value) →
      Key.Unsheltered t g source own k := by
    rintro _ hk k' hsheltered rfl
    obtain ⟨d, value, rfl⟩ := hk k' rfl
    exact hsheltered
  refine wp_bind_of (sheltering_of_writes hΦ existingMetadata_writes hs) fun known s hs => ?_
  simp only [collect_facetKeys_working, Prog.ret_bind]
  refine wp_bind_of (sheltering_of_writes hΦ
    (.ite .ret (pipeline_writes fun _ _ => sortedSetCount_writes)) hs) fun counts s hs => ?_
  refine wp_bind_of (sheltering_transaction hΦ hΨ.split ?_ hs) fun _ s hs => ?_
  · rintro generations rfl s hs
    exact hs.removeJobs known ids
  · refine sheltering_of_writes hΨ (cleanStaleChunk_writes index (hunsheltered _ ?_) ?_ ?_) hs
    · exact fun k' hk => by cases hk
    · exact fun d value => hunsheltered _ fun k' hk => ⟨d, value, (Key.sortedSet.inj hk).symm⟩
    · exact fun d => hunsheltered _ fun k' hk => by cases hk

/-! ## Working sets -/

/-- What a synchronizer knows of its sets while it has no working set. -/
abbrev Rests (t : RetainedJobType) (g : Generation) (source : SourceSnapshot) (i : ProcessId)
    (src p u : ZSet) (s : Store) : Prop :=
  Stands t g source i (fun _ => False) ∅ src p u s

/-- What stands with a working set rests without it. -/
theorem Stands.rests (h : Stands t g source i own z src p u s) : Rests t g source i src p u s :=
  ⟨h.projection, h.unresolved, h.snapshot, fun _ hk => hk.elim, h.drawn⟩

/-- A slot at rest is guarded. -/
theorem guards_rests (hsplit : ∀ id ∈ p, id ∉ u) :
    Guards t g source i (fun _ => False) (Rests t g source i src p u) :=
  guards_stands (fun _ hk => hk.elim) hsplit

/-- A slot with a working set is guarded. -/
theorem guards_working (hk : k.pid = i) (hsplit : ∀ id ∈ p, id ∉ u) :
    Guards t g source i (· = k) (Stands t g source i (· = k) z src p u) := by
  refine guards_stands ?_ hsplit
  rintro _ rfl
  exact hk

/-- A drawn key is not the one of the snapshot. -/
theorem sheltering_temporaryKey (hsplit : ∀ id ∈ p, id ∉ u) (hs : Rests t g source i src p u s) :
    wp (exec scan i) (sheltering t g source scan i) temporaryKey
      (fun k s => k.pid = i ∧ k ≠ source.key ∧ Rests t g source i src p u s)
      (fun _ => Split t g) s := by
  have hΦ : Guards t g source i (fun _ => False) (Rests t g source i src p u) := guards_rests hsplit
  refine wp_command.mpr fun s' hr _ => ?_
  have hs' := hΦ.discipline scan [] s s' hr hs
  have heffect : Rests t g source i src p u (Command.random.effect i s') :=
    hΦ.stable _ _ (spares_effect fun _ _ => List.not_mem_nil) hs'
  have hfailing := hΦ.stable _ _ (spares_failing s' false) hs'
  refine ⟨?_, fun _ => hΦ.split _ hfailing, fun _ => ⟨rfl, ?_, heffect⟩⟩
  · show Split t g (exec scan i .random s').2
    rw [exec]
    split
    · exact hΦ.split _ hfailing
    · exact hΦ.split _ heffect
  · intro hkey
    have hlt := hs'.drawn (congrArg Token.pid hkey.symm)
    rw [← hkey] at hlt
    exact lt_irrefl _ hlt

/-- A difference of the sheltered sets becomes the working set. -/
theorem sheltering_difference {keys : List SortedSetKey} {zs : List ZSet} (hk : k.pid = i)
    (hne : k ≠ source.key) (hsplit : ∀ id ∈ p, id ∉ u)
    (hkeys : ∀ s, Rests t g source i src p u s → keys.map s.zset = zs)
    (hs : Rests t g source i src p u s) :
    wp (exec scan i) (sheltering t g source scan i) (difference (some (t, g)) k keys)
      (fun n s => n = (diffStore zs).card ∧ Stands t g source i (· = k) (diffStore zs) src p u s)
      (fun _ => Split t g) s := by
  have hΨ : Guards t g source i (· = k) (Stands t g source i (· = k) (diffStore zs) src p u) :=
    guards_working hk hsplit
  refine wp_bind_of (sheltering_transaction (guards_rests hsplit) hΨ.split (fun _ _ s hs => ?_) hs)
    fun _ s hs => ?_
  · show Stands t g source i (· = k) (diffStore zs) src p u
      (s.setZset (.temporary k) (diffStore (keys.map s.zset)))
    rw [hkeys s hs]
    refine ⟨?_, ?_, ?_, ?_, hs.drawn⟩
    · rw [Store.setZset_zset, if_neg (by simp), hs.projection]
    · rw [Store.setZset_zset, if_neg (by simp), hs.unresolved]
    · rw [Store.setZset_zset, if_neg (by simpa using Ne.symm hne), hs.snapshot]
    · rintro k' rfl
      rw [Store.setZset_zset, if_pos rfl]
  · refine wp_mono (fun n s h => ⟨?_, h.2⟩) (fun _ _ h => h)
      ((reads_sheltering hΨ).command (c := .zcard (.temporary k)) (fun _ => rfl) hs)
    rw [h.1, Command.answer, h.2.temporary k rfl]

/-- The first members of the working set. -/
theorem sheltering_zrange (hk : k.pid = i) (hsplit : ∀ id ∈ p, id ∉ u)
    (hs : Stands t g source i (· = k) z src p u s) :
    wp (exec scan i) (sheltering t g source scan i) (zrange (.temporary k) 0 (sourceChunkSize - 1))
      (fun ids s => ids = z.members.take sourceChunkSize ∧ Stands t g source i (· = k) z src p u s)
      (fun _ => Split t g) s := by
  refine wp_bind_of ((reads_sheltering (guards_working hk hsplit)).command
    (c := .zrange (.temporary k) 0 (sourceChunkSize - 1)) (fun _ => rfl) hs) ?_
  rintro _ s ⟨rfl, hs⟩
  refine ⟨?_, hs⟩
  rw [Command.answer, hs.temporary k rfl, List.drop_zero, List.map_take]
  rfl

/-- A page of the working set, as the array the source builds from it. -/
theorem sheltering_sortedSetScores {start : ℕ} (hk : k.pid = i) (hsplit : ∀ id ∈ p, id ∉ u)
    (hs : Stands t g source i (· = k) z src p u s) :
    wp (exec scan i) (sheltering t g source scan i)
      (sortedSetScores (.temporary k) start (start + sourceChunkSize - 1) false)
      (fun scores s =>
        scores = ((z.entries.drop start).take sourceChunkSize).filter (fun e => !isIntegerKey e.1) ∧
          Stands t g source i (· = k) z src p u s)
      (fun _ => Split t g) s := by
  refine wp_bind_of ((reads_sheltering (guards_working hk hsplit)).command
    (c := .zrange (.temporary k) start (start + sourceChunkSize - 1)) (fun _ => rfl) hs) ?_
  rintro _ s ⟨rfl, hs⟩
  have hlength : start + sourceChunkSize - 1 + 1 - start = sourceChunkSize := by
    rw [sourceChunkSize]
    omega
  refine ⟨?_, hs⟩
  rw [Command.answer, hs.temporary k rfl, hlength]

/-- Deleting another temporary key keeps what is guarded. -/
theorem sheltering_deleteQuietly (hne : k ≠ source.key) (hΦ : Guards t g source i (fun _ => False) Φ)
    (hs : Φ s) :
    wp (exec scan i) (sheltering t g source scan i) (deleteQuietly k) (fun _ => Φ)
      (fun _ => Split t g) s := by
  refine sheltering_of_writes hΦ (Writes.tryCatch (.write fun w hw => ?_) fun _ => .ret) hs
  rw [List.mem_singleton.mp hw]
  rintro k' hk' heq
  rw [← Key.sortedSet.inj heq] at hk'
  exact hk'.elim hne id

section Recorded

variable {x : Recorded Command Store}

/-- A program that halts, on the record. -/
theorem recorded_of {p : Redis α} {Q : α → Store → Prop} (hp : cut ∨ Halting scan p)
    (h : wp (exec scan i) (sheltering t g source scan i) p Q (fun _ => Split t g) x.1) :
    wpCut cut (recording (exec scan i)) (recordedSheltering t g source scan i) p
      (fun a y => Q a y.1 ∧ x.2 <:+ y.2) (Thrown t g) x :=
  wpCut_mono (fun _ _ h => h) (fun _ _ h => h.1)
    (wpCut_of_halts (fun c y => answers_exec c y.1) hp (wp_recording_suffix h))

/-- A program with a working set of its own, which is deleted in the end. -/
theorem recorded_withTemporaryKey {body : Token → Redis α}
    {F : α → List (Command × Store) → ZSet → ZSet → Prop} (hsplit : ∀ id ∈ p, id ∉ u)
    (hF : ∀ {a p' u' h h'}, h <:+ h' → F a h p' u' → F a h' p' u')
    (hbody : ∀ k y, k.pid = i → k ≠ source.key → Rests t g source i src p u y.1 → x.2 <:+ y.2 →
      wpCut cut (recording (exec scan i)) (recordedSheltering t g source scan i) (body k)
        (fun a y => ∃ z p' u', Stands t g source i (· = k) z src p' u' y.1 ∧
          (∀ id ∈ p', id ∉ u') ∧ F a y.2 p' u') (Thrown t g) y)
    (hx : Rests t g source i src p u x.1) :
    wpCut cut (recording (exec scan i)) (recordedSheltering t g source scan i)
      (do
        let k ← temporaryKey
        Prog.tryFinally (body k) (deleteQuietly k))
      (fun a y => ∃ p' u', Rests t g source i src p' u' y.1 ∧ (∀ id ∈ p', id ∉ u') ∧ F a y.2 p' u')
      (Thrown t g) x := by
  refine wpCut_bind_of (recorded_of (Or.inr halting_command) (sheltering_temporaryKey hsplit hx)) ?_
  rintro k y ⟨⟨hk, hne, hy⟩, hsuffix⟩
  refine wpCut_tryFinally_of (hbody k y hk hne hy hsuffix) ?_ ?_
  · rintro a y ⟨z, p', u', hy, hsplit', hfact⟩
    refine wpCut_mono (fun _ y h => ?_) (fun _ _ h => h) (recorded_of (Or.inr halting_deleteQuietly)
      (sheltering_deleteQuietly hne (guards_rests hsplit') hy.rests))
    exact ⟨p', u', h.1, hsplit', hF h.2 hfact⟩
  · intro e y hy
    exact wpCut_mono (fun _ _ h => h.1) (fun _ _ h => h) (recorded_of (Or.inr halting_deleteQuietly)
      (sheltering_deleteQuietly hne guards_split hy))

/-- **Draining**: a loop that takes chunks off its working set and removes them elsewhere removes the
whole working set. -/
theorem recorded_drain {fuel : ℕ} (remove : List String → Redis Unit) (ps us : List String → ZSet)
    (hk : k.pid = i) (hne : k ≠ source.key) (hsplit : ∀ ids, ∀ id ∈ ps ids, id ∉ us ids)
    (hfuel : cut ∨ z.card < fuel) (hhalts : ∀ ids, cut ∨ Halting scan (remove ids))
    (hremove : ∀ removed ids z s, Stands t g source i (· = k) z src (ps removed) (us removed) s →
      wp (exec scan i) (sheltering t g source scan i) (remove ids)
        (fun _ => Stands t g source i (· = k) z src (ps (removed ++ ids)) (us (removed ++ ids)))
        (fun _ => Split t g) s)
    (hx : Stands t g source i (· = k) z src (ps []) (us []) x.1) :
    wpCut cut (recording (exec scan i)) (recordedSheltering t g source scan i)
      (Prog.iterate fuel (fun _ => do
        let ids ← zrange (.temporary k) 0 (sourceChunkSize - 1)
        if ids = [] then return .inr ()
        renewWorkingSet t token k source
        remove ids
        write [.zrem (.temporary k) ids]
        return .inl ()) ())
      (fun _ y => ∃ z' removed, Stands t g source i (· = k) z' src (ps removed) (us removed) y.1 ∧
        (∀ id, id ∈ removed ↔ id ∈ z) ∧ x.2 <:+ y.2) (Thrown t g) x := by
  have hguards : ∀ z removed, Guards t g source i (· = k)
      (Stands t g source i (· = k) z src (ps removed) (us removed)) := fun z removed =>
    guards_working hk (hsplit removed)
  -- The variant is the size of the working set.
  refine wpCut_iterate (I := fun _ n y => ∃ removed, (∀ id ∈ removed, id ∈ z) ∧
    Stands t g source i (· = k) (z.eraseAll removed) src (ps removed) (us removed) y.1 ∧
      n = (z.eraseAll removed).card ∧ x.2 <:+ y.2) ?_ hfuel ⟨[], by simp, ?_, ?_, List.suffix_refl _⟩
  · rintro _ n y ⟨removed, hremoved, hy, rfl, hsuffix⟩
    refine wpCut_bind_of (recorded_of (Or.inr (halting_command.bind fun _ => trivial))
      (sheltering_zrange hk (hsplit removed) hy)) ?_
    rintro _ y₁ ⟨⟨rfl, hy₁⟩, hsuffix₁⟩
    refine wpCut_ite (fun hnil => ?_) fun hnil => ?_
    · refine ⟨_, removed, hy₁, fun id => ⟨hremoved id, fun hid => ?_⟩, hsuffix.trans hsuffix₁⟩
      -- Nothing is left of the working set.
      by_contra hnot
      have hmem := SortedSet.mem_eraseAll.mpr ⟨hnot, hid⟩
      rw [List.take_eq_nil_iff, SortedSet.mem_iff_members] at *
      rcases hnil with hzero | hempty
      · cases hzero
      · rw [hempty] at hmem
        cases hmem
    set ids := (z.eraseAll removed).members.take sourceChunkSize with hids
    refine wpCut_bind_of (recorded_of (Or.inr (renews_renewWorkingSet.halts _))
      (sheltering_of_writes (hguards _ removed) (renews_renewWorkingSet.writes _) hy₁)) ?_
    rintro _ y₂ ⟨hy₂, hsuffix₂⟩
    refine wpCut_bind_of (recorded_of (hhalts ids) (hremove removed ids _ _ hy₂)) ?_
    rintro _ y₃ ⟨hy₃, hsuffix₃⟩
    refine wpCut_bind_of (recorded_of (Or.inr halting_command) (sheltering_write (hguards _ _)
      (hguards _ (removed ++ ids)).split (fun s hs => hs.eraseTemporary hne ids) hy₃)) ?_
    rintro _ y₄ ⟨hy₄, hsuffix₄⟩
    rw [← SortedSet.eraseAll_append] at hy₄
    refine ⟨_, ?_, removed ++ ids, fun id hid => ?_, hy₄, rfl,
      (((hsuffix.trans hsuffix₁).trans hsuffix₂).trans hsuffix₃).trans hsuffix₄⟩
    · have hpos : 0 < (z.eraseAll removed).card := by
        rw [Nat.pos_iff_ne_zero]
        intro hzero
        refine hnil ?_
        rw [hids, List.take_eq_nil_iff, SortedSet.members, List.map_eq_nil_iff]
        exact Or.inr (List.length_eq_zero_iff.mp hzero)
      rw [SortedSet.eraseAll_append, hids, SortedSet.card_eraseAll_take, sourceChunkSize]
      omega
    · rcases List.mem_append.mp hid with hid | hid
      · exact hremoved id hid
      · exact (SortedSet.mem_eraseAll.mp (List.mem_of_mem_take hid)).2
  · rw [SortedSet.eraseAll_nil]
    exact hx
  · rw [SortedSet.eraseAll_nil]

/-- Erasing depends on which members are named only. -/
theorem eraseAll_congr {l l' : List String} (h : ∀ id, id ∈ l ↔ id ∈ l') :
    p.eraseAll l = p.eraseAll l' :=
  SortedSet.ext fun id => by simp only [SortedSet.score_eraseAll, h id]

/-- A difference is no larger than its first set. -/
theorem card_diffStore_le {zs : List ZSet} : (diffStore (z :: zs)).card ≤ z.card :=
  List.length_filter_le _ _

/-- `removeStaleJobs` removes the projected jobs that are not in the snapshot. -/
theorem recorded_removeStaleJobs (index : RetainedJobIndex) (hsplit : ∀ id ∈ p, id ∉ u)
    (hfuel : cut ∨ (diffStore [p, src]).card < index.fuel)
    (hpages : cut ∨ scan.pages ≤ index.fuel)
    (hx : Rests t g source i src p u x.1) :
    wpCut cut (recording (exec scan i)) (recordedSheltering t g source scan i)
      (index.removeStaleJobs (some (t, g)) t token source)
      (fun _ y => ∃ p' u', Rests t g source i src p' u' y.1 ∧ (∀ id ∈ p', id ∉ u') ∧
        p' = p.eraseAll (diffStore [p, src]).members ∧ u' = u ∧ x.2 <:+ y.2) (Thrown t g) x := by
  refine recorded_withTemporaryKey (F := fun _ h p' u' =>
    p' = p.eraseAll (diffStore [p, src]).members ∧ u' = u ∧ x.2 <:+ h) hsplit
    (fun hh h => ⟨h.1, h.2.1, h.2.2.trans hh⟩) (fun k y hk hne hy hsuffix => ?_) hx
  simp only [projectionKey_working, Prog.ret_bind]
  have hkeys : ∀ s, Rests t g source i src p u s →
      [SortedSetKey.projection t g, .temporary source.key].map s.zset = [p, src] := fun s hs => by
    rw [List.map_cons, List.map_singleton, hs.projection, hs.snapshot]
  refine wpCut_bind_of (recorded_of (Or.inr halting_difference)
    (sheltering_difference hk hne hsplit hkeys hy)) ?_
  rintro _ y₁ ⟨⟨-, hy₁⟩, hsuffix₁⟩
  have hstart : Stands t g source i (· = k) (diffStore [p, src]) src (p.eraseAll []) u y₁.1 := by
    rw [SortedSet.eraseAll_nil]
    exact hy₁
  refine wpCut_mono (fun _ y₂ h => ?_) (fun _ _ h => h) (recorded_drain
    (fun ids => index.removeStaleChunk (some (t, g)) t ids token) (fun ids => p.eraseAll ids)
    (fun _ => u) hk hne (fun ids => split_eraseAll_left hsplit ids) ?_ ?_ ?_ hstart)
  · obtain ⟨z', removed, hy₂, hremoved, hsuffix₂⟩ := h
    exact ⟨z', _, _, hy₂, split_eraseAll_left hsplit removed, eraseAll_congr hremoved, rfl,
      (hsuffix.trans hsuffix₁).trans hsuffix₂⟩
  · exact hfuel
  · exact fun ids => hpages.imp_right fun hpages => halting_removeStaleChunk index hpages
  · intro removed ids z s hs
    rw [SortedSet.eraseAll_append]
    exact sheltering_removeStaleChunk index (fun _ hk' => hk' ▸ hk)
      (split_eraseAll_left hsplit removed) hs

/-- `removeStaleUnresolvedReferences` removes the unresolved references that are not in the snapshot. -/
theorem recorded_removeStaleUnresolvedReferences (index : RetainedJobIndex)
    (hsplit : ∀ id ∈ p, id ∉ u) (hfuel : cut ∨ (diffStore [u, src]).card < index.fuel)
    (hx : Rests t g source i src p u x.1) :
    wpCut cut (recording (exec scan i)) (recordedSheltering t g source scan i)
      (index.removeStaleUnresolvedReferences (some (t, g)) t token source)
      (fun _ y => ∃ p' u', Rests t g source i src p' u' y.1 ∧ (∀ id ∈ p', id ∉ u') ∧
        p' = p ∧ u' = u.eraseAll (diffStore [u, src]).members ∧ x.2 <:+ y.2) (Thrown t g) x := by
  refine recorded_withTemporaryKey (F := fun _ h p' u' =>
    p' = p ∧ u' = u.eraseAll (diffStore [u, src]).members ∧ x.2 <:+ h) hsplit
    (fun hh h => ⟨h.1, h.2.1, h.2.2.trans hh⟩) (fun k y hk hne hy hsuffix => ?_) hx
  simp only [unresolvedKey_working, Prog.ret_bind]
  have hkeys : ∀ s, Rests t g source i src p u s →
      [SortedSetKey.unresolved t g, .temporary source.key].map s.zset = [u, src] := fun s hs => by
    rw [List.map_cons, List.map_singleton, hs.unresolved, hs.snapshot]
  refine wpCut_bind_of (recorded_of (Or.inr halting_difference)
    (sheltering_difference hk hne hsplit hkeys hy)) ?_
  rintro _ y₁ ⟨⟨-, hy₁⟩, hsuffix₁⟩
  have hstart : Stands t g source i (· = k) (diffStore [u, src]) src p (u.eraseAll []) y₁.1 := by
    rw [SortedSet.eraseAll_nil]
    exact hy₁
  refine wpCut_mono (fun _ y₂ h => ?_) (fun _ _ h => h) (recorded_drain
    (fun ids => write [.zrem (.unresolved t g) ids]) (fun _ => p) (fun ids => u.eraseAll ids) hk hne
    (fun ids => split_eraseAll_right hsplit ids) ?_ ?_ ?_ hstart)
  · obtain ⟨z', removed, hy₂, hremoved, hsuffix₂⟩ := h
    exact ⟨z', _, _, hy₂, split_eraseAll_right hsplit removed, rfl, eraseAll_congr hremoved,
      (hsuffix.trans hsuffix₁).trans hsuffix₂⟩
  · exact hfuel
  · exact fun _ => Or.inr halting_command
  · intro removed ids z s hs
    rw [SortedSet.eraseAll_append]
    refine sheltering_write (guards_working hk (split_eraseAll_right hsplit removed))
      (guards_working hk (split_eraseAll_right (split_eraseAll_right hsplit removed) ids)).split
      (fun s hs => hs.writeAll ?_ ?_ ?_) hs
    · intro w hw k' hkey
      rw [List.mem_singleton.mp hw] at hkey
      cases hkey
    · rw [Store.writeAll_cons, Store.writeAll_nil, Write.effect, Store.setZset_zset,
        if_neg (by simp), hs.projection]
    · rw [Store.writeAll_cons, Store.writeAll_nil, Write.effect, Store.setZset_zset, if_pos rfl,
        hs.unresolved]

/-- What `addMissingJobs` files: the references of the snapshot that are in neither set, up to the ones
that are no strings as array keys. -/
def Missing (src p u : ZSet) (done : List (String × ℚ)) : Prop :=
  (∀ e ∈ done, e ∈ (diffStore [src, p, u]).entries) ∧
    ((∀ id ∈ src, isIntegerKey id = false) → done = (diffStore [src, p, u]).entries)

/-- A page of a list, without the references that are no strings as array keys. -/
theorem filter_drop_take (l : List (String × ℚ)) (keep : String × ℚ → Bool) (start n : ℕ) :
    (l.take start).filter keep ++ ((l.drop start).take n).filter keep =
      (l.take (start + n)).filter keep := by
  rw [← List.filter_append, ← List.take_add]

/-- The loop of `addMissingJobs`. -/
theorem recorded_fileMissing (index : RetainedJobIndex) (hk : k.pid = i) (hsplit : ∀ id ∈ p, id ∉ u)
    (hfuel : cut ∨ src.card < index.fuel)
    (hx : Stands t g source i (· = k) (diffStore [src, p, u]) src p u x.1) :
    wpCut cut (recording (exec scan i)) (recordedSheltering t g source scan i)
      (Prog.iterate index.fuel (fun start => do
        let scores ← sortedSetScores (.temporary k) start (start + sourceChunkSize - 1) false
        if scores = [] then return .inr ()
        let heartbeat := renewWorkingSet t token k source
        heartbeat
        index.hydrateAndStore (some (t, g)) t scores heartbeat
        return if scores.length < sourceChunkSize then .inr () else .inl (start + sourceChunkSize)) 0)
      (fun _ y => ∃ p' u', Stands t g source i (· = k) (diffStore [src, p, u]) src p' u' y.1 ∧
        ∃ done, Missing src p u done ∧ Filed y.2 done p u p' u') (Thrown t g) x := by
  set missing := diffStore [src, p, u] with hmissing
  let keep : String × ℚ → Bool := fun e => !isIntegerKey e.1
  have hall : (∀ id ∈ src, isIntegerKey id = false) → ∀ l ⊆ missing.entries, l.filter keep = l := by
    intro hids l hl
    refine List.filter_eq_self.mpr fun e he => ?_
    have hmem : e.1 ∈ missing := List.mem_map_of_mem (hl he)
    show (!isIntegerKey e.1) = true
    rw [hids e.1 (mem_diffStore.mp hmem).1]
    rfl
  -- The references before the offset are filed; the variant is the length of the rest.
  refine wpCut_iterate (I := fun start n y => n = missing.entries.length - start ∧ ∃ p' u',
    Stands t g source i (· = k) missing src p' u' y.1 ∧
      Filed y.2 ((missing.entries.take start).filter keep) p u p' u') ?_
    (hfuel.imp_right card_diffStore_le.trans_lt) ⟨rfl, p, u, hx, ?_⟩
  · rintro start n y ⟨rfl, p', u', hy, hfiled⟩
    have hsplit' := hfiled.split hsplit
    refine wpCut_bind_of (recorded_of (Or.inr (halting_command.bind fun _ => trivial))
      (sheltering_sortedSetScores hk hsplit' hy)) ?_
    rintro scores y₁ ⟨⟨hscores, hy₁⟩, hsuffix₁⟩
    have hpage := filter_drop_take missing.entries keep start sourceChunkSize
    have htake : ∀ n, (missing.entries.take n).filter keep ⊆ missing.entries := fun n e he =>
      List.mem_of_mem_take (List.mem_of_mem_filter he)
    have hend : scores.length < sourceChunkSize →
        Missing src p u ((missing.entries.take (start + sourceChunkSize)).filter keep) := by
      intro hshort
      refine ⟨fun e he => htake _ he, fun hids => ?_⟩
      have hsub : (missing.entries.drop start).take sourceChunkSize ⊆ missing.entries := fun e he =>
        List.mem_of_mem_drop (List.mem_of_mem_take he)
      rw [hscores, hall hids _ hsub, List.length_take, List.length_drop] at hshort
      rw [hall hids _ fun e he => List.mem_of_mem_take he, List.take_of_length_le (by omega)]
    rw [← hscores] at hpage
    refine wpCut_ite (fun hnil => ?_) fun hnil => ?_
    · refine ⟨p', u', hy₁, _, hend ?_, ?_⟩
      · rw [hnil, List.length_nil, sourceChunkSize]
        omega
      · rw [← hpage, hnil, List.append_nil]
        exact hfiled.mono hsuffix₁.isInfix
    refine wpCut_bind_of (recorded_of (Or.inr (renews_renewWorkingSet.halts _))
      (sheltering_of_writes (guards_working hk hsplit') (renews_renewWorkingSet.writes _) hy₁)) ?_
    rintro _ y₂ ⟨hy₂, hsuffix₂⟩
    have hnodup : ((missing.entries.take (start + sourceChunkSize)).filter keep).map Prod.fst |>.Nodup :=
      ((List.filter_sublist.trans (List.take_sublist _ _)).map _).nodup missing.nodup
    rw [← hpage, List.map_append, List.nodup_append] at hnodup
    obtain ⟨-, hnodup', hdisjoint⟩ := hnodup
    have hnew : ∀ e ∈ scores, e.1 ∉ p' ∧ e.1 ∉ u' := by
      intro e he
      have hin : e ∈ missing.entries := by
        rw [hscores] at he
        exact List.mem_of_mem_drop (List.mem_of_mem_take (List.mem_of_mem_filter he))
      have hmem := (mem_diffStore.mp (List.mem_map_of_mem hin : e.1 ∈ missing)).2
      have hnot : e.1 ∉ ((missing.entries.take start).filter keep).map Prod.fst := fun h =>
        hdisjoint e.1 h e.1 (List.mem_map_of_mem he) rfl
      rw [mem_congr (hfiled.projection _ hnot), mem_congr (hfiled.unresolved _ hnot)]
      exact ⟨hmem p (by simp), hmem u (by simp)⟩
    refine wpCut_bind_of (wpCut_of_halts (fun c y => answers_exec c y.1)
      (Or.inr (halting_hydrateAndStore index renews_renewWorkingSet)) (recorded_hydrateAndStore index
        renews_renewWorkingSet (fun k' (h : k' = k) => h.symm ▸ hk) hsplit' hnodup' hnew hy₂)) ?_
    rintro _ y₃ ⟨p'', u'', hy₃, hfiled', hsuffix₃⟩
    have hdone := (hfiled.mono (hsuffix₁.trans hsuffix₂).isInfix).append hfiled' hsuffix₃.isInfix
      fun e he h => hdisjoint e.1 (List.mem_map_of_mem he) e.1 h rfl
    rw [hpage] at hdone
    show Sum.elim _ _ (if scores.length < sourceChunkSize then _ else _)
    split
    · exact ⟨p'', u'', hy₃, _, hend ‹_›, hdone⟩
    · refine ⟨_, ?_, rfl, p'', u'', hy₃, hdone⟩
      have hlength : scores.length ≤ missing.entries.length - start := by
        rw [hscores]
        refine (List.length_filter_le _ _).trans ?_
        rw [List.length_take, List.length_drop]
        exact min_le_right _ _
      have hpos := List.length_pos_iff.mpr hnil
      rw [sourceChunkSize]
      omega
  · rw [List.take_zero, List.filter_nil]
    exact .nil _ p u

/-- `addMissingJobs` files the references of the snapshot that are in neither set. -/
theorem recorded_addMissingJobs (index : RetainedJobIndex) (hsplit : ∀ id ∈ p, id ∉ u)
    (hfuel : cut ∨ src.card < index.fuel) (hx : Rests t g source i src p u x.1) :
    wpCut cut (recording (exec scan i)) (recordedSheltering t g source scan i)
      (index.addMissingJobs (some (t, g)) t token source)
      (fun n y => ∃ p' u', Rests t g source i src p' u' y.1 ∧ (∀ id ∈ p', id ∉ u') ∧
        n = (diffStore [src, p, u]).card ∧ ∃ done, Missing src p u done ∧ Filed y.2 done p u p' u')
      (Thrown t g) x := by
  refine recorded_withTemporaryKey (F := fun n h p' u' =>
    n = (diffStore [src, p, u]).card ∧ ∃ done, Missing src p u done ∧ Filed h done p u p' u') hsplit
    (fun hh h => ⟨h.1, h.2.imp fun _ h => ⟨h.1, h.2.mono hh.isInfix⟩⟩)
    (fun k y hk hne hy hsuffix => ?_) hx
  simp only [projectionKey_working, unresolvedKey_working, Prog.ret_bind]
  set missing := diffStore [src, p, u] with hmissing
  have hkeys : ∀ s, Rests t g source i src p u s →
      [SortedSetKey.temporary source.key, .projection t g, .unresolved t g].map s.zset =
        [src, p, u] := fun s hs => by
    rw [List.map_cons, List.map_cons, List.map_singleton, hs.projection, hs.unresolved, hs.snapshot]
  refine wpCut_bind_of (recorded_of (Or.inr halting_difference)
    (sheltering_difference hk hne hsplit hkeys hy)) ?_
  rintro _ y₁ ⟨⟨rfl, hy₁⟩, -⟩
  refine wpCut_bind_of (recorded_of (Or.inr (Halts.ifThen (renews_renewWorkingSet.halts _)))
    (sheltering_of_writes (guards_working hk hsplit)
      (Writes.ifThen (renews_renewWorkingSet.writes _)) hy₁)) ?_
  rintro _ y₂ ⟨hy₂, -⟩
  refine wpCut_bind_of (recorded_fileMissing index hk hsplit hfuel hy₂) ?_
  rintro _ y₃ ⟨p', u', hy₃, done, hdone, hfiled⟩
  exact ⟨_, p', u', hy₃, hfiled.split hsplit, rfl, done, hdone, hfiled⟩

end Recorded

/-! ## Reconciling -/

/-- What `reconcileProjection` does up to its count test: whether the removal is to run, and the number
of unresolved references counted before. -/
def removalTest (index : RetainedJobIndex) (working : Working) (t : RetainedJobType)
    (lockToken : Token) (source : SourceSnapshot) : Redis (Bool × ℕ) := do
  let sourceCount ← sortedSetCount (.temporary source.key)
  let projectionCount ← sortedSetCount (← projectionKey working t)
  let unresolvedCount ← sortedSetCount (← unresolvedKey working t)
  let missingCount ← index.addMissingJobs working t lockToken source
  return (decide (sourceCount < projectionCount + unresolvedCount + missingCount), unresolvedCount)

/-- The reconciliation as a test and the two removals. -/
theorem reconcileProjection_eq (index : RetainedJobIndex) (working : Working) :
    index.reconcileProjection working t token source = (do
      let test ← index.removalTest working t token source
      if test.1 then
        index.removeStaleJobs working t token source
        if 0 < test.2 then
          index.removeStaleUnresolvedReferences working t token source) := by
  simp only [reconcileProjection, removalTest, bind_assoc, pure_bind, decide_eq_true_eq]

/-- The outcome of a reconciliation of the sets `p` and `u` with the snapshot `src`: the new sets are
apart and lie within the snapshot, what was in neither set is filed, and the other members of the snapshot
are where they were. -/
structure Reconciled (history : List (Command × Store)) (src p u p' u' : ZSet) : Prop where
  split : ∀ id ∈ p', id ∉ u'
  within : ∀ id, id ∈ p' ∨ id ∈ u' → id ∈ src
  filed : ∀ id x, src.score id = some x → id ∉ p → id ∉ u → FiledAs history (id, x) p' u'
  kept : ∀ id ∈ src, id ∈ p ∨ id ∈ u → p'.score id = p.score id ∧ u'.score id = u.score id

section Outcome

variable {p' u' p'' u'' : ZSet} {history history' : List (Command × Store)}
  {done : List (String × ℚ)}

/-- The missing jobs are those of the source that are neither projected nor unresolved. -/
theorem mem_missing {e : String × ℚ} : e ∈ (diffStore [src, p, u]).entries ↔
    src.score e.1 = some e.2 ∧ e.1 ∉ p ∧ e.1 ∉ u := by
  rw [← SortedSet.score_eq_some_iff, score_diffStore]
  simp only [List.mem_cons, List.not_mem_nil, or_false, forall_eq_or_imp, forall_eq]
  by_cases h : e.1 ∉ p ∧ e.1 ∉ u <;> simp [h]

/-- A member outside the snapshot was there before the missing references were filed. -/
theorem Missing.outside {id : String} (hdone : Missing src p u done) (hid : id ∉ src) :
    id ∉ done.map Prod.fst := by
  intro hmem
  obtain ⟨e, he, rfl⟩ := List.mem_map.mp hmem
  exact hid (SortedSet.mem_of_score (mem_missing.mp (hdone.1 e he)).1)

/-- **The count test** is true exactly where one of the sets has a member outside the snapshot. -/
theorem count_test (hsplit : ∀ id ∈ p, id ∉ u) :
    src.card < p.card + u.card + (diffStore [src, p, u]).card ↔
      ∃ id, (id ∈ p ∨ id ∈ u) ∧ id ∉ src :=
  SortedSet.card_lt_iff hsplit fun id => by
    rw [mem_diffStore]
    simp

/-- The sets after the removal of what is not in the snapshot. -/
theorem reconciled_of_filed (hsplit : ∀ id ∈ p, id ∉ u) (hfiled : Filed history done p u p' u')
    (hdone : done = (diffStore [src, p, u]).entries) (hhistory : history <:+: history')
    (hp : ∀ id ∈ src, p''.score id = p'.score id) (hp' : ∀ id ∈ p'', id ∈ src)
    (hu : ∀ id ∈ src, u''.score id = u'.score id) (hu' : ∀ id ∈ u'', id ∈ src) :
    Reconciled history' src p u p'' u'' := by
  refine ⟨fun id hid hmem => ?_, fun id hid => hid.elim (hp' id) (hu' id), ?_, ?_⟩
  · rw [mem_congr (hu id (hp' id hid))] at hmem
    rw [mem_congr (hp id (hp' id hid))] at hid
    exact hfiled.split hsplit id hid hmem
  · intro id x hx hnp hnu
    have hin : (id, x) ∈ done := by
      rw [hdone]
      exact mem_missing.mpr ⟨hx, hnp, hnu⟩
    have hsrc := SortedSet.mem_of_score hx
    exact (hfiled.filed _ hin).congr hhistory (hp id hsrc) (hu id hsrc)
  · intro id hsrc hmem
    have hnot : id ∉ done.map Prod.fst := by
      rw [hdone]
      intro h
      obtain ⟨e, he, rfl⟩ := List.mem_map.mp h
      obtain ⟨-, hnp, hnu⟩ := mem_missing.mp he
      exact hmem.elim hnp hnu
    exact ⟨(hp id hsrc).trans (hfiled.projection id hnot), (hu id hsrc).trans (hfiled.unresolved id hnot)⟩

/-- Erasing the stale members keeps the scores of the retained ones. -/
theorem score_eraseAll_stale {id : String} (hid : id ∈ src) :
    (p.eraseAll (diffStore [p, src]).members).score id = p.score id := by
  rw [SortedSet.score_eraseAll, if_neg]
  intro hmem
  exact (mem_diffStore.mp hmem).2 src (by simp) hid

/-- What is left without the stale members is retained. -/
theorem mem_of_eraseAll_stale {id : String} (h : id ∈ p.eraseAll (diffStore [p, src]).members) :
    id ∈ src := by
  obtain ⟨hnot, hid⟩ := SortedSet.mem_eraseAll.mp h
  by_contra hsrc
  exact hnot (mem_diffStore.mpr ⟨hid, by simpa using hsrc⟩)

/-- Filing the missing references leaves no more stale members than there were. -/
theorem card_stale_le {q q' : ZSet} (h : ∀ id ∈ q', id ∉ src → id ∈ q) :
    (diffStore [q', src]).card ≤ q.card := by
  rw [SortedSet.card_eq_members_card, SortedSet.card_eq_members_card]
  refine Finset.card_le_card fun id hid => ?_
  rw [List.mem_toFinset] at hid ⊢
  obtain ⟨hin, hout⟩ := mem_diffStore.mp hid
  exact h id hin (hout src (by simp))

end Outcome

section Recorded

variable {x : Recorded Command Store}

/-- The test is the one on the sets as they were at the start. -/
theorem recorded_removalTest (index : RetainedJobIndex) (hsplit : ∀ id ∈ p, id ∉ u)
    (hfuel : cut ∨ src.card < index.fuel) (hx : Rests t g source i src p u x.1) :
    wpCut cut (recording (exec scan i)) (recordedSheltering t g source scan i)
      (index.removalTest (some (t, g)) t token source)
      (fun test y => ∃ p' u', Rests t g source i src p' u' y.1 ∧ (∀ id ∈ p', id ∉ u') ∧
        (test.1 = true ↔ ∃ id, (id ∈ p ∨ id ∈ u) ∧ id ∉ src) ∧ test.2 = u.card ∧
          ∃ done, Missing src p u done ∧ Filed y.2 done p u p' u') (Thrown t g) x := by
  rw [removalTest]
  simp only [projectionKey_working, unresolvedKey_working, Prog.ret_bind]
  have hreads : ∀ (k : SortedSetKey) (y : Recorded Command Store),
      Rests t g source i src p u y.1 →
        wpCut cut (recording (exec scan i)) (recordedSheltering t g source scan i) (sortedSetCount k)
          (fun n y => n = (y.1.zset k).card ∧ Rests t g source i src p u y.1) (Thrown t g) y := by
    intro k y hy
    exact wpCut_mono (fun n y h => h.1) (fun _ _ h => h) (recorded_of (Or.inr halting_command)
      ((reads_sheltering (guards_rests hsplit)).command (c := .zcard k) (fun _ => rfl) hy))
  refine wpCut_bind_of (hreads _ x hx) ?_
  rintro _ y₁ ⟨rfl, hy₁⟩
  refine wpCut_bind_of (hreads _ y₁ hy₁) ?_
  rintro _ y₂ ⟨rfl, hy₂⟩
  refine wpCut_bind_of (hreads _ y₂ hy₂) ?_
  rintro _ y₃ ⟨rfl, hy₃⟩
  rw [hy₁.snapshot, hy₂.projection, hy₃.unresolved]
  refine wpCut_bind_of (recorded_addMissingJobs index hsplit hfuel hy₃) ?_
  rintro n y₄ ⟨p', u', hy₄, hsplit', rfl, hfiled⟩
  exact ⟨p', u', hy₄, hsplit', decide_eq_true_iff.trans (count_test hsplit), rfl, hfiled⟩

/-- **Reconciliation** of the sets of a slot with a snapshot. -/
theorem recorded_reconcileProjection (index : RetainedJobIndex) (hsplit : ∀ id ∈ p, id ∉ u)
    (hfuel : cut ∨ (src.card < index.fuel ∧ p.card < index.fuel ∧ u.card < index.fuel ∧
      scan.pages ≤ index.fuel)) (hx : Rests t g source i src p u x.1) :
    wpCut cut (recording (exec scan i)) (recordedSheltering t g source scan i)
      (index.reconcileProjection (some (t, g)) t token source)
      (fun _ y => ∃ p' u', Rests t g source i src p' u' y.1 ∧ (∀ id ∈ p', id ∉ u') ∧
        ((∀ id ∈ src, isIntegerKey id = false) → Reconciled y.2 src p u p' u')) (Thrown t g) x := by
  rw [reconcileProjection_eq]
  refine wpCut_bind_of (recorded_removalTest index hsplit (hfuel.imp_right fun h => h.1) hx) ?_
  rintro ⟨test, count⟩ y ⟨p', u', hy, hsplit', htest, hcount, done, hdone, hfiled⟩
  -- Filing only touches the ids of the snapshot.
  have hout : ∀ id, id ∉ src → (id ∈ p' ↔ id ∈ p) ∧ (id ∈ u' ↔ id ∈ u) := fun id hid =>
    ⟨mem_congr (hfiled.projection id (hdone.outside hid)),
      mem_congr (hfiled.unresolved id (hdone.outside hid))⟩
  refine wpCut_ite (fun hremove => ?_) fun hkeep => ?_
  swap
  · -- Nothing is outside the snapshot.
    have hin : ∀ id, id ∈ p ∨ id ∈ u → id ∈ src := fun id hid => by
      by_contra hnot
      exact hkeep (htest.mpr ⟨id, hid, hnot⟩)
    refine ⟨p', u', hy, hsplit', fun hids => reconciled_of_filed hsplit hfiled (hdone.2 hids)
      (List.infix_refl _) (fun _ _ => rfl) (fun id hid => ?_) (fun _ _ => rfl) fun id hid => ?_⟩
    · by_contra hnot
      exact hnot (hin id (Or.inl ((hout id hnot).1.mp hid)))
    · by_contra hnot
      exact hnot (hin id (Or.inr ((hout id hnot).2.mp hid)))
  have hstale : cut ∨ (diffStore [p', src]).card < index.fuel := hfuel.imp_right fun h =>
    (card_stale_le fun id hid hnot => (hout id hnot).1.mp hid).trans_lt h.2.1
  refine wpCut_bind_of (recorded_removeStaleJobs index hsplit' hstale
    (hfuel.imp_right fun h => h.2.2.2) hy) ?_
  rintro _ y₁ ⟨p'', u'', hy₁, hsplit'', hp'', hu'', hsuffix₁⟩
  subst u''
  refine wpCut_ite (fun hpos => ?_) fun hzero => ?_
  · have hstale' : cut ∨ (diffStore [u', src]).card < index.fuel := hfuel.imp_right fun h =>
      (card_stale_le fun id hid hnot => (hout id hnot).2.mp hid).trans_lt h.2.2.1
    refine wpCut_mono (fun _ y₂ h => ?_) (fun _ _ h => h)
      (recorded_removeStaleUnresolvedReferences index hsplit'' hstale' hy₁)
    obtain ⟨p₂, u₂, hy₂, hsplit₂, rfl, hu₂, hsuffix₂⟩ := h
    refine ⟨_, _, hy₂, hsplit₂, fun hids => reconciled_of_filed hsplit hfiled (hdone.2 hids)
      (hsuffix₁.trans hsuffix₂).isInfix ?_ ?_ ?_ ?_⟩
    · exact fun id hid => by rw [hp'', score_eraseAll_stale hid]
    · exact fun id hid => mem_of_eraseAll_stale (hp'' ▸ hid)
    · exact fun id hid => by rw [hu₂, score_eraseAll_stale hid]
    · exact fun id hid => mem_of_eraseAll_stale (hu₂ ▸ hid)
  · -- There were no unresolved references, so those filed are the only ones.
    have hempty : ∀ id, id ∉ u := by
      rw [← SortedSet.card_eq_zero_iff, ← hcount]
      exact Nat.eq_zero_of_not_pos hzero
    refine ⟨p'', u', hy₁, hsplit'', fun hids => reconciled_of_filed hsplit hfiled (hdone.2 hids)
      hsuffix₁.isInfix ?_ ?_ (fun _ _ => rfl) fun id hid => ?_⟩
    · exact fun id hid => by rw [hp'', score_eraseAll_stale hid]
    · exact fun id hid => mem_of_eraseAll_stale (hp'' ▸ hid)
    · by_contra hnot
      exact hempty id ((hout id hnot).2.mp hid)

end Recorded

end RetainedJobIndex

end HorizonNewDawn

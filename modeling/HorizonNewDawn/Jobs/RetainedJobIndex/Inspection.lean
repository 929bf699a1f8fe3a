import HorizonNewDawn.Jobs.RetainedJobIndex.Footprint
import HorizonNewDawn.Jobs.RetainedJobIndex.Slots
import HorizonNewDawn.Program.Fence
import HorizonNewDawn.Program.History

/-! # The retained-job index: inspecting the published generation

A reader of the published generation takes no lock. It compares the published state before and
after it reads, so that what it has read belongs to one generation (`fence`). In between it
intersects a snapshot of the source with the projection (`inspectableSourceSnapshot`) and counts the
members of the snapshot in the facets of the values the catalogs list (`availableCatalogValues`). -/

namespace HorizonNewDawn

open Program

namespace RetainedJobIndex

/-! ## The programs -/

/-- `synchronizationRevision` -/
def synchronizationRevision (t : RetainedJobType) : Redis (Option PublishedState) := publishedState t

/-- `synchronizationIsActive` -/
def synchronizationIsActive (t : RetainedJobType) : Redis Bool := do
  let holder : Option Token ← command (.getLock t)
  return holder.isSome

/-- The members of a source snapshot that are projected, with the count recorded for them; nothing
where the projection and the unresolved references do not cover the snapshot. -/
def inspectableSourceSnapshot (t : RetainedJobType) (retained : SourceSnapshot) :
    ScopedRedis (Option SourceSnapshot) := do
  let sourceSnapshotKey ← Scoped.lift temporaryKey
  let coverageGapKey ← Scoped.lift temporaryKey
  Scoped.register sourceSnapshotKey
  Scoped.register coverageGapKey
  Scoped.lift do
    transaction none fun g =>
      [intersect sourceSnapshotKey [(.temporary retained.key, 1), (.projection t (g t), 0)],
        .zdiffstore (.temporary coverageGapKey)
          [.temporary retained.key, .projection t (g t), .unresolved t (g t)],
        expireTemporary sourceSnapshotKey temporaryKeyTtlSeconds,
        expireTemporary coverageGapKey temporaryKeyTtlSeconds]
    if (← sortedSetCount (.temporary coverageGapKey)) ≠ 0 then return none
    return some ⟨sourceSnapshotKey, ← sortedSetCount (.temporary sourceSnapshotKey)⟩

/-- The writes that intersect a snapshot with the facets of some values. -/
def storeMemberships (t : RetainedJobType) (g : Generation) (d : FacetDimension)
    (source : SourceSnapshot) (memberships : List (String × Token)) : List Write :=
  memberships.flatMap fun e =>
    [intersect e.2 [(.temporary source.key, 1), (.facet t g d e.1, 0)],
      expireTemporary e.2 temporaryKeyTtlSeconds]

/-- How many members of a snapshot are in the facet of each value. -/
def facetCountsWithinSnapshot (t : RetainedJobType) (d : FacetDimension) (values : List String)
    (source : SourceSnapshot) : Redis (List ℕ) := do
  let membershipKeys ← Prog.collect values fun _ => temporaryKey
  Prog.tryFinally
    (do
      transaction none fun g => storeMemberships t (g t) d source (values.zip membershipKeys)
      let counts ← pipeline none (membershipKeys.map .temporary) sortedSetCount
      if counts.length ≠ values.length then
        throwRuntime "The retained job facets could not be queried."
      return counts)
    (Prog.forEach membershipKeys deleteQuietly)

/-- The values among some values of a catalog that a member of the snapshot has, behind the ones
found before. -/
def appendAvailable (t : RetainedJobType) (d : FacetDimension) (source : SourceSnapshot)
    (available values : List String) : Redis (List String) := do
  renewSourceSnapshot source
  let counts ← facetCountsWithinSnapshot t d values source
  return available ++ ((values.zip counts).filter fun e => e.2 ≠ 0).map Prod.fst

/-- The values of a catalog that a member of the snapshot has, as the catalog is scanned. -/
def availableCatalogValues (index : RetainedJobIndex) (t : RetainedJobType) (d : FacetDimension)
    (source : SourceSnapshot) : Redis (List String) := do
  let catalog ← catalogKey none t d
  Prog.iterate index.fuel (fun state => do
    let result : ℕ × List String ← command (.sscan catalog state.1)
    let available ← Prog.fold (appendAvailable t d source) state.2
      (result.2.arrayChunk catalogScanChunkSize)
    return if result.1 = 0 then .inr available else .inl (result.1, available)) (0, [])

/-- One recorded command: the connection fails, or the command answers, has its effect and is
recorded with the store it was sent in. -/
theorem wp_command_recording {scan : ScanOrder} {i : ProcessId}
    {D : Discipline Command Section Store} {c : Command}
    {Q : c.Answer → Recorded Command Store → Prop} {E : Failure → Recorded Command Store → Prop}
    {x : Recorded Command Store}
    (h : ∀ s, D.rely [] x.1 s → D.assume [] c s → D.ok [] c s ∧
      (s.failing = true → E .connection ({ s with failing := false }, (c, s) :: x.2)) ∧
      (s.failing = false → Q (c.answer scan i s) (c.effect i s, (c, s) :: x.2))) :
    wp (recording (exec scan i)) D.recorded (command c) Q E x := by
  rintro ⟨s, history⟩ ⟨hr, hhistory⟩ ha
  obtain rfl : history = x.2 := hhistory
  obtain ⟨hok, hfail, hanswer⟩ := h s hr ha
  refine ⟨hok, ?_⟩
  cases hs : s.failing
  · simpa [recording, exec, hs] using hanswer hs
  · simpa [recording, exec, hs] using hfail hs

/-! ## Published states that never come back -/

/-- The state the legacy revision stands for. -/
def legacyState (t : RetainedJobType) (s : Store) : Option PublishedState :=
  (s.revision t).map (⟨.legacy, ·⟩)

variable {rank : Option PublishedState → ℕ} {i : ProcessId} {t : RetainedJobType}
  {s s' : Store} {scan : ScanOrder} {state : Option PublishedState}

/-- What the others do to the index of a type while the process `i` reads it: a published state
is replaced by newer ones only, since every publication draws a revision, and while it stays the
published slot stays as it is. The temporary keys of the process are left alone. -/
structure Advances (rank : Option PublishedState → ℕ) (i : ProcessId) (t : RetainedJobType)
    (s s' : Store) : Prop where
  state : s'.publishedState t = s.publishedState t ∧ SameSlot t (s.publishedGeneration t) s s' ∨
    rank (s.publishedState t) < rank (s'.publishedState t)
  legacy : rank (legacyState t s) ≤ rank (legacyState t s')
  temporary : ∀ n, s'.zset (.temporary ⟨i, n⟩) = s.zset (.temporary ⟨i, n⟩)
  serial : s'.serial i = s.serial i

/-- What the others do while the published state stays. -/
structure SlotKept (rank : Option PublishedState → ℕ) (i : ProcessId) (t : RetainedJobType)
    (s s' : Store) : Prop extends Advances rank i t s s' where
  same : s'.publishedState t = s.publishedState t
  slot : SameSlot t (s.publishedGeneration t) s s'

/-- The legacy revision is not newer than a state that is published. -/
def Settled (rank : Option PublishedState → ℕ) (t : RetainedJobType) (s : Store) : Prop :=
  ∀ p, s.published t = some p →
    legacyState t s = some p ∨ rank (legacyState t s) < rank (some p)

/-- The published state tells the published generation. -/
theorem publishedGeneration_of_state (h : s'.publishedState t = s.publishedState t) :
    s'.publishedGeneration t = s.publishedGeneration t := by
  rw [Store.publishedGeneration, Store.publishedGeneration, h]

/-- A store advances to itself. -/
theorem Advances.refl (s : Store) : Advances rank i t s s :=
  ⟨Or.inl ⟨rfl, .refl s⟩, le_rfl, fun _ => rfl, rfl⟩

/-- Advances may be taken one after the other. -/
theorem Advances.trans {s'' : Store} (h : Advances rank i t s s') (h' : Advances rank i t s' s'') :
    Advances rank i t s s'' := by
  refine ⟨?_, h.legacy.trans h'.legacy, fun n => (h'.temporary n).trans (h.temporary n),
    h'.serial.trans h.serial⟩
  rcases h.state with ⟨hstate, hslot⟩ | hlt
  · rcases h'.state with ⟨hstate', hslot'⟩ | hlt'
    · rw [publishedGeneration_of_state hstate] at hslot'
      exact Or.inl ⟨hstate'.trans hstate, hslot.trans hslot'⟩
    · rw [hstate] at hlt'
      exact Or.inr hlt'
  · rcases h'.state with ⟨hstate', -⟩ | hlt'
    · rw [hstate']
      exact Or.inr hlt
    · exact Or.inr (hlt.trans hlt')

/-- A slot that is kept twice is kept. -/
theorem SlotKept.trans {s'' : Store} (h : SlotKept rank i t s s')
    (h' : SlotKept rank i t s' s'') : SlotKept rank i t s s'' := by
  have hslot := h'.slot
  rw [publishedGeneration_of_state h.same] at hslot
  exact ⟨h.toAdvances.trans h'.toAdvances, h'.same.trans h.same, h.slot.trans hslot⟩

/-- The circumstances of a reader. -/
def advancing (rank : Option PublishedState → ℕ) (i : ProcessId) (t : RetainedJobType) :
    Discipline Command Section Store where
  rely _ := Advances rank i t
  assume _ _ := Settled rank t
  ok _ _ _ := True
  rely_refl _ := .refl
  rely_trans _ _ _ _ := .trans

/-- The circumstances of a reader while the published state stays. -/
def undisturbed (rank : Option PublishedState → ℕ) (i : ProcessId) (t : RetainedJobType) :
    Discipline Command Section Store where
  rely _ := SlotKept rank i t
  assume _ _ := Settled rank t
  ok _ _ _ := True
  rely_refl _ s := ⟨.refl s, rfl, .refl s⟩
  rely_trans _ _ _ _ := .trans

/-- A published state that was read is not published any more. -/
def Stale (rank : Option PublishedState → ℕ) (t : RetainedJobType)
    (state : Option PublishedState) (s : Store) : Prop :=
  rank state < rank (s.publishedState t)

/-- A state that is out of date stays so. -/
theorem stable_stale : (advancing rank i t).Stable (Stale rank t state) := by
  intro _ s s' hr hs
  rcases Advances.state hr with ⟨hstate, -⟩ | hlt
  · rw [Stale, hstate]
    exact hs
  · exact hs.trans hlt

/-- A key that does not say which slot is published. -/
def Key.Unpublishing (t : RetainedJobType) (k : Key) : Prop := k ≠ .published t ∧ k ≠ .revision t

/-- **The fence**: until the published state is replaced for good the reader is not disturbed. -/
theorem fence : Fence (exec scan i) (undisturbed rank i t) (advancing rank i t)
    (Allows (Key.Unpublishing t)) (fun s => s.publishedState t = state) (Stale rank t state) where
  rely := by
    intro _ s s' hs hr
    rcases Advances.state hr with ⟨hstate, hslot⟩ | hlt
    · exact Or.inl ⟨⟨hr, hstate, hslot⟩, hstate.trans hs⟩
    · rw [hs] at hlt
      exact Or.inr hlt
  stale := stable_stale
  assume := fun _ _ _ h => h
  ok := fun _ _ _ _ => trivial
  keeps := by
    intro ls c s hc
    have hsame : (exec scan i c s).2.publishedState t = s.publishedState t :=
      Store.publishedState_congr (exec_sameAt fun hk => (hc _ hk).1 rfl)
        (exec_sameAt fun hk => (hc _ hk).2 rfl)
    refine ⟨fun hs => hsame.trans hs, fun hs => ?_⟩
    rw [Stale, hsame]
    exact hs

/-! ## Reading the published state -/

section Reading

variable {Φ : Store → Prop}

/-- Reads change nothing. -/
theorem reads_undisturbed (hΦ : (undisturbed rank i t).Stable Φ) :
    Reads scan i (undisturbed rank i t) Φ fun _ _ => True :=
  ⟨hΦ, fun _ _ _ _ _ => trivial, fun _ _ _ _ _ => trivial⟩

/-- A reader that is not disturbed reads the published state, although it looks at two keys. -/
theorem publishedState_undisturbed (hΦ : (undisturbed rank i t).Stable Φ)
    (hstate : ∀ s, Φ s → s.publishedState t = state) (hs : Φ s) :
    wp (exec scan i) (undisturbed rank i t) (publishedState t)
      (fun st s => st = state ∧ Φ s) (fun _ _ => True) s := by
  refine wp_bind_of ((reads_undisturbed hΦ).command (c := .getPublished t) (fun _ => rfl) hs)
    fun st s hst => ?_
  obtain ⟨rfl, hs⟩ := hst
  cases hp : s.published t with
  | some p =>
      simp only [Command.answer, hp, Prog.pure_eq_ret, wp_ret]
      have hps : s.publishedState t = some p := by rw [Store.publishedState, hp]; rfl
      exact ⟨hps.symm.trans (hstate s hs), hs⟩
  | none =>
      simp only [Command.answer, hp]
      have hlegacy : legacyState t s = state := by
        rw [← hstate s hs, Store.publishedState, hp]
        rfl
      -- The legacy revision may have been published meanwhile, but it is still the same.
      have hstable : (undisturbed rank i t).Stable fun s =>
          Φ s ∧ rank state ≤ rank (legacyState t s) :=
        fun ls s s' hr hs => ⟨hΦ ls s s' hr hs.1, hs.2.trans (Advances.legacy hr.toAdvances)⟩
      refine wp_bind.mpr (wp_command.mpr fun s' hr ha => ⟨trivial, fun _ => trivial, fun _ => ?_⟩)
      obtain ⟨hs', hle⟩ := hstable [] s s' hr ⟨hs, (congrArg rank hlegacy).ge⟩
      refine ⟨?_, hs'⟩
      show legacyState t s' = state
      have hps := hstate s' hs'
      cases hp' : s'.published t with
      | none =>
          rw [Store.publishedState, hp'] at hps
          exact hps
      | some p =>
          rw [Store.publishedState, hp'] at hps
          rcases ha p hp' with heq | hlt
          · exact heq.trans hps
          · have hrank : rank (some p) = rank state := congrArg rank hps
            omega

/-- What a reader takes for the published state is published, or is not published any more. -/
theorem publishedState_advancing :
    wp (exec scan i) (advancing rank i t) (publishedState t)
      (fun st s => s.publishedState t = st ∨ Stale rank t st s) (fun _ _ => True) s := by
  refine wp_bind.mpr (wp_command.mpr fun s' _ ha => ⟨trivial, fun _ => trivial, fun _ => ?_⟩)
  cases hp : s'.published t with
  | some p =>
      simp only [Command.answer, Command.effect, hp, Prog.pure_eq_ret, wp_ret]
      left
      rw [Store.publishedState, hp]
      rfl
  | none =>
      simp only [Command.answer, hp]
      refine wp_bind.mpr (wp_command.mpr fun s'' _ ha => ⟨trivial, fun _ => trivial, fun _ => ?_⟩)
      show s''.publishedState t = legacyState t s'' ∨ Stale rank t (legacyState t s'') s''
      cases hp' : s''.published t with
      | none =>
          left
          rw [Store.publishedState, hp']
          rfl
      | some p =>
          have hps : s''.publishedState t = some p := by rw [Store.publishedState, hp']; rfl
          rcases ha p hp' with heq | hlt
          · exact Or.inl (hps.trans heq.symm)
          · right
            rw [Stale, hps]
            exact hlt

/-- A reader that looks again once the state it has read is not published any more reads another
one. -/
theorem publishedState_stale (hs : Stale rank t state s) :
    wp (exec scan i) (advancing rank i t) (publishedState t) (fun st _ => st ≠ state)
      (fun _ _ => True) s := by
  refine wp_bind.mpr (wp_command.mpr fun s' hr ha => ⟨trivial, fun _ => trivial, fun _ => ?_⟩)
  have hs' : Stale rank t state s' := stable_stale [] s s' hr hs
  cases hp : s'.published t with
  | some p =>
      simp only [Command.answer, Command.effect, hp, Prog.pure_eq_ret, wp_ret]
      rintro rfl
      rw [Stale, Store.publishedState, hp] at hs'
      exact lt_irrefl _ hs'
  | none =>
      simp only [Command.answer, hp]
      refine wp_bind.mpr (wp_command.mpr fun s'' hr' _ => ⟨trivial, fun _ => trivial, fun _ => ?_⟩)
      show legacyState t s'' ≠ state
      rintro rfl
      have hle : rank (legacyState t s') ≤ rank (legacyState t s'') := Advances.legacy hr'
      rw [Stale, Store.publishedState, hp] at hs'
      exact absurd hs' (not_lt.mpr hle)

/-- The current generation is that of the published state. -/
theorem currentGeneration_undisturbed (hΦ : (undisturbed rank i t).Stable Φ)
    (hstate : ∀ s, Φ s → s.publishedState t = state) (t' : RetainedJobType) (hs : Φ s) :
    wp (exec scan i) (undisturbed rank i t) (currentGeneration none t')
      (fun g s => (t' = t → g = generationFromPublishedState state) ∧ Φ s) (fun _ _ => True) s := by
  by_cases ht : t' = t
  · subst ht
    refine wp_bind_of (publishedState_undisturbed hΦ hstate hs) fun st s hst => ?_
    obtain ⟨rfl, hs⟩ := hst
    exact ⟨fun _ => rfl, hs⟩
  · refine wp_bind_of ((reads_undisturbed hΦ).publishedState hs) fun _ s hs => ?_
    exact ⟨fun heq => absurd heq ht, hs⟩

/-- The generations resolved before a transaction name the published one. -/
theorem snapshot_undisturbed (hΦ : (undisturbed rank i t).Stable Φ)
    (hstate : ∀ s, Φ s → s.publishedState t = state) (hs : Φ s) :
    wp (exec scan i) (undisturbed rank i t) (withAtomicGenerationSnapshot none)
      (fun g s => g t = generationFromPublishedState state ∧ Φ s) (fun _ _ => True) s := by
  have hread : ∀ t' s, Φ s → wp (exec scan i) (undisturbed rank i t) (currentGeneration none t')
      (fun g s => (t' = t → g = generationFromPublishedState state) ∧ Φ s) (fun _ _ => True) s :=
    fun t' s hs => currentGeneration_undisturbed hΦ hstate t' hs
  refine wp_bind_of (hread .pending s hs) fun pending s hp => ?_
  refine wp_bind_of (hread .completed s hp.2) fun completed s hc => ?_
  refine wp_bind_of (hread .silenced s hc.2) fun silenced s hsil => ?_
  refine wp_bind_of (hread .failed s hsil.2) fun failed s hf => ⟨?_, hf.2⟩
  cases t with
  | pending => exact hp.1 rfl
  | completed => exact hc.1 rfl
  | silenced => exact hsil.1 rfl
  | failed => exact hf.1 rfl

/-- A transaction is done in a store the reader knows something about. -/
theorem transaction_undisturbed (hΦ : (undisturbed rank i t).Stable Φ)
    (hstate : ∀ s, Φ s → s.publishedState t = state) (hs : Φ s)
    {ws : (RetainedJobType → Generation) → List Write} :
    wp (exec scan i) (undisturbed rank i t) (transaction none ws)
      (fun _ s' => ∃ g s, g t = generationFromPublishedState state ∧ Φ s ∧ s' = s.writeAll (ws g))
      (fun _ _ => True) s := by
  refine wp_bind_of (snapshot_undisturbed hΦ hstate hs) fun g s hg => ?_
  refine wp_command.mpr fun s' hr _ => ⟨trivial, fun _ => trivial, fun _ => ?_⟩
  exact ⟨g, s', hg.1, hΦ [] s s' hr hg.2, rfl⟩

end Reading

/-! ## Counting the members of a snapshot -/

section Counting

variable {d : FacetDimension} {source : SourceSnapshot} {state : Option PublishedState}
  {at₁ : Store} {snap : ZSet}

/-- What a reader sees that is not disturbed: the slot published as `state` is as it was in the
store `at₁`, and its snapshot is where it was stored. -/
structure Viewing (i : ProcessId) (t : RetainedJobType) (state : Option PublishedState)
    (at₁ : Store) (source : SourceSnapshot) (snap : ZSet) (s : Store) : Prop where
  published : s.publishedState t = state
  slot : SameSlot t (generationFromPublishedState state) at₁ s
  snapshot : s.zset (.temporary source.key) = snap
  own : source.key.pid = i
  drawn : source.key.serial < s.serial i

/-- What is viewed stays in view. -/
theorem stable_viewing : (undisturbed rank i t).Stable (Viewing i t state at₁ source snap) := by
  intro ls s s' hr hs
  have hr : SlotKept rank i t s s' := hr
  have hslot := hr.slot
  rw [show s.publishedGeneration t = generationFromPublishedState state from
    congrArg generationFromPublishedState hs.published] at hslot
  refine ⟨hr.same.trans hs.published, hs.slot.trans hslot, ?_, hs.own, ?_⟩
  · have htemporary := hr.temporary source.key.serial
    rw [← hs.own] at htemporary
    exact htemporary.trans hs.snapshot
  · rw [hr.serial]
    exact hs.drawn

/-- A command that writes other temporary keys only leaves the view as it is. -/
theorem Viewing.effect {c : Command} (h : Viewing i t state at₁ source snap s)
    (hwrites : ∀ k ∈ c.writes, k.IsTemporary ∧ k ≠ .sortedSet (.temporary source.key)) :
    Viewing i t state at₁ source snap (c.effect i s) := by
  have hsame : ∀ k, ¬k.IsTemporary → s.SameAt (c.effect i s) k := fun k hk =>
    Command.effect_sameAt fun hmem => hk (hwrites k hmem).1
  refine ⟨?_, h.slot.trans (SameSlot.of_sameAt fun k hk => hsame k ?_), ?_, h.own, ?_⟩
  · exact (Store.publishedState_congr (hsame _ id) (hsame _ id)).trans h.published
  · rcases k with k | k | _ | _ | _ | _ | _ | _
    · cases k <;> first | exact id | exact hk.elim
    all_goals exact id
  · have hkey : s.SameAt (c.effect i s) (.sortedSet (.temporary source.key)) :=
      Command.effect_sameAt fun hmem => (hwrites _ hmem).2 rfl
    exact Eq.trans hkey h.snapshot
  · exact h.drawn.trans_le c.serial_le_effect

/-- A view is one of the published state. -/
theorem viewing_state : ∀ s, Viewing i t state at₁ source snap s → s.publishedState t = state :=
  fun _ h => h.published

/-- Reads leave the view as it is. -/
theorem reads_viewing : Reads scan i (undisturbed rank i t) (Viewing i t state at₁ source snap)
    fun _ _ => True := reads_undisturbed stable_viewing

/-- Fresh keys, drawn one after the other. -/
structure FreshKeys (i : ProcessId) (n : ℕ) (keys : List Token) (s : Store) : Prop where
  nodup : keys.Nodup
  own : ∀ k ∈ keys, k.pid = i
  drawn : ∀ k ∈ keys, n < k.serial ∧ k.serial < s.serial i

/-- A drawn key is the next one of the process. -/
theorem temporaryKey_undisturbed {Φ : Store → Prop} (hΦ : (undisturbed rank i t).Stable Φ)
    (hdraw : ∀ s, Φ s → Φ (Command.random.effect i s)) (hs : Φ s) :
    wp (exec scan i) (undisturbed rank i t) temporaryKey
      (fun k s' => k = ⟨i, s.serial i⟩ ∧ s'.serial i = s.serial i + 1 ∧ Φ s') (fun _ _ => True)
        s := by
  refine wp_command.mpr fun s' hr _ => ⟨trivial, fun _ => trivial, fun _ => ?_⟩
  have hserial : s'.serial i = s.serial i := Advances.serial hr.toAdvances
  refine ⟨?_, ?_, hdraw s' (hΦ [] s s' hr hs)⟩
  · rw [← hserial]
    rfl
  · simp [Command.effect, hserial]

/-- Drawing a key for every value. -/
theorem collect_temporaryKey {β : Type} (values : List β)
    (hs : Viewing i t state at₁ source snap s) :
    wp (exec scan i) (undisturbed rank i t) (Prog.collect values fun _ => temporaryKey)
      (fun keys s => keys.length = values.length ∧ FreshKeys i source.key.serial keys s ∧
        Viewing i t state at₁ source snap s) (fun _ _ => True) s := by
  have hloop : wp (exec scan i) (undisturbed rank i t)
      (Prog.collect values fun _ => temporaryKey) _ (fun _ _ => True) s :=
    wp_collect_nil (I := fun rest keys s => keys.length + rest.length = values.length ∧
      FreshKeys i source.key.serial keys s ∧ Viewing i t state at₁ source snap s) ?_ ?_
  · simpa using hloop
  · rintro value rest keys s ⟨hlength, hfresh, hview⟩
    have hdraw : ∀ s, Viewing i t state at₁ source snap s →
        Viewing i t state at₁ source snap (Command.random.effect i s) := fun s hs =>
      hs.effect fun k hk => absurd hk List.not_mem_nil
    refine wp_mono (fun k s' hk => ?_) (fun _ _ he => he)
      (temporaryKey_undisturbed stable_viewing hdraw hview)
    obtain ⟨rfl, hserial, hview'⟩ := hk
    refine ⟨?_, ⟨?_, fun k hk => ?_, fun k hk => ?_⟩, hview'⟩
    · rw [List.length_append, List.length_singleton, ← hlength, List.length_cons]
      omega
    · rw [List.nodup_append]
      refine ⟨hfresh.nodup, List.nodup_singleton _, fun k hk k' hk' heq => ?_⟩
      rw [List.mem_singleton.mp hk'] at heq
      have hlt := (hfresh.drawn k hk).2
      rw [heq] at hlt
      exact lt_irrefl _ hlt
    · rcases List.mem_append.mp hk with hk | hk
      · exact hfresh.own k hk
      · rw [List.mem_singleton.mp hk]
    · rw [hserial]
      rcases List.mem_append.mp hk with hk | hk
      · obtain ⟨hlow, hhigh⟩ := hfresh.drawn k hk
        omega
      · rw [List.mem_singleton.mp hk]
        exact ⟨hview.drawn, Nat.lt_succ_self _⟩
  · refine ⟨by simp, ⟨List.nodup_nil, fun k hk => ?_, fun k hk => ?_⟩, hs⟩
    · exact absurd hk List.not_mem_nil
    · exact absurd hk List.not_mem_nil

/-- The keys of a block that stores memberships. -/
theorem key_storeMemberships {g : Generation} {memberships : List (String × Token)} {w : Write}
    (hw : w ∈ storeMemberships t g d source memberships) :
    ∃ e ∈ memberships, w.key = .sortedSet (.temporary e.2) := by
  obtain ⟨e, he, hw⟩ := List.mem_flatMap.mp hw
  refine ⟨e, he, ?_⟩
  rcases List.mem_cons.mp hw with rfl | hw
  · rfl
  · rw [List.mem_singleton.mp hw]
    rfl

/-- What a block that stores memberships stores. -/
theorem zset_storeMemberships {g : Generation} {memberships : List (String × Token)}
    (hnodup : (memberships.map Prod.snd).Nodup)
    (hsource : ∀ e ∈ memberships, e.2 ≠ source.key) :
    ∀ e ∈ memberships,
      (s.writeAll (storeMemberships t g d source memberships)).zset (.temporary e.2) =
        interStore [(s.zset (.temporary source.key), 1), (s.zset (.facet t g d e.1), 0)] := by
  induction memberships generalizing s with
  | nil => exact fun e he => absurd he List.not_mem_nil
  | cons m memberships ih =>
      rw [List.map_cons, List.nodup_cons] at hnodup
      have hsplit : s.writeAll (storeMemberships t g d source (m :: memberships)) =
          (s.setZset (.temporary m.2) (interStore [(s.zset (.temporary source.key), 1),
            (s.zset (.facet t g d m.1), 0)])).writeAll
              (storeMemberships t g d source memberships) := rfl
      intro e he
      rw [hsplit]
      rcases List.mem_cons.mp he with rfl | he
      · -- The keys are distinct, so the rest of the block leaves this one alone.
        have hrest : (s.setZset (.temporary e.2) (interStore [(s.zset (.temporary source.key), 1),
              (s.zset (.facet t g d e.1), 0)])).SameAt
            (Store.writeAll _ (storeMemberships t g d source memberships))
            (.sortedSet (.temporary e.2)) :=
          Store.sameAt_writeAll_of_keys fun w hw heq => ?_
        · refine Eq.trans hrest ?_
          rw [Store.setZset_zset, if_pos rfl]
        · obtain ⟨e', he', hkey⟩ := key_storeMemberships hw
          rw [hkey, Key.sortedSet.injEq, SortedSetKey.temporary.injEq] at heq
          exact hnodup.1 (heq ▸ List.mem_map_of_mem he')
      · have hne : source.key ≠ m.2 := (hsource m List.mem_cons_self).symm
        rw [ih hnodup.2 (fun e he => hsource e (List.mem_cons_of_mem m he)) e he,
          Store.setZset_zset, Store.setZset_zset, if_neg (by simpa using hne), if_neg (by simp)]

/-- The number of members of the snapshot in the facet of a value. -/
def membershipCount (t : RetainedJobType) (state : Option PublishedState) (d : FacetDimension)
    (at₁ : Store) (snap : ZSet) (value : String) : ℕ :=
  (interStore [(snap, 1), (at₁.zset (.facet t (generationFromPublishedState state) d value), 0)]).card

/-- The temporary keys of a process stay as they are while it only reads. -/
theorem stable_temporary {keys : List Token} (hown : ∀ k ∈ keys, k.pid = i) (before : Store) :
    (undisturbed rank i t).Stable fun s =>
      ∀ k ∈ keys, s.zset (.temporary k) = before.zset (.temporary k) := by
  intro ls s s' hr hs k hk
  have htemporary := Advances.temporary hr.toAdvances k.serial
  rw [← hown k hk] at htemporary
  exact htemporary.trans (hs k hk)

/-- **Counting**: a reader that is not disturbed counts the members of its snapshot in the facets
of the published slot. -/
theorem facetCountsWithinSnapshot_undisturbed (values : List String)
    (hs : Viewing i t state at₁ source snap s) :
    wp (exec scan i) (undisturbed rank i t) (facetCountsWithinSnapshot t d values source)
      (fun counts s => counts = values.map (membershipCount t state d at₁ snap) ∧
        Viewing i t state at₁ source snap s) (fun _ _ => True) s := by
  refine wp_bind_of (collect_temporaryKey values hs) fun keys s hkeys => ?_
  obtain ⟨hlength, hfresh, hs⟩ := hkeys
  have hzip : (values.zip keys).map Prod.snd = keys := List.map_snd_zip hlength.le
  have hmem : ∀ e ∈ values.zip keys, e.2 ∈ keys := fun e he => (List.of_mem_zip he).2
  have hne : ∀ k ∈ keys, k ≠ source.key := by
    rintro k hk rfl
    exact lt_irrefl _ (hfresh.drawn _ hk).1
  have hdelete : ∀ k ∈ keys, ∀ s, Viewing i t state at₁ source snap s →
      wp (exec scan i) (undisturbed rank i t) (deleteQuietly k)
        (fun _ => Viewing i t state at₁ source snap) (fun _ _ => True) s := by
    intro k hk s hs
    refine wp_tryCatch.mpr (wp_command.mpr fun s' hr _ => ?_)
    have hs' : Viewing i t state at₁ source snap s' := stable_viewing [] s s' hr hs
    refine ⟨trivial, fun _ => ?_, fun _ => hs'.effect fun k' hk' => ?_⟩
    · exact ⟨hs'.published, hs'.slot.trans ⟨rfl, fun _ _ => rfl, fun _ => rfl⟩, hs'.snapshot,
        hs'.own, hs'.drawn⟩
    · rw [List.mem_singleton.mp hk']
      refine ⟨trivial, fun heq => hne k hk ?_⟩
      rwa [Write.key, Key.sortedSet.injEq, SortedSetKey.temporary.injEq] at heq
  refine wp_tryFinally_of (Q := fun counts s =>
    counts = values.map (membershipCount t state d at₁ snap) ∧
      Viewing i t state at₁ source snap s) (E := fun _ _ => True) ?_ ?_ ?_
  · -- the intersections are stored in one transaction, in the published slot
    refine wp_bind_of (transaction_undisturbed stable_viewing viewing_state hs) fun _ s' hs' => ?_
    obtain ⟨g, s, hg, hs, rfl⟩ := hs'
    have hview : Viewing i t state at₁ source snap
        (s.writeAll (storeMemberships t (g t) d source (values.zip keys))) := by
      refine hs.effect (c := .write _) fun k hk => ?_
      obtain ⟨w, hw, rfl⟩ := List.mem_map.mp hk
      obtain ⟨e, he, hkey⟩ := key_storeMemberships (List.mem_filter.mp hw).1
      rw [hkey]
      refine ⟨trivial, fun heq => hne e.2 (hmem e he) ?_⟩
      rwa [Key.sortedSet.injEq, SortedSetKey.temporary.injEq] at heq
    set stored := s.writeAll (storeMemberships t (g t) d source (values.zip keys)) with hstore
    have hcard : ∀ e ∈ values.zip keys, (stored.zset (.temporary e.2)).card =
        membershipCount t state d at₁ snap e.1 := by
      intro e he
      have hzset : (s.writeAll (storeMemberships t (g t) d source (values.zip keys))).zset
          (.temporary e.2) = _ :=
        zset_storeMemberships (by rw [hzip]; exact hfresh.nodup)
          (fun e he => hne e.2 (hmem e he)) e he
      rw [hstore, hzset, hs.snapshot, hg, hs.slot.facet, membershipCount]
    have hviewing : (undisturbed rank i t).Stable (Viewing i t state at₁ source snap) :=
      stable_viewing
    have hstable := hviewing.and (stable_temporary hfresh.own stored)
    -- they are counted under their own keys, which nobody else writes
    refine wp_bind_of ((reads_undisturbed hstable).counts
      (n := fun k => (stored.zset k).card) ?_ ⟨hview, fun _ _ => rfl⟩) fun counts s' hcounts => ?_
    · rintro s' ⟨-, hkept⟩ k hk
      obtain ⟨key, hkey, rfl⟩ := List.mem_map.mp hk
      rw [hkept key hkey]
    · obtain ⟨rfl, hs', -⟩ := hcounts
      have hcounts : (keys.map SortedSetKey.temporary).map (fun k => (stored.zset k).card) =
          values.map (membershipCount t state d at₁ snap) := by
        rw [List.map_map]
        calc keys.map ((fun k => (stored.zset k).card) ∘ SortedSetKey.temporary)
            = (values.zip keys).map fun e => (stored.zset (.temporary e.2)).card := by
              conv_lhs => rw [← hzip, List.map_map]
              rfl
          _ = (values.zip keys).map fun e => membershipCount t state d at₁ snap e.1 :=
              List.map_congr_left hcard
          _ = values.map (membershipCount t state d at₁ snap) := by
              have hfst : (values.zip keys).map Prod.fst = values := List.map_fst_zip hlength.ge
              conv_rhs => rw [← hfst, List.map_map]
              rfl
      rw [hcounts, if_neg (by rw [List.length_map]; exact not_not.mpr rfl)]
      exact ⟨rfl, hs'⟩
  · rintro counts s ⟨hcounts, hs⟩
    -- deleting the keys leaves what was counted
    have hloop : wp (exec scan i) (undisturbed rank i t) (Prog.forEach keys deleteQuietly) _
        (fun _ _ => True) s :=
      wp_forEach (I := fun rest s => rest ⊆ keys ∧ Viewing i t state at₁ source snap s) ?_
        ⟨List.Subset.refl keys, hs⟩
    · exact wp_mono (fun _ s hs => ⟨hcounts, hs.2⟩) (fun _ _ he => he) hloop
    · rintro k rest s ⟨hsub, hs⟩
      exact wp_mono (fun _ s hs => ⟨fun k' hk' => hsub (List.mem_cons_of_mem k hk'), hs⟩)
        (fun _ _ he => he) (hdelete k (hsub List.mem_cons_self) s hs)
  · intro e s _
    exact wp_mono (fun _ _ h => h) (fun _ _ h => h)
      (Program.wp_trivial fun _ _ _ _ => trivial)

/-! ## Scanning the catalogs -/

/-- So does the renewal of the snapshot. -/
theorem renewSourceSnapshot_undisturbed {renewed : SourceSnapshot}
    (hs : Viewing i t state at₁ source snap s) :
    wp (exec scan i) (undisturbed rank i t) (renewSourceSnapshot renewed)
      (fun _ => Viewing i t state at₁ source snap) (fun _ _ => True) s := by
  refine wp_bind_of (Q := fun _ => Viewing i t state at₁ source snap) ?_ fun found s hs => ?_
  · refine wp_command.mpr fun s' hr _ => ⟨trivial, fun _ => trivial, fun _ => ?_⟩
    exact stable_viewing [] s s' hr hs
  · split
    · exact hs
    · split
      · exact hs
      · trivial

/-- Whether a member of the snapshot has a value, according to the facets. -/
def isAvailable (t : RetainedJobType) (state : Option PublishedState) (d : FacetDimension)
    (at₁ : Store) (snap : ZSet) (value : String) : Bool :=
  membershipCount t state d at₁ snap value ≠ 0

/-- Values with their counts, without those that count nothing. -/
theorem filter_zip_map {values : List String} {f : String → ℕ} :
    ((values.zip (values.map f)).filter fun e => e.2 ≠ 0).map Prod.fst =
      values.filter fun v => f v ≠ 0 := by
  induction values with
  | nil => rfl
  | cons v values ih =>
      rw [List.map_cons, List.zip_cons_cons]
      by_cases hv : f v = 0
      · rw [List.filter_cons_of_neg (by simpa using hv), List.filter_cons_of_neg (by simpa using hv),
          ih]
      · rw [List.filter_cons_of_pos (by simpa using hv), List.filter_cons_of_pos (by simpa using hv),
          List.map_cons, ih]

/-- **The values of one scan** are appended where a job of the snapshot has them. -/
theorem appendAvailable_undisturbed (available values : List String)
    (hs : Viewing i t state at₁ source snap s) :
    wp (exec scan i) (undisturbed rank i t) (appendAvailable t d source available values)
      (fun r s => r = available ++ values.filter (isAvailable t state d at₁ snap) ∧
        Viewing i t state at₁ source snap s) (fun _ _ => True) s := by
  refine wp_bind_of (renewSourceSnapshot_undisturbed hs) fun _ s hs => ?_
  refine wp_bind_of (facetCountsWithinSnapshot_undisturbed values hs) fun counts s hcounts => ?_
  obtain ⟨rfl, hs⟩ := hcounts
  refine ⟨?_, hs⟩
  rw [filter_zip_map]
  rfl

/-- **Scanning**: a reader that is not disturbed finds the available values in the order and as
often as the iteration over the catalog shows them. -/
theorem availableCatalogValues_undisturbed (index : RetainedJobIndex)
    (hs : Viewing i t state at₁ source snap s) :
    wp (exec scan i) (undisturbed rank i t) (availableCatalogValues index t d source)
      (fun values s => values = (scan.shown ⟨t, generationFromPublishedState state, d⟩
          (at₁.catalog ⟨t, generationFromPublishedState state, d⟩)).filter
            (isAvailable t state d at₁ snap) ∧
        Viewing i t state at₁ source snap s) (fun _ _ => True) s := by
  refine wp_bind_of (Q := fun k s => k = ⟨t, generationFromPublishedState state, d⟩ ∧
    Viewing i t state at₁ source snap s) ?_ fun k s hk => ?_
  · refine wp_bind_of (currentGeneration_undisturbed stable_viewing viewing_state t hs)
      fun g s hg => ⟨?_, hg.2⟩
    rw [hg.1 rfl]
  obtain ⟨rfl, hs⟩ := hk
  set k : CatalogKey := ⟨t, generationFromPublishedState state, d⟩ with hk
  -- The pages below the cursor have been looked through.
  refine wp_iterate (I := fun x s => x.1 < scan.pages ∧
    x.2 = ((List.range x.1).flatMap fun n => scan.page k n (at₁.catalog k)).filter
      (isAvailable t state d at₁ snap) ∧ Viewing i t state at₁ source snap s) ?_ index.fuel
    ⟨scan.pages_pos, rfl, hs⟩
  rintro ⟨n, found⟩ s ⟨hn, hfound, hs⟩
  refine wp_bind_of (reads_viewing.command (c := .sscan k n) (fun _ => rfl) hs) fun result s hr => ?_
  obtain ⟨rfl, hs⟩ := hr
  have hpage : (Command.answer scan i s (.sscan k n) : ℕ × List String) =
      (scan.nextCursor n, scan.page k n (at₁.catalog k)) := by
    rw [← hs.slot.catalog d]
    rfl
  rw [hpage]
  refine wp_bind_of (wp_fold (I := fun rest r s => r ++ rest.flatten.filter
    (isAvailable t state d at₁ snap) = found ++ (scan.page k n (at₁.catalog k)).filter
      (isAvailable t state d at₁ snap) ∧ Viewing i t state at₁ source snap s) ?_ ⟨?_, hs⟩)
    fun r s hr => ?_
  · rintro values rest r s ⟨hr, hs⟩
    refine wp_mono (fun r' s hr' => ⟨?_, hr'.2⟩) (fun _ _ he => he)
      (appendAvailable_undisturbed r values hs)
    rw [hr'.1, ← hr, List.flatten_cons, List.filter_append, List.append_assoc]
  · rw [List.flatten_arrayChunk]
  obtain ⟨hr, hs⟩ := hr
  rw [List.flatten_nil, List.filter_nil, List.append_nil] at hr
  have hnext : r = ((List.range (n + 1)).flatMap fun n => scan.page k n (at₁.catalog k)).filter
      (isAvailable t state d at₁ snap) := by
    have hbefore : found = ((List.range n).flatMap fun n => scan.page k n (at₁.catalog k)).filter
        (isAvailable t state d at₁ snap) := hfound
    rw [List.range_succ, List.flatMap_append, List.filter_append, ← hbefore, hr]
    simp only [List.flatMap_cons, List.flatMap_nil, List.append_nil]
  by_cases hlast : n + 1 < scan.pages
  · have hcursor : scan.nextCursor n = n + 1 := if_pos hlast
    rw [hcursor, if_neg (Nat.succ_ne_zero n)]
    exact ⟨hlast, hnext, hs⟩
  · have hcursor : scan.nextCursor n = 0 := if_neg hlast
    have hpages : n + 1 = scan.pages := by omega
    rw [hcursor, if_pos rfl]
    refine ⟨?_, hs⟩
    rw [hnext, ScanOrder.shown, hpages]

/-! ## What is written -/

section Footprint

variable {K : Key → Prop} (htemp : ∀ k, K (.sortedSet (.temporary k)))

/-- Looking at the lock writes nothing. -/
theorem synchronizationIsActive_writes : Writes K (synchronizationIsActive t) :=
  Writes.bind (.read rfl) fun _ => .ret

include htemp

/-- Nor does the choice of the snapshot. -/
theorem inspectableSourceSnapshot_writes {retained : SourceSnapshot} :
    ScopedWrites K (inspectableSourceSnapshot t retained) := by
  refine ScopedWrites.bind (.lift randomToken_writes) fun sourceKey => ?_
  refine ScopedWrites.bind (.lift randomToken_writes) fun gapKey => ?_
  refine ScopedWrites.bind .register fun _ => ScopedWrites.bind .register fun _ => .lift ?_
  refine (transaction_writes fun g _ w hw => ?_).bind fun _ =>
    sortedSetCount_writes.bind fun _ => .ite .ret (sortedSetCount_writes.bind fun _ => .ret)
  simp only [List.mem_cons, List.not_mem_nil, or_false] at hw
  rcases hw with rfl | rfl | rfl | rfl
  · exact htemp sourceKey
  · exact htemp gapKey
  · exact htemp sourceKey
  · exact htemp gapKey

/-- Nor do the counts of the facets. -/
theorem facetCountsWithinSnapshot_writes {values : List String} :
    Writes K (facetCountsWithinSnapshot t d values source) := by
  refine (Writes.collect fun _ _ => randomToken_writes).bind fun keys => .tryFinally ?_
    (.forEach fun k _ => deleteQuietly_writes htemp)
  refine (transaction_writes fun g _ w hw => ?_).bind fun _ => ?_
  · obtain ⟨e, -, hkey⟩ := key_storeMemberships hw
    rw [hkey]
    exact htemp e.2
  · exact (pipeline_writes fun _ _ => sortedSetCount_writes).bind fun _ => .ite .throwRuntime .ret

/-- Nor does the reading of a catalog. -/
theorem availableCatalogValues_writes {index : RetainedJobIndex} :
    Writes K (availableCatalogValues index t d source) := by
  refine catalogKey_writes.bind fun k => .iterate fun x => Writes.bind (.read rfl) fun result => ?_
  refine Writes.bind (Obeys.fold (fun found values _ => ?_) _) fun _ => .ret
  exact renewSourceSnapshot_writes.bind fun _ =>
    (facetCountsWithinSnapshot_writes htemp).bind fun _ => .ret

end Footprint

end Counting

end RetainedJobIndex

end HorizonNewDawn

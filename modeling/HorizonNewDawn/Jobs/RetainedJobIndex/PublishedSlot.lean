import HorizonNewDawn.Jobs.RetainedJobIndex.Footprint

/-! # Who writes the published slot

Any number of processes synchronize one retained-job type, interleaved command by command. The
synchronizer works on the slot that is not published, and the lock is meant to keep the published
slot unchanged. Its commands carry no fencing token, though: a process whose lease has expired goes
on writing until its next renewal, and another process may by then have published the very slot it
writes to (`published_slot_written`).

Where every command that writes a slot or publishes one is sent while the lock holds the sender's
own token (`Fenced`), no step touches the published slot (`fenced_published_slot_untouched`). -/

namespace HorizonNewDawn

open Program

namespace RetainedJobIndex

/-! ## The system -/

/-- The synchronizations a process may run. -/
inductive Synchronizer (t : RetainedJobType) : Redis Unit → Prop
  | snapshot (index : RetainedJobIndex) (synchronized : Bool) (source : SourceSnapshot)
      (force : Bool) (requiredFacets : List (FacetDimension × String))
      (requiredCatalogPartitions : List FacetDimension) :
      Synchronizer t (index.synchronizeSnapshot synchronized t source force requiredFacets
        requiredCatalogPartitions)
  | growing (index : RetainedJobIndex) (source : SourceSnapshot)
      (requiredFacets : List (FacetDimension × String))
      (requiredCatalogPartitions : List FacetDimension) :
      Synchronizer t (do
        let _ ← index.synchronizeGrowingSourceSnapshot t source requiredFacets
          requiredCatalogPartitions)

/-- The programs left to the processes, and the store. -/
abbrev System : Type := Config ProcessId Command Command.Reply Section Failure Store Unit

/-- What the world may do to the store: the lock may expire, and everything but the index of the
type may change. -/
def World (t : RetainedJobType) (s s' : Store) : Prop :=
  (s'.lock t = s.lock t ∨ s'.lock t = none) ∧ s'.published t = s.published t ∧
    s'.revision t = s.revision t ∧ ∀ g k, k.InSlot t g → s.SameAt s' k

/-- A command that writes a slot of the index, or its published state. -/
def WritesIndex (t : RetainedJobType) (c : Command) : Prop :=
  ∃ k ∈ c.writes, (∃ g, k.InSlot t g) ∨ k = .published t ∨ k = .revision t

/-- The lock holds the token of the critical section a command stands in. -/
def HoldsLock (t : RetainedJobType) (ls : List Section) (s : Store) : Prop :=
  (∃ token, Section.synchronizing t token ∈ ls) ∧
    ∀ token, Section.synchronizing t token ∈ ls → s.lock t = some token

/-- A step that writes the index is taken while the lock holds the token of its own process. -/
def Fenced (t : RetainedJobType) (d : System) (e : Event ProcessId) (_ : System) : Prop :=
  ∀ i ls c next, e = .run i → d.prog i = .op ls c next → WritesIndex t c → HoldsLock t ls d.store

/-- A step that writes or deletes no key of the published slot. -/
def SparesPublishedSlot (t : RetainedJobType) (d : System) (e : Event ProcessId) : Prop :=
  ∀ i ls c next, e = .run i → d.prog i = .op ls c next →
    ∀ k ∈ c.writes, ¬k.InSlot t (d.store.publishedGeneration t)

/-! ## The discipline of one process -/

variable {scan : ScanOrder} {t : RetainedJobType} {i : ProcessId} {α : Type} {p : Redis α}
  {token : Token} {g : Generation} {s : Store}

/-- Nobody else changes the published state while the lock holds a token of the process; and the
process writes no published slot, takes the lock only with tokens of its own and publishes only
while it holds the lock. -/
def fencing (t : RetainedJobType) (i : ProcessId) : Discipline Command Section Store where
  rely _ s s' := ∀ n, s'.lock t = some ⟨i, n⟩ → s.lock t = some ⟨i, n⟩ ∧
    s'.published t = s.published t ∧ s'.revision t = s.revision t
  assume ls c s := WritesIndex t c → HoldsLock t ls s
  ok _ c s := (∀ k ∈ c.writes, ¬k.InSlot t (s.publishedGeneration t)) ∧
    (∀ token seconds, c = .setLockNx t token seconds → token.pid = i) ∧
    (Key.published t ∈ c.writes ∨ Key.revision t ∈ c.writes → ∃ n, s.lock t = some ⟨i, n⟩)
  rely_refl _ _ _ h := ⟨h, rfl, rfl⟩
  rely_trans _ s s' s'' h h' n hn := by
    obtain ⟨h₁, h₂, h₃⟩ := h' n hn
    obtain ⟨g₁, g₂, g₃⟩ := h n h₁
    exact ⟨g₁, h₂.trans g₂, h₃.trans g₃⟩

/-- The discipline inside the critical section of a token. -/
abbrev fencingInside (t : RetainedJobType) (i : ProcessId) (token : Token) :
    Discipline Command Section Store :=
  (fencing t i).push (.synchronizing t token)

/-- While the lock holds the token, the published generation is not `g`. -/
def Isolated (t : RetainedJobType) (token : Token) (g : Generation) (s : Store) : Prop :=
  s.lock t = some token → s.publishedGeneration t ≠ g

/-- A generation that is isolated stays so. -/
theorem isolated_stable (hpid : token.pid = i) :
    (fencingInside t i token).Stable (Isolated t token g) := by
  subst hpid
  intro ls s s' hr hs hlock
  obtain ⟨hl, hp, hv⟩ := hr token.serial hlock
  have hstate : s'.publishedState t = s.publishedState t := Store.publishedState_congr hp hv
  rw [Store.publishedGeneration, hstate]
  exact hs hl

/-- A program that leaves the index and its lock alone meets the discipline. -/
theorem fencing_of_quiet (h : Writes (fun k => ¬k.OfIndex t) p) :
    wp (exec scan i) (fencing t i) p (fun _ _ => True) (fun _ _ => True) s := by
  refine h.wp (Φ := fun _ => True) (Discipline.stable_const _ _) ?_ (fun _ _ _ h => h) trivial
  intro ls c s hc _ _
  refine ⟨fun k hk hin => hc k hk (Or.inl ⟨_, hin⟩), ?_, ?_⟩
  · rintro token seconds rfl
    exact absurd (Or.inr (Or.inl rfl)) (hc (.lock t) List.mem_cons_self)
  · rintro (hk | hk)
    · exact absurd (Or.inr (Or.inr (Or.inl rfl))) (hc _ hk)
    · exact absurd (Or.inr (Or.inr (Or.inr rfl))) (hc _ hk)

/-- A program in the critical section that writes only the slot `g` of the index meets the
discipline and keeps `g` apart from the published slot. -/
theorem fencing_of_working (hpid : token.pid = i)
    (h : Writes (fun k => k.InSlot t g ∨ ¬k.OfIndex t) p) (hs : Isolated t token g s) :
    wp (exec scan i) (fencingInside t i token) p (fun _ => Isolated t token g)
      (fun _ _ => True) s := by
  refine wp_mono (fun _ _ h => h) (fun _ _ _ => trivial)
    (h.wp (isolated_stable hpid) ?_ ?_ hs)
  · intro ls c s hc hs ha
    refine ⟨fun k hk hin => ?_, ?_, ?_⟩
    · -- A key of a published slot lies in the working slot, so the lock holds the token.
      rcases hc k hk with hg | hno
      · have hlock := (ha ⟨k, hk, Or.inl ⟨g, hg⟩⟩).2 token List.mem_cons_self
        refine hs hlock ?_
        cases k with
        | sortedSet k => cases k <;> simp_all [Key.InSlot]
        | catalog k => exact hin.2.symm.trans hg.2
        | _ => exact hg.elim
      · exact hno (Or.inl ⟨_, hin⟩)
    · rintro token seconds rfl
      rcases hc (.lock t) List.mem_cons_self with hin | hno
      · exact hin.elim
      · exact absurd (Or.inr (Or.inl rfl)) hno
    · rintro (hk | hk)
      · rcases hc _ hk with hin | hno
        · exact hin.elim
        · exact absurd (Or.inr (Or.inr (Or.inl rfl))) hno
      · rcases hc _ hk with hin | hno
        · exact hin.elim
        · exact absurd (Or.inr (Or.inr (Or.inr rfl))) hno
  · intro s s' hsame hs hlock
    have hsameAt : ∀ k, k.OfIndex t → ¬k.InSlot t g → s.SameAt s' k := fun k hk hin =>
      hsame k fun hor => hor.elim hin fun hno => hno hk
    have hl : s'.lock t = s.lock t := hsameAt (.lock t) (Or.inr (Or.inl rfl)) id
    have hstate : s'.publishedState t = s.publishedState t := Store.publishedState_congr
      (hsameAt _ (Or.inr (Or.inr (Or.inl rfl))) id) (hsameAt _ (Or.inr (Or.inr (Or.inr rfl))) id)
    rw [Store.publishedGeneration, hstate]
    exact hs (hl ▸ hlock)

/-! ## The synchronizations meet the discipline -/

/-- The postcondition nobody reads. -/
theorem wp_trivial {D : Discipline Command Section Store} {Q : α → Store → Prop}
    (h : wp (exec scan i) D p Q (fun _ _ => True) s) :
    wp (exec scan i) D p (fun _ _ => True) (fun _ _ => True) s :=
  wp_mono (fun _ _ _ => trivial) (fun _ _ h => h) h

/-- Reading the published state in the critical section yields a slot that stays unpublished for as
long as the lock is held. -/
theorem publishedState_isolated (hpid : token.pid = i) :
    wp (exec scan i) (fencingInside t i token) (publishedState t)
      (fun state => Isolated t token (workingGenerationFor (generationFromPublishedState state)))
      (fun _ _ => True) s := by
  subst hpid
  have hread : ∀ c : Command, c.writes = [] → ∀ ls s, (fencing t token.pid).ok ls c s := by
    intro c hc ls s
    refine ⟨by simp [hc], ?_, by simp [hc]⟩
    rintro token seconds rfl
    cases hc
  refine wp_bind.mpr (wp_command.mpr fun s _ _ => ⟨hread _ rfl [] s, fun _ => trivial, fun _ => ?_⟩)
  cases hp : s.published t with
  | some state =>
      simp only [Command.answer, Command.effect, hp, Prog.pure_eq_ret, wp_ret]
      intro _
      have hgen : s.publishedGeneration t = state.generation := by
        simp [Store.publishedGeneration, Store.publishedState, hp]
      rw [hgen]
      exact (workingGenerationFor_ne state.generation).symm
  | none =>
      simp only [Command.answer, Command.effect, hp]
      refine wp_bind.mpr (wp_command.mpr fun s' hr _ =>
        ⟨hread _ rfl [] s', fun _ => trivial, fun _ => ?_⟩)
      -- Whatever the revision is by now, the published generation is still the legacy one.
      have hworking : workingGenerationFor (generationFromPublishedState
          ((s'.revision t).map (⟨.legacy, ·⟩))) = .a := by
        cases s'.revision t <;> rfl
      simp only [Command.answer, Command.effect, Prog.pure_eq_ret, wp_ret, hworking]
      intro hlock
      have hnone := (hr token.serial hlock).2.1.trans hp
      rw [Store.publishedGeneration, Store.publishedState, hnone]
      cases s'.revision t <;> simp

variable (index : RetainedJobIndex) {heartbeat : Redis Unit} {source : SourceSnapshot}
  {requiredFacets : List (FacetDimension × String)}
  {requiredCatalogPartitions : List FacetDimension}

/-- **Preparing a generation** isolates it. -/
theorem prepareWorkingGeneration_isolated (hpid : token.pid = i)
    (hh : ∀ K, Writes K heartbeat) :
    wp (exec scan i) (fencingInside t i token) (index.prepareWorkingGeneration t heartbeat)
      (fun g => Isolated t token g) (fun _ _ => True) s := by
  refine wp_bind_of (publishedState_isolated hpid) fun state s hs => ?_
  refine wp_bind_of (fencing_of_working hpid ?_ hs) fun _ s hs => hs
  refine initializeWorkingGeneration_writes index (fun k hk => Or.inl hk) (Or.inr ?_) (hh _)
  rintro (⟨g, hin⟩ | h | h | h)
  · exact hin
  all_goals cases h

/-- Temporary keys belong to no index. -/
theorem notOfIndex_temporary (k : Token) : ¬(Key.sortedSet (.temporary k)).OfIndex t := by
  rintro (⟨g, hin⟩ | h | h | h)
  · exact hin
  all_goals cases h

/-- Nor do the metadata. -/
theorem notOfIndex_metadata : ¬Key.metadata.OfIndex t := by
  rintro (⟨g, hin⟩ | h | h | h)
  · exact hin
  all_goals cases h

/-- Nor does the key of the owner. -/
theorem notOfIndex_owner : ¬Key.owner.OfIndex t := by
  rintro (⟨g, hin⟩ | h | h | h)
  · exact hin
  all_goals cases h

/-- Publishing needs the lock, and nothing else. -/
theorem publishWorkingGeneration_fencing (hpid : token.pid = i) :
    wp (exec scan i) (fencing t i) (index.publishWorkingGeneration (some (t, g)) t g token source)
      (fun _ _ => True) (fun _ _ => True) s := by
  have hremoval : ∀ replaced s, wp (exec scan i) (fencing t i)
      ((index.removeUnretainedMetadataFromGeneration (some (t, g)) t replaced token
        source).tryCatch fun _ => return ()) (fun _ _ => True) (fun _ _ => True) s :=
    fun replaced s => fencing_of_quiet (.tryCatch
      (removeUnretainedMetadataFromGeneration_writes notOfIndex_temporary index
        notOfIndex_metadata) fun _ => .ret)
  have hpublish : ∀ (c : Command) s, (c.writes = [.published t] ∨ c.writes = [.revision t]) →
      wp (exec scan i) (fencingInside t i token) (command c) (fun _ _ => True)
        (fun _ _ => True) s := by
    intro c s hc
    refine wp_command.mpr fun s _ ha => ⟨⟨?_, ?_, fun _ => ?_⟩, fun _ => trivial, fun _ => trivial⟩
    · rcases hc with hc | hc <;> simp [hc, Key.InSlot]
    · rintro token seconds rfl
      rcases hc with hc | hc <;> cases hc
    · have hindex : WritesIndex t c := by
        rcases hc with hc | hc <;> simp [WritesIndex, hc]
      exact ⟨token.serial, hpid ▸ (ha hindex).2 token List.mem_cons_self⟩
  refine wp_bind_of (Q := fun _ _ => True) (wp_inside.mpr ?_)
    fun replaced s _ => hremoval replaced s
  refine wp_bind_of (publishedState_isolated hpid) fun state s _ => ?_
  refine wp_bind.mpr (wp_command.mpr fun s _ _ => ⟨⟨?_, ?_, ?_⟩, fun _ => trivial, fun _ => ?_⟩)
  · simp [Command.writes]
  · rintro token seconds h; cases h
  · simp [Command.writes]
  refine wp_bind_of (Q := fun _ _ => True) ?_ fun _ _ _ => trivial
  refine wp_bind_of (Q := fun _ _ => True) ?_ fun _ s _ => hpublish _ s (Or.inl rfl)
  exact wp_ifThen (fun _ => hpublish _ _ (Or.inr rfl)) fun _ => trivial

/-- The lock is taken with a token of the process itself. -/
theorem acquireSynchronizationLock_fencing :
    wp (exec scan i) (fencing t i) (acquireSynchronizationLock t)
      (fun token _ => ∀ token', token = some token' → token'.pid = i) (fun _ _ => True) s := by
  refine wp_bind.mpr (wp_command.mpr fun s _ _ => ⟨⟨?_, ?_, ?_⟩, fun _ => trivial, fun _ => ?_⟩)
  · simp [Command.writes]
  · rintro token seconds h; cases h
  · simp [Command.writes]
  refine wp_bind.mpr (wp_command.mpr fun s' _ _ => ⟨⟨?_, ?_, ?_⟩, fun _ => trivial, fun _ => ?_⟩)
  · simp [Command.writes, Key.InSlot]
  · rintro token seconds h
    cases h
    rfl
  · simp [Command.writes]
  · simp only [Prog.pure_eq_ret, wp_ret]
    intro token' h
    split at h
    · cases h
      rfl
    · cases h

/-- Releasing the lock. -/
theorem releaseSynchronizationLock_fencing :
    wp (exec scan i) (fencing t i) (releaseSynchronizationLock t token)
      (fun _ _ => True) (fun _ _ => True) s := by
  refine wp_tryCatch.mpr (wp_command.mpr fun s _ _ =>
    ⟨⟨?_, ?_, ?_⟩, fun _ => trivial, fun _ => trivial⟩)
  · simp [Command.writes, Key.InSlot]
  · rintro token seconds h; cases h
  · simp [Command.writes]

/-- The body of a critical section followed by the publication meets the discipline. -/
theorem underLock_fencing (hpid : token.pid = i) (hh : ∀ K, Writes K heartbeat)
    {β : Type} {body : Generation → Redis β}
    (hbody : ∀ g K, (∀ k, K (.sortedSet (.temporary k))) → (∀ k, k.InSlot t g → K k) →
      K .metadata → Writes K (body g)) :
    wp (exec scan i) (fencing t i)
      (Prog.inside (.synchronizing t token) do
        let g ← index.prepareWorkingGeneration t heartbeat
        body g) (fun _ _ => True) (fun _ _ => True) s := by
  refine wp_inside.mpr (wp_bind_of (prepareWorkingGeneration_isolated index hpid hh)
    fun g s hs => ?_)
  exact wp_trivial (fencing_of_working hpid (hbody g _ (fun k => Or.inr (notOfIndex_temporary k))
    (fun k hk => Or.inl hk) (Or.inr notOfIndex_metadata)) hs)

/-- **A synchronization of a snapshot** stays inside the fence. -/
theorem synchronizeSnapshot_fencing {synchronized force : Bool} :
    wp (exec scan i) (fencing t i) (index.synchronizeSnapshot synchronized t source force
      requiredFacets requiredCatalogPartitions) (fun _ _ => True) (fun _ _ => True) s := by
  have hconsistent : Writes (fun k => ¬k.OfIndex t) (index.indexIsConsistent none t requiredFacets
      requiredCatalogPartitions source (renewSourceSnapshot source)) :=
    indexIsConsistent_writes notOfIndex_temporary index renewSourceSnapshot_writes
  refine wp_bind_of (fencing_of_quiet (.ite hconsistent .ret)) fun consistent s _ => ?_
  split
  · trivial
  refine wp_bind_of (fencing_of_quiet (assertNamespaceOwnership_writes notOfIndex_owner))
    fun _ s _ => ?_
  refine wp_bind_of (fencing_of_quiet (.ite hconsistent .ret)) fun consistent s _ => ?_
  split
  · trivial
  refine wp_bind_of acquireSynchronizationLock_fencing fun token s hpid => ?_
  cases token with
  | none =>
      exact fencing_of_quiet ((Writes.ite .ret (hconsistent.bind fun _ => .ret)).bind fun _ =>
        .ite .throwRuntime .ret)
  | some token =>
      refine wp_tryFinally_of (Q := fun _ _ => True) (E := fun _ _ => True) ?_
        (fun _ _ _ => releaseSynchronizationLock_fencing)
        fun _ _ _ => releaseSynchronizationLock_fencing
      refine wp_bind_of (Q := fun _ _ => True) ?_ fun g s _ =>
        publishWorkingGeneration_fencing index (hpid token rfl)
      refine underLock_fencing index (hpid token rfl) (fun _ => renewSynchronizationState_writes)
        fun g K htemp hslot hmeta => ?_
      exact (synchronizeSnapshotUnderLock_writes htemp index hslot hmeta
        renewSynchronizationState_writes).bind fun _ => .ret

/-- So does one of a source that grows. -/
theorem synchronizeGrowingSourceSnapshot_fencing :
    wp (exec scan i) (fencing t i) (index.synchronizeGrowingSourceSnapshot t source requiredFacets
      requiredCatalogPartitions) (fun _ _ => True) (fun _ _ => True) s := by
  refine wp_bind_of (fencing_of_quiet (assertNamespaceOwnership_writes notOfIndex_owner))
    fun _ s _ => ?_
  refine wp_bind_of acquireSynchronizationLock_fencing fun token s hpid => ?_
  cases token with
  | none => trivial
  | some token =>
      refine wp_tryFinally_of (Q := fun _ _ => True) (E := fun _ _ => True) ?_
        (fun _ _ _ => releaseSynchronizationLock_fencing)
        fun _ _ _ => releaseSynchronizationLock_fencing
      refine wp_bind_of (Q := fun _ _ => True) ?_ fun r s _ =>
        wp_bind_of (publishWorkingGeneration_fencing index (hpid token rfl)) fun _ _ _ => trivial
      refine underLock_fencing index (hpid token rfl) (fun _ => renewSynchronizationState_writes)
        fun g K htemp hslot hmeta => ?_
      refine (synchronizeSnapshotUnderLock_writes htemp index hslot hmeta
        renewSynchronizationState_writes).bind fun _ => trimSource_writes.bind fun _ => ?_
      refine (refreshSourceSnapshot_writes htemp index renewSynchronizationState_writes).bind
        fun source => ?_
      exact (synchronizeSnapshotUnderLock_writes htemp index hslot hmeta
        renewSynchronizationState_writes).bind fun _ => .ret

/-- Every synchronization meets the discipline. -/
theorem Synchronizer.fencing {p : Redis Unit} (h : Synchronizer t p) :
    wp (exec scan i) (fencing t i) p (fun _ _ => True) (fun _ _ => True) s := by
  cases h with
  | snapshot index synchronized source force requiredFacets requiredCatalogPartitions =>
      exact synchronizeSnapshot_fencing index
  | growing index source requiredFacets requiredCatalogPartitions =>
      exact wp_bind_of (synchronizeGrowingSourceSnapshot_fencing index) fun _ _ _ => trivial

/-! ## Whole runs -/

/-- A command of one process stays within what another process relies on. -/
theorem fencing_rely_of_ok {j : ProcessId} (hij : j ≠ i) {ls ls' : List Section} {c : Command}
    (hok : (fencing t i).ok ls c s) : (fencing t j).rely ls' s (exec scan i c s).2 := by
  intro n hn
  obtain ⟨-, hacquire, hpublish⟩ := hok
  by_cases hf : s.failing = true
  · simp only [exec, hf, if_true] at hn ⊢
    exact ⟨hn, trivial, trivial⟩
  · simp only [exec, hf, Bool.false_eq_true, if_false] at hn ⊢
    have hlock : s.lock t = some ⟨j, n⟩ := by
      rcases Command.lock_of_effect hn with h | ⟨seconds, h⟩
      · exact h
      · exact absurd (hacquire _ seconds h) hij
    have hnot : ¬(Key.published t ∈ c.writes ∨ Key.revision t ∈ c.writes) := by
      intro hmem
      obtain ⟨m, hm⟩ := hpublish hmem
      rw [hlock] at hm
      exact hij (congrArg Token.pid (Option.some.inj hm))
    rw [not_or] at hnot
    exact ⟨hlock, Command.effect_sameAt hnot.1, Command.effect_sameAt hnot.2⟩

/-- A change of the world stays within what a process relies on. -/
theorem fencing_rely_of_world {ls : List Section} {s' : Store} (h : World t s s') :
    (fencing t i).rely ls s s' := by
  obtain ⟨hlock | hlock, hp, hr, -⟩ := h
  · exact fun n hn => ⟨hlock ▸ hn, hp, hr⟩
  · intro n hn
    rw [hlock] at hn
    cases hn

/-- **Step**: a fenced step leads from a configuration in which every process meets its discipline
to another one. -/
theorem fencing_step {c c' : System} {e : Event ProcessId}
    (h : c.Good (exec scan) (fencing t)) (hs : Step (exec scan) (World t) c e c')
    (hc : Fenced t c e c') : c'.Good (exec scan) (fencing t) := by
  refine h.step hs (fun i ls o next he hi => hc i ls o next he hi) fun j ls o next hj _ => ?_
  cases hs with
  | @run i ls' o' next' hi =>
      have hij : j ≠ i := fun heq => hj (by rw [heq])
      exact fencing_rely_of_ok hij (h.ok hi (hc i ls' o' next' rfl hi))
  | crash => exact (fencing t j).rely_refl ls c.store
  | world hw => exact fencing_rely_of_world hw

/-- **Run**: in a fenced run every process keeps meeting its discipline. -/
theorem fencing_of_reaches {c d : System} (hstart : ∀ i, Synchronizer t (c.prog i))
    (h : Reaches (exec scan) (World t) (Fenced t) c d) : d.Good (exec scan) (fencing t) :=
  h.invariant (fun _ _ _ hd hs hc => fencing_step hd hs hc) fun i => (hstart i).fencing

/-- A step that spares the published slot leaves its contents unchanged. -/
theorem sameAt_of_spares {d d' : System} {e : Event ProcessId}
    (hs : Step (exec scan) (World t) d e d') (h : SparesPublishedSlot t d e) {k : Key}
    (hk : k.InSlot t (d.store.publishedGeneration t)) : d.store.SameAt d'.store k := by
  cases hs with
  | run hi => exact exec_sameAt fun hmem => h _ _ _ _ rfl hi k hmem hk
  | crash => exact .refl _ _
  | world hw => exact hw.2.2.2 _ k hk

/-- **Fenced runs spare the published slot**: no step writes a key of the published slot, and a
slot keeps its contents for as long as it stays published. -/
theorem fenced_published_slot_untouched {c d : System} (hstart : ∀ i, Synchronizer t (c.prog i))
    (hreach : Reaches (exec scan) (World t) (Fenced t) c d) :
    (∀ e d', Step (exec scan) (World t) d e d' → Fenced t d e d' → SparesPublishedSlot t d e) ∧
      ∀ d', Reaches (exec scan) (World t) (fun d₁ e d₂ => Fenced t d₁ e d₂ ∧
          d₂.store.publishedGeneration t = d.store.publishedGeneration t) d d' →
        ∀ k, k.InSlot t (d.store.publishedGeneration t) → d.store.SameAt d'.store k := by
  have hspares : ∀ {d d' : System} {e}, d.Good (exec scan) (fencing t) → Fenced t d e d' →
      SparesPublishedSlot t d e :=
    fun hgood hc i ls c next he hi => (hgood.ok hi (hc i ls c next he hi)).1
  have hgood := fencing_of_reaches hstart hreach
  refine ⟨fun e d' _ hc => hspares hgood hc, fun d' hrun k hk => ?_⟩
  have hinv : d'.Good (exec scan) (fencing t) ∧
      d'.store.publishedGeneration t = d.store.publishedGeneration t ∧
        d.store.SameAt d'.store k := by
    refine hrun.invariant (I := fun x => x.Good (exec scan) (fencing t) ∧
      x.store.publishedGeneration t = d.store.publishedGeneration t ∧
        d.store.SameAt x.store k) ?_ ⟨hgood, rfl, .refl _ _⟩
    rintro x e x' ⟨hx, hpub, hsame⟩ hs ⟨hc, hpub'⟩
    refine ⟨fencing_step hx hs hc, hpub', hsame.trans (sameAt_of_spares hs (hspares hx hc) ?_)⟩
    rwa [hpub]
  exact hinv.2.2

/-! ## Two processes and one job -/

/-- A pending source with one job, and a snapshot of it for each of two processes. -/
def lapsedStore : Store :=
  let source : ZSet := .ofFun ["job"] fun _ => some (-10)
  { Store.empty with
    zset := fun k =>
      if k = .source .pending ∨ k = .temporary ⟨2, 0⟩ ∨ k = .temporary ⟨2, 1⟩ then source else ∅
    clock := 20
    repository := fun _ => [⟨some "job", some "App", some "default", some "redis", none⟩] }

/-- Processes that synchronize the pending index, each with a snapshot of its own. -/
def lapsedSystem : System where
  prog i := do
    let _ ← (⟨500, 3⟩ : RetainedJobIndex).synchronizeGrowingSourceSnapshot .pending ⟨⟨2, i⟩, 1⟩ [] []
  store := lapsedStore

/-- The keys a process writes with its next command. -/
def nextWrites (d : System) (i : ProcessId) : List Key :=
  match d.prog i with
  | .op _ c _ => c.writes
  | _ => []

/-- A process that is about to write has a command to give. -/
theorem exists_op_of_mem_nextWrites {d : System} {i : ProcessId} {k : Key}
    (h : k ∈ nextWrites d i) : ∃ ls c next, d.prog i = .op ls c next ∧ k ∈ c.writes := by
  unfold nextWrites at h
  cases hi : d.prog i with
  | op ls c next => exact ⟨ls, c, next, rfl, by simpa [hi] using h⟩
  | _ => simp [hi] at h

/-- Whether a move is fenced, for the pending index: what it writes does not belong to the index, or the
lock holds the token of its critical section. -/
def checkFenced (d : System) : Move ProcessId Store → Bool
  | .run i =>
      match d.prog i with
      | .op ls c _ =>
          c.writes.all (fun k => decide (¬(∃ g ∈ [Generation.legacy, .a, .b], k.InSlot .pending g) ∧
            k ≠ .published .pending ∧ k ≠ .revision .pending)) ||
          (ls.any (fun | .synchronizing .pending _ => true | _ => false) &&
            ls.all fun
              | .synchronizing .pending token => decide (d.store.lock .pending = some token)
              | _ => true)
      | _ => true
  | _ => true

/-- A checked move is fenced. -/
theorem fenced_of_check {d : System} {m : Move ProcessId Store} (h : checkFenced d m = true) :
    Fenced .pending d m.event (d.move (exec scan) m) := by
  intro i ls c next he hi hwrites
  cases m with
  | crash j => cases he
  | world f => cases he
  | run j =>
      obtain rfl : j = i := Event.run.inj he
      simp only [checkFenced, hi, Bool.or_eq_true, Bool.and_eq_true, List.all_eq_true,
        List.any_eq_true] at h
      rcases h with hquiet | ⟨⟨l, hl, hsection⟩, hlocked⟩
      · obtain ⟨k, hk, hindex⟩ := hwrites
        have hnone := of_decide_eq_true (hquiet k hk)
        rcases hindex with ⟨g, hg⟩ | hpublished | hrevision
        · exact absurd ⟨g, by cases g <;> simp, hg⟩ hnone.1
        · exact absurd hpublished hnone.2.1
        · exact absurd hrevision hnone.2.2
      · constructor
        · cases l with
          | synchronizing t token =>
              cases t with
              | pending => exact ⟨token, hl⟩
              | _ => cases hsection
          | _ => cases hsection
        · intro token htoken
          exact of_decide_eq_true (hlocked _ htoken)

/-- Process 0 takes the lock, fills slot `a` and publishes it; process 1 takes the lock after it and is
about to store the job in slot `b`. -/
def fencedSchedule : List (Move ProcessId Store) :=
  List.replicate 280 (.run 0) ++ List.replicate 56 (.run 1)

/-- Slot `a` is published and holds the job, and process 1 writes slot `b` and spares it; it holds the
job for as long as it is published. -/
theorem fenced_published_slot_untouched_filled :
    let d := lapsedSystem.play (exec .single) fencedSchedule
    d.store.publishedGeneration .pending = .a ∧
      d.store.catalog ⟨.pending, .a, .job⟩ = ["App"] ∧
      d.store.lock .pending = some ⟨1, 0⟩ ∧ Key.catalog ⟨.pending, .b, .job⟩ ∈ nextWrites d 1 ∧
      SparesPublishedSlot .pending d (.run 1) ∧
      ∀ d', Reaches (exec .single) (World .pending) (fun d₁ e d₂ => Fenced .pending d₁ e d₂ ∧
          d₂.store.publishedGeneration .pending = d.store.publishedGeneration .pending) d d' →
        d'.store.catalog ⟨.pending, .a, .job⟩ = ["App"] := by
  intro d
  have hpublished : d.store.publishedGeneration .pending = .a := by decide +kernel
  have hcatalog : d.store.catalog ⟨.pending, .a, .job⟩ = ["App"] := by decide +kernel
  have hnext : Key.catalog ⟨.pending, .b, .job⟩ ∈ nextWrites d 1 := by decide +kernel
  have hpasses : lapsedSystem.passes (exec .single) checkFenced fencedSchedule = true := by
    decide +kernel
  have hcheck : checkFenced d (.run 1) = true := by decide +kernel
  have hlock : d.store.lock .pending = some ⟨1, 0⟩ := by decide +kernel
  have hreach : Reaches (exec .single) (World .pending) (Fenced .pending) lapsedSystem d :=
    Config.reaches_play_of_passes (fun _ _ => fenced_of_check) (fun f hf => by
      simp only [fencedSchedule, List.mem_append, List.mem_replicate, reduceCtorEq, and_false,
        or_false] at hf) hpasses
  obtain ⟨hspares, hkept⟩ := fenced_published_slot_untouched (fun _ => .growing _ _ _ _) hreach
  clear_value d
  refine ⟨hpublished, hcatalog, hlock, hnext, ?_, fun d' hrun => ?_⟩
  · obtain ⟨ls, c, next, hop, -⟩ := exists_op_of_mem_nextWrites hnext
    exact hspares (.run 1) _ (Config.step_move hop) (fenced_of_check hcheck)
  · have hsame := hkept d' hrun (.catalog ⟨.pending, .a, .job⟩) (by rw [hpublished]; exact ⟨rfl, rfl⟩)
    have hcopy : d'.store.catalog ⟨.pending, .a, .job⟩ = d.store.catalog ⟨.pending, .a, .job⟩ := hsame
    rw [hcopy, hcatalog]

/-! ## A lapsed lease -/

/-- Process 0 takes the lock, finds slot `a` unpublished and is about to empty its first catalog.
Its lease expires, and process 1 fills and publishes slot `a`. -/
def lapsedSchedule : List (Move ProcessId Store) :=
  List.replicate 8 (.run 0) ++
    .world (fun s => { s with lock := Function.update s.lock .pending none }) ::
      List.replicate 280 (.run 1)

/-- **Unfenced commands reach the published slot**: a process whose lease has expired empties a
catalog of the published slot. -/
theorem published_slot_written : ∃ (c d d' : System) (e : Event ProcessId),
    (∀ i, Synchronizer .pending (c.prog i)) ∧
      Reaches (exec .single) (World .pending) (fun _ _ _ => True) c d ∧
      Step (exec .single) (World .pending) d e d' ∧ ¬SparesPublishedSlot .pending d e ∧
      ∃ k, k.InSlot .pending (d.store.publishedGeneration .pending) ∧ ¬d.store.SameAt d'.store k := by
  let d := lapsedSystem.play (exec .single) lapsedSchedule
  have hpub : d.store.publishedGeneration .pending = .a := by decide +kernel
  have hnext : Key.catalog ⟨.pending, .a, .job⟩ ∈ nextWrites d 0 := by decide +kernel
  have hbefore : d.store.catalog ⟨.pending, .a, .job⟩ = ["App"] := by decide +kernel
  have hafter : (d.move (exec .single) (.run 0)).store.catalog ⟨.pending, .a, .job⟩ = [] := by
    decide +kernel
  obtain ⟨ls, c, next, hop, hmem⟩ := exists_op_of_mem_nextWrites hnext
  have hreach : Reaches (exec .single) (World .pending) (fun _ _ _ => True) lapsedSystem d := by
    refine Config.reaches_play lapsedSchedule (fun f hf s => ?_) lapsedSystem
    obtain rfl : f = fun s => { s with lock := Function.update s.lock .pending none } := by
      simpa only [lapsedSchedule, List.mem_append, List.mem_cons, List.mem_replicate, reduceCtorEq,
        and_false, or_false, false_or, Move.world.injEq] using hf
    exact ⟨Or.inr (by simp), rfl, rfl, fun g k hk => by
      cases k with
      | lock t => exact hk.elim
      | _ => rfl⟩
  refine ⟨lapsedSystem, d, d.move (exec .single) (.run 0), .run 0,
    fun i => .growing _ _ _ _, hreach, ?_, ?_, .catalog ⟨.pending, .a, .job⟩, ?_, ?_⟩
  · exact Config.step_move hop
  · intro hspares
    exact hspares 0 ls c next rfl hop _ hmem (by rw [hpub]; exact ⟨rfl, rfl⟩)
  · rw [hpub]
    exact ⟨rfl, rfl⟩
  · rw [Store.SameAt, hbefore, hafter]
    decide

end RetainedJobIndex

end HorizonNewDawn

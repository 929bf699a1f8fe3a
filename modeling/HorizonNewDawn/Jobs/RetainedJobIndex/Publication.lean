import HorizonNewDawn.Jobs.RetainedJobIndex.Renewals
import HorizonNewDawn.Program.Ghost
import Mathlib

/-! # Who replaces the published state

Any number of processes call `synchronize` for one retained-job type, interleaved command by
command. The published state has three writers: the publication of the working generation, the same
after the lease has lapsed, and the storing of the legacy state by `ensureSynchronizationRevision`,
which reads that nothing is published and then writes without looking again. The last two replace
the state another process has published (`published_state_replaced`, `published_after_lapse`).

A lapsed lease on its own does no harm: the next renewal is refused, and a refused renewal is an
exception (`Heeding`). So the runs are watched for the two late writes alone. A process is late when
its lease has lapsed and it has not tried to renew it since, and stale when another process has
written the published state since it read that state (`Watch`). In a run in which no process publishes
while it is late or stores the legacy state while it is stale (`Timely`), an existing published state
is replaced only by the holder of the lock, and never by the legacy generation
(`timely_replacement`). -/

namespace HorizonNewDawn

open Program

namespace RetainedJobIndex

/-! ## The system -/

/-- The programs left to the processes, and the store. -/
abbrev PointerSystem : Type := Config ProcessId Command Command.Reply Section Failure Store Unit

/-- What the world may do to the store: the lock may expire, and everything but the published state
may change. -/
def PointerWorld (t : RetainedJobType) (s s' : Store) : Prop :=
  (s'.lock t = s.lock t ∨ s'.lock t = none) ∧ s'.published t = s.published t ∧
    s'.revision t = s.revision t

/-! ## Watching the leases and the readings -/

/-- What is noted of the leases and of the readings of the published state. -/
structure Watch where
  /-- The lease has lapsed, and its holder has not tried to renew it since. -/
  late : Token → Bool
  /-- Another process has written the published state or the legacy revision since the process last
  read the published state. -/
  stale : ProcessId → Bool

/-- Nothing has lapsed and nothing is stale. -/
def Watch.start : Watch where
  late _ := false
  stale _ := false

/-- Whether a command writes the published state or the legacy revision. -/
def StoresState (t : RetainedJobType) (c : Command) : Prop :=
  Key.published t ∈ c.writes ∨ Key.revision t ∈ c.writes

instance (t : RetainedJobType) (c : Command) : Decidable (StoresState t c) := by
  unfold StoresState
  infer_instance

/-- The leases after a command of a process: a renewal that reaches Redis is tried. -/
def Watch.renewed (t : RetainedJobType) (i : ProcessId) (w : Watch) : Command → Token → Bool
  | .renewLock t' token _ => fun token' =>
      if t' = t ∧ token.pid = i ∧ token' = token then false else w.late token'
  | _ => w.late

/-- Whether a command reads the published state. -/
def readsState (t : RetainedJobType) : Command → Bool
  | .getPublished t' => decide (t' = t)
  | _ => false

/-- The ghost of a run. A command that fails has not reached Redis. -/
def watch (t : RetainedJobType) : Ghost ProcessId Command Store Watch where
  own i c s w :=
    if s.failing then w
    else
      { late := w.renewed t i c
        stale := fun j =>
          if j = i then !readsState t c && w.stale i else decide (StoresState t c) || w.stale j }
  world s s' w :=
    { w with late := fun token =>
        w.late token || (decide (s.lock t = some token) && !decide (s'.lock t = some token)) }

/-- The system under the eyes of the ghost. -/
abbrev WatchedSystem : Type :=
  Config ProcessId Command Command.Reply Section Failure (Store × Watch) Unit

/-- No process publishes a working generation while it is late, and none stores the legacy state while
what it has read is stale. -/
def Timely (t : RetainedJobType) (d : WatchedSystem) (e : Event ProcessId) (_ : WatchedSystem) :
    Prop :=
  ∀ i ls c next, e = .run i → d.prog i = .op ls c next →
    (∀ state token, c = .setPublished t state → Section.synchronizing t token ∈ ls →
      d.store.2.late token = false) ∧
    (Section.ensuring t ∈ ls → StoresState t c → d.store.2.stale i = false)

section Watching

variable {t : RetainedJobType} {i j : ProcessId} {c : Command} {s s' : Store} {w : Watch}
  {token : Token}

/-- A process tries only its own renewals. -/
theorem late_own_of_ne (h : token.pid ≠ i) : ((watch t).own i c s w).late token = w.late token := by
  unfold watch
  dsimp only
  split
  · rfl
  · cases c with
    | renewLock t' token' seconds =>
        simp only [Watch.renewed]
        apply if_neg
        rintro ⟨-, hpid, rfl⟩
        exact h hpid
    | _ => rfl

/-- A command that does not renew a lease does not change it. -/
theorem late_own_of_notRenewal (h : ∀ seconds, c ≠ .renewLock t token seconds) :
    ((watch t).own i c s w).late token = w.late token := by
  unfold watch
  dsimp only
  split
  · rfl
  · cases c with
    | renewLock t' token' seconds =>
        simp only [Watch.renewed]
        apply if_neg
        rintro ⟨rfl, -, rfl⟩
        exact h seconds rfl
    | _ => rfl

/-- What is stale for another process stays so. -/
theorem stale_own_of_ne (hj : j ≠ i) (h : w.stale j = true) :
    ((watch t).own i c s w).stale j = true := by
  unfold watch
  dsimp only
  split
  · exact h
  · simp [hj, h]

/-- For the process itself it does, until it reads again. -/
theorem stale_own_self (h : readsState t c = false) :
    ((watch t).own i c s w).stale i = w.stale i := by
  unfold watch
  dsimp only
  split
  · rfl
  · simp [h]

/-- A command of another process makes a reading stale, or leaves the published state as it is. -/
theorem stale_or_same (hj : j ≠ i) :
    ((watch t).own i c s w).stale j = true ∨
      (exec scan i c s).2.published t = s.published t ∧
        (exec scan i c s).2.revision t = s.revision t := by
  by_cases hfailing : s.failing = true
  · right
    simp [exec, hfailing]
  · by_cases hstores : StoresState t c
    · left
      simp [watch, hfailing, hj, hstores]
    · right
      constructor
      · exact exec_sameAt fun hmem => hstores (Or.inl hmem)
      · exact exec_sameAt fun hmem => hstores (Or.inr hmem)

/-- A lease that is lost without its holder is late. -/
theorem late_world (h : s.lock t = some token) (h' : s'.lock t ≠ some token) :
    ((watch t).world s s' w).late token = true := by
  simp [watch, h, h']

/-- A late lease stays late while the world moves. -/
theorem late_world_of_late (h : w.late token = true) :
    ((watch t).world s s' w).late token = true := by
  simp [watch, h]

end Watching

/-! ## The discipline of one process -/

/-- The process holds the lock, or its lease has lapsed and no renewal has been tried since. -/
def Leased (t : RetainedJobType) (token : Token) (x : Store × Watch) : Prop :=
  x.1.lock t = some token ∨ x.2.late token = true

/-- What the process has read of the published state: that there is none, and of the legacy revision
that it is `revision`; unless that is stale. -/
def Nothing (t : RetainedJobType) (i : ProcessId) (revision : Option Token) (x : Store × Watch) :
    Prop :=
  x.2.stale i = true ∨ x.1.published t = none ∧ x.1.revision t = revision

/-- A lease is not lost without being late, and the published state does not change without the
reading being stale. The process takes no lock from another one, and replaces a published state only
while it holds the lock, by a generation that is not legacy. -/
def pointing (t : RetainedJobType) (i : ProcessId) : Discipline Command Section (Store × Watch) where
  rely _ x x' :=
    (∀ n, Leased t ⟨i, n⟩ x → Leased t ⟨i, n⟩ x') ∧ (x.2.stale i = true → x'.2.stale i = true) ∧
      (x'.2.stale i = true ∨ x'.1.published t = x.1.published t ∧ x'.1.revision t = x.1.revision t)
  assume ls c x :=
    (∀ state token, c = .setPublished t state → Section.synchronizing t token ∈ ls →
      x.2.late token = false) ∧
    (Section.ensuring t ∈ ls → StoresState t c → x.2.stale i = false)
  ok _ c x :=
    (∀ j n, j ≠ i → x.1.lock t = some ⟨j, n⟩ → (c.effect i x.1).lock t = some ⟨j, n⟩) ∧
    (∀ state, x.1.publishedState t = some state → (c.effect i x.1).publishedState t = some state ∨
      (∃ n, x.1.lock t = some ⟨i, n⟩) ∧ (c.effect i x.1).publishedGeneration t ≠ .legacy) ∧
    ∀ state, c = .setPublished t state → state.generation ≠ .legacy →
      ∃ n, x.1.lock t = some ⟨i, n⟩
  rely_refl _ _ := ⟨fun _ h => h, fun h => h, Or.inr ⟨rfl, rfl⟩⟩
  rely_trans _ x x' x'' h h' := by
    refine ⟨fun n hn => h'.1 n (h.1 n hn), fun hs => h'.2.1 (h.2.1 hs), ?_⟩
    rcases h'.2.2 with hs | ⟨hp', hr'⟩
    · exact Or.inl hs
    · rcases h.2.2 with hs | ⟨hp, hr⟩
      · exact Or.inl (h'.2.1 hs)
      · exact Or.inr ⟨hp'.trans hp, hr'.trans hr⟩

variable {scan : ScanOrder} {t : RetainedJobType} {i : ProcessId} {α : Type} {p : Redis α}
  {token : Token} {g : Generation} {x : Store × Watch}

/-- The commands of a process under the eyes of the ghost. -/
abbrev watching (scan : ScanOrder) (t : RetainedJobType) (i : ProcessId) (c : Command) :
    Store × Watch → c.Reply × (Store × Watch) :=
  (watch t).exec (exec scan) i c

/-- One command under the eyes of the ghost. -/
theorem wp_watched {D : Discipline Command Section (Store × Watch)} {c : Command}
    {Q : c.Answer → Store × Watch → Prop} :
    wp (watching scan t i) D (command c) Q (fun _ _ => True) x ↔
      ∀ x', D.rely [] x x' → D.assume [] c x' → D.ok [] c x' ∧
        (x'.1.failing = false →
          Q (c.answer scan i x'.1) (c.effect i x'.1, (watch t).own i c x'.1 x'.2)) := by
  rw [command, wp_op]
  apply forall_congr'
  intro x'
  apply imp_congr_right
  intro _
  apply imp_congr_right
  intro _
  apply and_congr_right
  intro _
  cases hfailing : x'.1.failing <;> simp [watching, Ghost.exec, exec, hfailing]

/-- The keys of the lock and of the published state. -/
def IsPointer (t : RetainedJobType) (k : Key) : Prop :=
  k = .lock t ∨ k = .published t ∨ k = .revision t

/-- A command that leaves the lock and the published state alone meets the obligation. -/
theorem pointing_ok_of_quiet (ls : List Section) {c : Command}
    (h : ∀ k ∈ c.writes, ¬IsPointer t k) : (pointing t i).ok ls c x := by
  have hsame : ∀ k, IsPointer t k → x.1.SameAt (c.effect i x.1) k :=
    fun k hk => Command.effect_sameAt fun hmem => h k hmem hk
  refine ⟨fun j n _ hj => ?_, fun state hstate => Or.inl ?_, ?_⟩
  · rw [show (c.effect i x.1).lock t = x.1.lock t from hsame _ (Or.inl rfl)]
    exact hj
  · rw [Store.publishedState_congr (hsame _ (Or.inr (Or.inl rfl))) (hsame _ (Or.inr (Or.inr rfl)))]
    exact hstate
  · rintro state rfl
    exact absurd (Or.inr (Or.inl rfl)) (h (.published t) List.mem_cons_self)

/-- A program that leaves the lock and the published state alone meets the discipline. -/
theorem pointing_of_quiet (h : Writes (fun k => ¬IsPointer t k) p) :
    wp (watching scan t i) (pointing t i) p (fun _ _ => True) (fun _ _ => True) x := by
  apply wp_mono (fun _ _ _ => trivial) (fun _ _ _ => trivial)
    (wp_of_obeys (Discipline.stable_const _ True) _ h trivial)
  exact fun ls c x hc _ _ => ⟨pointing_ok_of_quiet ls hc, trivial, trivial⟩

/-- A lease is held until a renewal is tried. -/
theorem leased_stable (hpid : token.pid = i) : (pointing t i).Stable (Leased t token) := by
  subst hpid
  exact fun ls x x' hr hx => hr.1 token.serial hx

/-- A command that leaves the lock alone keeps the lease, or is the renewal that is refused. -/
theorem leased_of_quiet {c : Command} (h : ∀ k ∈ c.writes, ¬IsPointer t k) (hx : Leased t token x) :
    Refused c (watching scan t i c x).1 ∨ Leased t token (watching scan t i c x).2 := by
  have hlock : (exec scan i c x.1).2.lock t = x.1.lock t :=
    exec_sameAt fun hmem => h _ hmem (Or.inl rfl)
  rcases hx with hlocked | hlate
  · -- the lock is left alone
    right
    left
    exact hlock.trans hlocked
  · by_cases hrenewal : ∃ seconds, c = .renewLock t token seconds
    · obtain ⟨seconds, rfl⟩ := hrenewal
      by_cases hfailing : x.1.failing = true
      · right
        right
        simp [watching, Ghost.exec, watch, hfailing, hlate]
      · by_cases hlocked : x.1.lock t = some token
        · right
          left
          exact hlock.trans hlocked
        · left
          simp [watching, Ghost.exec, exec, hfailing, Refused, Command.answer, hlocked]
    · right
      right
      have hsame := late_own_of_notRenewal (i := i) (s := x.1) (w := x.2)
        fun seconds hc => hrenewal ⟨seconds, hc⟩
      exact hsame.trans hlate

/-- **A program in the critical section** that leaves the lock and the published state alone and heeds
a refused renewal meets the discipline, and the lease is held where it returns. -/
theorem pointing_of_leased {R : α → Prop} (hpid : token.pid = i)
    (h : Obeys (Allows fun k => ¬IsPointer t k) (fun _ _ => True) p R) (hheeds : Heeding p)
    (hx : Leased t token x) :
    wp (watching scan t i) (pointing t i) p (fun a x => R a ∧ Leased t token x) (fun _ _ => True) x :=
  wp_of_heeds (leased_stable hpid) (fun ls _ _ hc _ => pointing_ok_of_quiet ls hc)
    (fun _ _ _ hc hx => leased_of_quiet hc hx) h hheeds hx

/-- A temporary key is none of the published state. -/
theorem notIsPointer_temporary (k : Token) : ¬IsPointer t (.sortedSet (.temporary k)) := by
  rintro (h | h | h) <;> cases h

/-- Neither is a key of a slot. -/
theorem notIsPointer_slot {k : Key} (h : k.InSlot t g) : ¬IsPointer t k := by
  rintro (rfl | rfl | rfl) <;> exact h

/-- Neither is the metadata. -/
theorem notIsPointer_metadata : ¬IsPointer t .metadata := by
  rintro (h | h | h) <;> cases h

/-- Neither is the owner. -/
theorem notIsPointer_owner : ¬IsPointer t .owner := by
  rintro (h | h | h) <;> cases h

/-- Neither is the mark of an initialized slot. -/
theorem notIsPointer_initialized : ¬IsPointer t (.initialized t g) := by
  rintro (h | h | h) <;> cases h

/-! ## The lock -/

/-- A lock that is acquired holds the token, which is one of the process itself. -/
theorem acquireSynchronizationLock_pointing :
    wp (watching scan t i) (pointing t i) (acquireSynchronizationLock t)
      (fun token x => ∀ token', token = some token' → token'.pid = i ∧ Leased t token' x)
      (fun _ _ => True) x := by
  apply wp_bind.mpr
  apply wp_watched.mpr
  intro x _ _
  refine ⟨pointing_ok_of_quiet [] (by simp [Command.writes]), fun _ => ?_⟩
  apply wp_bind.mpr
  apply wp_watched.mpr
  intro x' _ _
  constructor
  · refine ⟨fun j n hj hlock => ?_, fun state hstate => Or.inl ?_, fun state h => by cases h⟩
    · simp [Command.effect, hlock]
    · simp only [Command.effect]
      split <;> exact hstate
  · intro _ token' h
    cases hlock : x'.1.lock t with
    | none =>
        simp only [Command.answer, hlock, Option.isSome_none, Bool.not_false, if_true,
          Option.some.injEq] at h
        subst h
        constructor
        · rfl
        · left
          simp [Command.effect, Command.answer, hlock]
    | some token'' => simp [Command.answer, hlock] at h

/-- Releasing the lock takes it from nobody else. -/
theorem releaseSynchronizationLock_pointing (hpid : token.pid = i) :
    wp (watching scan t i) (pointing t i) (releaseSynchronizationLock t token)
      (fun _ _ => True) (fun _ _ => True) x := by
  apply wp_tryCatch.mpr
  apply wp_watched.mpr
  intro x _ _
  refine ⟨⟨fun j n hj hlock => ?_, fun state hstate => Or.inl ?_, fun state h => by cases h⟩,
    fun _ => trivial⟩
  · have hne : (⟨j, n⟩ : Token) ≠ token := fun heq => hj (by rw [← hpid, ← heq])
    simp [Command.effect, hlock, hne]
  · simp only [Command.effect]
    split <;> exact hstate

/-! ## Publishing -/

variable (index : RetainedJobIndex) {heartbeat : Redis Unit} {source : SourceSnapshot}
  {requiredFacets : List (FacetDimension × String)}
  {requiredCatalogPartitions : List FacetDimension}

/-- The working generation is never the legacy one. -/
theorem prepareWorkingGeneration_obeys (hh : ∀ K, Writes K heartbeat) :
    Obeys (Allows fun k => ¬IsPointer t k) (fun _ _ => True)
      (index.prepareWorkingGeneration t heartbeat) fun g => g ≠ .legacy := by
  apply Obeys.bind publishedState_writes
  intro state _
  apply Obeys.bind (initializeWorkingGeneration_writes index (fun k hk => notIsPointer_slot hk)
    notIsPointer_initialized (hh _))
  exact fun _ _ => workingGenerationFor_ne_legacy _

/-- The publication of the working generation is made by the holder of the lock, unless it is late. -/
theorem publishWorkingGeneration_pointing (hpid : token.pid = i) (hg : g ≠ .legacy)
    (hx : Leased t token x) :
    wp (watching scan t i) (pointing t i)
      (index.publishWorkingGeneration (some (t, g)) t g token source)
      (fun _ _ => True) (fun _ _ => True) x := by
  have hrest : ∀ replaced (x : Store × Watch), wp (watching scan t i) (pointing t i)
      ((index.removeUnretainedMetadataFromGeneration (some (t, g)) t replaced token
        source).tryCatch fun _ => return ()) (fun _ _ => True) (fun _ _ => True) x :=
    fun replaced x => pointing_of_quiet (.tryCatch (removeUnretainedMetadataFromGeneration_writes
      notIsPointer_temporary index notIsPointer_metadata) fun _ => .ret)
  apply wp_bind_of (Q := fun _ _ => True) _ fun replaced x _ => hrest replaced x
  apply wp_inside.mpr
  have hheld : ∀ {β : Type} {q : Redis β} {x : Store × Watch},
      Writes (fun k => ¬IsPointer t k) q → Heeding q → Leased t token x →
      wp (watching scan t i) ((pointing t i).push (.synchronizing t token)) q
        (fun _ x => Leased t token x) (fun _ _ => True) x := by
    intro β q x hq hheeds hx
    have hwp : wp (watching scan t i) (pointing t i) (q.inside (.synchronizing t token))
        (fun _ x => True ∧ Leased t token x) (fun _ _ => True) x :=
      pointing_of_leased hpid (Obeys.inside hq) hheeds.inside hx
    exact wp_mono (fun _ _ h => h.2) (fun _ _ h => h) (wp_inside.mp hwp)
  apply wp_bind_of (hheld publishedState_writes publishedState_heeding hx)
  intro state x hx
  apply wp_bind_of (hheld randomToken_writes randomToken_heeding hx)
  intro revision x hx
  refine wp_bind_of (Q := fun _ _ => True) ?_ fun _ _ _ => trivial
  apply wp_bind_of (wp_ifThen (Q := fun _ x => Leased t token x) (fun h => absurd h hg) fun _ => hx)
  intro _ x hx
  apply wp_watched.mpr
  intro x' hr ha
  refine ⟨?_, fun _ => trivial⟩
  -- the process is not late, so it holds the lock
  have hlocked : x'.1.lock t = some token := by
    rcases (leased_stable hpid).push _ [] x x' hr hx with hlocked | hlate
    · exact hlocked
    · rw [ha.1 _ token rfl List.mem_cons_self] at hlate
      cases hlate
  have hlock : ∃ n, x'.1.lock t = some ⟨i, n⟩ := ⟨token.serial, hpid ▸ hlocked⟩
  refine ⟨fun j n _ hj => hj, fun state _ => Or.inr ⟨hlock, ?_⟩, fun _ _ _ => hlock⟩
  simpa [Command.effect, Store.publishedGeneration, Store.publishedState] using hg

/-- What the process has read holds until it is stale. -/
theorem nothing_stable {revision : Option Token} :
    (pointing t i).Stable (Nothing t i revision) := by
  rintro ls x x' ⟨-, hstale, hsame⟩ (hs | ⟨hp, hr⟩)
  · exact Or.inl (hstale hs)
  · rcases hsame with hs | ⟨hp', hr'⟩
    · exact Or.inl hs
    · exact Or.inr ⟨hp'.trans hp, hr'.trans hr⟩

/-- Storing the legacy state replaces nothing, unless what was read is stale. -/
theorem ensureSynchronizationRevision_pointing :
    wp (watching scan t i) (pointing t i) (ensureSynchronizationRevision t)
      (fun _ _ => True) (fun _ _ => True) x := by
  have hread : ∀ {c : Command} {x : Store × Watch} ls, c.writes = [] →
      (pointing t i).ok ls c x := fun ls h => pointing_ok_of_quiet ls (by simp [h])
  apply wp_bind_of (Q := fun state x => state = none → Nothing t i none x)
  · apply wp_bind.mpr
    apply wp_watched.mpr
    intro x _ _
    refine ⟨hread [] rfl, fun hfailing => ?_⟩
    cases hp : x.1.published t with
    | some state =>
        simp only [Command.answer, hp]
        rintro ⟨⟩
    | none =>
        simp only [Command.answer, hp]
        apply wp_bind.mpr
        apply wp_inside.mpr
        apply wp_watched.mpr
        intro x' hr _
        refine ⟨hread [.ensuring t] rfl, fun _ => ?_⟩
        simp only [Command.answer, Command.effect, Prog.pure_eq_ret, wp_ret, Option.map_eq_none_iff]
        intro hrevision
        -- what is read second is as it is now, what was read first unless that is stale
        rcases hr.2.2 with hs | ⟨hp', -⟩
        · left
          rw [stale_own_self rfl]
          exact hs
        · right
          exact ⟨hp'.trans hp, hrevision⟩
  · intro state x hx
    cases state with
    | some state => trivial
    | none =>
        apply wp_inside.mpr
        apply wp_bind_of (Q := fun _ x => Nothing t i none x)
        · apply wp_watched.mpr
          intro x' hr _
          refine ⟨hread [.ensuring t] rfl, fun _ => ?_⟩
          rcases nothing_stable [] x x' hr (hx rfl) with hs | hnone
          · left
            rw [stale_own_self rfl]
            exact hs
          · exact Or.inr hnone
        · intro revision x hx
          have hstores : StoresState t (.setRevision t revision) := Or.inr List.mem_cons_self
          apply wp_bind_of (wp_ifThen (Q := fun _ x => Nothing t i (some revision) x) _
            fun h => absurd rfl h)
          · intro _ x hx
            apply wp_watched.mpr
            intro x' hr ha
            refine ⟨⟨fun j n _ hj => hj, fun state hstate => Or.inl ?_, fun state h hne => ?_⟩,
              fun _ => trivial⟩
            · have hfresh := ha.2 List.mem_cons_self (Or.inl List.mem_cons_self)
              rcases nothing_stable [] x x' hr hx with hs | ⟨hp, hv⟩
              · rw [hfresh] at hs
                cases hs
              · rw [Store.publishedState, hp, hv] at hstate
                simpa [Command.effect, Store.publishedState] using hstate
            · cases h
              exact absurd rfl hne
          · intro _
            apply wp_watched.mpr
            intro x' hr ha
            have hfresh := ha.2 List.mem_cons_self hstores
            rcases nothing_stable [] x x' hr hx with hs | ⟨hp, hv⟩
            · rw [hfresh] at hs
              cases hs
            · refine ⟨⟨fun j n _ hj => hj, fun state hstate => ?_, fun state h => by cases h⟩,
                fun _ => Or.inr ⟨hp, by simp [Command.effect]⟩⟩
              rw [Store.publishedState, hp, hv] at hstate
              cases hstate

/-! ## Whole synchronizations -/

/-- The body of a critical section meets the discipline, and the lease is held after it. -/
theorem underLock_pointing (hpid : token.pid = i) (hh : ∀ K, Writes K heartbeat)
    (hheeds : Heeding heartbeat) {β : Type} {body : Generation → Redis β} (gen : β → Generation)
    (hbody : ∀ g K, (∀ k, K (.sortedSet (.temporary k))) → (∀ k, k.InSlot t g → K k) →
      K .metadata → Obeys (Allows K) (fun _ _ => True) (body g) fun b => gen b = g)
    (hbodyHeeds : ∀ g, Heeding (body g)) (hx : Leased t token x) :
    wp (watching scan t i) (pointing t i)
      (Prog.inside (.synchronizing t token) do
        let g ← index.prepareWorkingGeneration t heartbeat
        body g) (fun b x => gen b ≠ .legacy ∧ Leased t token x) (fun _ _ => True) x := by
  have hobeys : Obeys (Allows fun k => ¬IsPointer t k) (fun _ _ => True)
      (index.prepareWorkingGeneration t heartbeat >>= body) fun b => gen b ≠ .legacy := by
    apply Obeys.bind (prepareWorkingGeneration_obeys index hh)
    intro g hg
    apply (hbody g _ notIsPointer_temporary (fun k hk => notIsPointer_slot hk)
      notIsPointer_metadata).weaken
    rintro b rfl
    exact hg
  have hheeding : Heeding (index.prepareWorkingGeneration t heartbeat >>= body) :=
    (prepareWorkingGeneration_heeding index hheeds).bind hbodyHeeds
  exact pointing_of_leased hpid (Obeys.inside hobeys) hheeding.inside hx

/-- `synchronizeSnapshot` meets the discipline. -/
theorem synchronizeSnapshot_pointing {synchronized force : Bool} :
    wp (watching scan t i) (pointing t i) (index.synchronizeSnapshot synchronized t source force
      requiredFacets requiredCatalogPartitions) (fun _ _ => True) (fun _ _ => True) x := by
  have hconsistent : Writes (fun k => ¬IsPointer t k) (index.indexIsConsistent none t
      requiredFacets requiredCatalogPartitions source (renewSourceSnapshot source)) :=
    indexIsConsistent_writes notIsPointer_temporary index renewSourceSnapshot_writes
  apply wp_bind_of (pointing_of_quiet (.ite hconsistent .ret))
  intro consistent x _
  split
  · trivial
  apply wp_bind_of (pointing_of_quiet (assertNamespaceOwnership_writes notIsPointer_owner))
  intro _ x _
  apply wp_bind_of (pointing_of_quiet (.ite hconsistent .ret))
  intro consistent x _
  split
  · trivial
  apply wp_bind_of acquireSynchronizationLock_pointing
  intro token x htoken
  cases token with
  | none =>
      exact pointing_of_quiet ((Writes.ite .ret (hconsistent.bind fun _ => .ret)).bind fun _ =>
        .ite .throwRuntime .ret)
  | some token =>
      obtain ⟨hpid, hx⟩ := htoken token rfl
      apply wp_tryFinally_of (Q := fun _ _ => True) (E := fun _ _ => True) _
        (fun _ _ _ => releaseSynchronizationLock_pointing hpid)
        fun _ _ _ => releaseSynchronizationLock_pointing hpid
      apply wp_bind_of (underLock_pointing index hpid (fun _ => renewSynchronizationState_writes)
        renewSynchronizationState_heeding id _ _ hx)
      · exact fun g x hg => publishWorkingGeneration_pointing index hpid hg.1 hg.2
      · intro g K htemp hslot hmeta
        exact Obeys.bind (synchronizeSnapshotUnderLock_writes htemp index hslot hmeta
          renewSynchronizationState_writes) fun _ _ => rfl
      · exact fun g => (synchronizeSnapshotUnderLock_heeding index
          renewSynchronizationState_heeding).bind fun _ => .ret

/-- `synchronizeGrowingSourceSnapshot` meets the discipline. -/
theorem synchronizeGrowingSourceSnapshot_pointing :
    wp (watching scan t i) (pointing t i) (index.synchronizeGrowingSourceSnapshot t source
      requiredFacets requiredCatalogPartitions) (fun _ _ => True) (fun _ _ => True) x := by
  apply wp_bind_of (pointing_of_quiet (assertNamespaceOwnership_writes notIsPointer_owner))
  intro _ x _
  apply wp_bind_of acquireSynchronizationLock_pointing
  intro token x htoken
  cases token with
  | none => trivial
  | some token =>
      obtain ⟨hpid, hx⟩ := htoken token rfl
      apply wp_tryFinally_of (Q := fun _ _ => True) (E := fun _ _ => True) _
        (fun _ _ _ => releaseSynchronizationLock_pointing hpid)
        fun _ _ _ => releaseSynchronizationLock_pointing hpid
      apply wp_bind_of (underLock_pointing index hpid (fun _ => renewSynchronizationState_writes)
        renewSynchronizationState_heeding Prod.fst _ _ hx)
      · exact fun r x hr => wp_bind_of (publishWorkingGeneration_pointing index hpid hr.1 hr.2)
          fun _ _ _ => trivial
      · intro g K htemp hslot hmeta
        apply Obeys.bind (synchronizeSnapshotUnderLock_writes htemp index hslot hmeta
          renewSynchronizationState_writes)
        intro _ _
        apply Obeys.bind trimSource_writes
        intro _ _
        apply Obeys.bind (refreshSourceSnapshot_writes htemp index
          renewSynchronizationState_writes)
        intro source _
        exact Obeys.bind (synchronizeSnapshotUnderLock_writes htemp index hslot hmeta
          renewSynchronizationState_writes) fun _ _ => rfl
      · intro g
        apply (synchronizeSnapshotUnderLock_heeding index renewSynchronizationState_heeding).bind
        intro _
        apply trimSource_heeding.bind
        intro _
        apply (refreshSourceSnapshot_heeding index renewSynchronizationState_heeding).bind
        exact fun source => (synchronizeSnapshotUnderLock_heeding index
          renewSynchronizationState_heeding).bind fun _ => .ret

/-- A whole call of `synchronize` meets the discipline. -/
theorem synchronize_pointing {trimmed synchronized force : Bool} :
    wp (watching scan t i) (pointing t i) (index.synchronize trimmed synchronized t force
      requiredFacets requiredCatalogPartitions) (fun _ _ => True) (fun _ _ => True) x := by
  have hdelete : ∀ (k : Token) x, wp (watching scan t i) (pointing t i) (deleteQuietly k)
      (fun _ _ => True) (fun _ _ => True) x :=
    fun k x => pointing_of_quiet (deleteQuietly_writes notIsPointer_temporary)
  apply Scoped.wp_scope (Scoped.wp_bind_of (Q := fun _ _ => True) _ fun _ x _ =>
    Scoped.wp_lift ensureSynchronizationRevision_pointing) (fun _ k x _ => hdelete k x)
    fun _ k x _ => hdelete k x
  apply Scoped.wp_bind_of (Scoped.wp_lift (pointing_of_quiet (.ite trimSource_writes .ret)))
  intro _ x _
  apply Scoped.wp_bind_of (Scoped.wp_lift (pointing_of_quiet
    (materializeSourceSnapshot_writes notIsPointer_temporary)))
  intro snapshot x _
  apply Scoped.wp_bind_of (Q := fun _ _ => True) (Scoped.wp_register trivial)
  intro _ x _
  apply Scoped.wp_lift
  apply wp_bind_of (pointing_of_quiet (.ite (indexIsConsistent_writes notIsPointer_temporary index
    renewSourceSnapshot_writes) .ret))
  intro consistent x _
  split
  · apply wp_bind_of (pointing_of_quiet trimSource_writes)
    intro _ x _
    apply wp_bind_of (pointing_of_quiet (refreshSourceSnapshot_writes notIsPointer_temporary index
      renewSourceSnapshot_writes))
    intro refreshed x _
    exact wp_bind_of (synchronizeSnapshot_pointing index) fun _ _ _ => trivial
  · exact synchronizeGrowingSourceSnapshot_pointing index

/-! ## Whole runs -/

/-- The changes of the world under the eyes of the ghost. -/
abbrev WatchedWorld (t : RetainedJobType) : Store × Watch → Store × Watch → Prop :=
  (watch t).World (PointerWorld t)

/-- **Step**: a timely step leads from a configuration in which every process meets its discipline to
another one. -/
theorem pointing_step {c c' : WatchedSystem} {e : Event ProcessId}
    (h : c.Good (watching scan t) (pointing t))
    (hs : Step (watching scan t) (WatchedWorld t) c e c') (hc : Timely t c e c') :
    c'.Good (watching scan t) (pointing t) := by
  apply h.step hs
  · exact fun j ls o next he hj => hc j ls o next he hj
  · intro j ls o next hj hop
    cases hs with
    | @run i ls' o' next' hi =>
        have hij : j ≠ i := fun heq => hj (by rw [heq])
        obtain ⟨hlock, -, -⟩ := h.ok hi (hc i ls' o' next' rfl hi)
        refine ⟨fun n hn => ?_, stale_own_of_ne hij, stale_or_same hij⟩
        rcases hn with hlocked | hlate
        · left
          show (exec scan i o' c.store.1).2.lock t = some ⟨j, n⟩
          unfold exec
          split
          · exact hlocked
          · exact hlock j n hij hlocked
        · right
          exact (late_own_of_ne hij).trans hlate
    | crash => exact (pointing t j).rely_refl ls c.store
    | @world x' hw =>
        obtain ⟨⟨hlock, hpublished⟩, hghost⟩ := hw
        have hstale : x'.2.stale = c.store.2.stale := by rw [hghost]; rfl
        refine ⟨fun n hn => ?_, fun hs => by rw [hstale]; exact hs, Or.inr hpublished⟩
        rw [Leased, hghost]
        rcases hn with hlocked | hlate
        · by_cases hkept : x'.1.lock t = some ⟨j, n⟩
          · exact Or.inl hkept
          · exact Or.inr (late_world hlocked hkept)
        · exact Or.inr (late_world_of_late hlate)

/-- **Run**: in a timely run every process keeps meeting its discipline. -/
theorem pointing_of_reaches {c d : WatchedSystem}
    (hstart : ∀ i, ∃ (index : RetainedJobIndex) (trimmed synchronized force : Bool)
      (requiredFacets : List (FacetDimension × String))
      (requiredCatalogPartitions : List FacetDimension),
      c.prog i = index.synchronize trimmed synchronized t force requiredFacets
        requiredCatalogPartitions)
    (h : Reaches (watching scan t) (WatchedWorld t) (Timely t) c d) :
    d.Good (watching scan t) (pointing t) := by
  apply h.invariant (fun _ _ _ hd hs hc => pointing_step hd hs hc)
  intro i
  obtain ⟨index, trimmed, synchronized, force, facets, partitions, hi⟩ := hstart i
  rw [hi]
  exact synchronize_pointing index

/-- **Timely runs**: a step that replaces a published state is taken by the process that holds the
lock, and does not replace it by the legacy generation; and no process publishes a generation without
holding the lock. Leases may lapse at any time. -/
theorem timely_replacement {c d d' : WatchedSystem} {e : Event ProcessId}
    (hstart : ∀ i, ∃ (index : RetainedJobIndex) (trimmed synchronized force : Bool)
      (requiredFacets : List (FacetDimension × String))
      (requiredCatalogPartitions : List FacetDimension),
      c.prog i = index.synchronize trimmed synchronized t force requiredFacets
        requiredCatalogPartitions)
    (hreach : Reaches (watching scan t) (WatchedWorld t) (Timely t) c d)
    (hstep : Step (watching scan t) (WatchedWorld t) d e d') (htimely : Timely t d e d') :
    (∀ state, d.store.1.publishedState t = some state → d'.store.1.publishedState t ≠ some state →
      ∃ i n, e = .run i ∧ d.store.1.lock t = some ⟨i, n⟩ ∧
        d'.store.1.publishedGeneration t ≠ .legacy) ∧
    ∀ i ls state next, e = .run i → d.prog i = .op ls (.setPublished t state) next →
      state.generation ≠ .legacy → ∃ n, d.store.1.lock t = some ⟨i, n⟩ := by
  have hgood := pointing_of_reaches hstart hreach
  constructor
  · intro state hstate hne
    cases hstep with
    | @run i ls o next hi =>
        obtain ⟨-, hpublished, -⟩ := hgood.ok hi (htimely i ls o next rfl hi)
        by_cases hfailing : d.store.1.failing = true
        · simp only [watching, Ghost.exec, exec, hfailing, if_true] at hne
          exact absurd hstate hne
        · simp only [watching, Ghost.exec, exec, hfailing, Bool.false_eq_true, if_false] at hne ⊢
          obtain ⟨⟨n, hn⟩, hg⟩ := (hpublished state hstate).resolve_left hne
          exact ⟨i, n, rfl, hn, hg⟩
    | crash => exact absurd hstate hne
    | world hw =>
        rw [Store.publishedState_congr (t := t) hw.1.2.1 hw.1.2.2] at hne
        exact absurd hstate hne
  · intro i ls state next he hi hg
    exact (hgood.ok hi (htimely i ls _ next he hi)).2.2 state rfl hg

/-- **Late writes are what replaces a published state**: a run of the system in which a step replaces
it and is not taken by the holder of the lock has a step that is not timely. -/
theorem untimely_of_replaced {c d d' : PointerSystem} {e : Event ProcessId} {state : PublishedState}
    (hstart : ∀ i, ∃ (index : RetainedJobIndex) (trimmed synchronized force : Bool)
      (requiredFacets : List (FacetDimension × String))
      (requiredCatalogPartitions : List FacetDimension),
      c.prog i = index.synchronize trimmed synchronized t force requiredFacets
        requiredCatalogPartitions)
    (hreach : Reaches (exec scan) (PointerWorld t) (fun _ _ _ => True) c d)
    (hstep : Step (exec scan) (PointerWorld t) d e d')
    (hstate : d.store.publishedState t = some state)
    (hreplaced : d'.store.publishedState t ≠ some state)
    (hlock : ∀ i n, e = .run i → d.store.lock t ≠ some ⟨i, n⟩) :
    ∃ y e' y', Reaches (watching scan t) (WatchedWorld t) (fun _ _ _ => True)
        (c.watched Watch.start) y ∧
      Step (watching scan t) (WatchedWorld t) y e' y' ∧ ¬Timely t y e' y' := by
  obtain ⟨w, hwatched⟩ := hreach.watch (γ := watch t) Watch.start
  obtain ⟨w', hstep'⟩ := hstep.watch (γ := watch t) w
  rcases @Reaches.admitted_or_not _ _ _ _ _ _ _ _ _ _ (Timely t) _ _ hwatched with htimely | hlate
  · refine ⟨_, _, _, hwatched, hstep', fun hnow => ?_⟩
    obtain ⟨i, n, he, hn, -⟩ :=
      (timely_replacement hstart htimely hstep' hnow).1 state hstate hreplaced
    exact hlock i n he hn
  · exact hlate

/-! ## A timely run -/

/-- Processes that synchronize an empty pending index: process 0 only if it is not consistent, the
others in any case. -/
def pointerSystem : PointerSystem where
  prog i := (⟨500, 3⟩ : RetainedJobIndex).synchronize false false .pending (i ≠ 0) [] []
  store := .empty

/-- The command a process sends next. -/
def nextCommand {S : Type} (d : Config ProcessId Command Command.Reply Section Failure S Unit)
    (i : ProcessId) : Option Command :=
  match d.prog i with
  | .op _ c _ => some c
  | _ => none

/-- What the next command of a process does, as a step. -/
theorem step_of_nextCommand {S : Type} {exec : ProcessId → (c : Command) → S → c.Reply × S}
    {world : S → S → Prop} {d : Config ProcessId Command Command.Reply Section Failure S Unit}
    {i : ProcessId} (h : (nextCommand d i).isSome) :
    Step exec world d (.run i) (d.move exec (.run i)) := by
  unfold nextCommand at h
  cases hi : d.prog i with
  | op ls c next => exact Config.step_move hi
  | _ => simp [hi] at h

/-- Whether a move on the pending index is timely. -/
def checkTimely (d : WatchedSystem) : Move ProcessId (Store × Watch) → Bool
  | .run i =>
      match d.prog i with
      | .op ls c _ =>
          (match c with
            | .setPublished .pending _ => ls.all fun
                | .synchronizing .pending token => !d.store.2.late token
                | _ => true
            | _ => true) &&
          (!decide (StoresState .pending c) || !ls.any (fun
            | .ensuring .pending => true
            | _ => false) || !d.store.2.stale i)
      | _ => true
  | _ => true

/-- A checked move is timely. -/
theorem timely_of_check {d : WatchedSystem} {m : Move ProcessId (Store × Watch)}
    (h : checkTimely d m = true) :
    Timely .pending d m.event (d.move (watching scan .pending) m) := by
  intro i ls c next he hi
  cases m with
  | crash j => cases he
  | world f => cases he
  | run j =>
      obtain rfl : j = i := Event.run.inj he
      simp only [checkTimely, hi, Bool.and_eq_true, Bool.or_eq_true, Bool.not_eq_true',
        decide_eq_false_iff_not] at h
      obtain ⟨hlate, hstale⟩ := h
      constructor
      · rintro state token rfl hsection
        simpa using List.all_eq_true.mp hlate _ hsection
      · intro hsection hstores
        rcases hstale with (hno | hsections) | hfresh
        · exact absurd hstores hno
        · have hany := List.any_eq_false.mp hsections _ hsection
          simp at hany
        · exact hfresh

/-- The lock expires. -/
def lapse : Move ProcessId (Store × Watch) :=
  .world fun x =>
    let s := { x.1 with lock := Function.update x.1.lock .pending none }
    (s, (watch .pending).world x.1 s x.2)

/-- Process 0 stores the legacy state; the lease of process 3 lapses, and its next renewal is refused;
process 1 publishes slot `a`; process 2 is about to publish slot `b`. -/
def timelySchedule : List (Move ProcessId (Store × Watch)) :=
  List.replicate 100 (.run 0) ++ (List.replicate 18 (.run 3) ++ lapse ::
    List.replicate 60 (.run 3)) ++ List.replicate 190 (.run 1) ++ List.replicate 170 (.run 2)

/-- The exception a process has ended with. -/
def ending (d : WatchedSystem) (i : ProcessId) : Option Failure :=
  match d.prog i with
  | .fail e => some e
  | _ => none

/-- Slot `b` replaces slot `a` in the hands of the process that holds the lock; the process whose
lease has lapsed has thrown. -/
theorem timely_replacement_in_turn :
    let d := (pointerSystem.watched Watch.start).play (watching .single .pending) timelySchedule
    let d' := d.move (watching .single .pending) (.run 2)
    ending d 3 = some (.runtime "The retained job synchronization lock expired.") ∧
      d.store.1.publishedState .pending = some ⟨.a, ⟨1, 10⟩⟩ ∧
      d'.store.1.publishedState .pending = some ⟨.b, ⟨2, 10⟩⟩ ∧
      ∃ i n, Event.run 2 = .run i ∧ d.store.1.lock .pending = some ⟨i, n⟩ ∧
        d'.store.1.publishedGeneration .pending ≠ .legacy := by
  intro d d'
  have hthrown : ending d 3 = some (.runtime "The retained job synchronization lock expired.") := by
    decide +kernel
  have hpublished : d.store.1.publishedState .pending = some ⟨.a, ⟨1, 10⟩⟩ := by decide +kernel
  have hreplaced : d'.store.1.publishedState .pending = some ⟨.b, ⟨2, 10⟩⟩ := by decide +kernel
  have hnext : (nextCommand d 2).isSome := by decide +kernel
  have hcheck : checkTimely d (.run 2) = true := by decide +kernel
  have htimely : Timely .pending d (.run 2) d' := timely_of_check hcheck
  have hpasses : (pointerSystem.watched Watch.start).passes (watching .single .pending) checkTimely
      timelySchedule = true := by decide +kernel
  have hreach : Reaches (watching .single .pending) (WatchedWorld .pending) (Timely .pending)
      (pointerSystem.watched Watch.start) d := by
    apply Config.reaches_play_of_passes (fun _ _ => timely_of_check) _ hpasses
    intro f hf x
    obtain rfl : f = _ := by
      simpa only [timelySchedule, lapse, List.mem_append, List.mem_cons, List.mem_replicate,
        reduceCtorEq, and_false, or_false, false_or, Move.world.injEq] using hf
    exact ⟨⟨Or.inr (by simp), rfl, rfl⟩, rfl⟩
  have hstep : Step (watching .single .pending) (WatchedWorld .pending) d (.run 2) d' :=
    step_of_nextCommand hnext
  clear_value d d'
  have hne : d'.store.1.publishedState .pending ≠ some ⟨.a, ⟨1, 10⟩⟩ := by
    rw [hreplaced]
    decide
  exact ⟨hthrown, hpublished, hreplaced,
    (timely_replacement (fun _ => ⟨_, _, _, _, _, _, rfl⟩) hreach hstep htimely).1 _
      hpublished hne⟩

/-! ## Two ways to replace the published state -/

/-- Process 0 finds the index consistent and reads that no state is published; process 1 publishes
slot `a` and is done; process 0 is about to store the legacy state. -/
def legacySchedule : List (Move ProcessId Store) :=
  List.replicate 90 (.run 0) ++ List.replicate 190 (.run 1) ++ List.replicate 3 (.run 0)

/-- **The legacy state replaces a generation**: a process that holds no lock and found the index
consistent makes the published generation `a` the legacy one. -/
theorem published_state_replaced : ∃ (d d' : PointerSystem),
    Reaches (exec .single) (PointerWorld .pending) (fun _ _ _ => True) pointerSystem d ∧
      Step (exec .single) (PointerWorld .pending) d (.run 0) d' ∧
      d.store.publishedGeneration .pending = .a ∧ d.store.lock .pending = none ∧
      d'.store.publishedGeneration .pending = .legacy := by
  have hnext : (nextCommand (pointerSystem.play (exec .single) legacySchedule) 0).isSome := by
    decide +kernel
  refine ⟨pointerSystem.play (exec .single) legacySchedule, _,
    Config.reaches_play legacySchedule (fun f hf => ?_) pointerSystem, step_of_nextCommand hnext,
    by decide +kernel, by decide +kernel, by decide +kernel⟩
  simp only [legacySchedule, List.mem_append, List.mem_replicate, reduceCtorEq, and_false,
    or_false] at hf

/-- The lease of process 1 expires when it is about to publish, and process 2 publishes. -/
def lapsedPublication : List (Move ProcessId Store) :=
  List.replicate 173 (.run 1) ++
    .world (fun s => { s with lock := Function.update s.lock .pending none }) ::
      List.replicate 190 (.run 2)

/-- **A lapsed lease publishes**: a process that has lost the lock replaces the state another
process has published. -/
theorem published_after_lapse : ∃ (d d' : PointerSystem) (state : PublishedState),
    Reaches (exec .single) (PointerWorld .pending) (fun _ _ _ => True) pointerSystem d ∧
      Step (exec .single) (PointerWorld .pending) d (.run 1) d' ∧
      d.store.publishedState .pending = some state ∧ d.store.lock .pending = none ∧
      d'.store.publishedState .pending ≠ some state := by
  have hnext : (nextCommand (pointerSystem.play (exec .single) lapsedPublication) 1).isSome := by
    decide +kernel
  refine ⟨pointerSystem.play (exec .single) lapsedPublication, _, ⟨.a, ⟨2, 10⟩⟩,
    Config.reaches_play lapsedPublication (fun f hf s => ?_) pointerSystem,
    step_of_nextCommand hnext, by decide +kernel, by decide +kernel, by decide +kernel⟩
  obtain rfl : f = fun s => { s with lock := Function.update s.lock .pending none } := by
    simpa only [lapsedPublication, List.mem_append, List.mem_cons, List.mem_replicate, reduceCtorEq,
      and_false, or_false, false_or, Move.world.injEq] using hf
  exact ⟨Or.inr (by simp), rfl, rfl⟩

end RetainedJobIndex

end HorizonNewDawn

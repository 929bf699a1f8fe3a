import HorizonNewDawn.Jobs.RetainedJobIndex.Inspection
import HorizonNewDawn.Program.Termination
import Mathlib.Data.List.ReduceOption

/-! # The retained-job index: filing what is missing

The synchronizer files the references a slot lacks, as projected jobs or as unresolved references. What
is filed where is decided by the metadata and by the clock that `hydrateAndStore` has read on the way,
so its runs are looked at with what they have read (`recording`). `Filed` says where every reference
has gone and on what grounds.

Nobody else writes the projection and the unresolved references of a slot that is synchronized, or the
temporary keys of the process (`sheltering`), and the two sets of the slot never have a member in
common (`Split`). -/

namespace HorizonNewDawn

open Program

namespace RetainedJobIndex

variable {t : RetainedJobType} {g : Generation} {source : SourceSnapshot} {i : ProcessId}
  {scan : ScanOrder} {s s' : Store} {α : Type}

/-! ## What nobody else touches -/

/-- The sorted sets of a synchronization: the projection and the unresolved references of the slot, the
source snapshot and the temporary keys in `own`. -/
def Sheltered (t : RetainedJobType) (g : Generation) (source : SourceSnapshot) (own : Token → Prop) :
    SortedSetKey → Prop
  | .projection t' g' => t' = t ∧ g' = g
  | .unresolved t' g' => t' = t ∧ g' = g
  | .temporary k => k = source.key ∨ own k
  | _ => False

/-- What leaves these sets alone. -/
structure Spares (t : RetainedJobType) (g : Generation) (source : SourceSnapshot) (i : ProcessId)
    (own : Token → Prop) (s s' : Store) : Prop where
  zset : ∀ k, Sheltered t g source own k → s'.zset k = s.zset k
  serial : s.serial i ≤ s'.serial i

/-- The projection and the unresolved references of a slot have no member in common. -/
def Split (t : RetainedJobType) (g : Generation) (s : Store) : Prop :=
  ∀ id ∈ s.zset (.projection t g), id ∉ s.zset (.unresolved t g)

/-- The circumstances of a synchronizer: the others spare its sets and all its temporary keys, and its
commands keep the projection and the unresolved references apart. -/
def sheltering (t : RetainedJobType) (g : Generation) (source : SourceSnapshot) (scan : ScanOrder)
    (i : ProcessId) : Discipline Command Section Store where
  rely _ := Spares t g source i fun k => k.pid = i
  assume _ _ _ := True
  ok _ c s := Split t g (exec scan i c s).2
  rely_refl _ _ := ⟨fun _ _ => rfl, le_rfl⟩
  rely_trans _ _ _ _ h h' :=
    ⟨fun k hk => (h'.zset k hk).trans (h.zset k hk), h.serial.trans h'.serial⟩

/-- An assertion about the sheltered sets that keeps the projection and the unresolved references
apart. -/
structure Guards (t : RetainedJobType) (g : Generation) (source : SourceSnapshot) (i : ProcessId)
    (own : Token → Prop) (Φ : Store → Prop) : Prop where
  drawn : ∀ k, own k → k.pid = i
  stable : ∀ s s', Spares t g source i own s s' → Φ s → Φ s'
  split : ∀ s, Φ s → Split t g s

variable {own : Token → Prop} {Φ Ψ : Store → Prop}

/-- The failing of a connection spares the slot. -/
theorem spares_failing (s : Store) (b : Bool) :
    Spares t g source i own s { s with failing := b } := ⟨fun _ _ => rfl, le_rfl⟩

/-- A spared slot keeps its projection. -/
theorem Spares.projection (h : Spares t g source i own s s') :
    s'.zset (.projection t g) = s.zset (.projection t g) := h.zset (.projection t g) ⟨rfl, rfl⟩

/-- A spared slot keeps its unresolved ids. -/
theorem Spares.unresolved (h : Spares t g source i own s s') :
    s'.zset (.unresolved t g) = s.zset (.unresolved t g) := h.zset (.unresolved t g) ⟨rfl, rfl⟩

/-- What spares fewer keys spares more. -/
theorem Spares.mono {own' : Token → Prop} (h : Spares t g source i own' s s')
    (hown : ∀ k, own k → own' k) : Spares t g source i own s s' := by
  refine ⟨fun k hk => h.zset k ?_, h.serial⟩
  cases k with
  | temporary k => exact hk.imp_right (hown k)
  | _ => exact hk

/-- That no id is both projected and unresolved is guarded. -/
theorem guards_split : Guards t g source i (fun _ => False) (Split t g) where
  drawn _ := False.elim
  stable s s' hs h := by
    rw [Split, hs.projection, hs.unresolved]
    exact h
  split _ h := h

/-- What is guarded is stable under the others. -/
theorem Guards.discipline (scan : ScanOrder) (hΦ : Guards t g source i own Φ) :
    (sheltering t g source scan i).Stable Φ :=
  fun _ s s' hs h => hΦ.stable s s' (hs.mono hΦ.drawn) h

/-- A command that writes none of the sheltered sets spares them. -/
theorem spares_effect {c : Command}
    (h : ∀ k, Sheltered t g source own k → Key.sortedSet k ∉ c.writes) :
    Spares t g source i own s (c.effect i s) :=
  ⟨fun k hk => Command.effect_sameAt (h k hk), c.serial_le_effect⟩

/-- A key of none of the sheltered sets. -/
def Key.Unsheltered (t : RetainedJobType) (g : Generation) (source : SourceSnapshot)
    (own : Token → Prop) (k : Key) : Prop := ∀ k', Sheltered t g source own k' → k ≠ .sortedSet k'

/-- Reading keeps what is guarded. -/
theorem reads_sheltering (hΦ : Guards t g source i own Φ) :
    Reads scan i (sheltering t g source scan i) Φ fun _ => Split t g := by
  refine ⟨hΦ.discipline scan, fun c s hc hs _ => ?_, fun _ s hs _ _ =>
    hΦ.split _ (hΦ.stable _ _ (spares_failing s false) hs)⟩
  show Split t g (exec scan i c s).2
  rw [exec]
  split
  · exact hΦ.split _ (hΦ.stable _ _ (spares_failing s false) hs)
  · rw [hc]
    exact hΦ.split s hs

/-- A program that has no business with the sheltered sets keeps what holds of them. -/
theorem sheltering_of_writes {p : Redis α} (hΦ : Guards t g source i own Φ)
    (hp : Writes (Key.Unsheltered t g source own) p) (hs : Φ s) :
    wp (exec scan i) (sheltering t g source scan i) p (fun _ => Φ) (fun _ => Split t g) s := by
  refine wp_mono (fun _ _ h => h.2) (fun _ s h => hΦ.split s h) (wp_of_obeys (hΦ.discipline scan) ?_ hp hs)
  intro ls c s hc hs _
  have heffect : Φ (c.effect i s) :=
    hΦ.stable _ _ (spares_effect fun k hk hin => hc _ hin k hk rfl) hs
  have hexec : Φ (exec scan i c s).2 := by
    rw [exec]
    split
    · exact hΦ.stable _ _ (spares_failing s false) hs
    · exact heffect
  exact ⟨hΦ.split _ hexec, trivial, hexec⟩

/-- A block of writes. -/
theorem sheltering_write {ws : List Write} (hΦ : Guards t g source i own Φ) (hΨ : ∀ s, Ψ s → Split t g s)
    (h : ∀ s, Φ s → Ψ (s.writeAll ws)) (hs : Φ s) :
    wp (exec scan i) (sheltering t g source scan i) (write ws) (fun _ => Ψ) (fun _ => Split t g) s := by
  refine wp_command.mpr fun s' hr _ => ?_
  have hs' := hΦ.discipline scan [] _ _ hr hs
  refine ⟨?_, fun _ => hΦ.split _ (hΦ.stable _ _ (spares_failing s' false) hs'),
    fun _ => h s' hs'⟩
  show Split t g (exec scan i _ s').2
  rw [exec]
  split
  · exact hΦ.split _ (hΦ.stable _ _ (spares_failing s' false) hs')
  · exact hΨ _ (h s' hs')

/-- A transaction of the slot. -/
theorem sheltering_transaction {ws : (RetainedJobType → Generation) → List Write}
    (hΦ : Guards t g source i own Φ) (hΨ : ∀ s, Ψ s → Split t g s)
    (h : ∀ generations, generations t = g → ∀ s, Φ s → Ψ (s.writeAll (ws generations))) (hs : Φ s) :
    wp (exec scan i) (sheltering t g source scan i) (transaction (some (t, g)) ws) (fun _ => Ψ)
      (fun _ => Split t g) s := by
  refine wp_bind_of ((reads_sheltering hΦ).snapshot hs) fun generations s hg => ?_
  exact sheltering_write hΦ hΨ (h generations (hg.1 t g rfl)) hg.2

/-! ## What a run has read -/

/-- The answer to a command tells the metadata of a job. -/
def Tells (id : String) : Command × Store → Prop
  | (.hmget ids, s) => id ∈ ids ∧ (s.metadataOf id).isSome
  | (.getJobs ids, s) => ∃ job ∈ s.repository ids, ∃ m,
      RetainedJobMetadata.fromJob job = some m ∧ m.id = id
  | _ => False

/-- The metadata hash is asked for a job, or found empty. -/
def LooksUp (id : String) : Command × Store → Prop
  | (.hmget ids, _) => id ∈ ids
  | (.hlen, s) => s.metadata.length = 0
  | _ => False

/-- The repository is asked for a job. -/
def AsksFor (id : String) : Command × Store → Prop
  | (.getJobs ids, _) => id ∈ ids
  | _ => False

/-- A command whose answer tells no metadata. -/
def Silent : Command → Prop
  | .hmget _ => False
  | .getJobs _ => False
  | _ => True

/-- A silent step tells nothing. -/
theorem not_tells_of_silent {id : String} {step : Command × Store} (h : Silent step.1) :
    ¬Tells id step := by
  obtain ⟨c, s⟩ := step
  cases c with
  | hmget ids => exact h.elim
  | getJobs ids => exact h.elim
  | _ => exact fun h => h

/-- During some steps the metadata of a job was looked for in both places and not told. -/
structure Untold (steps : List (Command × Store)) (id : String) : Prop where
  looked : ∃ step ∈ steps, LooksUp id step
  asked : ∃ step ∈ steps, AsksFor id step
  nowhere : ∀ step ∈ steps, ¬Tells id step

/-- Where a reference of the source has gone, and on what grounds: the metadata and the clock that were
read during some steps of the run. -/
inductive FiledAs (history : List (Command × Store)) (e : String × ℚ) (p u : ZSet) : Prop
  | projected {steps : List (Command × Store)} (hsteps : steps <:+: history)
      (htold : ∃ step ∈ steps, Tells e.1 step) (hp : p.score e.1 = some e.2) (hu : e.1 ∉ u)
  | unresolved {steps : List (Command × Store)} {at₀ : Store} (hsteps : steps <:+: history)
      (huntold : Untold steps e.1) (hclock : (.microtime, at₀) ∈ steps)
      (haged : -e.2 ≤ at₀.clock - unresolvedReferenceGraceSeconds) (hp : e.1 ∉ p)
      (hu : u.score e.1 = some e.2)
  | young {steps : List (Command × Store)} {at₀ : Store} (hsteps : steps <:+: history)
      (huntold : Untold steps e.1) (hclock : (.microtime, at₀) ∈ steps)
      (hyoung : at₀.clock - unresolvedReferenceGraceSeconds < -e.2) (hp : e.1 ∉ p) (hu : e.1 ∉ u)

variable {history history' : List (Command × Store)} {e : String × ℚ} {p u p' u' p₀ u₀ : ZSet}

/-- How a job is filed depends on its own scores and the history. -/
theorem FiledAs.congr (h : FiledAs history e p u) (hhistory : history <:+: history')
    (hp : p'.score e.1 = p.score e.1) (hu : u'.score e.1 = u.score e.1) :
    FiledAs history' e p' u' := by
  have hnot : ∀ {z z' : ZSet}, z'.score e.1 = z.score e.1 → e.1 ∉ z → e.1 ∉ z' := by
    intro z z' hz hmem
    rwa [← SortedSet.score_eq_none_iff, hz, SortedSet.score_eq_none_iff]
  cases h with
  | projected hsteps htold hp₁ hu₁ =>
      exact .projected (hsteps.trans hhistory) htold (hp.trans hp₁) (hnot hu hu₁)
  | unresolved hsteps huntold hclock haged hp₁ hu₁ =>
      exact .unresolved (hsteps.trans hhistory) huntold hclock haged (hnot hp hp₁) (hu.trans hu₁)
  | young hsteps huntold hclock hyoung hp₁ hu₁ =>
      exact .young (hsteps.trans hhistory) huntold hclock hyoung (hnot hp hp₁) (hnot hu hu₁)

/-- The references `done` of the source are filed, and every other member is where it was. -/
structure Filed (history : List (Command × Store)) (done : List (String × ℚ)) (p₀ u₀ p u : ZSet) :
    Prop where
  filed : ∀ e ∈ done, FiledAs history e p u
  projection : ∀ id, id ∉ done.map Prod.fst → p.score id = p₀.score id
  unresolved : ∀ id, id ∉ done.map Prod.fst → u.score id = u₀.score id

/-- Sets with the same score for an id agree on whether it is a member. -/
theorem mem_congr {z z' : ZSet} {id : String} (h : z'.score id = z.score id) : id ∈ z' ↔ id ∈ z := by
  rw [← SortedSet.score_isSome_iff, h, SortedSet.score_isSome_iff]

namespace Filed

variable {done done' : List (String × ℚ)}

/-- Without jobs nothing is filed. -/
theorem nil (history : List (Command × Store)) (p u : ZSet) : Filed history [] p u p u :=
  ⟨fun _ h => absurd h List.not_mem_nil, fun _ _ => rfl, fun _ _ => rfl⟩

/-- Filing keeps the two sets apart. -/
theorem split (h : Filed history done p₀ u₀ p u) (hsplit : ∀ id ∈ p₀, id ∉ u₀) : ∀ id ∈ p, id ∉ u := by
  intro id hp hu
  by_cases hid : id ∈ done.map Prod.fst
  · obtain ⟨e, he, rfl⟩ := List.mem_map.mp hid
    cases h.filed e he with
    | projected _ _ _ hnot => exact hnot hu
    | unresolved _ _ _ _ hnot _ => exact hnot hp
    | young _ _ _ _ hnot _ => exact hnot hp
  · rw [mem_congr (h.projection id hid)] at hp
    rw [mem_congr (h.unresolved id hid)] at hu
    exact hsplit id hp hu

/-- What was filed in a history was filed in a longer one. -/
theorem mono (h : Filed history done p₀ u₀ p u) (hhistory : history <:+: history') :
    Filed history' done p₀ u₀ p u :=
  ⟨fun e he => (h.filed e he).congr hhistory rfl rfl, h.projection, h.unresolved⟩

/-- Filing some references after others. -/
theorem append (h : Filed history done p₀ u₀ p u) (h' : Filed history' done' p u p' u')
    (hhistory : history <:+: history') (hdisjoint : ∀ e ∈ done, e.1 ∉ done'.map Prod.fst) :
    Filed history' (done ++ done') p₀ u₀ p' u' := by
  refine ⟨fun e he => ?_, fun id hid => ?_, fun id hid => ?_⟩
  · rcases List.mem_append.mp he with he | he
    · exact (h.filed e he).congr hhistory (h'.projection _ (hdisjoint e he))
        (h'.unresolved _ (hdisjoint e he))
    · exact h'.filed e he
  all_goals
    rw [List.map_append, List.mem_append, not_or] at hid
  · rw [h'.projection id hid.2, h.projection id hid.1]
  · rw [h'.unresolved id hid.2, h.unresolved id hid.1]

end Filed

/-! ## Reading on the record -/

section Recorded

/-- The circumstances of a synchronizer whose commands are recorded. -/
abbrev recordedSheltering (t : RetainedJobType) (g : Generation) (source : SourceSnapshot)
    (scan : ScanOrder) (i : ProcessId) : Discipline Command Section (Recorded Command Store) :=
  (sheltering t g source scan i).recorded

/-- What holds where a recorded synchronizer throws. -/
abbrev Thrown (t : RetainedJobType) (g : Generation) (_ : Failure)
    (x : Recorded Command Store) : Prop := Split t g x.1

variable {x : Recorded Command Store}

/-- A command that only reads. -/
theorem recorded_read {c : Command} (hΦ : Guards t g source i own Φ) (hc : ∀ s, c.effect i s = s)
    (hx : Φ x.1) :
    wp (recording (exec scan i)) (recordedSheltering t g source scan i) (command c)
      (fun a y => ∃ s, a = c.answer scan i s ∧ y = (s, (c, s) :: x.2) ∧ Φ s) (Thrown t g) x := by
  have hreads : Reads scan i (sheltering t g source scan i) Φ fun _ => Split t g :=
    reads_sheltering hΦ
  refine wp_command_recording fun s hr ha => ?_
  have hs := hreads.stable [] _ s hr hx
  refine ⟨hreads.ok c s hc hs ha, hreads.fail c s hs ha, fun _ => ⟨s, rfl, ?_, hs⟩⟩
  rw [hc]

/-- A program that renews something on the way: it writes nothing, tells nothing and halts. -/
structure Renews (heartbeat : Redis α) : Prop where
  writes : ∀ K, Writes K heartbeat
  silent : Obeys (fun _ => Silent) (fun _ _ => True) heartbeat fun _ => True
  halts : ∀ A : (c : Command) → c.Reply → Prop, Halts A heartbeat fun _ => True

namespace Renews

variable {β : Type} {p : Redis α}

/-- A return renews nothing else. -/
theorem ret {a : α} : Renews (return a : Redis α) := ⟨fun _ => .ret, trivial, fun _ => trivial⟩

/-- Throwing a runtime exception renews nothing else. -/
theorem throwRuntime {message : String} : Renews (throwRuntime message : Redis α) :=
  ⟨fun _ => .throwRuntime, trivial, fun _ => trivial⟩

/-- A single command that only reads. -/
theorem command {c : Command} (hwrites : c.writes = []) (hsilent : Silent c) : Renews (command c) :=
  ⟨fun _ => .read hwrites, ⟨hsilent, fun x _ => by cases x <;> trivial⟩,
    fun _ x _ => by cases x <;> trivial⟩

/-- A sequence of renewals renews. -/
theorem bind {f : α → Redis β} (h : Renews p) (hf : ∀ a, Renews (f a)) : Renews (p >>= f) :=
  ⟨fun K => (h.writes K).bind fun a => (hf a).writes K,
    Obeys.bind h.silent fun a _ => (hf a).silent, fun A => (h.halts A).bind fun a => (hf a).halts A⟩

/-- A choice between two renewals renews. -/
theorem ite {c : Prop} [Decidable c] {q : Redis α} (h : Renews p) (h' : Renews q) :
    Renews (if c then p else q) := by
  split
  · exact h
  · exact h'

/-- A renewal in a section is a renewal. -/
theorem inside {l : Section} (h : Renews p) : Renews (p.inside l) :=
  ⟨fun K => (h.writes K).inside, Obeys.inside h.silent, fun A => (h.halts A).inside⟩

end Renews

/-- Renewing a snapshot is a renewal. -/
theorem renews_renewSourceSnapshot : Renews (renewSourceSnapshot source) := by
  have hexpire : Renews (expire (.temporary source.key) synchronizationLockSeconds) :=
    .command rfl trivial
  exact hexpire.bind fun _ => .ite .ret (.ite .ret .throwRuntime)

/-- Renewing the lock is a renewal. -/
theorem renews_renewSynchronizationLock {token : Token} : Renews (renewSynchronizationLock t token) :=
  (Renews.command (c := .renewLock t token synchronizationLockSeconds) rfl trivial).bind fun _ =>
    .ite .throwRuntime .ret

/-- Renewing the lock and the snapshot is a renewal. -/
theorem renews_renewSynchronizationState {token : Token} :
    Renews (renewSynchronizationState t token source) :=
  renews_renewSourceSnapshot.bind fun _ => renews_renewSynchronizationLock

/-- Renewing the lock, the snapshot and a working set is a renewal. -/
theorem renews_renewWorkingSet {token k : Token} : Renews (renewWorkingSet t token k source) := by
  have hrest : Renews (renewSourceSnapshot source >>= fun _ => renewSynchronizationLock t token) :=
    renews_renewSourceSnapshot.bind fun _ => renews_renewSynchronizationLock
  exact (Renews.command (c := .expire (.temporary k) temporaryKeyTtlSeconds) rfl trivial).bind fun _ =>
    .ite .throwRuntime hrest

/-- A renewal keeps what is guarded and adds silent steps to the history. -/
theorem recorded_renews {heartbeat : Redis Unit} (h : Renews heartbeat)
    (hΦ : Guards t g source i own Φ) (hx : Φ x.1) :
    wp (recording (exec scan i)) (recordedSheltering t g source scan i) heartbeat
      (fun _ y => Φ y.1 ∧ ∃ new, y.2 = new ++ x.2 ∧ ∀ step ∈ new, Silent step.1) (Thrown t g) x :=
  wp_mono (fun _ _ h => h) (fun _ _ h => h.1)
    (wp_recording_of_obeys h.silent (sheltering_of_writes hΦ (h.writes _) hx))

/-- The metadata the hash has of some ids, and the steps in which it was looked for. -/
theorem recorded_existingMetadata {ids : List String} (hΦ : Guards t g source i own Φ)
    (hnodup : ids.Nodup) (hx : Φ x.1) :
    wp (recording (exec scan i)) (recordedSheltering t g source scan i) (existingMetadata ids)
      (fun existing y => Φ y.1 ∧ ∃ steps, y.2 = steps ++ x.2 ∧ ∀ id ∈ ids,
        (∃ step ∈ steps, LooksUp id step) ∧
          ((existing id).isSome ↔ ∃ step ∈ steps, Tells id step)) (Thrown t g) x := by
  rw [existingMetadata]
  split
  · rename_i hnil
    subst hnil
    exact ⟨hx, [], rfl, fun _ h => nomatch h⟩
  refine wp_bind_of (recorded_read (c := .hlen) hΦ (fun _ => rfl) hx) ?_
  rintro size _ ⟨s, hsize, rfl, hs⟩
  split
  · rename_i hzero
    have hempty : s.metadata.length = 0 := hsize.symm.trans hzero
    refine ⟨hs, [(.hlen, s)], rfl, fun id _ => ⟨⟨_, List.mem_singleton_self _, hempty⟩, ?_⟩⟩
    simp [Tells]
  -- Every chunk is asked for once, so what is told of a job is told by the answer to its chunk.
  refine wp_bind_of (wp_collect_nil (I := fun rest found y => Φ y.1 ∧ ∃ steps,
    y.2 = steps ++ x.2 ∧ found.flatten.map Prod.fst ++ rest.flatten = ids ∧
      (∀ step ∈ steps, ∀ id, Tells id step → id ∈ found.flatten.map Prod.fst) ∧
      ∀ e ∈ found.flatten, (∃ step ∈ steps, LooksUp e.1 step) ∧
        (e.2.isSome ↔ ∃ step ∈ steps, Tells e.1 step)) ?_ ?_) ?_
  · rintro chunk rest found y ⟨hy, steps, hsteps, hids, htells, hfound⟩
    refine wp_bind_of (recorded_read (c := .hmget chunk) hΦ (fun _ => rfl) hy) ?_
    rintro values _ ⟨s, rfl, rfl, hs⟩
    have hzip : chunk.zip (Command.answer scan i s (.hmget chunk) :
        List (Option RetainedJobMetadata)) = chunk.map fun id => (id, s.metadataOf id) :=
      List.map_prod_left_eq_zip.symm
    have hkeys : (chunk.map fun id => (id, s.metadataOf id)).map Prod.fst = chunk := by
      rw [List.map_map]
      exact List.map_id chunk
    have hflat : (found ++ [chunk.map fun id => (id, s.metadataOf id)]).flatten =
        found.flatten ++ chunk.map fun id => (id, s.metadataOf id) := by simp
    rw [List.flatten_cons, ← List.append_assoc] at hids
    have hdistinct : ∀ id ∈ found.flatten.map Prod.fst, id ∉ chunk := by
      rw [← hids, List.append_assoc] at hnodup
      exact fun id hid hin => (List.nodup_append.mp hnodup).2.2 id hid id
        (List.mem_append_left _ hin) rfl
    rw [hzip]
    refine ⟨hs, (.hmget chunk, s) :: steps, by rw [hsteps]; rfl, ?_, ?_, ?_⟩
    · rw [hflat, List.map_append, hkeys]
      exact hids
    · rw [hflat, List.map_append, hkeys]
      intro step hstep id hid
      rcases List.mem_cons.mp hstep with rfl | hstep
      · exact List.mem_append_right _ hid.1
      · exact List.mem_append_left _ (htells step hstep id hid)
    · rw [hflat]
      intro e he
      rcases List.mem_append.mp he with he | he
      · obtain ⟨⟨step, hstep, hlooks⟩, htold⟩ := hfound e he
        refine ⟨⟨step, List.mem_cons_of_mem _ hstep, hlooks⟩, htold.trans ?_⟩
        simp only [List.mem_cons, exists_eq_or_imp, Tells]
        rw [or_iff_right fun h => hdistinct e.1 (List.mem_map_of_mem he) h.1]
      · obtain ⟨id, hid, rfl⟩ := List.mem_map.mp he
        refine ⟨⟨_, List.mem_cons_self, hid⟩, ?_⟩
        simp only [List.mem_cons, exists_eq_or_imp, Tells]
        rw [or_iff_left, and_iff_right hid]
        rintro ⟨step, hstep, htold⟩
        exact hdistinct id (htells step hstep id htold) hid
  · refine ⟨hs, [(.hlen, s)], rfl, by simp, ?_, fun _ h => nomatch h⟩
    rintro step hstep id htold
    rw [List.mem_singleton.mp hstep] at htold
    exact htold.elim
  · rintro found y ⟨hy, steps, hsteps, hids, -, hfound⟩
    rw [List.flatten_nil, List.append_nil] at hids
    refine ⟨hy, steps, hsteps, fun id hid => ?_⟩
    rw [← hids] at hid
    obtain ⟨e₀, he₀, rfl⟩ := List.mem_map.mp hid
    have hfind : (found.flatten.find? fun e => e.1 = e₀.1).isSome :=
      List.find?_isSome.mpr ⟨e₀, he₀, by simp⟩
    obtain ⟨e, he⟩ := Option.isSome_iff_exists.mp hfind
    have hkey : e.1 = e₀.1 := by simpa using List.find?_some he
    have hspec := hfound e (List.mem_of_find?_eq_some he)
    rw [hkey] at hspec
    beta_reduce
    rw [he]
    exact hspec

/-- The jobs the repository returns for some ids, and the steps in which they were asked for. -/
theorem recorded_getJobs {chunks : List (List String)} {heartbeat : Redis Unit}
    (hheartbeat : Renews heartbeat) (hΦ : Guards t g source i own Φ) (hx : Φ x.1) :
    wp (recording (exec scan i)) (recordedSheltering t g source scan i)
      (Prog.collect chunks fun chunk => do
        let jobs : List JobObject ← command (.getJobs chunk)
        heartbeat
        return jobs.filterMap RetainedJobMetadata.fromJob)
      (fun fetched y => Φ y.1 ∧ ∃ steps, y.2 = steps ++ x.2 ∧
        (∀ id ∈ chunks.flatten, ∃ step ∈ steps, AsksFor id step) ∧
          ∀ id, (∃ m ∈ fetched.flatten, m.id = id) ↔ ∃ step ∈ steps, Tells id step)
      (Thrown t g) x := by
  refine wp_mono (fun fetched y h => ?_) (fun _ _ h => h) (wp_collect_nil (I := fun rest fetched y =>
    Φ y.1 ∧ ∃ steps, y.2 = steps ++ x.2 ∧
      (∀ id ∈ chunks.flatten, id ∉ rest.flatten → ∃ step ∈ steps, AsksFor id step) ∧
        ∀ id, (∃ m ∈ fetched.flatten, m.id = id) ↔ ∃ step ∈ steps, Tells id step) ?_ ?_)
  · obtain ⟨hy, steps, hsteps, hasked, htold⟩ := h
    exact ⟨hy, steps, hsteps, fun id hid => hasked id hid List.not_mem_nil, htold⟩
  · rintro chunk rest fetched y ⟨hy, steps, hsteps, hasked, htold⟩
    refine wp_bind_of (recorded_read (c := .getJobs chunk) hΦ (fun _ => rfl) hy) ?_
    rintro jobs _ ⟨s, rfl, rfl, hs⟩
    refine wp_bind_of (recorded_renews hheartbeat hΦ hs) ?_
    rintro _ z ⟨hz, new, hnew, hsilent⟩
    have hgrown : z.2 = (new ++ (.getJobs chunk, s) :: steps) ++ x.2 := by
      rw [hnew, hsteps, List.append_assoc]
      rfl
    -- An id of the chunk is asked for by the new step, any other one by an earlier step.
    refine ⟨hz, _, hgrown, fun id hid hrest => ?_, fun id => ?_⟩
    · by_cases hin : id ∈ chunk
      · exact ⟨_, List.mem_append_right _ List.mem_cons_self, hin⟩
      · have hnot : id ∉ (chunk :: rest).flatten := by
          rw [List.flatten_cons, List.mem_append, not_or]
          exact ⟨hin, hrest⟩
        obtain ⟨step, hstep, hasks⟩ := hasked id hid hnot
        exact ⟨step, List.mem_append_right _ (List.mem_cons_of_mem _ hstep), hasks⟩
    · have hanswer : (∃ m ∈ (Command.answer scan i s (.getJobs chunk) : List JobObject).filterMap
          RetainedJobMetadata.fromJob, m.id = id) ↔ Tells id (.getJobs chunk, s) := by
        constructor
        · rintro ⟨m, hm, hid⟩
          obtain ⟨job, hjob, hfrom⟩ := List.mem_filterMap.mp hm
          exact ⟨job, hjob, m, hfrom, hid⟩
        · rintro ⟨job, hjob, m, hfrom, hid⟩
          exact ⟨m, List.mem_filterMap.mpr ⟨job, hjob, hfrom⟩, hid⟩
      have hold := htold id
      rw [List.flatten_append, List.flatten_singleton]
      constructor
      · rintro ⟨m, hm, hid⟩
        rcases List.mem_append.mp hm with hm | hm
        · obtain ⟨step, hstep, htells⟩ := hold.mp ⟨m, hm, hid⟩
          exact ⟨step, List.mem_append_right _ (List.mem_cons_of_mem _ hstep), htells⟩
        · exact ⟨_, List.mem_append_right _ List.mem_cons_self, hanswer.mp ⟨m, hm, hid⟩⟩
      · rintro ⟨step, hstep, htells⟩
        rcases List.mem_append.mp hstep with hstep | hstep
        · -- A heartbeat tells nothing about a job.
          exact absurd htells (not_tells_of_silent (hsilent step hstep))
        rcases List.mem_cons.mp hstep with rfl | hstep
        · obtain ⟨m, hm, hid⟩ := hanswer.mpr htells
          exact ⟨m, List.mem_append_right _ hm, hid⟩
        · obtain ⟨m, hm, hid⟩ := hold.mpr ⟨step, hstep, htells⟩
          exact ⟨m, List.mem_append_left _ hm, hid⟩
  · exact ⟨hx, [], rfl, fun id hid hnot => absurd hid hnot, fun id => by simp⟩

/-- The references that are older than the grace period by the clock read for each of them. -/
theorem recorded_aged {es : List (String × ℚ)} (hΦ : Guards t g source i own Φ) (hnodup : es.Nodup)
    (hx : Φ x.1) :
    wp (recording (exec scan i)) (recordedSheltering t g source scan i)
      (Prog.collect es fun e => do
        let now ← microtime
        return if -e.2 ≤ now - unresolvedReferenceGraceSeconds then some e else none)
      (fun aged y => Φ y.1 ∧ aged.reduceOption.Sublist es ∧ ∃ steps, y.2 = steps ++ x.2 ∧
        (∀ step ∈ steps, Silent step.1) ∧ ∀ e ∈ es, ∃ s, (.microtime, s) ∈ steps ∧
          (e ∈ aged.reduceOption ↔ -e.2 ≤ s.clock - unresolvedReferenceGraceSeconds))
      (Thrown t g) x := by
  refine wp_mono (fun aged y h => ?_) (fun _ _ h => h) (wp_collect_nil (I := fun rest aged y =>
    Φ y.1 ∧ ∃ done, done ++ rest = es ∧ aged.reduceOption.Sublist done ∧ ∃ steps,
      y.2 = steps ++ x.2 ∧ (∀ step ∈ steps, Silent step.1) ∧ ∀ e ∈ done, ∃ s,
        (.microtime, s) ∈ steps ∧
          (e ∈ aged.reduceOption ↔ -e.2 ≤ s.clock - unresolvedReferenceGraceSeconds)) ?_ ?_)
  · obtain ⟨hy, done, hdone, hsub, steps, hsteps, hsilent, hclock⟩ := h
    rw [List.append_nil] at hdone
    subst hdone
    exact ⟨hy, hsub, steps, hsteps, hsilent, hclock⟩
  · rintro e rest aged y ⟨hy, done, hdone, hsub, steps, hsteps, hsilent, hclock⟩
    refine wp_bind_of (recorded_read (c := .microtime) hΦ (fun _ => rfl) hy) ?_
    rintro now _ ⟨s, hnow, rfl, hs⟩
    have hnew : e ∉ done := by
      rw [← hdone] at hnodup
      exact fun hin => (List.nodup_append.mp hnodup).2.2 e hin e List.mem_cons_self rfl
    set r : Option (String × ℚ) :=
      if -e.2 ≤ now - unresolvedReferenceGraceSeconds then some e else none with hr
    have hreduce : (aged ++ [r]).reduceOption = aged.reduceOption ++ r.toList := by
      rw [List.reduceOption_append]
      cases r <;> rfl
    have hin : ∀ e', e' ∈ r.toList ↔ e' = e ∧ -e.2 ≤ now - unresolvedReferenceGraceSeconds := by
      intro e'
      rw [hr]
      split <;> rename_i h <;> simp [h]
    -- The clock that was read last decides for the new entry, and an earlier step for each other one.
    refine ⟨hs, done ++ [e], by rw [List.append_assoc]; exact hdone, ?_,
      (.microtime, s) :: steps, by rw [hsteps]; rfl, ?_, fun e' he' => ?_⟩
    · rw [hreduce]
      refine hsub.append ?_
      rw [hr]
      split
      · exact List.Sublist.refl _
      · exact List.nil_sublist _
    · rintro step hstep
      rcases List.mem_cons.mp hstep with rfl | hstep
      · trivial
      · exact hsilent step hstep
    · rw [hreduce, List.mem_append, hin]
      rcases List.mem_append.mp he' with he' | he'
      · obtain ⟨s', hs', haged⟩ := hclock e' he'
        refine ⟨s', List.mem_cons_of_mem _ hs', ?_⟩
        have hne : e' ≠ e := fun heq => hnew (heq ▸ he')
        rw [or_iff_left fun h => hne h.1, haged]
      · obtain rfl := List.mem_singleton.mp he'
        refine ⟨s, List.mem_cons_self, ?_⟩
        have hnot : e' ∉ aged.reduceOption := fun h => hnew (hsub.subset h)
        rw [or_iff_right hnot, and_iff_right rfl, hnow]
        rfl
  · exact ⟨hx, [], rfl, List.Sublist.refl _, [], rfl, fun _ h => absurd h List.not_mem_nil,
      fun _ h => absurd h List.not_mem_nil⟩

end Recorded

/-! ## Storing -/

/-- What a synchronizer knows of its sets: the projection `p`, the unresolved references `u`, the source
snapshot `src`, and `z` under its temporary keys. The key of the snapshot was drawn before. -/
structure Stands (t : RetainedJobType) (g : Generation) (source : SourceSnapshot) (i : ProcessId)
    (own : Token → Prop) (z src p u : ZSet) (s : Store) : Prop where
  projection : s.zset (.projection t g) = p
  unresolved : s.zset (.unresolved t g) = u
  snapshot : s.zset (.temporary source.key) = src
  temporary : ∀ k, own k → s.zset (.temporary k) = z
  drawn : source.key.pid = i → source.key.serial < s.serial i

section Storing

variable {z src : ZSet} {ws : List Write}

/-- What stands in a slot is guarded. -/
theorem guards_stands (hown : ∀ k, own k → k.pid = i) (hsplit : ∀ id ∈ p, id ∉ u) :
    Guards t g source i own (Stands t g source i own z src p u) where
  drawn := hown
  stable s s' hs h := ⟨hs.projection.trans h.projection, hs.unresolved.trans h.unresolved,
    (hs.zset (.temporary source.key) (Or.inl rfl)).trans h.snapshot,
    fun k hk => (hs.zset (.temporary k) (Or.inr hk)).trans (h.temporary k hk),
    fun hpid => (h.drawn hpid).trans_le hs.serial⟩
  split s h := by
    rw [Split, h.projection, h.unresolved]
    exact hsplit

/-- A block that writes no temporary key. -/
theorem Stands.writeAll (h : Stands t g source i own z src p u s)
    (hkeys : ∀ w ∈ ws, ∀ k, w.key ≠ .sortedSet (.temporary k))
    (hp : (s.writeAll ws).zset (.projection t g) = p')
    (hu : (s.writeAll ws).zset (.unresolved t g) = u') :
    Stands t g source i own z src p' u' (s.writeAll ws) := by
  have hsame : ∀ k, (s.writeAll ws).zset (.temporary k) = s.zset (.temporary k) := fun k =>
    Store.sameAt_writeAll_of_keys (k := .sortedSet (.temporary k)) fun w hw => hkeys w hw k
  exact ⟨hp, hu, (hsame _).trans h.snapshot, fun k hk => (hsame k).trans (h.temporary k hk),
    fun hpid => (h.drawn hpid).trans_eq (congrFun Store.serial_writeAll i).symm⟩

/-- A block leaves a sorted set alone that none of its writes is of. -/
theorem zset_writeAll_of_keys {k : SortedSetKey} (h : ∀ w ∈ ws, w.key ≠ .sortedSet k) :
    (s.writeAll ws).zset k = s.zset k :=
  Store.sameAt_writeAll_of_keys (k := .sortedSet k) h

/-- A block of insertions inserts all of its entries. -/
theorem zset_writeAll_zadds {k : SortedSetKey} {l : List (String × ℚ)} :
    (s.writeAll (l.map fun e => .zadd k e.2 e.1)).zset k = (s.zset k).insertAll l := by
  induction l generalizing s with
  | nil => rfl
  | cons e l ih =>
      rw [List.map_cons, Store.writeAll_cons, ih, SortedSet.insertAll_cons, Write.effect,
        Store.setZset_zset, if_pos rfl]

/-- Filing unresolved references. -/
theorem Stands.storeUnresolved (h : Stands t g source i own z src p u s) (l : List (String × ℚ)) :
    Stands t g source i own z src p (u.insertAll l)
      (s.writeAll (l.map fun e => .zadd (.unresolved t g) e.2 e.1)) := by
  refine h.writeAll (fun w hw k => ?_) ?_ ?_
  · obtain ⟨e, -, rfl⟩ := List.mem_map.mp hw
    exact fun hk => by cases hk
  · rw [zset_writeAll_of_keys, h.projection]
    intro w hw hk
    obtain ⟨e, -, rfl⟩ := List.mem_map.mp hw
    cases hk
  · rw [zset_writeAll_zadds, h.unresolved]

/-- Storing one job. -/
theorem Stands.storeJob (h : Stands t g source i own z src p u s) (m : RetainedJobMetadata)
    (hid : e.1 ∉ u) :
    Stands t g source i own z src (p.insert e.1 e.2) u (s.writeAll (storeJob t g m e.1 e.2)) := by
  set facets : List Write := FacetDimension.cases.flatMap fun d =>
    (facetValues t m d).flatMap fun value => [.zadd (.facet t g d value) e.2 e.1, .sadd ⟨t, g, d⟩ value]
    with hfacets
  have hstore : RetainedJobIndex.storeJob t g m e.1 e.2 = (.hset e.1 m :: facets) ++
    [.zadd (.projection t g) e.2 e.1, .zrem (.unresolved t g) [e.1]] := rfl
  have hfacet : ∀ w ∈ (.hset e.1 m :: facets : List Write), ∀ k, w.key = .sortedSet k →
      ∃ d value, k = .facet t g d value := by
    intro w hw k hk
    rcases List.mem_cons.mp hw with rfl | hw
    · cases hk
    · obtain ⟨d, -, hw⟩ := List.mem_flatMap.mp hw
      obtain ⟨value, -, hw⟩ := List.mem_flatMap.mp hw
      rcases List.mem_cons.mp hw with rfl | hw
      · exact ⟨d, value, (Key.sortedSet.inj hk).symm⟩
      · rw [List.mem_singleton.mp hw] at hk
        cases hk
  have hrest : ∀ k, (∀ d value, k ≠ .facet t g d value) →
      (s.writeAll (.hset e.1 m :: facets)).zset k = s.zset k := fun k hk =>
    zset_writeAll_of_keys fun w hw hkey => by
      obtain ⟨d, value, rfl⟩ := hfacet w hw k hkey
      exact hk d value rfl
  refine h.writeAll (fun w hw k hk => ?_) ?_ ?_
  · rw [hstore] at hw
    rcases List.mem_append.mp hw with hw | hw
    · obtain ⟨d, value, heq⟩ := hfacet w hw _ hk
      cases heq
    · simp only [List.mem_cons, List.not_mem_nil, or_false] at hw
      rcases hw with rfl | rfl <;> cases hk
  · rw [hstore, Store.writeAll_append, ← h.projection, ← hrest (.projection t g) (by simp)]
    simp [Write.effect]
  · have hu := hrest (.unresolved t g) (by simp)
    rw [h.unresolved] at hu
    rw [hstore, Store.writeAll_append]
    generalize s.writeAll (.hset e.1 m :: facets) = s₁ at hu ⊢
    rw [Store.writeAll_cons, Store.writeAll_cons, Store.writeAll_nil, Write.effect, Write.effect,
      Store.setZset_zset, if_pos rfl, Store.setZset_zset, if_neg (by simp), hu]
    refine SortedSet.eraseAll_of_not_mem fun id hmem => ?_
    rw [List.mem_singleton.mp hmem]
    exact hid

/-- Storing some jobs whose metadata is known. -/
theorem Stands.storeJobs {metadataById : String → Option RetainedJobMetadata} (l : List (String × ℚ))
    (hknown : ∀ e ∈ l, (metadataById e.1).isSome) (hids : ∀ e ∈ l, e.1 ∉ u)
    (h : Stands t g source i own z src p u s) :
    Stands t g source i own z src (p.insertAll l) u
      (s.writeAll (l.flatMap fun e =>
        match metadataById e.1 with
        | none => []
        | some m => RetainedJobIndex.storeJob t g m e.1 e.2)) := by
  induction l generalizing p s with
  | nil => exact h
  | cons e l ih =>
      obtain ⟨m, hm⟩ := Option.isSome_iff_exists.mp (hknown e List.mem_cons_self)
      rw [List.flatMap_cons, Store.writeAll_append, SortedSet.insertAll_cons, hm]
      exact ih (fun e he => hknown e (List.mem_cons_of_mem _ he))
        (fun e he => hids e (List.mem_cons_of_mem _ he)) (h.storeJob m (hids e List.mem_cons_self))

/-- Nothing is filed as an unresolved reference that is projected. -/
theorem not_mem_insertAll {l : List (String × ℚ)} (hsplit : ∀ id ∈ p, id ∉ u)
    (hl : ∀ e ∈ l, e.1 ∉ p) : ∀ id ∈ p, id ∉ u.insertAll l := by
  intro id hid hmem
  rcases SortedSet.mem_insertAll.mp hmem with hin | hin
  · obtain ⟨e, he, rfl⟩ := List.mem_map.mp hin
    exact hl e he hid
  · exact hsplit id hid hin

variable {heartbeat : Redis Unit}

/-- A loop that stores some references chunk by chunk. -/
theorem sheltering_storeChunks {l : List (String × ℚ)} {Ψ : List (String × ℚ) → Store → Prop}
    {ws : (RetainedJobType → Generation) → List (String × ℚ) → List Write}
    (hheartbeat : Renews heartbeat) (hΨ : ∀ done ⊆ l, Guards t g source i own (Ψ done))
    (hstep : ∀ generations, generations t = g → ∀ done, ∀ chunk ⊆ l, ∀ s, Ψ done s →
      Ψ (done ++ chunk) (s.writeAll (ws generations chunk))) (hs : Ψ [] s) :
    wp (exec scan i) (sheltering t g source scan i)
      (Prog.forEach (l.arrayChunk sourceChunkSize) fun chunk => do
        transaction (some (t, g)) fun g => ws g chunk
        heartbeat)
      (fun _ => Ψ l) (fun _ => Split t g) s := by
  refine wp_mono (fun _ s h => ?_) (fun _ _ h => h) (wp_forEach (I := fun rest s =>
    ∃ done, done ++ rest.flatten = l ∧ Ψ done s) ?_ ⟨[], List.flatten_arrayChunk _ l, hs⟩)
  · obtain ⟨done, hdone, h⟩ := h
    rw [List.flatten_nil, List.append_nil] at hdone
    subst hdone
    exact h
  · rintro chunk rest s ⟨done, hdone, h⟩
    rw [List.flatten_cons, ← List.append_assoc] at hdone
    have hsub : done ++ chunk ⊆ l := hdone ▸ List.subset_append_left _ _
    have hnext := hΨ _ hsub
    refine wp_bind_of (sheltering_transaction (hΨ done fun e he => hsub (List.mem_append_left _ he))
      hnext.split (fun generations hg s h => ?_) h) fun _ s h => ?_
    · exact hstep generations hg done chunk (fun e he => hsub (List.mem_append_right _ he)) s h
    · exact wp_mono (fun _ _ h => ⟨_, hdone, h⟩) (fun _ _ h => h)
        (sheltering_of_writes hnext (hheartbeat.writes _) h)

/-- The two loops of `hydrateAndStore`. -/
theorem sheltering_storeScores {metadataById : String → Option RetainedJobMetadata}
    {aged resolved : List (String × ℚ)} (hheartbeat : Renews heartbeat) (hown : ∀ k, own k → k.pid = i)
    (hsplit : ∀ id ∈ p, id ∉ u) (haged : ∀ e ∈ aged, e.1 ∉ p)
    (hresolved : ∀ e ∈ resolved, (metadataById e.1).isSome)
    (hapart : ∀ e ∈ resolved, e.1 ∉ u.insertAll aged) (hs : Stands t g source i own z src p u s) :
    wp (exec scan i) (sheltering t g source scan i)
      (do
        Prog.forEach (aged.arrayChunk sourceChunkSize) fun chunk => do
          transaction (some (t, g)) fun g => chunk.map fun e => .zadd (.unresolved t (g t)) e.2 e.1
          heartbeat
        Prog.forEach (resolved.arrayChunk sourceChunkSize) fun chunk => do
          transaction (some (t, g)) fun g => chunk.flatMap fun e =>
            match metadataById e.1 with
            | none => []
            | some m => RetainedJobIndex.storeJob t (g t) m e.1 e.2
          heartbeat)
      (fun _ => Stands t g source i own z src (p.insertAll resolved) (u.insertAll aged))
      (fun _ => Split t g) s := by
  have hsplit' := not_mem_insertAll hsplit haged
  refine wp_bind_of (sheltering_storeChunks
    (Ψ := fun done => Stands t g source i own z src p (u.insertAll done)) hheartbeat
    (fun done hdone => guards_stands hown
      (not_mem_insertAll hsplit fun e he => haged e (hdone he))) ?_ hs) fun _ s h => ?_
  · rintro generations rfl done chunk - s h
    rw [SortedSet.insertAll_append]
    exact h.storeUnresolved chunk
  refine sheltering_storeChunks
    (Ψ := fun done => Stands t g source i own z src (p.insertAll done) (u.insertAll aged)) hheartbeat
    (fun done hdone => guards_stands hown fun id hid hu => ?_) ?_ h
  · exact not_mem_insertAll (fun id hu hp => hsplit' id hp hu) (fun e he => hapart e (hdone he)) id hu hid
  · rintro generations rfl done chunk hchunk s h
    rw [SortedSet.insertAll_append]
    exact h.storeJobs chunk (fun e he => hresolved e (hchunk he)) fun e he => hapart e (hchunk he)

end Storing

/-! ## Hydration -/

/-- What is remembered is what was known and what has been fetched. -/
theorem isSome_remember {fetched : List RetainedJobMetadata}
    {known : String → Option RetainedJobMetadata} {id : String} :
    (remember fetched known id).isSome ↔ (known id).isSome ∨ ∃ m ∈ fetched, m.id = id := by
  rw [remember]
  induction fetched generalizing known with
  | nil => simp
  | cons m fetched ih =>
      rw [List.foldl_cons, ih, Function.update_apply]
      by_cases hid : id = m.id
      · subst hid
        simp
      · rw [if_neg hid]
        simp [Ne.symm hid]

/-- **Hydration**: every reference that is missing goes where the metadata and the clock read on the way
say. -/
theorem recorded_hydrateAndStore (index : RetainedJobIndex) {x : Recorded Command Store} {z src : ZSet}
    {heartbeat : Redis Unit} {scores : List (String × ℚ)} (hheartbeat : Renews heartbeat)
    (hown : ∀ k, own k → k.pid = i) (hsplit : ∀ id ∈ p, id ∉ u)
    (hnodup : (scores.map Prod.fst).Nodup) (hnew : ∀ e ∈ scores, e.1 ∉ p ∧ e.1 ∉ u)
    (hx : Stands t g source i own z src p u x.1) :
    wp (recording (exec scan i)) (recordedSheltering t g source scan i)
      (index.hydrateAndStore (some (t, g)) t scores heartbeat)
      (fun _ y => ∃ p' u', Stands t g source i own z src p' u' y.1 ∧ Filed y.2 scores p u p' u' ∧
        x.2 <:+ y.2) (Thrown t g) x := by
  have hΦ : Guards t g source i own (Stands t g source i own z src p u) := guards_stands hown hsplit
  refine wp_bind_of (recorded_existingMetadata hΦ hnodup hx) ?_
  rintro existing x₁ ⟨hx₁, steps₁, hsteps₁, hexisting⟩
  refine wp_bind_of (recorded_getJobs hheartbeat hΦ hx₁) ?_
  rintro fetched x₂ ⟨hx₂, steps₂, hsteps₂, hasked, hfetched⟩
  rw [List.flatten_arrayChunk] at hasked
  have hknown : ∀ e ∈ scores, ((remember fetched.flatten existing e.1).isSome ↔
      ∃ step ∈ steps₂ ++ steps₁, Tells e.1 step) := by
    intro e he
    rw [isSome_remember, (hexisting e.1 (List.mem_map_of_mem he)).2, hfetched e.1]
    simp only [List.mem_append, or_and_right, exists_or, or_comm]
  have hlooked : ∀ e ∈ scores, remember fetched.flatten existing e.1 = none →
      Untold (steps₂ ++ steps₁) e.1 := by
    intro e he hnone
    have hnot : ¬(remember fetched.flatten existing e.1).isSome := by rw [hnone]; simp
    have hnot' := hnot
    rw [isSome_remember, not_or] at hnot'
    obtain ⟨step, hstep, hlooks⟩ := (hexisting e.1 (List.mem_map_of_mem he)).1
    obtain ⟨step', hstep', hasks⟩ := hasked e.1 (List.mem_filter.mpr
      ⟨List.mem_map_of_mem he, by simpa using hnot'.1⟩)
    refine ⟨⟨step, List.mem_append_right _ hstep, hlooks⟩,
      ⟨step', List.mem_append_left _ hstep', hasks⟩, fun step hstep htells => ?_⟩
    exact hnot ((hknown e he).mpr ⟨step, hstep, htells⟩)
  generalize remember fetched.flatten existing = metadataById at hknown hlooked ⊢
  refine wp_bind_of (recorded_aged hΦ (hnodup.of_map.filter _) hx₂) ?_
  rintro aged x₃ ⟨hx₃, hsub, steps₃, hsteps₃, hsilent, hclock⟩
  obtain ⟨hnone, hresolved⟩ : (∀ e ∈ aged.reduceOption, e ∈ scores ∧ metadataById e.1 = none) ∧
      ∀ e ∈ scores.filter fun e => (metadataById e.1).isSome, e ∈ scores ∧
        (metadataById e.1).isSome := by
    refine ⟨fun e he => ?_, fun e he => List.mem_filter.mp he⟩
    obtain ⟨hmem, hisNone⟩ := List.mem_filter.mp (hsub.subset he)
    exact ⟨hmem, Option.isNone_iff_eq_none.mp hisNone⟩
  set resolved := scores.filter fun e => (metadataById e.1).isSome with hresolved'
  have hkey : ∀ e ∈ scores, ∀ e' ∈ scores, e.1 = e'.1 → e = e' := fun e he e' he' heq =>
    List.inj_on_of_nodup_map hnodup he he' heq
  -- The metadata of a job is known or not, so no reference is filed twice.
  have hapart : ∀ e ∈ resolved, e.1 ∉ u.insertAll aged.reduceOption := by
    intro e he hmem
    obtain ⟨hin, hsome⟩ := hresolved e he
    rcases SortedSet.mem_insertAll.mp hmem with hmem | hmem
    · obtain ⟨e', he', heq⟩ := List.mem_map.mp hmem
      have hnone' := (hnone e' he').2
      rw [heq] at hnone'
      rw [hnone'] at hsome
      cases hsome
    · exact (hnew e hin).2 hmem
  refine wp_mono ?_ (fun _ _ h => h.1) (wp_recording_suffix (sheltering_storeScores hheartbeat hown
    hsplit (fun e he => (hnew e (hnone e he).1).1) (fun e he => (hresolved e he).2) hapart hx₃))
  rintro _ y ⟨hy, hsuffix⟩
  have hsteps : steps₃ ++ (steps₂ ++ steps₁) ++ x.2 = x₃.2 := by
    rw [hsteps₃, hsteps₂, hsteps₁, List.append_assoc, List.append_assoc]
  have hinfix : steps₃ ++ (steps₂ ++ steps₁) <:+: y.2 := by
    refine List.IsInfix.trans ?_ hsuffix.isInfix
    rw [← hsteps]
    exact (List.prefix_append _ _).isInfix
  refine ⟨_, _, hy, ⟨fun e he => ?_, fun id hid => ?_, fun id hid => ?_⟩, ?_⟩
  · by_cases hsome : (metadataById e.1).isSome
    · -- The reference is projected.
      have hmem : e ∈ resolved := List.mem_filter.mpr ⟨he, hsome⟩
      obtain ⟨step, hstep, htells⟩ := (hknown e he).mp hsome
      exact .projected hinfix ⟨step, List.mem_append_right _ hstep, htells⟩
        (SortedSet.score_insertAll_of_mem ((List.filter_sublist.map _).nodup hnodup) hmem)
        (hapart e hmem)
    -- Its metadata was looked for in vain.
    have hisNone : metadataById e.1 = none := Option.not_isSome_iff_eq_none.mp hsome
    have huntold : Untold (steps₃ ++ (steps₂ ++ steps₁)) e.1 := by
      obtain ⟨⟨step, hstep, hlooks⟩, ⟨step', hstep', hasks⟩, hnowhere⟩ := hlooked e he hisNone
      refine ⟨⟨step, List.mem_append_right _ hstep, hlooks⟩,
        ⟨step', List.mem_append_right _ hstep', hasks⟩, fun step hstep => ?_⟩
      rcases List.mem_append.mp hstep with hstep | hstep
      · exact not_tells_of_silent (hsilent step hstep)
      · exact hnowhere step hstep
    have hp : e.1 ∉ p.insertAll resolved := by
      intro hmem
      rcases SortedSet.mem_insertAll.mp hmem with hmem | hmem
      · obtain ⟨e', he', heq⟩ := List.mem_map.mp hmem
        rw [← heq] at hsome
        exact hsome (hresolved e' he').2
      · exact (hnew e he).1 hmem
    obtain ⟨at₀, hclock', haged⟩ := hclock e (List.mem_filter.mpr ⟨he, by simp [hisNone]⟩)
    by_cases hage : e ∈ aged.reduceOption
    · refine .unresolved hinfix huntold (List.mem_append_left _ hclock') (haged.mp hage) hp ?_
      refine SortedSet.score_insertAll_of_mem ?_ hage
      exact ((hsub.trans List.filter_sublist).map _).nodup hnodup
    · refine .young hinfix huntold (List.mem_append_left _ hclock')
        (not_le.mp fun h => hage (haged.mpr h)) hp fun hmem => ?_
      rcases SortedSet.mem_insertAll.mp hmem with hmem | hmem
      · obtain ⟨e', he', heq⟩ := List.mem_map.mp hmem
        rw [hkey e' (hnone e' he').1 e he heq] at he'
        exact hage he'
      · exact (hnew e he).2 hmem
  · refine SortedSet.score_insertAll_of_not_mem fun hmem => hid ?_
    exact (List.filter_sublist.map _).subset hmem
  · refine SortedSet.score_insertAll_of_not_mem fun hmem => hid ?_
    exact ((hsub.trans List.filter_sublist).map _).subset hmem
  · refine List.IsSuffix.trans ?_ hsuffix
    rw [← hsteps]
    exact List.suffix_append _ _

end RetainedJobIndex

end HorizonNewDawn

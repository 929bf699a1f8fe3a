import HorizonNewDawn.Jobs.RetainedJobIndex.Footprint
import HorizonNewDawn.Jobs.RetainedJobIndex.Slots

/-! # Keeping the published slot exact

What the programs of the synchronizer do to the slots, for the metadata `jobs`. In every store, also
where a run is aborted, the published slot is exact and the others are frayed at worst (`Clean`); the
slot a synchronization works on is moreover initialized and not published (`Ready`). A removal that is
aborted leaves residue in the working slot, which the next inspection of its structure finds where it
looks (`Noticed`). The discipline `repairing` asks for a clean store after every command, and looks
only at inspections whose slot has no residue or shows it (`Visible`). -/

namespace HorizonNewDawn

open Program

namespace RetainedJobIndex

variable {jobs : String → RetainedJobMetadata} {t : RetainedJobType} {g : Generation}
  {s s' : Store} {scan : ScanOrder} {i : ProcessId} {α β σ : Type}

/-! ## Slots and metadata -/

/-- The metadata of an id is `jobs id`, in the hash and in the job repository. -/
structure Truthful (jobs : String → RetainedJobMetadata) (s : Store) : Prop where
  kept : ∀ e ∈ s.metadata, e.2 = jobs e.1
  fetched : ∀ ids, ∀ job ∈ s.repository ids, ∀ m, RetainedJobMetadata.fromJob job = some m →
    m = jobs m.id

/-- A change that leaves the index alone and stores no other metadata. -/
structure Apart (jobs : String → RetainedJobMetadata) (t : RetainedJobType) (s s' : Store) :
    Prop where
  slots : ∀ g, SameSlot t g s s'
  published : s'.published t = s.published t
  revision : s'.revision t = s.revision t
  initialized : s'.initialized t = s.initialized t
  truthful : Truthful jobs s → Truthful jobs s'

/-- The published slot is exact. -/
def PublishedExact (jobs : String → RetainedJobMetadata) (t : RetainedJobType) (s : Store) : Prop :=
  Exact jobs t (s.publishedGeneration t) s

/-- The published slot is exact, every slot is frayed at worst, and the slots that are not in use are
vacant. -/
structure Clean (jobs : String → RetainedJobMetadata) (t : RetainedJobType) (s : Store) :
    Prop where
  truthful : Truthful jobs s
  published : Exact jobs t (s.publishedGeneration t) s
  frayed : ∀ g, Frayed jobs t g s
  unused : ∀ g, g ≠ .legacy → s.initialized t g = false → Vacant t g s

/-- A slot that may be worked on: it is initialized and not published. -/
structure Ready (jobs : String → RetainedJobMetadata) (t : RetainedJobType) (g : Generation)
    (s : Store) : Prop extends Clean jobs t s where
  initialized : s.initialized t g = true
  unpublished : s.publishedGeneration t ≠ g

namespace Apart

/-- Nothing has changed. -/
theorem refl (s : Store) : Apart jobs t s s := ⟨fun _ => .refl s, rfl, rfl, rfl, id⟩

/-- Changes apart add up. -/
theorem trans {s'' : Store} (h : Apart jobs t s s') (h' : Apart jobs t s' s'') :
    Apart jobs t s s'' :=
  ⟨fun g => (h.slots g).trans (h'.slots g), h'.published.trans h.published,
    h'.revision.trans h.revision, h'.initialized.trans h.initialized,
    fun ht => h'.truthful (h.truthful ht)⟩

/-- They publish nothing. -/
theorem publishedGeneration (h : Apart jobs t s s') :
    s'.publishedGeneration t = s.publishedGeneration t := by
  rw [Store.publishedGeneration, Store.publishedState_congr h.published h.revision]
  rfl

end Apart

/-- What the slots hold and which is published decides whether the store is clean. -/
theorem Clean.of_slots (h : Clean jobs t s) (hslots : ∀ g, SameSlot t g s s')
    (hinit : s'.initialized t = s.initialized t)
    (hpublished : Exact jobs t (s'.publishedGeneration t) s) (htruthful : Truthful jobs s') :
    Clean jobs t s' where
  truthful := htruthful
  published := hpublished.congr (hslots _)
  frayed g := (h.frayed g).congr (hslots g)
  unused g hg hi := by
    rw [hinit] at hi
    exact (h.unused g hg hi).congr (hslots g)

/-- Changes apart keep a store clean. -/
theorem Clean.congr (hapart : Apart jobs t s s') (h : Clean jobs t s) : Clean jobs t s' := by
  apply h.of_slots hapart.slots hapart.initialized _ (hapart.truthful h.truthful)
  rw [hapart.publishedGeneration]
  exact h.published

/-- Changes apart keep a slot ready. -/
theorem Ready.congr (hapart : Apart jobs t s s') (h : Ready jobs t g s) : Ready jobs t g s' := by
  refine ⟨h.toClean.congr hapart, ?_, ?_⟩
  · rw [hapart.initialized]
    exact h.initialized
  · rw [hapart.publishedGeneration]
    exact h.unpublished

/-! ## Commands -/

/-- A key that neither says what a slot holds nor which slot is published. -/
def Key.Aside (t : RetainedJobType) : Key → Prop
  | .sortedSet (.projection t' _) => t' ≠ t
  | .sortedSet (.facet t' _ _ _) => t' ≠ t
  | .catalog k => k.type ≠ t
  | .metadata => False
  | .published t' => t' ≠ t
  | .revision t' => t' ≠ t
  | .initialized t' _ => t' ≠ t
  | _ => True

/-- No command changes the job repository. -/
theorem effect_repository (c : Command) : (c.effect i s).repository = s.repository := by
  cases c with
  | write ws =>
      simp only [Command.effect]
      induction ws generalizing s with
      | nil => rfl
      | cons w ws ih =>
          rw [Store.writeAll_cons, ih]
          cases w with
          | sadd k value => rw [Write.effect]; split <;> rfl
          | del k => cases k <;> rfl
          | _ => rfl
  | setLockNx t token seconds => rw [Command.effect]; split <;> rfl
  | releaseLock t token => rw [Command.effect]; split <;> rfl
  | setnxOwner owner => rw [Command.effect]; split <;> rfl
  | _ => rfl

/-- A command that writes only keys aside leaves the index alone. -/
theorem apart_of_writes {c : Command} (h : ∀ k ∈ c.writes, Key.Aside t k) :
    Apart jobs t s (c.effect i s) := by
  have hsame : ∀ k, ¬Key.Aside t k → s.SameAt (c.effect i s) k := fun k hk =>
    Command.effect_sameAt fun hmem => hk (h k hmem)
  refine ⟨fun g => ⟨hsame (.sortedSet (.projection t g)) (by simp [Key.Aside]),
    fun d value => hsame (.sortedSet (.facet t g d value)) (by simp [Key.Aside]),
    fun d => hsame (.catalog ⟨t, g, d⟩) (by simp [Key.Aside])⟩,
    hsame (.published t) (by simp [Key.Aside]), hsame (.revision t) (by simp [Key.Aside]), ?_,
    fun ht => ⟨?_, ?_⟩⟩
  · funext g
    exact hsame (.initialized t g) (by simp [Key.Aside])
  · rw [show (c.effect i s).metadata = s.metadata from hsame .metadata (by simp [Key.Aside])]
    exact ht.kept
  · rw [effect_repository]
    exact ht.fetched

/-- Dropping metadata leaves the index alone. -/
theorem apart_hdel {id : String} : Apart jobs t s ((Command.write [.hdel id]).effect i s) :=
  ⟨fun _ => ⟨rfl, fun _ _ => rfl, fun _ => rfl⟩, rfl, rfl, rfl,
    fun ht => ⟨fun e he => ht.kept e (List.mem_filter.mp he).1, ht.fetched⟩⟩

/-- The failure of the connection leaves the index alone. -/
theorem apart_failing {b : Bool} : Apart jobs t s { s with failing := b } :=
  ⟨fun _ => ⟨rfl, fun _ _ => rfl, fun _ => rfl⟩, rfl, rfl, rfl, fun ht => ⟨ht.kept, ht.fetched⟩⟩

/-- A block that writes only the slot `g` and metadata that agree with `jobs` keeps the slot ready, as
long as it stays frayed at worst. -/
theorem Ready.writeAll {ws : List Write} (h : Ready jobs t g s)
    (hslot : ∀ w ∈ ws, w.key.InSlot t g ∨ ∃ id, w = .hset id (jobs id))
    (hfrayed : Frayed jobs t g (s.writeAll ws)) : Ready jobs t g (s.writeAll ws) := by
  have hsame : ∀ k : Key, ¬k.InSlot t g → k ≠ .metadata → s.SameAt (s.writeAll ws) k := by
    intro k hk hne
    refine Store.sameAt_writeAll_of_keys fun w hw heq => ?_
    rcases hslot w hw with hin | ⟨id, rfl⟩
    · exact hk (heq ▸ hin)
    · exact hne heq.symm
  have hother : ∀ g', g' ≠ g → SameSlot t g' s (s.writeAll ws) := by
    refine fun g' hg' => SameSlot.of_sameAt fun k hk => hsame k (fun hin => hg' ?_) ?_
    · cases k with
      | sortedSet k => cases k <;> first | exact hk.2.symm.trans hin.2 | exact hk.elim
      | catalog k => exact hk.2.symm.trans hin.2
      | _ => exact hk.elim
    · rintro rfl
      exact hk.elim
  have hinit : ∀ g', (s.writeAll ws).initialized t g' = s.initialized t g' := fun g' =>
    hsame (.initialized t g') id Key.noConfusion
  have hpublished : (s.writeAll ws).publishedGeneration t = s.publishedGeneration t := by
    rw [Store.publishedGeneration, Store.publishedState_congr
      (hsame (.published t) id Key.noConfusion) (hsame (.revision t) id Key.noConfusion)]
    rfl
  have htruthful : Truthful jobs (s.writeAll ws) := by
    constructor
    · apply Store.metadata_writeAll (P := fun e => e.2 = jobs e.1) _ h.truthful.kept
      intro id m hm
      rcases hslot _ hm with hin | ⟨id', heq⟩
      · exact hin.elim
      · cases heq
        rfl
    · rw [show (s.writeAll ws).repository = s.repository from
        effect_repository (i := 0) (.write ws)]
      exact h.truthful.fetched
  refine ⟨⟨htruthful, ?_, fun g' => ?_, fun g' hl hi => ?_⟩, (hinit g).trans h.initialized,
    fun heq => h.unpublished (hpublished.symm.trans heq)⟩
  · rw [hpublished]
    exact h.published.congr (hother _ h.unpublished)
  · by_cases hg : g' = g
    · rw [hg]
      exact hfrayed
    · exact (h.frayed g').congr (hother g' hg)
  · rw [hinit] at hi
    by_cases hg : g' = g
    · rw [hg, h.initialized] at hi
      cases hi
    · exact (h.unused g' hl hi).congr (hother g' hg)

/-! ## The discipline -/

/-- The residue an inspection finds: in a required dimension, all of it, and in a required facet the
value that is idle. The inspection of a dimension that is not single-valued always fails. -/
def Noticed (t : RetainedJobType) (g : Generation) (requiredFacets : List (FacetDimension × String))
    (requiredCatalogPartitions : List FacetDimension) (s : Store) : Prop :=
  (∃ d ∈ requiredCatalogPartitions, d.isSingleValued = false ∨ Residue t g s d) ∨
    ∃ f ∈ requiredFacets, f.2 ∈ s.catalog ⟨t, g, f.1⟩ ∧ (s.zset (.facet t g f.1 f.2)).card = 0

instance {requiredFacets : List (FacetDimension × String)}
    {requiredCatalogPartitions : List FacetDimension} :
    Decidable (Noticed t g requiredFacets requiredCatalogPartitions s) :=
  inferInstanceAs (Decidable ((∃ d ∈ requiredCatalogPartitions, _ ∨ Residue t g s d) ∨
    ∃ f ∈ requiredFacets, f.2 ∈ s.catalog _ ∧ _ = _))

/-- What an inspection finds is what the slot holds. -/
theorem SameSlot.noticed_iff (h : SameSlot t g s s')
    {requiredFacets : List (FacetDimension × String)}
    {requiredCatalogPartitions : List FacetDimension} :
    Noticed t g requiredFacets requiredCatalogPartitions s' ↔
      Noticed t g requiredFacets requiredCatalogPartitions s := by
  simp only [Noticed, h.residue_iff, h.catalog, h.facet]

/-- An inspection is looked at where the slot has no residue or shows it. -/
def Visible (t : RetainedJobType) (ls : List Section) (_ : Command) (s : Store) : Prop :=
  ∀ g requiredFacets requiredCatalogPartitions,
    .inspecting (some (t, g)) requiredFacets requiredCatalogPartitions ∈ ls →
      (∀ d, ¬Residue t g s d) ∨ Noticed t g requiredFacets requiredCatalogPartitions s

/-- The others leave the index alone; the store is clean after every command. -/
def repairing (scan : ScanOrder) (i : ProcessId) (jobs : String → RetainedJobMetadata)
    (t : RetainedJobType) : Discipline Command Section Store where
  rely _ := Apart jobs t
  assume := Visible t
  ok _ c s := Clean jobs t (exec scan i c s).2
  rely_refl _ := .refl
  rely_trans _ _ _ _ := .trans

/-! ### Assertions about a slot -/

/-- An assertion about what the slot `g` holds. -/
def OfSlot (t : RetainedJobType) (g : Generation) (Φ : Store → Prop) : Prop :=
  ∀ s s', SameSlot t g s s' → Φ s → Φ s'

/-- Two assertions about the slot. -/
theorem OfSlot.and {Φ Ψ : Store → Prop} (hΦ : OfSlot t g Φ) (hΨ : OfSlot t g Ψ) :
    OfSlot t g fun s => Φ s ∧ Ψ s := fun s s' hsame h => ⟨hΦ s s' hsame h.1, hΨ s s' hsame h.2⟩

/-- An assertion for every index. -/
theorem OfSlot.forall {ι : Sort*} {Φ : ι → Store → Prop} (hΦ : ∀ x, OfSlot t g (Φ x)) :
    OfSlot t g fun s => ∀ x, Φ x s := fun s s' hsame h x => hΦ x s s' hsame (h x)

/-- An assertion under a condition. -/
theorem OfSlot.imp {p : Prop} {Φ : Store → Prop} (hΦ : OfSlot t g Φ) :
    OfSlot t g fun s => p → Φ s := fun s s' hsame h hp => hΦ s s' hsame (h hp)

/-- Nothing is asserted. -/
theorem ofSlot_true : OfSlot t g fun _ => True := fun _ _ _ h => h

/-- What a loose slot has left over. -/
theorem ofSlot_loose {stray idle : FacetDimension → String → Prop} :
    OfSlot t g (Loose jobs t g stray idle) := fun _ _ => Loose.congr

/-- Something about the projection. -/
theorem ofSlot_projection {p : ZSet → Prop} : OfSlot t g fun s => p (s.zset (.projection t g)) := by
  intro s s' hsame h
  rw [hsame.projection]
  exact h

/-- Something about a facet. -/
theorem ofSlot_facet {d : FacetDimension} {value : String} {p : ZSet → Prop} :
    OfSlot t g fun s => p (s.zset (.facet t g d value)) := by
  intro s s' hsame h
  rw [hsame.facet]
  exact h

/-! ### Assertions that changes apart keep -/

/-- An assertion that changes apart keep, about clean stores. -/
structure Steady (jobs : String → RetainedJobMetadata) (t : RetainedJobType) (Φ : Store → Prop) :
    Prop where
  congr : ∀ {s s'}, Apart jobs t s s' → Φ s → Φ s'
  clean : ∀ {s}, Φ s → Clean jobs t s

/-- That the store is clean. -/
theorem steady_clean : Steady jobs t (Clean jobs t) := ⟨Clean.congr, id⟩

/-- That a slot is ready, and something of what it holds. -/
theorem steady_ready {Φ : Store → Prop} (hΦ : OfSlot t g Φ) :
    Steady jobs t fun s => Ready jobs t g s ∧ Φ s where
  congr hapart h := ⟨h.1.congr hapart, hΦ _ _ (hapart.slots g) h.2⟩
  clean h := h.1.toClean

/-- A command that keeps an assertion, whoever sends it. -/
def Maintains (Φ : Store → Prop) (_ : List Section) (c : Command) : Prop :=
  ∀ i s, Φ s → Φ (c.effect i s)

/-- An answer that tells no other metadata than `jobs`. -/
def Honest (jobs : String → RetainedJobMetadata) : (c : Command) → c.Reply → Prop
  | .hmget ids, some found => ∀ e ∈ ids.zip (show List (Option RetainedJobMetadata) from found),
      ∀ m, e.2 = some m → m = jobs e.1
  | .getJobs _, some found => ∀ job ∈ (show List JobObject from found),
      ∀ m, RetainedJobMetadata.fromJob job = some m → m = jobs m.id
  | _, _ => True

/-- A truthful store gives honest answers. -/
theorem honest_exec {c : Command} (h : Truthful jobs s) :
    Honest jobs c (exec scan i c s).1 := by
  cases hf : s.failing with
  | true =>
      rw [exec, hf, if_pos rfl]
      cases c <;> trivial
  | false =>
      rw [exec, hf, if_neg Bool.false_ne_true]
      cases c with
      | hmget ids =>
          intro e he m hm
          have he' : e ∈ ids.zip (ids.map s.metadataOf) := he
          rw [List.zip_map_right, List.mem_map] at he'
          obtain ⟨⟨id, id'⟩, hid, rfl⟩ := he'
          obtain rfl : id = id' := by
            obtain ⟨n, hn⟩ := List.mem_iff_getElem?.mp hid
            rw [List.getElem?_zip_eq_some] at hn
            exact Option.some.inj (hn.1.symm.trans hn.2)
          have hfind : (s.metadata.find? fun e => e.1 = id).map Prod.snd = some m := hm
          obtain ⟨entry, hentry, rfl⟩ := Option.map_eq_some_iff.mp hfind
          have hkey : entry.1 = id := by simpa using List.find?_some hentry
          have htold := h.kept entry (List.mem_of_find?_eq_some hentry)
          rw [hkey] at htold
          exact htold
      | getJobs ids => exact h.fetched ids
      | _ => trivial

/-- **From text to behaviour**: commands that maintain a steady assertion meet the discipline. -/
theorem wp_of_maintains {Φ : Store → Prop} {p : Redis α} {R : α → Prop} (hΦ : Steady jobs t Φ)
    (h : Obeys (Maintains Φ) (Honest jobs) p R) (hs : Φ s) :
    wp (exec scan i) (repairing scan i jobs t) p (fun a s => R a ∧ Φ s) (fun _ => Φ) s := by
  refine wp_of_obeys (fun _ s s' hr => hΦ.congr hr) (fun ls c s hc hs _ => ?_) h hs
  have hafter : Φ (exec scan i c s).2 := by
    rw [exec]
    split
    · exact hΦ.congr apart_failing hs
    · exact hc i s hs
  exact ⟨hΦ.clean hafter, honest_exec (hΦ.clean hs).truthful, hafter⟩

/-- A section only adds to what a program may assume. -/
theorem wp_push {p : Redis α} {Q : α → Store → Prop} {E : Failure → Store → Prop} (l : Section)
    (h : wp (exec scan i) (repairing scan i jobs t) p Q E s) :
    wp (exec scan i) ((repairing scan i jobs t).push l) p Q E s := by
  refine wp_mono_discipline (D := repairing scan i jobs t) (fun _ _ _ hr => hr) ?_
    (fun _ _ _ _ hok => hok) h
  exact fun ls c s ha g facets partitions hin => ha g facets partitions (List.mem_cons_of_mem l hin)

/-- A program that meets the discipline and keeps an assertion where it returns; where it throws, the
store is clean. -/
def Preserves (scan : ScanOrder) (i : ProcessId) (jobs : String → RetainedJobMetadata)
    (t : RetainedJobType) (Φ : Store → Prop) (p : Redis α) : Prop :=
  ∀ s, Φ s → wp (exec scan i) (repairing scan i jobs t) p (fun _ => Φ) (fun _ => Clean jobs t) s

namespace Preserves

variable {Φ : Store → Prop} {p : Redis α}

/-- Commands that maintain the assertion. -/
theorem of_maintains {R : α → Prop} (hΦ : Steady jobs t Φ)
    (h : Obeys (Maintains Φ) (Honest jobs) p R) : Preserves scan i jobs t Φ p :=
  fun _ hs => wp_mono (fun _ _ h => h.2) (fun _ _ h => hΦ.clean h) (wp_of_maintains hΦ h hs)

/-- A program that writes only keys aside keeps every steady assertion. -/
theorem of_writes (hΦ : Steady jobs t Φ) (h : Writes (Key.Aside t) p) :
    Preserves scan i jobs t Φ p := by
  refine of_maintains (R := fun _ => True) hΦ (Obeys.answers (fun _ _ _ => trivial) ?_)
  exact Obeys.mono (fun _ c hc _ s hs => hΦ.congr (apart_of_writes hc) hs) (fun _ h => h) h

/-- A result. -/
theorem ret {a : α} : Preserves scan i jobs t Φ (return a : Redis α) := fun _ hs => hs

/-- Sequencing. -/
theorem bind {f : α → Redis β} (h : Preserves scan i jobs t Φ p)
    (hf : ∀ a, Preserves scan i jobs t Φ (f a)) : Preserves scan i jobs t Φ (p >>= f) :=
  fun s hs => wp_bind_of (h s hs) fun a s hs => hf a s hs

/-- A branch. -/
theorem ite {c : Prop} [Decidable c] {q : Redis α} (h : Preserves scan i jobs t Φ p)
    (h' : Preserves scan i jobs t Φ q) : Preserves scan i jobs t Φ (if c then p else q) := by
  split
  · exact h
  · exact h'

/-- `if` without an alternative. -/
theorem ifThen {c : Prop} [Decidable c] {p : Redis Unit} (h : Preserves scan i jobs t Φ p) :
    Preserves scan i jobs t Φ (Prog.ifThen c p) :=
  fun s hs => wp_ifThen (fun _ => h s hs) fun _ => hs

/-- `try … finally …`: the clean-up keeps the assertion after a result, and a clean store after an
exception. -/
theorem tryFinally {cleanup : Redis Unit} (h : Preserves scan i jobs t Φ p)
    (hc : Preserves scan i jobs t Φ cleanup)
    (hc' : Preserves scan i jobs t (Clean jobs t) cleanup) :
    Preserves scan i jobs t Φ (p.tryFinally cleanup) :=
  fun s hs => wp_tryFinally_of (h s hs) (fun _ s hs => hc s hs) fun _ s hs => hc' s hs

/-- `try … catch …`, of a clean store. -/
theorem tryCatch {handler : Failure → Redis α} (h : Preserves scan i jobs t (Clean jobs t) p)
    (hc : ∀ e, Preserves scan i jobs t (Clean jobs t) (handler e)) :
    Preserves scan i jobs t (Clean jobs t) (p.tryCatch handler) :=
  fun s hs => wp_tryCatch.mpr (wp_mono (fun _ _ h => h) (fun e s hs => hc e s hs) (h s hs))

/-- A loop over a list. -/
theorem forEach {as : List α} {body : α → Redis Unit}
    (h : ∀ a ∈ as, Preserves scan i jobs t Φ (body a)) :
    Preserves scan i jobs t Φ (Prog.forEach as body) := by
  induction as with
  | nil => exact ret
  | cons a as ih =>
      refine bind (h a List.mem_cons_self) fun _ => ih fun b hb => ?_
      exact h b (List.mem_cons_of_mem a hb)

/-- A bounded loop. -/
theorem iterate {fuel : ℕ} {body : σ → Redis (σ ⊕ α)}
    (h : ∀ x, Preserves scan i jobs t Φ (body x)) {x : σ} :
    Preserves scan i jobs t Φ (Prog.iterate fuel body x) :=
  fun s hs => wp_iterate (I := fun _ => Φ)
    (fun x s hs => wp_mono (fun r s hs => by cases r <;> exact hs) (fun _ _ h => h) (h x s hs))
    fuel hs

/-- A search through a list. -/
theorem firstSome {as : List α} {body : α → Redis (Option β)}
    (h : ∀ a ∈ as, Preserves scan i jobs t Φ (body a)) :
    Preserves scan i jobs t Φ (Prog.firstSome as body) := by
  induction as with
  | nil => exact ret
  | cons a as ih =>
      refine bind (h a List.mem_cons_self) fun r => ?_
      cases r with
      | some b => exact ret
      | none => exact ih fun b hb => h b (List.mem_cons_of_mem a hb)

/-- A program in a section. -/
theorem inside {l : Section} (h : Preserves scan i jobs t Φ p) :
    Preserves scan i jobs t Φ (p.inside l) := by
  intro s hs
  apply wp_inside.mpr
  exact wp_push l (h s hs)

end Preserves

/-- Reading is free while a steady assertion holds. -/
theorem reads_repairing {Φ : Store → Prop} (hΦ : Steady jobs t Φ) :
    Reads scan i (repairing scan i jobs t) Φ (fun _ => Clean jobs t) := by
  refine ⟨fun _ _ _ hr hs => hΦ.congr hr hs, fun c s hc hs _ => ?_, fun c s hs _ _ =>
    (hΦ.clean hs).congr apart_failing⟩
  show Clean jobs t (exec scan i c s).2
  rw [exec]
  split
  · exact (hΦ.clean hs).congr apart_failing
  · rw [hc]
    exact hΦ.clean hs

/-- Changes apart keep a slot ready, and what is known of it. -/
theorem reads_ready {Φ : Store → Prop} (hΦ : OfSlot t g Φ) :
    Reads scan i (repairing scan i jobs t) (fun s => Ready jobs t g s ∧ Φ s)
      (fun _ => Clean jobs t) :=
  reads_repairing (steady_ready hΦ)

/-! ### Writing the slot -/

section Writing

variable {Φ Q : Store → Prop}

/-- A block of writes of the slot, which stays frayed at worst. -/
theorem repairing_write {ws : List Write} (hΦ : OfSlot t g Φ)
    (hslot : ∀ w ∈ ws, w.key.InSlot t g) (h : ∀ s, Φ s → Q (s.writeAll ws))
    (hQ : ∀ s, Q s → Frayed jobs t g s) (hs : Ready jobs t g s ∧ Φ s) :
    wp (exec scan i) (repairing scan i jobs t) (write ws)
      (fun _ s => Ready jobs t g s ∧ Q s) (fun _ => Clean jobs t) s := by
  apply wp_command.mpr
  intro s' hr _
  have hs' := (steady_ready hΦ).congr hr hs
  have hready : Ready jobs t g (s'.writeAll ws) :=
    hs'.1.writeAll (fun w hw => Or.inl (hslot w hw)) (hQ _ (h s' hs'.2))
  refine ⟨?_, fun _ => hs'.1.toClean.congr apart_failing, fun _ => ⟨hready, h s' hs'.2⟩⟩
  show Clean jobs t (exec scan i _ s').2
  rw [exec]
  split
  · exact hs'.1.toClean.congr apart_failing
  · exact hready.toClean

/-- A transaction of writes of the slot. -/
theorem repairing_transaction {ws : (RetainedJobType → Generation) → List Write}
    (hΦ : OfSlot t g Φ)
    (hslot : ∀ generations, generations t = g → ∀ w ∈ ws generations, w.key.InSlot t g)
    (h : ∀ generations, generations t = g → ∀ s, Φ s → Q (s.writeAll (ws generations)))
    (hQ : ∀ s, Q s → Frayed jobs t g s) (hs : Ready jobs t g s ∧ Φ s) :
    wp (exec scan i) (repairing scan i jobs t) (transaction (some (t, g)) ws)
      (fun _ s => Ready jobs t g s ∧ Q s) (fun _ => Clean jobs t) s := by
  apply wp_bind_of ((reads_ready hΦ).snapshot hs)
  intro generations s hg
  have hworking := hg.1 t g rfl
  exact repairing_write hΦ (hslot generations hworking) (h generations hworking) hQ hg.2

end Writing

end RetainedJobIndex

end HorizonNewDawn

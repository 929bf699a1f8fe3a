import HorizonNewDawn.Jobs.RetainedJobIndex.Candidate
import HorizonNewDawn.Jobs.RetainedJobIndex.Consistency
import HorizonNewDawn.Jobs.RetainedJobIndex.Hydration
import Mathlib

/-! # The retained-job index: what a live candidate holds

`withCandidateKey` reads under the fence of the published state, so its result is the result of the
callback on one sorted set (`withCandidateKey_read`): the members of a snapshot of the source that are
projected, are in the facets of one published slot and are found by the search, with the scores of the
source. The pages and the counts of a filtered list are that of the jobs the filter is about. -/

namespace HorizonNewDawn

open Program

namespace RetainedJobIndex

variable {rank : Option PublishedState → ℕ} {i : ProcessId} {t : RetainedJobType}
  {s s' : Store} {scan : ScanOrder} {state : Option PublishedState} {at₁ : Store}

/-! ## Keys whose contents are known -/

/-- A key that is drawn is not in use. -/
def Unused (i : ProcessId) (c : Command) (s : Store) : Prop :=
  c = .random → s.zset (.temporary ⟨i, s.serial i⟩) = ∅

/-- What a reader that is not disturbed knows: the slot published as `state` is as it was in the store
`at₁`, and its temporary keys hold what it has stored. -/
structure Keeping (i : ProcessId) (t : RetainedJobType) (state : Option PublishedState) (at₁ : Store)
    (stored : Token → Option ZSet) (s : Store) : Prop where
  published : s.publishedState t = state
  slot : SameSlot t (generationFromPublishedState state) at₁ s
  stored : ∀ k z, stored k = some z →
    k.pid = i ∧ k.serial < s.serial i ∧ s.zset (.temporary k) = z

/-- What a key stands for: the keys of the slot, and what is stored under the temporary keys. -/
def meaning (t : RetainedJobType) (g : Generation) (at₁ : Store) (stored : Token → Option ZSet) :
    SortedSetKey → Option ZSet
  | .temporary k => stored k
  | .facet t' g' d value => if t' = t ∧ g' = g then some (at₁.zset (.facet t g d value)) else none
  | .projection t' g' => if t' = t ∧ g' = g then some (at₁.zset (.projection t g)) else none
  | _ => none

/-- More is stored. -/
def Extends (stored stored' : Token → Option ZSet) : Prop :=
  ∀ k z, stored k = some z → stored' k = some z

variable {stored stored' : Token → Option ZSet} {k : Token} {z : ZSet} {g : Generation}

/-- What is stored extends itself. -/
theorem Extends.refl (stored : Token → Option ZSet) : Extends stored stored := fun _ _ h => h

/-- Extensions can be put together. -/
theorem Extends.trans {stored'' : Token → Option ZSet} (h : Extends stored stored')
    (h' : Extends stored' stored'') : Extends stored stored'' := fun k z hk => h' k z (h k z hk)

/-- Storing a set under a new key extends what is stored. -/
theorem extends_update (h : stored k = none) (z : ZSet) :
    Extends stored (Function.update stored k (some z)) := by
  intro k' z' hk'
  have hne : k' ≠ k := by
    rintro rfl
    rw [h] at hk'
    cases hk'
  rw [Function.update_of_ne hne]
  exact hk'

/-- A key that has a meaning keeps it when more is stored. -/
theorem Extends.meaning {k : SortedSetKey} (h : Extends stored stored')
    (hk : meaning t g at₁ stored k = some z) : meaning t g at₁ stored' k = some z := by
  cases k with
  | temporary k => exact h k z hk
  | _ => exact hk

/-- A facet means what it holds at the inspection. -/
theorem meaning_facet (d : FacetDimension) (value : String) :
    meaning t g at₁ stored (.facet t g d value) = some (at₁.zset (.facet t g d value)) := by
  simp [meaning]

namespace Keeping

/-- The keys hold what they stand for. -/
theorem zset {k : SortedSetKey} (h : Keeping i t state at₁ stored s)
    (hk : meaning t (generationFromPublishedState state) at₁ stored k = some z) : s.zset k = z := by
  cases k with
  | temporary k => exact (h.stored k z hk).2.2
  | facet t' g' d value =>
      rw [meaning] at hk
      split at hk
      · rename_i heq
        obtain ⟨rfl, rfl⟩ := heq
        rw [h.slot.facet]
        exact Option.some.inj hk
      · cases hk
  | projection t' g' =>
      rw [meaning] at hk
      split at hk
      · rename_i heq
        obtain ⟨rfl, rfl⟩ := heq
        rw [h.slot.projection]
        exact Option.some.inj hk
      · cases hk
  | _ => cases hk

/-- What the reader keeps stays while nobody disturbs. -/
theorem stable : (undisturbed rank i t).Stable (Keeping i t state at₁ stored) := by
  intro ls s s' hr hs
  have hr : SlotKept rank i t s s' := hr
  have hslot := hr.slot
  rw [show s.publishedGeneration t = generationFromPublishedState state from
    congrArg generationFromPublishedState hs.published] at hslot
  refine ⟨hr.same.trans hs.published, hs.slot.trans hslot, fun k z hk => ?_⟩
  obtain ⟨hown, hdrawn, hz⟩ := hs.stored k z hk
  have htemporary := hr.temporary k.serial
  rw [← hown] at htemporary
  refine ⟨hown, ?_, htemporary.trans hz⟩
  rw [hr.serial]
  exact hdrawn

/-- While the reader keeps its slot the published state is the one it has read. -/
theorem state_eq : ∀ s, Keeping i t state at₁ stored s → s.publishedState t = state :=
  fun _ h => h.published

/-- A reader that is not disturbed reads what it keeps. -/
theorem reads : Reads scan i (undisturbed rank i t) (Keeping i t state at₁ stored) fun _ _ => True :=
  reads_undisturbed stable

/-- Looking up an id in the snapshot. -/
theorem reads_zscore {stored : Token → Option ZSet} {snap : ZSet} (source : SourceSnapshot) (id : String)
    (hs : Keeping i t state at₁ stored s) (hsource : stored source.key = some snap) :
    wp (exec scan i) (undisturbed rank i t) (zscore (.temporary source.key) id)
      (fun score s => (score.isSome ↔ id ∈ snap) ∧ Keeping i t state at₁ stored s)
      (fun _ _ => True) s := by
  apply wp_mono _ (fun _ _ h => h)
    (Keeping.reads.command (c := .zscore (.temporary source.key) id) (fun _ => rfl) hs)
  rintro score s ⟨rfl, hs⟩
  refine ⟨?_, hs⟩
  rw [← (hs.stored _ _ hsource).2.2, ← SortedSet.score_isSome_iff]
  rfl

/-- Writing a temporary key that is drawn. -/
theorem writeAll {ws : List Write} (h : Keeping i t state at₁ stored s)
    (hws : ∀ w ∈ ws, w.key = .sortedSet (.temporary k)) (hown : k.pid = i)
    (hdrawn : k.serial < s.serial i) :
    Keeping i t state at₁
      (Function.update stored k (some ((s.writeAll ws).zset (.temporary k)))) (s.writeAll ws) := by
  have hsame : ∀ k' : Key, k' ≠ .sortedSet (.temporary k) → s.SameAt (s.writeAll ws) k' := by
    intro k' hk'
    apply Store.sameAt_writeAll_of_keys
    intro w hw heq
    exact hk' (heq.symm.trans (hws w hw))
  have hserial : (s.writeAll ws).serial i = s.serial i := congrFun Store.serial_writeAll i
  constructor
  · exact (Store.publishedState_congr (hsame _ (by simp)) (hsame _ (by simp))).trans h.published
  · apply h.slot.trans
    apply SameSlot.of_sameAt
    intro k' hk'
    apply hsame
    rintro rfl
    exact hk'.elim
  · intro k' z hk'
    by_cases heq : k' = k
    · subst heq
      rw [Function.update_self] at hk'
      exact ⟨hown, hserial ▸ hdrawn, Option.some.inj hk'⟩
    · rw [Function.update_of_ne heq] at hk'
      obtain ⟨hown', hdrawn', hz⟩ := h.stored k' z hk'
      have hkey : s.SameAt (s.writeAll ws) (.sortedSet (.temporary k')) := hsame _ (by simp [heq])
      exact ⟨hown', hserial ▸ hdrawn', Eq.trans hkey hz⟩

end Keeping

/-- The id is in the set the key stands for. -/
def Contains (t : RetainedJobType) (g : Generation) (at₁ : Store) (stored : Token → Option ZSet)
    (k : SortedSetKey) (id : String) : Prop :=
  ∃ z, meaning t g at₁ stored k = some z ∧ id ∈ z

/-- It is known what the key stands for. -/
def Known (t : RetainedJobType) (g : Generation) (at₁ : Store) (stored : Token → Option ZSet)
    (k : SortedSetKey) : Prop :=
  ∃ z, meaning t g at₁ stored k = some z

/-- A known key stays known when more is stored. -/
theorem Known.extends {k : SortedSetKey} (hk : Known t g at₁ stored k)
    (h : Extends stored stored') : Known t g at₁ stored' k := by
  obtain ⟨z, hz⟩ := hk
  exact ⟨z, h.meaning hz⟩

/-- What a known key contains does not depend on what else is stored. -/
theorem Known.contains_iff {k : SortedSetKey} {id : String} (hk : Known t g at₁ stored k)
    (h : Extends stored stored') :
    Contains t g at₁ stored' k id ↔ Contains t g at₁ stored k id := by
  obtain ⟨z, hz⟩ := hk
  simp [Contains, hz, h.meaning hz]

/-- The members of a known key are what it contains. -/
theorem Keeping.mem_iff {k : SortedSetKey} {id : String} (h : Keeping i t state at₁ stored s)
    (hk : Known t (generationFromPublishedState state) at₁ stored k) :
    id ∈ s.zset k ↔ Contains t (generationFromPublishedState state) at₁ stored k id := by
  obtain ⟨z, hz⟩ := hk
  simp [Contains, hz, h.zset hz]

/-- A facet contains its members at the inspection. -/
theorem contains_facet {d : FacetDimension} {value id : String} :
    Contains t g at₁ stored (.facet t g d value) id ↔ id ∈ at₁.zset (.facet t g d value) := by
  simp [Contains, meaning_facet]

/-- Every facet is known. -/
theorem known_facet (d : FacetDimension) (value : String) :
    Known t g at₁ stored (.facet t g d value) := ⟨_, meaning_facet d value⟩

/-- A temporary key contains what is stored under it. -/
theorem contains_temporary {id : String} (h : stored k = some z) :
    Contains t g at₁ stored (.temporary k) id ↔ id ∈ z := by
  simp [Contains, meaning, h]

/-- A key something is stored under is known. -/
theorem known_temporary (h : stored k = some z) : Known t g at₁ stored (.temporary k) := ⟨z, h⟩

/-! ## Drawing and storing keys -/

/-- The circumstances of a reader that is not disturbed and whose fresh keys are not in use. -/
def drawing (rank : Option PublishedState → ℕ) (i : ProcessId) (t : RetainedJobType) :
    Discipline Command Section Store :=
  (undisturbed rank i t).assuming (Unused i)

/-- A key that is drawn is a new one and holds nothing. -/
theorem temporaryKey_drawing (hs : Keeping i t state at₁ stored s) :
    wp (exec scan i) (drawing rank i t) temporaryKey
      (fun k s => stored k = none ∧
        Keeping i t state at₁ (Function.update stored k (some ∅)) s)
      (fun _ _ => True) s := by
  apply wp_command.mpr
  rintro s' hr ⟨-, hunused⟩
  have hs' : Keeping i t state at₁ stored s' := Keeping.stable [] s s' hr hs
  refine ⟨trivial, fun _ => trivial, fun _ => ⟨?_, ?_⟩⟩
  · -- What is stored already was drawn before.
    cases hk : stored (Command.random.answer scan i s') with
    | none => rfl
    | some z => exact absurd (hs'.stored _ z hk).2.1 (lt_irrefl _)
  · refine ⟨hs'.published, hs'.slot.trans ⟨rfl, fun _ _ => rfl, fun _ => rfl⟩, fun k z hk => ?_⟩
    have hserial : (Command.random.effect i s').serial i = s'.serial i + 1 := by
      simp [Command.effect]
    rw [hserial]
    by_cases heq : k = ⟨i, s'.serial i⟩
    · subst heq
      rw [show Function.update stored (Command.random.answer scan i s') (some ∅)
        ⟨i, s'.serial i⟩ = some ∅ from Function.update_self _ _ _] at hk
      rw [← Option.some.inj hk]
      exact ⟨rfl, Nat.lt_succ_self _, hunused rfl⟩
    · rw [show Function.update stored (Command.random.answer scan i s') (some ∅) k = stored k from
        Function.update_of_ne heq _ _] at hk
      obtain ⟨hown, hdrawn, hz⟩ := hs'.stored k z hk
      exact ⟨hown, Nat.lt_succ_of_lt hdrawn, hz⟩

/-- A transaction that writes one key that is drawn. -/
theorem transaction_drawing {ws : (RetainedJobType → Generation) → List Write} {R : ZSet → Prop}
    (hs : Keeping i t state at₁ stored s) (hk : stored k = some z)
    (hws : ∀ g, ∀ w ∈ ws g, w.key = .sortedSet (.temporary k))
    (hR : ∀ g s, Keeping i t state at₁ stored s → R ((s.writeAll (ws g)).zset (.temporary k))) :
    wp (exec scan i) (drawing rank i t) (transaction none ws)
      (fun _ s => ∃ z', R z' ∧ Keeping i t state at₁ (Function.update stored k (some z')) s)
      (fun _ _ => True) s := by
  apply wp_assuming
  apply wp_mono _ (fun _ _ h => h) (transaction_undisturbed Keeping.stable Keeping.state_eq hs)
  rintro - s' ⟨g, s, -, hs, rfl⟩
  obtain ⟨hown, hdrawn, -⟩ := hs.stored k z hk
  exact ⟨_, hR g s hs, hs.writeAll (hws g) hown hdrawn⟩

/-- Renewing a snapshot changes nothing. -/
theorem renewSourceSnapshot_drawing (source : SourceSnapshot)
    (hs : Keeping i t state at₁ stored s) :
    wp (exec scan i) (drawing rank i t) (renewSourceSnapshot source)
      (fun _ => Keeping i t state at₁ stored) (fun _ _ => True) s := by
  apply wp_assuming
  apply wp_bind_of (Q := fun _ => Keeping i t state at₁ stored)
  · apply wp_command.mpr
    intro s' hr _
    exact ⟨trivial, fun _ => trivial, fun _ => Keeping.stable [] s s' hr hs⟩
  · intro renewed s hs
    split
    · exact hs
    · split
      · exact hs
      · trivial

/-- The facet that is found is one of the slot that is kept. -/
theorem facetKey_drawing (d : FacetDimension) (value : String)
    (hs : Keeping i t state at₁ stored s) :
    wp (exec scan i) (drawing rank i t) (facetKey none t d value)
      (fun k s => k = .facet t (generationFromPublishedState state) d value ∧
        Keeping i t state at₁ stored s) (fun _ _ => True) s := by
  apply wp_assuming
  apply wp_bind_of (currentGeneration_undisturbed Keeping.stable Keeping.state_eq t hs)
  rintro g s ⟨hg, hs⟩
  rw [hg rfl]
  exact ⟨rfl, hs⟩

/-- The facets that are found are those of the slot that is kept. -/
theorem collect_facetKey {β : Type} (facet : β → FacetDimension × String) (l : List β)
    (hs : Keeping i t state at₁ stored s) :
    wp (exec scan i) (drawing rank i t)
      (Prog.collect l fun b => facetKey none t (facet b).1 (facet b).2)
      (fun keys s => keys = l.map (fun b =>
          .facet t (generationFromPublishedState state) (facet b).1 (facet b).2) ∧
        Keeping i t state at₁ stored s) (fun _ _ => True) s := by
  have hloop : wp (exec scan i) (drawing rank i t)
      (Prog.collect l fun b => facetKey none t (facet b).1 (facet b).2) _ (fun _ _ => True) s :=
    wp_collect_nil (I := fun rest keys s => keys ++ rest.map (fun b =>
        .facet t (generationFromPublishedState state) (facet b).1 (facet b).2) =
      l.map (fun b => .facet t (generationFromPublishedState state) (facet b).1 (facet b).2) ∧
      Keeping i t state at₁ stored s) ?_ ⟨rfl, hs⟩
  · simpa using hloop
  · rintro b rest keys s ⟨hkeys, hs⟩
    apply wp_mono _ (fun _ _ h => h) (facetKey_drawing _ _ hs)
    rintro k s ⟨rfl, hs⟩
    refine ⟨?_, hs⟩
    simpa using hkeys

/-! ## The union in chunks -/

/-- The keys together stand for the ids with a property. -/
def StandFor (i : ProcessId) (t : RetainedJobType) (state : Option PublishedState) (at₁ : Store)
    (stored : Token → Option ZSet) (T : String → Prop) (keys : List SortedSetKey) (s : Store) : Prop :=
  ∃ stored', Extends stored stored' ∧ Keeping i t state at₁ stored' s ∧
    (∀ k ∈ keys, Known t (generationFromPublishedState state) at₁ stored' k) ∧
    ∀ id, (∃ k ∈ keys, Contains t (generationFromPublishedState state) at₁ stored' k id) ↔ T id

variable {T : String → Prop}

/-- A key that is stored from others. -/
theorem StandFor.of_stored {stored₁ : Token → Option ZSet} (hnone : stored k = none)
    (hT : ∀ id, id ∈ z ↔ T id) (heq : stored₁ = Function.update stored k (some z))
    (hs : Keeping i t state at₁ stored₁ s) :
    StandFor i t state at₁ stored T [.temporary k] s := by
  subst heq
  have hself : Function.update stored k (some z) k = some z := Function.update_self _ _ _
  refine ⟨_, extends_update hnone z, hs, ?_, fun id => ?_⟩
  · simpa using known_temporary hself
  · simp only [List.mem_singleton, exists_eq_left]
    exact (contains_temporary hself).trans (hT id)

/-- A key the union of some keys is stored under. -/
theorem storeUnion_drawing {keys : List SortedSetKey} (hs : Keeping i t state at₁ stored s)
    (hknown : ∀ k ∈ keys, Known t (generationFromPublishedState state) at₁ stored k) :
    Scoped.wp (exec scan i) (drawing rank i t)
      (do
        let unionKey ← Scoped.lift temporaryKey
        Scoped.register unionKey
        Scoped.lift (transaction none fun _ =>
          [.zunionstore (.temporary unionKey) keys,
            expireTemporary unionKey temporaryKeyTtlSeconds])
        pure (.temporary unionKey) : ScopedRedis SortedSetKey)
      (fun k => StandFor i t state at₁ stored
        (fun id => ∃ k ∈ keys, Contains t (generationFromPublishedState state) at₁ stored k id) [k])
      (fun _ _ => True) s := by
  apply Scoped.wp_bind_of (Scoped.wp_lift (temporaryKey_drawing hs))
  rintro unionKey s ⟨hnone, hs⟩
  apply Scoped.wp_bind_of (Q := fun _ => Keeping i t state at₁ _) (Scoped.wp_register hs)
  intro _ s hs
  apply Scoped.wp_bind_of (Scoped.wp_lift (transaction_drawing (R := fun z => ∀ id,
    id ∈ z ↔ ∃ k ∈ keys, Contains t (generationFromPublishedState state) at₁ stored k id) hs
      (Function.update_self _ _ _) ?_ ?_))
  · rintro - s ⟨z, hz, hs⟩
    apply Scoped.wp_pure
    exact .of_stored hnone hz (Function.update_idem _ _ _) hs
  · intro g w hw
    simp only [List.mem_cons, List.not_mem_nil, or_false] at hw
    rcases hw with rfl | rfl <;> rfl
  · intro g s hs id
    have hzset : (s.writeAll [.zunionstore (.temporary unionKey) keys,
        expireTemporary unionKey temporaryKeyTtlSeconds]).zset (.temporary unionKey) =
        unionStore (keys.map s.zset) := by
      rw [Store.writeAll_cons, Store.writeAll_cons, Store.writeAll_nil]
      exact (Store.setZset_zset).trans (if_pos rfl)
    -- The keys hold what they stood for before the new key was drawn.
    have hheld : ∀ k ∈ keys, (id ∈ s.zset k ↔
        Contains t (generationFromPublishedState state) at₁ stored k id) := fun k hk =>
      (hs.mem_iff ((hknown k hk).extends (extends_update hnone ∅))).trans
        ((hknown k hk).contains_iff (extends_update hnone ∅))
    rw [hzset, mem_unionStore]
    constructor
    · rintro ⟨z, hz, hid⟩
      obtain ⟨k, hk, rfl⟩ := List.mem_map.mp hz
      exact ⟨k, hk, (hheld k hk).mp hid⟩
    · rintro ⟨k, hk, hid⟩
      exact ⟨_, List.mem_map_of_mem hk, (hheld k hk).mpr hid⟩

/-- One chunk: its key stands for what the keys of the chunk stand for. -/
theorem unionChunk_drawing {chunk : List SortedSetKey} (hchunk : chunk ≠ [])
    (hs : Keeping i t state at₁ stored s)
    (hknown : ∀ k ∈ chunk, Known t (generationFromPublishedState state) at₁ stored k) :
    Scoped.wp (exec scan i) (drawing rank i t) (unionChunk none (return ()) chunk)
      (fun k => StandFor i t state at₁ stored
        (fun id => ∃ k ∈ chunk, Contains t (generationFromPublishedState state) at₁ stored k id) [k])
      (fun _ _ => True) s := by
  refine Scoped.wp_bind_of (Q := fun _ => Keeping i t state at₁ stored) (fun _ => hs) fun _ s hs => ?_
  rcases chunk with _ | ⟨k, _ | ⟨k', rest⟩⟩
  · exact absurd rfl hchunk
  · apply Scoped.wp_pure
    exact ⟨stored, .refl stored, hs, by simpa using hknown, by simp⟩
  · exact storeUnion_drawing hs hknown

/-- Chunk after chunk: the keys of the unions stand for what all the keys stand for. -/
theorem unionChunks_drawing {keys : List SortedSetKey}
    (hkeys : keys ≠ []) (hs : StandFor i t state at₁ stored T keys s) :
    Scoped.wp (exec scan i) (drawing rank i t)
      (Scoped.collect (keys.arrayChunk catalogScanChunkSize) (unionChunk none (return ())))
      (fun keys s => keys ≠ [] ∧ StandFor i t state at₁ stored T keys s) (fun _ _ => True) s := by
  have hloop : Scoped.wp (exec scan i) (drawing rank i t)
      (Scoped.collect (keys.arrayChunk catalogScanChunkSize) (unionChunk none (return ()))) _
      (fun _ _ => True) s :=
    Scoped.wp_collect_nil (I := fun rest next s => (∀ chunk ∈ rest, chunk ≠ []) ∧
      next ++ rest.flatten ≠ [] ∧ StandFor i t state at₁ stored T (next ++ rest.flatten) s)
      ?_ ⟨fun chunk => List.ne_nil_of_mem_arrayChunk, ?_, ?_⟩
  · apply Scoped.wp_mono _ (fun _ _ h => h) hloop
    rintro next s ⟨-, hs⟩
    simpa using hs
  · rintro chunk rest next s ⟨hrest, -, stored₁, hext, hs, hknown, hT⟩
    have hmem : ∀ k ∈ chunk, k ∈ next ++ (chunk :: rest).flatten := fun k hk => by simp [hk]
    apply Scoped.wp_mono _ (fun _ _ h => h) (unionChunk_drawing (hrest chunk List.mem_cons_self) hs
      fun k hk => hknown k (hmem k hk))
    rintro k s ⟨stored₂, hext', hs, hk, hcontains⟩
    refine ⟨fun c hc => hrest c (List.mem_cons_of_mem chunk hc), by simp, stored₂,
      hext.trans hext', hs, ?_, fun id => ?_⟩
    · intro k' hk'
      simp only [List.append_assoc, List.mem_append, List.mem_singleton] at hk'
      rcases hk' with hk' | rfl | hk'
      · exact (hknown k' (by simp [hk'])).extends hext'
      · exact hk k' List.mem_cons_self
      · exact (hknown k' (by simp [hk'])).extends hext'
    · rw [← hT id]
      have hself := hcontains id
      simp only [List.mem_singleton, exists_eq_left] at hself
      constructor
      · rintro ⟨k', hk', hid⟩
        simp only [List.append_assoc, List.mem_append, List.mem_singleton] at hk'
        rcases hk' with hk' | rfl | hk'
        · exact ⟨k', by simp [hk'], ((hknown k' (by simp [hk'])).contains_iff hext').mp hid⟩
        · obtain ⟨k, hk, hid⟩ := hself.mp hid
          exact ⟨k, hmem k hk, hid⟩
        · exact ⟨k', by simp [hk'], ((hknown k' (by simp [hk'])).contains_iff hext').mp hid⟩
      · rintro ⟨k', hk', hid⟩
        have hid' := ((hknown k' hk').contains_iff hext').mpr hid
        simp only [List.flatten_cons, List.mem_append] at hk'
        rcases hk' with hk' | hk' | hk'
        · exact ⟨k', by simp [hk'], hid'⟩
        · exact ⟨k, by simp, hself.mpr ⟨k', hk', hid⟩⟩
        · exact ⟨k', by simp [hk'], hid'⟩
  · simpa using hkeys
  · simpa using hs

/-- **The union in chunks**: the key that is left stands for what all the keys stand for. -/
theorem unionKeysInChunks_drawing (index : RetainedJobIndex) {keys : List SortedSetKey}
    (hkeys : keys ≠ []) (hs : StandFor i t state at₁ stored T keys s) :
    Scoped.wp (exec scan i) (drawing rank i t) (index.unionKeysInChunks none keys (return ()))
      (fun r s => ∃ k, r = some k ∧ StandFor i t state at₁ stored T [k] s) (fun _ _ => True) s := by
  rw [unionKeysInChunks_eq]
  apply Scoped.wp_iterate (I := fun keys s => keys ≠ [] ∧ StandFor i t state at₁ stored T keys s)
  · rintro keys s ⟨hkeys, hs⟩
    unfold unionRound
    split
    · rename_i hlength
      apply Scoped.wp_pure
      rcases keys with _ | ⟨k, _ | ⟨k', rest⟩⟩
      · exact absurd rfl hkeys
      · exact ⟨k, rfl, hs⟩
      · simp at hlength
    · refine Scoped.wp_bind_of (Q := fun _ => StandFor i t state at₁ stored T keys) (fun _ => hs)
        fun _ s hs => ?_
      apply Scoped.wp_bind_of (unionChunks_drawing hkeys hs)
      intro next s hnext
      exact Scoped.wp_pure hnext
  · obtain ⟨stored', hext, hs, hknown, hT⟩ := hs
    refine ⟨?_, stored', hext, hs, fun k hk => hknown k (List.mem_eraseDups.mp hk), fun id => ?_⟩
    · obtain ⟨k, hk⟩ := List.exists_mem_of_ne_nil keys hkeys
      exact List.ne_nil_of_mem (List.mem_eraseDups.mpr hk)
    · simpa using hT id

/-! ## Searching -/

/-- A key that holds one id. -/
theorem idKey_drawing (id : String) (hs : Keeping i t state at₁ stored s) :
    Scoped.wp (exec scan i) (drawing rank i t) (idKey id)
      (fun k => StandFor i t state at₁ stored (fun id' => id' = id) [k]) (fun _ _ => True) s := by
  apply Scoped.wp_bind_of (Scoped.wp_lift (temporaryKey_drawing hs))
  rintro key s ⟨hnone, hs⟩
  apply Scoped.wp_bind_of (Q := fun _ => Keeping i t state at₁ _) (Scoped.wp_register hs)
  intro _ s hs
  have hself : Function.update stored key (some (∅ : ZSet)) key = some ∅ := Function.update_self _ _ _
  apply Scoped.wp_bind_of (Scoped.wp_lift (transaction_drawing
    (R := fun z => ∀ id', id' ∈ z ↔ id' = id) hs hself ?_ ?_))
  · rintro - s ⟨z, hz, hs⟩
    apply Scoped.wp_pure
    exact .of_stored hnone hz (Function.update_idem _ _ _) hs
  · intro g w hw
    simp only [List.mem_cons, List.not_mem_nil, or_false] at hw
    rcases hw with rfl | rfl <;> rfl
  · intro g s hs id'
    have hempty : s.zset (.temporary key) = ∅ := (hs.stored key ∅ hself).2.2
    have hzset : (s.writeAll [.zadd (.temporary key) 0 id,
        expireTemporary key temporaryKeyTtlSeconds]).zset (.temporary key) =
        (∅ : ZSet).insert id 0 := by
      rw [Store.writeAll_cons, Store.writeAll_cons, Store.writeAll_nil, ← hempty]
      exact (Store.setZset_zset).trans (if_pos rfl)
    rw [hzset, SortedSet.mem_insert]
    simp

/-- The job names the search matches, and whether all of them do. -/
theorem matchingJobNames_drawing (index : RetainedJobIndex) (lower : String → String)
    (search : String) {source : SourceSnapshot} {snap : ZSet}
    (hs : Viewing i t state at₁ source snap s) {available : List String}
    (havailable : (scan.shown ⟨t, generationFromPublishedState state, .job⟩
      (at₁.catalog ⟨t, generationFromPublishedState state, .job⟩)).filter
        (isAvailable t state .job at₁ snap) = available) :
    wp (exec scan i) (drawing rank i t) (matchingJobNames index lower t search source)
      (fun r s => (match r with
        | none => available ≠ [] ∧ ∀ v ∈ available, containsIgnoringCase lower v search
        | some names => ¬(available ≠ [] ∧ ∀ v ∈ available, containsIgnoringCase lower v search) ∧
            ∀ v, v ∈ names ↔ v ∈ available ∧ containsIgnoringCase lower v search) ∧
        Viewing i t state at₁ source snap s) (fun _ _ => True) s := by
  apply wp_bind_of (wp_assuming (availableCatalogValues_undisturbed index hs))
  rintro jobNames s ⟨hjobNames, hs⟩
  rw [havailable] at hjobNames
  subst hjobNames
  simp only
  split
  · rename_i hall
    refine ⟨⟨hall.1, fun v hv => ?_⟩, hs⟩
    have hmatches := List.any_eq_false.mp hall.2 v hv
    simpa using hmatches
  · rename_i hsome
    refine ⟨⟨fun hall => hsome ⟨hall.1, List.any_eq_false.mpr fun v hv => ?_⟩, fun v => ?_⟩, hs⟩
    · simpa using hall.2 v hv
    · rw [List.mem_eraseDups, List.mem_filter]

/-- The members of a snapshot in all the sets the keys stand for are those with a property. -/
def Restricts (i : ProcessId) (t : RetainedJobType) (state : Option PublishedState) (at₁ : Store)
    (stored : Token → Option ZSet) (snap : ZSet) (P : String → Prop) (keys : List SortedSetKey)
    (s : Store) : Prop :=
  ∃ stored', Extends stored stored' ∧ Keeping i t state at₁ stored' s ∧
    (∀ k ∈ keys, Known t (generationFromPublishedState state) at₁ stored' k) ∧
    ∀ id ∈ snap,
      (∀ k ∈ keys, Contains t (generationFromPublishedState state) at₁ stored' k id) ↔ P id

variable {snap : ZSet} {P P' : String → Prop} {keys keys' : List SortedSetKey}

/-- One set that stands for the selected members restricts the snapshot to them. -/
theorem StandFor.restricts {k : SortedSetKey} (h : StandFor i t state at₁ stored T [k] s)
    (hP : ∀ id ∈ snap, T id ↔ P id) : Restricts i t state at₁ stored snap P [k] s := by
  obtain ⟨stored', hext, hs, hknown, hT⟩ := h
  refine ⟨stored', hext, hs, hknown, fun id hid => ?_⟩
  rw [← hP id hid, ← hT id]
  simp

/-- Without sets nothing is restricted. -/
theorem Keeping.restricts_nil (hs : Keeping i t state at₁ stored s) (hP : ∀ id ∈ snap, P id) :
    Restricts i t state at₁ stored snap P [] s :=
  ⟨stored, .refl stored, hs, by simp, fun id hid => by simp [hP id hid]⟩

/-- Keys that were known before more is stored go on to stand for the same. -/
theorem Restricts.append (hknown : ∀ k ∈ keys, Known t (generationFromPublishedState state) at₁ stored k)
    (hP : ∀ id ∈ snap,
      (∀ k ∈ keys, Contains t (generationFromPublishedState state) at₁ stored k id) ↔ P id)
    (h : Restricts i t state at₁ stored snap P' keys' s) :
    Restricts i t state at₁ stored snap (fun id => P id ∧ P' id) (keys ++ keys') s := by
  obtain ⟨stored', hext, hs, hknown', hP'⟩ := h
  refine ⟨stored', hext, hs, fun k hk => ?_, fun id hid => ?_⟩
  · rcases List.mem_append.mp hk with hk | hk
    · exact (hknown k hk).extends hext
    · exact hknown' k hk
  · show _ ↔ P id ∧ P' id
    rw [← hP id hid, ← hP' id hid, List.forall_mem_append]
    refine and_congr_left' (forall₂_congr fun k hk => ?_)
    exact (hknown k hk).contains_iff hext

/-- What a search finds among the members of the snapshot: the jobs with an available name that
contains it, the job it is the id of, and every job where all available names contain it. -/
def Finds (lower : String → String) (t : RetainedJobType) (g : Generation) (at₁ : Store)
    (available : List String) (search id : String) : Prop :=
  (available ≠ [] ∧ ∀ v ∈ available, containsIgnoringCase lower v search) ∨
    (∃ v ∈ available, containsIgnoringCase lower v search ∧ id ∈ at₁.zset (.facet t g .job v)) ∨
    id = search

/-- What is stored when the snapshot has been inspected. -/
def onlySource (source : SourceSnapshot) (snap : ZSet) : Token → Option ZSet :=
  Function.update (fun _ => none) source.key (some snap)

/-- A view keeps the snapshot alone under its key. -/
theorem Viewing.holding {source : SourceSnapshot} (hs : Viewing i t state at₁ source snap s) :
    Keeping i t state at₁ (onlySource source snap) s := by
  refine ⟨hs.published, hs.slot, fun k z hk => ?_⟩
  by_cases heq : k = source.key
  · subst heq
    rw [onlySource, Function.update_self] at hk
    exact ⟨hs.own, hs.drawn, hs.snapshot.trans (Option.some.inj hk)⟩
  · rw [onlySource, Function.update_of_ne heq] at hk
    cases hk

/-- The key of the jobs a search finds, where not every job is one. -/
theorem nameKeys_drawing (index : RetainedJobIndex) (search : String) (names : List String)
    (source : SourceSnapshot) (hs : Keeping i t state at₁ (onlySource source snap) s) :
    Scoped.wp (exec scan i) (drawing rank i t)
      (do
        let nameKeys ← Scoped.lift (Prog.collect names (facetKey none t .job))
        let idScore ← Scoped.lift (zscore (.temporary source.key) search)
        let idKeys ← (if idScore.isSome then do return [← idKey search] else return [])
        match (nameKeys ++ idKeys).eraseDups with
        | [] =>
            let emptyKey ← Scoped.lift temporaryKey
            Scoped.register emptyKey
            return some (.temporary emptyKey)
        | [k] => return some k
        | keys => index.unionKeysInChunks none keys (return ()) : ScopedRedis (Option SortedSetKey))
      (fun r s => ∃ k, r = some k ∧ StandFor i t state at₁ (onlySource source snap)
        (fun id => (∃ v ∈ names,
          id ∈ at₁.zset (.facet t (generationFromPublishedState state) .job v)) ∨
            id = search ∧ search ∈ snap) [k] s) (fun _ _ => True) s := by
  -- the facets of the names that match
  apply Scoped.wp_bind_of (Scoped.wp_lift (collect_facetKey (fun v => (.job, v)) names hs))
  rintro nameKeys s ⟨rfl, hs⟩
  apply Scoped.wp_bind_of (Scoped.wp_lift (wp_assuming (hs.reads_zscore source search
    (Function.update_self _ _ _))))
  rintro idScore s ⟨hscore, hs⟩
  -- and a key of the job whose id is the search itself, where the snapshot has it
  apply Scoped.wp_bind_of (Q := fun idKeys => StandFor i t state at₁ (onlySource source snap)
    (fun id => id = search ∧ search ∈ snap) idKeys)
  · split
    · rename_i hsome
      apply Scoped.wp_bind_of (idKey_drawing search hs)
      intro k s hk
      apply Scoped.wp_pure
      obtain ⟨stored', hext, hs, hknown, hT⟩ := hk
      refine ⟨stored', hext, hs, hknown, fun id => ?_⟩
      exact (hT id).trans (and_iff_left (hscore.mp hsome)).symm
    · rename_i hnone
      apply Scoped.wp_pure
      refine ⟨_, .refl _, hs, by simp, fun id => ?_⟩
      simp [mt hscore.mpr hnone]
  · rintro idKeys s ⟨stored', hext, hs, hknown, hT⟩
    generalize hkeys : (_ ++ idKeys : List SortedSetKey).eraseDups = keys
    have hstands : StandFor i t state at₁ (onlySource source snap) (fun id => (∃ v ∈ names,
        id ∈ at₁.zset (.facet t (generationFromPublishedState state) .job v)) ∨
          id = search ∧ search ∈ snap) keys s := by
      subst hkeys
      refine ⟨stored', hext, hs, fun k hk => ?_, fun id => ?_⟩
      · rcases List.mem_append.mp (List.mem_eraseDups.mp hk) with hk | hk
        · obtain ⟨v, -, rfl⟩ := List.mem_map.mp hk
          exact known_facet _ _
        · exact hknown k hk
      · have hids : (∃ k ∈ idKeys, Contains t (generationFromPublishedState state) at₁ stored' k id) ↔
            id = search ∧ search ∈ snap := hT id
        simp [or_and_right, exists_or, contains_facet, hids]
    -- none of these keys, one, or a union of several
    rcases keys with _ | ⟨k, _ | ⟨k', rest⟩⟩
    · -- Nothing is found, and the key that is drawn stays empty.
      obtain ⟨stored', hext, hs, -, hT⟩ := hstands
      apply Scoped.wp_bind_of (Scoped.wp_lift (temporaryKey_drawing hs))
      rintro emptyKey s ⟨hnone, hs⟩
      refine Scoped.wp_bind_of (Q := fun _ => Keeping i t state at₁ _) (Scoped.wp_register hs)
        fun _ s hs => Scoped.wp_pure ⟨_, rfl, ?_⟩
      have hself : Function.update stored' emptyKey (some (∅ : ZSet)) emptyKey = some ∅ :=
        Function.update_self _ _ _
      refine ⟨_, hext.trans (extends_update hnone ∅), hs, ?_, fun id => ?_⟩
      · simpa using known_temporary hself
      · rw [← hT id]
        simp [contains_temporary hself]
    · exact Scoped.wp_pure ⟨k, rfl, hstands⟩
    · exact unionKeysInChunks_drawing index (by simp) hstands

/-- **Searching**: the key, where there is one, restricts the snapshot to what the search finds. -/
theorem searchKey_drawing (index : RetainedJobIndex) (lower : String → String) (search : String)
    {source : SourceSnapshot} (hs : Viewing i t state at₁ source snap s) {available : List String}
    (havailable : (scan.shown ⟨t, generationFromPublishedState state, .job⟩
      (at₁.catalog ⟨t, generationFromPublishedState state, .job⟩)).filter
        (isAvailable t state .job at₁ snap) = available) :
    Scoped.wp (exec scan i) (drawing rank i t) (searchKey index lower t search source)
      (fun r => Restricts i t state at₁ (onlySource source snap) snap
        (Finds lower t (generationFromPublishedState state) at₁ available search) r.toList)
      (fun _ _ => True) s := by
  apply Scoped.wp_bind_of
    (Scoped.wp_lift (matchingJobNames_drawing index lower search hs havailable))
  rintro r s ⟨hr, hs⟩
  cases r with
  | none => exact Scoped.wp_pure (hs.holding.restricts_nil fun id _ => Or.inl hr)
  | some names =>
      obtain ⟨hsome, hnames⟩ := hr
      apply Scoped.wp_mono _ (fun _ _ h => h)
        (nameKeys_drawing index search names source hs.holding)
      rintro r s ⟨k, rfl, hk⟩
      apply hk.restricts
      intro id hid
      constructor
      · rintro (⟨v, hv, hfacet⟩ | ⟨rfl, -⟩)
        · obtain ⟨havailable, hcontains⟩ := (hnames v).mp hv
          exact Or.inr (Or.inl ⟨v, havailable, hcontains, hfacet⟩)
        · exact Or.inr (Or.inr rfl)
      · rintro (hall | ⟨v, havailable, hcontains, hfacet⟩ | rfl)
        · exact absurd hall hsome
        · exact Or.inl ⟨v, (hnames v).mpr ⟨havailable, hcontains⟩, hfacet⟩
        · exact Or.inr ⟨rfl, hid⟩

/-! ## The candidate -/

/-- A key that holds the ids that are given. -/
theorem stateKey_drawing {heartbeat : Redis Unit}
    (hheartbeat : ∀ stored s, Keeping i t state at₁ stored s →
      wp (exec scan i) (drawing rank i t) heartbeat (fun _ => Keeping i t state at₁ stored)
        (fun _ _ => True) s) (additionalIds : IdSet) (hs : Keeping i t state at₁ stored s) :
    Scoped.wp (exec scan i) (drawing rank i t) (stateKey heartbeat additionalIds)
      (fun k => StandFor i t state at₁ stored (· ∈ additionalIds.ids) [k]) (fun _ _ => True) s := by
  apply Scoped.wp_bind_of (Scoped.wp_lift (temporaryKey_drawing hs))
  rintro key s ⟨hnone, hs⟩
  apply Scoped.wp_bind_of (Q := fun _ => Keeping i t state at₁ _) (Scoped.wp_register hs)
  intro _ s hs
  -- The key has the ids of the chunks that have been stored, and the rest those that are to come.
  have hloop : wp (exec scan i) (drawing rank i t)
      (Prog.forEach (additionalIds.ids.arrayChunk sourceChunkSize) fun chunk => do
        heartbeat
        transaction none fun _ => chunk.map (fun id => .zadd (.temporary key) 0 id) ++
          [expireTemporary key temporaryKeyTtlSeconds]) _ (fun _ _ => True) s :=
    wp_forEach (I := fun rest s => ∃ z : ZSet,
      (∀ id, id ∈ z ∨ id ∈ rest.flatten ↔ id ∈ additionalIds.ids) ∧
      Keeping i t state at₁ (Function.update stored key (some z)) s) ?_ ⟨∅, by simp, hs⟩
  · apply Scoped.wp_bind_of (Scoped.wp_lift hloop)
    rintro - s ⟨z, hz, hs⟩
    apply Scoped.wp_pure
    exact .of_stored hnone (fun id => by simpa using hz id) rfl hs
  · rintro chunk rest s ⟨z, hz, hs⟩
    apply wp_bind_of (hheartbeat _ s hs)
    intro _ s hs
    have hself : Function.update stored key (some z) key = some z := Function.update_self _ _ _
    apply wp_mono _ (fun _ _ h => h) (transaction_drawing
      (R := fun z' => ∀ id, id ∈ z' ↔ id ∈ chunk ∨ id ∈ z) hs hself ?_ ?_)
    · rintro - s ⟨z', hz', hs⟩
      rw [Function.update_idem] at hs
      refine ⟨z', fun id => ?_, hs⟩
      rw [← hz id, hz' id, List.flatten_cons, List.mem_append]
      tauto
    · intro g w hw
      rcases List.mem_append.mp hw with hw | hw
      · obtain ⟨id, -, rfl⟩ := List.mem_map.mp hw
        rfl
      · rw [List.mem_singleton.mp hw]
        rfl
    · intro g s hs id
      have hz : s.zset (.temporary key) = z := (hs.stored key z hself).2.2
      have hzset : (s.writeAll (chunk.map (fun id => .zadd (.temporary key) 0 id) ++
          [expireTemporary key temporaryKeyTtlSeconds])).zset (.temporary key) =
          z.insertAll (chunk.map (·, 0)) := by
        have hzadds := zset_writeAll_zadds (s := s) (k := .temporary key) (l := chunk.map (·, 0))
        rw [List.map_map, hz] at hzadds
        rw [Store.writeAll_append]
        exact hzadds
      rw [hzset, SortedSet.mem_insertAll, List.map_map]
      simp

/-- A job passes the filter: it is in the facets, found by the search and among the ids that are
given. -/
structure Passes (lower : String → String) (t : RetainedJobType) (g : Generation) (at₁ : Store)
    (available : List String) (facets : List (FacetDimension × String))
    (additionalIds : Option IdSet) (search id : String) : Prop where
  facets : ∀ f ∈ facets, id ∈ at₁.zset (.facet t g f.1 f.2)
  search : search = "" ∨ Finds lower t g at₁ available search id
  state : ∀ ids ∈ additionalIds, id ∈ ids.ids

/-- A restriction stays one when more is stored. -/
theorem Restricts.extends (hext : Extends stored stored')
    (h : Restricts i t state at₁ stored' snap P keys s) : Restricts i t state at₁ stored snap P keys s := by
  obtain ⟨stored'', hext', hrest⟩ := h
  exact ⟨stored'', hext.trans hext', hrest⟩

/-- A restriction depends on the members of the snapshot only. -/
theorem Restricts.congr (hP : ∀ id ∈ snap, P id ↔ P' id)
    (h : Restricts i t state at₁ stored snap P keys s) : Restricts i t state at₁ stored snap P' keys s := by
  obtain ⟨stored', hext, hs, hknown, hcontains⟩ := h
  exact ⟨stored', hext, hs, hknown, fun id hid => (hcontains id hid).trans (hP id hid)⟩

/-- What is known of the snapshot is known when the keys of the facets have been looked up. -/
theorem Keeping.viewing {source : SourceSnapshot}
    (hs : Keeping i t state at₁ (onlySource source snap) s) : Viewing i t state at₁ source snap s := by
  obtain ⟨hown, hdrawn, hz⟩ := hs.stored source.key snap (Function.update_self _ _ _)
  exact ⟨hs.published, hs.slot, hz, hown, hdrawn⟩

/-- Storing the intersection of keys that are known, with the scores of the first. -/
theorem intersect_drawing {k₀ : SortedSetKey} {keys : List SortedSetKey} {z₀ : ZSet}
    (hnone : stored k = none)
    (hs : Keeping i t state at₁ (Function.update stored k (some ∅)) s)
    (hz₀ : meaning t (generationFromPublishedState state) at₁ stored k₀ = some z₀)
    (hknown : ∀ k ∈ keys, Known t (generationFromPublishedState state) at₁ stored k) :
    wp (exec scan i) (drawing rank i t)
      (transaction none fun _ => [intersect k (firstWeighted (k₀ :: keys)),
        expireTemporary k temporaryKeyTtlSeconds])
      (fun _ s => ∃ z, (∀ id x, z.score id = some x ↔ z₀.score id = some x ∧
          ∀ k ∈ keys, Contains t (generationFromPublishedState state) at₁ stored k id) ∧
        Keeping i t state at₁ (Function.update stored k (some z)) s) (fun _ _ => True) s := by
  apply wp_mono _ (fun _ _ h => h) (transaction_drawing (R := fun z => ∀ id x,
    z.score id = some x ↔ z₀.score id = some x ∧
      ∀ k ∈ keys, Contains t (generationFromPublishedState state) at₁ stored k id) hs
    (Function.update_self _ _ _) ?_ ?_)
  · rintro - s ⟨z, hz, hs⟩
    rw [Function.update_idem] at hs
    exact ⟨z, hz, hs⟩
  · intro g w hw
    simp only [List.mem_cons, List.not_mem_nil, or_false] at hw
    rcases hw with rfl | rfl <;> rfl
  · intro g s hs id x
    have hfirst : s.zset k₀ = z₀ := hs.zset ((extends_update hnone ∅).meaning hz₀)
    have hzset : (s.writeAll [intersect k (firstWeighted (k₀ :: keys)),
        expireTemporary k temporaryKeyTtlSeconds]).zset (.temporary k) =
        interStore ((z₀, 1) :: (keys.map s.zset).map (·, 0)) := by
      rw [Store.writeAll_cons, Store.writeAll_cons, Store.writeAll_nil, ← hfirst]
      refine ((Store.setZset_zset).trans (if_pos rfl)).trans ?_
      rw [firstWeighted, List.map_cons, List.map_map, List.map_map]
      rfl
    have hall : (∀ z ∈ keys.map s.zset, id ∈ z) ↔
        ∀ k ∈ keys, Contains t (generationFromPublishedState state) at₁ stored k id := by
      rw [List.forall_mem_map]
      refine forall₂_congr fun k hk => ?_
      rw [hs.mem_iff ((hknown k hk).extends (extends_update hnone ∅)),
        (hknown k hk).contains_iff (extends_update hnone ∅)]
    rw [hzset, score_interStore_first]
    split
    · rename_i hin
      exact ⟨fun hx => ⟨hx, hall.mp hin⟩, fun hx => hx.1⟩
    · rename_i hout
      constructor
      · intro hx
        cases hx
      · intro hx
        exact absurd (hall.mpr hx.2) hout

section Candidate

variable (index : RetainedJobIndex) (lower : String → String)
  (facets : List (FacetDimension × String)) (additionalIds : Option IdSet) (search : String)
  {source : SourceSnapshot} {available : List String}

/-- The keys that are intersected with the snapshot restrict it to the jobs that pass. -/
theorem candidateKeys_drawing (hs : Viewing i t state at₁ source snap s)
    (havailable : (scan.shown ⟨t, generationFromPublishedState state, .job⟩
      (at₁.catalog ⟨t, generationFromPublishedState state, .job⟩)).filter
        (isAvailable t state .job at₁ snap) = available) :
    Scoped.wp (exec scan i) (drawing rank i t)
      (candidateKeys index lower t facets additionalIds search source)
      (fun keys => Restricts i t state at₁ (onlySource source snap) snap
        (Passes lower t (generationFromPublishedState state) at₁ available facets additionalIds search)
        keys) (fun _ _ => True) s := by
  -- the keys of the facets, then of the search, then of the ids that are given
  have hfacets : wp (exec scan i) (drawing rank i t)
      (Prog.collect facets fun facet => facetKey none t facet.1 facet.2) _ (fun _ _ => True) s :=
    collect_facetKey (fun facet => facet) facets hs.holding
  apply Scoped.wp_bind_of (Scoped.wp_lift hfacets)
  rintro facetKeys s ⟨rfl, hs⟩
  apply Scoped.wp_bind_of (Q := fun searchKey => Restricts i t state at₁ (onlySource source snap) snap
    (fun id => search = "" ∨
      Finds lower t (generationFromPublishedState state) at₁ available search id) searchKey.toList)
  · split
    · rename_i hempty
      exact Scoped.wp_pure (hs.restricts_nil fun id _ => Or.inl hempty)
    · rename_i hne
      apply Scoped.wp_mono _ (fun _ _ h => h)
        (searchKey_drawing index lower search hs.viewing havailable)
      intro searchKey s hs
      exact hs.congr fun id _ => (or_iff_right hne).symm
  rintro searchKey s ⟨stored₁, hext, hs, hknown, hsearch⟩
  apply Scoped.wp_bind_of (Q := fun stateKeys => Restricts i t state at₁ stored₁ snap
    (fun id => ∀ ids ∈ additionalIds, id ∈ ids.ids) stateKeys)
  · cases additionalIds with
    | none => exact Scoped.wp_pure (hs.restricts_nil fun id _ ids hids => by cases hids)
    | some ids =>
        apply Scoped.wp_bind_of
          (stateKey_drawing (fun _ _ hs => renewSourceSnapshot_drawing source hs) ids hs)
        intro k s hk
        apply Scoped.wp_pure
        apply hk.restricts
        intro id _
        simp
  · -- What the three restrict to together is what a job has to pass.
    intro stateKeys s hstate
    apply Scoped.wp_pure
    apply Restricts.extends hext
    apply Restricts.congr _ (Restricts.append (P := fun id =>
      (∀ f ∈ facets, id ∈ at₁.zset (.facet t (generationFromPublishedState state) f.1 f.2)) ∧
        (search = "" ∨ Finds lower t (generationFromPublishedState state) at₁ available search id))
      ?_ ?_ hstate)
    · intro id _
      exact ⟨fun ⟨⟨hf, hs⟩, hi⟩ => ⟨hf, hs, hi⟩, fun ⟨hf, hs, hi⟩ => ⟨⟨hf, hs⟩, hi⟩⟩
    · intro k hk
      rcases List.mem_append.mp hk with hk | hk
      · obtain ⟨f, -, rfl⟩ := List.mem_map.mp hk
        exact known_facet _ _
      · exact hknown k hk
    · intro id hid
      rw [List.forall_mem_append]
      apply and_congr _ (hsearch id hid)
      rw [List.forall_mem_map]
      exact forall₂_congr fun f _ => contains_facet

variable {α : Type} (callback : SortedSetKey → Redis α)

/-- The result of the callback on a set that holds the members of the snapshot that pass, with their
scores. -/
def ReadOn (scan : ScanOrder) (i : ProcessId) (snap : ZSet) (P : String → Prop)
    (callback : SortedSetKey → Redis α) (a : α) : Prop :=
  ∃ k z, ResultOn scan i k z (callback k) a ∧
    ∀ id x, z.score id = some x ↔ snap.score id = some x ∧ P id

/-- **The candidate**: the callback is applied to the members of the snapshot that pass. -/
theorem candidate_drawing (hcallback : ∀ k, ReadsKey k (callback k))
    (hs : Viewing i t state at₁ source snap s)
    (havailable : (scan.shown ⟨t, generationFromPublishedState state, .job⟩
      (at₁.catalog ⟨t, generationFromPublishedState state, .job⟩)).filter
        (isAvailable t state .job at₁ snap) = available) :
    Scoped.wp (exec scan i) (drawing rank i t)
      (do
        let keys ← candidateKeys index lower t facets additionalIds search source
        let candidateKey ← Scoped.lift temporaryKey
        Scoped.register candidateKey
        Scoped.lift do
          renewSourceSnapshot source
          transaction none fun _ =>
            [intersect candidateKey (firstWeighted (.temporary source.key :: keys)),
              expireTemporary candidateKey temporaryKeyTtlSeconds]
          return some (← callback (.temporary candidateKey)) : ScopedRedis (Option α))
      (fun r _ => ∀ a ∈ r, ReadOn scan i snap
        (Passes lower t (generationFromPublishedState state) at₁ available facets additionalIds search)
        callback a) (fun _ _ => True) s := by
  apply Scoped.wp_bind_of
    (candidateKeys_drawing index lower facets additionalIds search hs havailable)
  rintro keys s ⟨stored', hext, hs, hknown, hpasses⟩
  apply Scoped.wp_bind_of (Scoped.wp_lift (temporaryKey_drawing hs))
  rintro key s ⟨hnone, hs⟩
  apply Scoped.wp_bind_of (Q := fun _ => Keeping i t state at₁ _) (Scoped.wp_register hs)
  intro _ s hs
  apply Scoped.wp_lift
  apply wp_bind_of (renewSourceSnapshot_drawing source hs)
  intro _ s hs
  have hsource : stored' source.key = some snap := hext _ _ (Function.update_self _ _ _)
  apply wp_bind_of (intersect_drawing hnone hs (show meaning _ _ _ _ (.temporary source.key) = _ from hsource) hknown)
  rintro - s ⟨z, hz, hs⟩
  have hkey : ∀ s, Keeping i t state at₁ (Function.update stored' key (some z)) s →
      s.zset (.temporary key) = z := fun s hs => (hs.stored key z (Function.update_self _ _ _)).2.2
  apply wp_bind_of (wp_assuming ((hcallback (.temporary key)).wp Keeping.stable hkey hs))
  rintro result s ⟨hresult, -⟩ a ha
  obtain rfl := Option.some.inj ha
  refine ⟨.temporary key, z, hresult, fun id x => (hz id x).trans ?_⟩
  exact and_congr_right fun hx => hpasses id (SortedSet.mem_of_score hx)

/-! ## Reading under the fence -/

/-- The result was read off one published generation: it is that of the callback on the members of a
snapshot of the source that are projected and pass the filter. -/
def CandidateRead (scan : ScanOrder) (i : ProcessId) (lower : String → String) (t : RetainedJobType)
    (facets : List (FacetDimension × String)) (additionalIds : Option IdSet) (search : String)
    (callback : SortedSetKey → Redis α) (a : α) (history : List (Command × Store)) : Prop :=
  ∃ retained at₁, Inspected t history retained at₁ ∧
    ReadOn scan i (projected t at₁ retained)
      (Passes lower t (at₁.publishedGeneration t) at₁ (availableValues scan t at₁ retained .job) facets
        additionalIds search) callback a

/-- What was read in a history was read in a longer one. -/
theorem CandidateRead.mono {a : α} {history history' : List (Command × Store)}
    (hsub : history ⊆ history')
    (h : CandidateRead scan i lower t facets additionalIds search callback a history) :
    CandidateRead scan i lower t facets additionalIds search callback a history' := by
  obtain ⟨retained, at₁, ⟨⟨s, hs⟩, ⟨sourceKey, gapKey, hi⟩⟩, hread⟩ := h
  exact ⟨retained, at₁, ⟨⟨s, hsub hs⟩, ⟨sourceKey, gapKey, hsub hi⟩⟩, hread⟩

/-- **Reading without disturbance.** -/
theorem readCandidate_drawing (hcallback : ∀ k, ReadsKey k (callback k)) {retained : SourceSnapshot}
    {x : Recorded Command Store} (hx : x.1.publishedState t = state)
    (hmaterialized : ∃ s, (materialization t retained.key, s) ∈ x.2) :
    Scoped.wp (recording (exec scan i)) (drawing rank i t).recorded
      (readCandidate index lower t facets additionalIds search callback retained)
      (fun r y => ∀ a ∈ r, CandidateRead scan i lower t facets additionalIds search callback a y.2)
      (fun _ _ => True) x := by
  have hfresh : (undisturbed rank i t).Stable fun s => s.publishedState t = state :=
    fun ls s s' hr hs => (SlotKept.same hr).trans hs
  have hactive : wp (exec scan i) (drawing rank i t) (synchronizationIsActive t)
      (fun _ s => s.publishedState t = state) (fun _ _ => True) x.1 := by
    apply wp_assuming
    apply wp_bind_of ((reads_undisturbed hfresh).command (c := .getLock t) (fun _ => rfl) hx)
    exact fun _ _ hs => hs.2
  apply Scoped.wp_bind_of (Scoped.wp_lift (wp_mono (fun _ _ h => h) (fun _ _ _ => trivial)
    (wp_recording hactive)))
  rintro active y ⟨hy, hsub⟩
  -- no candidate while a synchronization is active
  split
  · apply Scoped.wp_pure
    intro a ha
    cases ha
  have hinspect := Scoped.wp_assuming (A := fun c y => Unused i c y.1)
    (@inspectableSourceSnapshot_undisturbed rank i t scan state _ _ hy
      (hmaterialized.imp fun s hs => hsub hs))
  apply Scoped.wp_bind_of hinspect
  intro source z hz
  cases source with
  | none =>
      apply Scoped.wp_pure
      intro a ha
      cases ha
  -- the snapshot was inspected in `at₁`, and everything after it is read off that store
  | some source =>
      obtain ⟨at₁, hstate, hinspected, hview⟩ := hz source rfl
      have hgeneration : at₁.publishedGeneration t = generationFromPublishedState state :=
        congrArg generationFromPublishedState hstate
      have havailable : (scan.shown ⟨t, generationFromPublishedState state, .job⟩
          (at₁.catalog ⟨t, generationFromPublishedState state, .job⟩)).filter
            (isAvailable t state .job at₁ (projected t at₁ retained.key)) =
          availableValues scan t at₁ retained.key .job := by
        rw [availableValues, hgeneration, hstate]
      apply Scoped.wp_mono _ (fun _ _ h => h) (Scoped.wp_recording (candidate_drawing index lower
        facets additionalIds search callback hcallback hview havailable))
      rintro r w ⟨hread, hsub⟩ a ha
      refine ⟨retained.key, at₁, ⟨?_, ?_⟩, ?_⟩
      · exact hinspected.1.imp fun s hs => hsub hs
      · exact hinspected.2.imp fun k hk => hk.imp fun k' hk' => hsub hk'
      · rw [hgeneration]
        exact hread a ha

end Candidate

/-! ## What is written -/

section Footprint

variable {K : Key → Prop} (htemp : ∀ k, K (.sortedSet (.temporary k))) (index : RetainedJobIndex)
  {lower : String → String} {search : String} {source : SourceSnapshot}

/-- A command that only reads writes nothing. -/
theorem ReadsOnly.writes {k : SortedSetKey} {c : Command} (hc : ReadsOnly k c) : c.writes = [] := by
  cases hc <;> rfl

/-- A program that only reads one key writes nothing. -/
theorem ReadsKey.writes {α : Type} {k : SortedSetKey} {p : Redis α} (h : ReadsKey k p) :
    Writes K p := by
  induction p with
  | ret a => trivial
  | fail e => trivial
  | stopped => trivial
  | op ls c next ih =>
      obtain ⟨hc, ⟨e, he⟩, hnext⟩ := h
      refine ⟨fun k hk => ?_, fun x _ => ?_⟩
      · rw [hc.writes] at hk
        cases hk
      · cases x with
        | none =>
            rw [he]
            trivial
        | some x => exact ih (some x) (hnext x)

include htemp

/-- The set of one id is a temporary key. -/
theorem idKey_writes {id : String} : ScopedWrites K (idKey id) := by
  apply ScopedWrites.bind (.lift randomToken_writes)
  intro k
  apply ScopedWrites.bind .register
  intro _
  apply ScopedWrites.bind (.lift (transaction_writes fun g _ w hw => ?_)) fun _ => .pure
  simp only [List.mem_cons, List.not_mem_nil, or_false] at hw
  rcases hw with rfl | rfl <;> exact htemp k

/-- The set of the jobs that match a search is made of temporary keys. -/
theorem searchKey_writes : ScopedWrites K (searchKey index lower t search source) := by
  apply ScopedWrites.bind (.lift ((availableCatalogValues_writes htemp).bind fun _ => .ite .ret .ret))
  intro r
  cases r with
  | none => exact .pure
  | some names =>
      apply ScopedWrites.bind (.lift (.collect fun _ _ => facetKey_writes))
      intro nameKeys
      apply ScopedWrites.bind (.lift zscore_writes)
      intro idScore
      apply ScopedWrites.bind
      · split
        · exact (idKey_writes htemp).bind fun _ => .pure
        · exact .pure
      · intro idKeys
        generalize (nameKeys ++ idKeys).eraseDups = keys
        rcases keys with _ | ⟨k, _ | ⟨k', rest⟩⟩
        · exact ScopedWrites.bind (.lift randomToken_writes) fun _ => ScopedWrites.bind .register
            fun _ => .pure
        · exact .pure
        · exact unionKeysInChunks_writes htemp index .ret

/-- The set of given ids is a temporary key. -/
theorem stateKey_writes {heartbeat : Redis Unit} (hh : Writes K heartbeat) {ids : IdSet} :
    ScopedWrites K (stateKey heartbeat ids) := by
  apply ScopedWrites.bind (.lift randomToken_writes)
  intro k
  apply ScopedWrites.bind .register
  intro _
  apply ScopedWrites.bind (.lift (.forEach fun chunk _ => hh.bind fun _ =>
    transaction_writes fun g _ w hw => ?_)) fun _ => .pure
  rcases List.mem_append.mp hw with hw | hw
  · obtain ⟨id, -, rfl⟩ := List.mem_map.mp hw
    exact htemp k
  · rw [List.mem_singleton.mp hw]
    exact htemp k

/-- The sets of a candidate are temporary keys. -/
theorem candidateKeys_writes {facets : List (FacetDimension × String)}
    {additionalIds : Option IdSet} :
    ScopedWrites K (candidateKeys index lower t facets additionalIds search source) := by
  apply ScopedWrites.bind (.lift (.collect fun _ _ => facetKey_writes))
  intro facetKeys
  apply ScopedWrites.bind
  · split
    · exact .pure
    · exact searchKey_writes htemp index
  · intro searchKey
    apply ScopedWrites.bind
    · cases additionalIds with
      | none => exact .pure
      | some ids => exact (stateKey_writes htemp renewSourceSnapshot_writes).bind fun _ => .pure
    · exact fun _ => .pure

/-- Reading a candidate writes temporary keys only. -/
theorem readCandidate_writes {α : Type} {callback : SortedSetKey → Redis α}
    (hcallback : ∀ k, ReadsKey k (callback k)) {facets : List (FacetDimension × String)}
    {additionalIds : Option IdSet} {retained : SourceSnapshot} :
    ScopedWrites K (readCandidate index lower t facets additionalIds search callback retained) := by
  apply ScopedWrites.bind (.lift synchronizationIsActive_writes)
  intro active
  split
  · exact .pure
  apply ScopedWrites.bind (inspectableSourceSnapshot_writes htemp)
  intro source
  cases source with
  | none => exact .pure
  | some source =>
      apply ScopedWrites.bind (candidateKeys_writes htemp index)
      intro keys
      apply ScopedWrites.bind (.lift randomToken_writes)
      intro k
      apply ScopedWrites.bind .register
      intro _
      apply ScopedWrites.lift
      apply renewSourceSnapshot_writes.bind
      intro _
      apply Writes.bind (transaction_writes fun g _ w hw => ?_) fun _ =>
        (hcallback _).writes.bind fun _ => .ret
      simp only [List.mem_cons, List.not_mem_nil, or_false] at hw
      rcases hw with rfl | rfl <;> exact htemp k

end Footprint

/-! ## The attempts -/

section Attempts

variable (index : RetainedJobIndex) {lower : String → String}
  {facets : List (FacetDimension × String)} {additionalIds : Option IdSet} {search : String}
  {α : Type} {callback : SortedSetKey → Redis α}

/-- The circumstances of a reader whose fresh keys are not in use. -/
def advancingUnused (rank : Option PublishedState → ℕ) (i : ProcessId) (t : RetainedJobType) :
    Discipline Command Section Store :=
  (advancing rank i t).assuming (Unused i)

/-- **Reading under the fence**: the result was read off one published generation, or the state read
before is not published any more. -/
theorem readCandidate_fenced (hcallback : ∀ k, ReadsKey k (callback k)) {retained : SourceSnapshot}
    {x : Recorded Command Store} (hx : x.1.publishedState t = state ∨ Stale rank t state x.1)
    (hmaterialized : ∃ s, (materialization t retained.key, s) ∈ x.2) :
    Scoped.Yields (recording (exec scan i)) (advancingUnused rank i t).recorded
      (readCandidate index lower t facets additionalIds search callback retained)
      (fun r y => Stale rank t state y.1 ∨
        ∀ a ∈ r, CandidateRead scan i lower t facets additionalIds search callback a y.2) x := by
  intro l
  have hfence : Fence (recording (exec scan i)) (drawing rank i t).recorded
      (advancingUnused rank i t).recorded (Allows (Key.Unpublishing t))
      (fun x => x.1.publishedState t = state) (fun x => Stale rank t state x.1) :=
    fence.assuming.recorded
  have hobeys : Obeys (Allows (Key.Unpublishing t)) (fun _ _ => True)
      (readCandidate index lower t facets additionalIds search callback retained l) fun _ => True :=
    (readCandidate_writes (fun k => ⟨by simp, by simp⟩) index hcallback l).weaken
      fun _ _ => trivial
  rcases hx with hfresh | hstale
  · have hread := @readCandidate_drawing rank i t scan state index lower facets
      additionalIds search α callback hcallback retained x hfresh hmaterialized
    apply wp_mono _ (fun _ _ _ => trivial) (wp_fenced hfence hobeys hfresh (hread l))
    rintro r y (hstale | ⟨-, hy⟩) a ha
    · exact Or.inl hstale
    · rw [ha] at hy
      exact Or.inr hy
  · exact wp_mono (fun r y hy a _ => Or.inl hy) (fun _ _ _ => trivial)
      (hfence.wp_stale hobeys hstale)

/-- One attempt: a result was read off one published generation. -/
theorem candidateAttempt_read (hcallback : ∀ k, ReadsKey k (callback k)) {trimmed synchronized : Bool}
    {x : Recorded Command Store} :
    Scoped.Yields (recording (exec scan i)) (advancingUnused rank i t).recorded
      (index.candidateAttempt lower trimmed synchronized t facets additionalIds search callback)
      (fun r y => ∀ a ∈ r, CandidateRead scan i lower t facets additionalIds search callback a y.2)
      x := by
  have hsnapshot := Scoped.wp_assuming (A := fun c y => Unused i c y.1)
    (@synchronizedSourceSnapshot_materialized index rank i t scan trimmed synchronized facets
      (if search = "" then [] else [.job]) x)
  apply Scoped.Yields.bind (.of_wp hsnapshot)
  intro retained y hy
  have hrevision := wp_assuming (A := fun c y => Unused i c y.1)
    (wp_recording (x := y) (@publishedState_advancing rank i t _ scan))
  apply Scoped.Yields.bind (.lift hrevision)
  intro revision z hz
  have hmaterialized : ∃ s, (materialization t retained.key, s) ∈ z.2 := hy.imp fun s hs => hz.2 hs
  apply Scoped.Yields.bind (readCandidate_fenced index hcallback hz.1 hmaterialized)
  intro r w hw
  cases r with
  | none =>
      apply Scoped.Yields.pure
      intro a ha
      cases ha
  | some result =>
      apply Scoped.Yields.lift (E := fun _ _ => True)
      apply wp_bind_of (Q := fun moved v => moved = true ∨
        CandidateRead scan i lower t facets additionalIds search callback result v.2)
      · -- A stale reader finds out that it is; what was read off stays read off.
        rcases hw with hstale | hw
        · have hmoved := wp_assuming (A := fun c y => Unused i c y.1) (wp_recording (x := w)
            (@synchronizationHasMoved_stale rank i t _ scan _ hstale))
          exact wp_mono (fun _ _ h => Or.inl h.1) (fun _ _ _ => trivial) hmoved
        · exact wp_mono (fun _ _ h => Or.inr h) (fun _ _ _ => trivial)
            (wp_recording_const (D := advancingUnused rank i t)
              (F := CandidateRead scan i lower t facets additionalIds search callback result)
              (fun _ _ hsub h => h.mono lower facets additionalIds search callback hsub)
              (fun _ _ _ _ => trivial) (hw _ rfl))
      · intro moved v hv
        split
        · intro a ha
          cases ha
        · rename_i hmoved
          intro a ha
          obtain rfl := Option.some.inj ha
          exact hv.resolve_left hmoved

/-- **A candidate is read off one published generation** that was published at some moment of the
call, for a snapshot of the source that was copied in the call. -/
theorem withCandidateKey_read (hcallback : ∀ k, ReadsKey k (callback k))
    {trimmed synchronized : Bool} {x : Recorded Command Store} :
    wp (recording (exec scan i)) (advancingUnused rank i t).recorded
      (index.withCandidateKey lower trimmed synchronized t facets additionalIds search callback)
      (fun a y => CandidateRead scan i lower t facets additionalIds search callback a y.2)
      (fun _ _ => True) x := by
  apply wp_bind_of (wp_firstSome (Q := fun r y => ∀ a ∈ r,
    CandidateRead scan i lower t facets additionalIds search callback a y.2)
    (E := fun _ _ => True) ?_ fun a ha => by cases ha)
  · intro result y hy
    cases result with
    | none => trivial
    | some result => exact hy result rfl
  · intro attempt _ y _
    apply Scoped.Yields.scope (candidateAttempt_read index hcallback) _ fun _ _ _ _ => trivial
    intro r k y hr
    exact wp_mono (fun _ _ h => h) (fun _ _ _ => trivial) (wp_recording_const
      (D := advancingUnused rank i t) (F := fun history => ∀ a ∈ r,
        CandidateRead scan i lower t facets additionalIds search callback a history)
      (fun _ _ hsub h a ha => (h a ha).mono lower facets additionalIds search callback hsub)
      (fun _ _ _ _ => trivial) hr)

end Attempts

/-! ## The jobs a filter is about -/

section Selected

variable {jobs : String → RetainedJobMetadata} {lower : String → String}
  {facets : List (FacetDimension × String)} {additionalIds : Option IdSet} {search id : String}
  {retained : Token} {α : Type} {callback : SortedSetKey → Redis α} {a : α}

/-- A filter is about a job: it has the values of the facets, its name contains the search or the
search is its id, and it is among the ids that are given. -/
structure Selected (lower : String → String) (jobs : String → RetainedJobMetadata)
    (t : RetainedJobType) (facets : List (FacetDimension × String)) (additionalIds : Option IdSet)
    (search id : String) : Prop where
  facets : ∀ f ∈ facets, f.2 ∈ facetValues t (jobs id) f.1
  search : search = "" ∨ containsIgnoringCase lower (jobs id).name search ∨ id = search
  state : ∀ ids ∈ additionalIds, id ∈ ids.ids

/-- The value of a job in the dimension of names is its name. -/
theorem facetValues_job (m : RetainedJobMetadata) : facetValues t m .job = [m.name] := rfl

/-- What the search finds among the projected jobs, when the slot agrees with the metadata. -/
theorem finds_iff (h : Agrees jobs t at₁) (hid : id ∈ projected t at₁ retained) :
    Finds lower t (at₁.publishedGeneration t) at₁ (availableValues scan t at₁ retained .job) search id ↔
      containsIgnoringCase lower (jobs id).name search ∨ id = search := by
  have hboth : id ∈ at₁.zset (.temporary retained) ∧
      id ∈ at₁.zset (.projection t (at₁.publishedGeneration t)) := by
    rw [projected, mem_interStore] at hid
    simpa using hid
  have hname : (jobs id).name ∈ availableValues scan t at₁ retained .job := by
    rw [mem_availableValues h]
    exact ⟨id, hboth.1, hboth.2, by simp [facetValues_job]⟩
  constructor
  · rintro (⟨-, hall⟩ | ⟨v, -, hcontains, hfacet⟩ | rfl)
    · exact Or.inl (hall _ hname)
    · have hv := (h.facets .job v id hboth.2).mp hfacet
      rw [facetValues_job, List.mem_singleton] at hv
      exact Or.inl (hv ▸ hcontains)
    · exact Or.inr rfl
  · rintro (hcontains | rfl)
    · refine Or.inr (Or.inl ⟨_, hname, hcontains, (h.facets .job _ id hboth.2).mpr ?_⟩)
      simp [facetValues_job]
    · exact Or.inr (Or.inr rfl)

/-- Where the slot agrees with the metadata a projected job passes just where it is selected. -/
theorem passes_iff (h : Agrees jobs t at₁) (hid : id ∈ projected t at₁ retained) :
    Passes lower t (at₁.publishedGeneration t) at₁ (availableValues scan t at₁ retained .job) facets
        additionalIds search id ↔ Selected lower jobs t facets additionalIds search id := by
  have hprojection : id ∈ at₁.zset (.projection t (at₁.publishedGeneration t)) := by
    rw [projected, mem_interStore] at hid
    simpa using (hid _ (List.mem_cons_of_mem _ List.mem_cons_self))
  constructor
  · rintro ⟨hfacets, hsearch, hstate⟩
    refine ⟨fun f hf => (h.facets f.1 f.2 id hprojection).mp (hfacets f hf), ?_, hstate⟩
    exact hsearch.imp_right (finds_iff h hid).mp
  · rintro ⟨hfacets, hsearch, hstate⟩
    refine ⟨fun f hf => (h.facets f.1 f.2 id hprojection).mpr (hfacets f hf), ?_, hstate⟩
    exact hsearch.imp_right (finds_iff h hid).mpr

/-- The candidate of a filter: the jobs it is about among those that are in the snapshot of the source
and in the projection, with the scores they have in the snapshot. -/
def IsCandidate (lower : String → String) (jobs : String → RetainedJobMetadata) (t : RetainedJobType)
    (facets : List (FacetDimension × String)) (additionalIds : Option IdSet) (search : String)
    (at₁ : Store) (retained : Token) (z : ZSet) : Prop :=
  ∀ id x, z.score id = some x ↔ (at₁.zset (.temporary retained)).score id = some x ∧
    id ∈ at₁.zset (.projection t (at₁.publishedGeneration t)) ∧
    Selected lower jobs t facets additionalIds search id

/-- A projected job has the score it has in the snapshot. -/
theorem score_projected {x : ℚ} :
    (projected t at₁ retained).score id = some x ↔
      (at₁.zset (.temporary retained)).score id = some x ∧
        id ∈ at₁.zset (.projection t (at₁.publishedGeneration t)) := by
  have hscore : (projected t at₁ retained).score id =
      if ∀ z ∈ [at₁.zset (.projection t (at₁.publishedGeneration t))], id ∈ z then
        (at₁.zset (.temporary retained)).score id else none :=
    @score_interStore_first _ [at₁.zset (.projection t (at₁.publishedGeneration t))] id
  rw [hscore]
  simp only [List.mem_singleton, forall_eq]
  split
  · rename_i hmem
    simp [hmem]
  · rename_i hmem
    simp [hmem]

/-- **A candidate read off an exact slot** is the candidate of the filter. -/
theorem CandidateRead.isCandidate (jobs : String → RetainedJobMetadata)
    {history : List (Command × Store)}
    (h : CandidateRead scan i lower t facets additionalIds search callback a history) :
    ∃ retained at₁, Inspected t history retained at₁ ∧ ∃ k z, ResultOn scan i k z (callback k) a ∧
      (Agrees jobs t at₁ →
        IsCandidate lower jobs t facets additionalIds search at₁ retained z) := by
  obtain ⟨retained, at₁, hinspected, k, z, hresult, hz⟩ := h
  refine ⟨retained, at₁, hinspected, k, z, hresult, fun hagrees id x => ?_⟩
  rw [hz id x]
  constructor
  · rintro ⟨hscore, hpasses⟩
    obtain ⟨hsource, hprojection⟩ := score_projected.mp hscore
    exact ⟨hsource, hprojection, (passes_iff hagrees (SortedSet.mem_of_score hscore)).mp hpasses⟩
  · rintro ⟨hsource, hprojection, hselected⟩
    have hscore : (projected t at₁ retained).score id = some x :=
      score_projected.mpr ⟨hsource, hprojection⟩
    exact ⟨hscore, (passes_iff hagrees (SortedSet.mem_of_score hscore)).mpr hselected⟩

end Selected

end RetainedJobIndex

end HorizonNewDawn

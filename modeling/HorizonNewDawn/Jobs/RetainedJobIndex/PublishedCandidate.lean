import HorizonNewDawn.Jobs.RetainedJobIndex.LiveCandidate
import Mathlib

/-! # The retained-job index: what a published candidate holds

`withPublishedCandidateKey` asks neither the source nor a lock. It looks up which slot is published,
intersects the facets of that slot, applies the callback and gives the result away only where the same
state is published still. So the result is that of the callback on one published slot
(`withPublishedCandidateKey_read`), although a slot may be rebuilt at any time. -/

namespace HorizonNewDawn

open Program

namespace RetainedJobIndex

variable {rank : Option PublishedState → ℕ} {i : ProcessId} {t : RetainedJobType}
  {s s' : Store} {scan : ScanOrder} {state : Option PublishedState} {at₁ : Store}
  {stored : Token → Option ZSet} {facets : List (FacetDimension × String)}
  {additionalIds : Option IdSet} {α : Type} {callback : SortedSetKey → Redis α}

/-! ## The key -/

/-- The result of the callback on a set that holds the members of a published slot that are in all the
facets and among the ids that are given, with the scores of the first key of the slot. -/
def PublishedReadOn (scan : ScanOrder) (i : ProcessId) (t : RetainedJobType)
    (facets : List (FacetDimension × String)) (additionalIds : Option IdSet)
    (callback : SortedSetKey → Redis α) (at₁ : Store) (a : α) : Prop :=
  ∃ k z, ResultOn scan i k z (callback k) a ∧ ∀ id x, z.score id = some x ↔
    (∃ k₀ ∈ (slotKeys t (at₁.publishedGeneration t) facets).head?, (at₁.zset k₀).score id = some x) ∧
      (∀ f ∈ facets, id ∈ at₁.zset (.facet t (at₁.publishedGeneration t) f.1 f.2)) ∧
      ∀ ids ∈ additionalIds, id ∈ ids.ids

/-- What the keys of a slot stand for. -/
theorem meaning_slotKeys {g : Generation} {k : SortedSetKey} (hk : k ∈ slotKeys t g facets) :
    meaning t g at₁ stored k = some (at₁.zset k) := by
  unfold slotKeys at hk
  split at hk
  · rw [List.mem_singleton.mp hk]
    simp [meaning]
  · obtain ⟨f, -, rfl⟩ := List.mem_map.mp hk
    exact meaning_facet _ _

/-- A candidate is made of at least one key. -/
theorem slotKeys_ne_nil (t : RetainedJobType) (g : Generation)
    (facets : List (FacetDimension × String)) : slotKeys t g facets ≠ [] := by
  unfold slotKeys
  split
  · simp
  · simpa using ‹_›

/-- The key stands for the members of the slot the filter is about. -/
theorem publishedKey_drawing {p : PublishedState} (hs : at₁.publishedState t = some p) :
    Scoped.wp (exec scan i) (drawing rank i t)
      (publishedKey t p.generation facets additionalIds)
      (fun k s => ∃ stored z, Keeping i t (some p) at₁ stored s ∧
        meaning t p.generation at₁ stored k = some z ∧ ∀ id x, z.score id = some x ↔
          (∃ k₀ ∈ (slotKeys t p.generation facets).head?, (at₁.zset k₀).score id = some x) ∧
            (∀ f ∈ facets, id ∈ at₁.zset (.facet t p.generation f.1 f.2)) ∧
            ∀ ids ∈ additionalIds, id ∈ ids.ids) (fun _ _ => True) at₁ := by
  have hstart : Keeping i t (some p) at₁ (fun _ => none) at₁ :=
    ⟨hs, .refl at₁, fun k z hk => by cases hk⟩
  -- What the keys of the slot and the key of the ids stand for.
  apply Scoped.wp_bind_of (Q := fun stateKeys s => ∃ stored, Keeping i t (some p) at₁ stored s ∧
    (∀ k ∈ stateKeys, Known t p.generation at₁ stored k) ∧
    ∀ id, (∀ k ∈ stateKeys, Contains t p.generation at₁ stored k id) ↔
      ∀ ids ∈ additionalIds, id ∈ ids.ids)
  · cases additionalIds with
    | none => exact Scoped.wp_pure ⟨_, hstart, by simp, by simp⟩
    | some ids =>
        have hbeat : ∀ stored s, Keeping i t (some p) at₁ stored s →
            wp (exec scan i) (drawing rank i t) (return () : Redis Unit)
              (fun _ => Keeping i t (some p) at₁ stored) (fun _ _ => True) s := fun _ _ hs => hs
        apply Scoped.wp_bind_of (stateKey_drawing hbeat ids hstart)
        rintro k s ⟨stored, -, hs, hknown, hT⟩
        apply Scoped.wp_pure
        refine ⟨stored, hs, hknown, fun id => ?_⟩
        have hk : (∃ k' ∈ [k], Contains t p.generation at₁ stored k' id) ↔ id ∈ ids.ids := hT id
        simpa using hk
  rintro stateKeys s ⟨stored, hs, hknown, hids⟩
  obtain ⟨k₀, rest, hslot⟩ := List.exists_cons_of_ne_nil (slotKeys_ne_nil t p.generation facets)
  have hmeaning : ∀ k ∈ k₀ :: rest, meaning t p.generation at₁ stored k = some (at₁.zset k) :=
    fun k hk => meaning_slotKeys (hslot ▸ hk)
  have hfirst := hmeaning k₀ List.mem_cons_self
  have hall : ∀ id x, (at₁.zset k₀).score id = some x →
      ((∀ k ∈ rest ++ stateKeys, Contains t p.generation at₁ stored k id) ↔
        (∀ f ∈ facets, id ∈ at₁.zset (.facet t p.generation f.1 f.2)) ∧
          ∀ ids ∈ additionalIds, id ∈ ids.ids) := by
    intro id x hx
    rw [List.forall_mem_append, hids id]
    apply and_congr_left'
    have hcontains : (∀ k ∈ rest, Contains t p.generation at₁ stored k id) ↔
        ∀ k ∈ slotKeys t p.generation facets, id ∈ at₁.zset k := by
      rw [hslot, List.forall_mem_cons, and_iff_right (SortedSet.mem_of_score hx)]
      refine forall₂_congr fun k hk => ?_
      simp [Contains, hmeaning k (List.mem_cons_of_mem _ hk)]
    rw [hcontains, slotKeys]
    split
    · rename_i hnil
      subst hnil
      obtain ⟨rfl, -⟩ : .projection t p.generation = k₀ ∧ [] = rest := by simpa [slotKeys] using hslot
      simp [SortedSet.mem_of_score hx]
    · rw [List.forall_mem_map]
  rw [hslot]
  simp only [List.head?_cons, Option.mem_some_iff, exists_eq_left']
  rcases hkeys : rest ++ stateKeys with _ | ⟨k', keys⟩
  · rw [List.cons_append, hkeys]
    apply Scoped.wp_pure
    refine ⟨stored, at₁.zset k₀, hs, hfirst, fun id x => ?_⟩
    refine (and_iff_left_of_imp fun hx => ?_).symm
    rw [← hall id x hx, hkeys]
    simp
  · rw [List.cons_append, hkeys]
    have hknown' : ∀ k ∈ k' :: keys, Known t p.generation at₁ stored k := by
      rw [← hkeys]
      intro k hk
      rcases List.mem_append.mp hk with hk | hk
      · exact ⟨_, hmeaning k (List.mem_cons_of_mem _ hk)⟩
      · exact hknown k hk
    apply Scoped.wp_bind_of (Scoped.wp_lift (temporaryKey_drawing hs))
    rintro key s ⟨hnone, hs⟩
    apply Scoped.wp_bind_of (Q := fun _ => Keeping i t (some p) at₁ _) (Scoped.wp_register hs)
    intro _ s hs
    apply Scoped.wp_bind_of (Scoped.wp_lift (intersect_drawing hnone hs hfirst hknown'))
    rintro - s ⟨z, hz, hs⟩
    apply Scoped.wp_pure
    refine ⟨_, z, hs, Function.update_self _ _ _, fun id x => (hz id x).trans ?_⟩
    rw [← hkeys]
    exact and_congr_right fun hx => hall id x hx

/-- A candidate is made with temporary keys only. -/
theorem publishedKey_writes {K : Key → Prop} (htemp : ∀ k, K (.sortedSet (.temporary k)))
    {g : Generation} : ScopedWrites K (publishedKey t g facets additionalIds) := by
  apply ScopedWrites.bind
  · cases additionalIds with
    | none => exact .pure
    | some ids => exact (stateKey_writes htemp .ret).bind fun _ => .pure
  · intro stateKeys
    generalize slotKeys t g facets ++ stateKeys = keys
    have hstore : ∀ keys, ScopedWrites K (do
        let candidateKey ← Scoped.lift temporaryKey
        Scoped.register candidateKey
        Scoped.lift (transaction none fun _ => [intersect candidateKey (firstWeighted keys),
          expireTemporary candidateKey temporaryKeyTtlSeconds])
        return .temporary candidateKey : ScopedRedis SortedSetKey) := by
      intro keys
      apply ScopedWrites.bind (.lift randomToken_writes)
      intro k
      apply ScopedWrites.bind .register
      intro _
      apply ScopedWrites.bind (.lift (transaction_writes fun g _ w hw => ?_)) fun _ => .pure
      simp only [List.mem_cons, List.not_mem_nil, or_false] at hw
      rcases hw with rfl | rfl <;> exact htemp k
    rcases keys with _ | ⟨k, _ | ⟨k', rest⟩⟩
    · exact hstore []
    · exact .pure
    · exact hstore _

/-! ## Reading under the fence -/

/-- **The result is read off the slot** that was published when the state was read, or it is not given
away. -/
theorem publishedResult_yields (hcallback : ∀ k, ReadsKey k (callback k)) {p : PublishedState}
    (hs : at₁.publishedState t = some p ∨ Stale rank t (some p) at₁) :
    Scoped.Yields (exec scan i) (advancingUnused rank i t)
      (do
        let key ← publishedKey t p.generation facets additionalIds
        Scoped.lift do
          let result ← callback key
          if (← publishedState t) ≠ some p then .fail .retainedJobIndexWarming
          else return result : ScopedRedis α)
      (fun a _ => at₁.publishedState t = some p ∧
        PublishedReadOn scan i t facets additionalIds callback at₁ a) at₁ := by
  have hfence : Fence (exec scan i) (drawing rank i t) (advancingUnused rank i t)
      (Allows (Key.Unpublishing t)) (fun s => s.publishedState t = some p)
      (Stale rank t (some p)) := fence.assuming
  have htemp : ∀ k, Key.Unpublishing t (.sortedSet (.temporary k)) := fun k => ⟨by simp, by simp⟩
  -- The key is stored under the fence.
  apply Scoped.Yields.bind (Q := fun key s => Stale rank t (some p) s ∨
    s.publishedState t = some p ∧ at₁.publishedState t = some p ∧
      ∃ stored z, Keeping i t (some p) at₁ stored s ∧
        meaning t p.generation at₁ stored key = some z ∧ ∀ id x, z.score id = some x ↔
          (∃ k₀ ∈ (slotKeys t p.generation facets).head?, (at₁.zset k₀).score id = some x) ∧
            (∀ f ∈ facets, id ∈ at₁.zset (.facet t p.generation f.1 f.2)) ∧
            ∀ ids ∈ additionalIds, id ∈ ids.ids)
  · intro l
    have hobeys : Obeys (Allows (Key.Unpublishing t)) (fun _ _ => True)
        (publishedKey t p.generation facets additionalIds l) fun _ => True :=
      (publishedKey_writes htemp l).weaken fun _ _ => trivial
    rcases hs with hfresh | hstale
    · apply wp_mono _ (fun _ _ _ => trivial)
        (wp_fenced hfence hobeys hfresh (publishedKey_drawing hfresh l))
      rintro r s (hstale | ⟨hpublished, hr⟩) key hkey
      · exact Or.inl hstale
      · rw [hkey] at hr
        exact Or.inr ⟨hpublished, hfresh, hr⟩
    · exact wp_mono (fun r s hs key _ => Or.inl hs) (fun _ _ _ => trivial)
        (hfence.wp_stale hobeys hstale)
  · intro key s hkey
    apply Scoped.Yields.lift (E := fun _ _ => True)
    -- So is the callback run.
    apply wp_bind_of (Q := fun result s => Stale rank t (some p) s ∨
      at₁.publishedState t = some p ∧ PublishedReadOn scan i t facets additionalIds callback at₁ result)
    · rcases hkey with hstale | ⟨hfresh, hat, stored, z, hs, hmeaning, hz⟩
      · exact wp_mono (fun _ _ hs => Or.inl hs) (fun _ _ _ => trivial)
          (hfence.wp_stale ((hcallback key).writes) hstale)
      · have halone : Program.wp (exec scan i) (undisturbed rank i t) (callback key) _ _ s :=
          (hcallback key).wp Keeping.stable
            (fun s (hs : Keeping i t (some p) at₁ stored s) => hs.zset hmeaning) hs
        have hread := wp_assuming (A := Unused i) halone
        apply wp_mono _ (fun _ _ _ => trivial)
          (wp_fenced hfence ((hcallback key).writes) hfresh hread)
        rintro result s (hstale | ⟨-, hresult, -⟩)
        · exact Or.inl hstale
        · have hgeneration : at₁.publishedGeneration t = p.generation :=
            congrArg generationFromPublishedState hat
          refine Or.inr ⟨hat, key, z, hresult, ?_⟩
          rw [hgeneration]
          exact hz
    · intro result s hresult
      rcases hresult with hstale | hread
      · apply wp_bind_of (wp_assuming (publishedState_stale hstale))
        intro st s hst
        rw [if_pos hst]
        trivial
      · apply wp_bind_of (Q := fun _ _ => True)
          (wp_mono (fun _ _ _ => trivial) (fun _ _ _ => trivial)
            (Program.wp_trivial (D := advancingUnused rank i t) fun _ _ _ _ => trivial))
        intro st s _
        split
        · trivial
        · exact hread

/-- The published state, with a store it was read in. -/
theorem publishedState_recording {x : Recorded Command Store} :
    wp (recording (exec scan i)) (advancingUnused rank i t).recorded (publishedState t)
      (fun st y => (y.1.publishedState t = st ∨ Stale rank t st y.1) ∧ ∃ c, (c, y.1) ∈ y.2)
      (fun _ _ => True) x := by
  have hstate := wp_assuming (A := fun c y => Unused i c y.1)
    (wp_recording (x := x) (@publishedState_advancing rank i t _ scan))
  have hrecorded : wp (recording (exec scan i)) (advancingUnused rank i t).recorded
      (publishedState t) (fun _ y => ∃ c, (c, y.1) ∈ y.2) (fun _ _ => True) x := by
    apply wp_bind_of (wp_command_recording (Q := fun _ y => ∃ c, (c, y.1) ∈ y.2) ?_)
    · intro st y hy
      cases st with
      | some st => exact hy
      | none =>
          apply wp_bind_of (wp_command_recording (Q := fun _ y => ∃ c, (c, y.1) ∈ y.2) ?_)
          · exact fun _ _ h => h
          · exact fun s _ _ => ⟨trivial, fun _ => trivial, fun _ => ⟨_, List.mem_cons_self⟩⟩
    · exact fun s _ _ => ⟨trivial, fun _ => trivial, fun _ => ⟨_, List.mem_cons_self⟩⟩
  exact wp_mono (fun _ _ h => ⟨h.1.1, h.2⟩) (fun _ _ _ => trivial) (wp_and hstate hrecorded)

/-- The result was read off a slot that was published at some moment of the call. -/
def PublishedRead (scan : ScanOrder) (i : ProcessId) (t : RetainedJobType)
    (facets : List (FacetDimension × String)) (additionalIds : Option IdSet)
    (callback : SortedSetKey → Redis α) (a : α) (history : List (Command × Store)) : Prop :=
  ∃ c at₁, (c, at₁) ∈ history ∧ (at₁.publishedState t).isSome ∧
    PublishedReadOn scan i t facets additionalIds callback at₁ a

/-- **A published candidate is read off one slot.** -/
theorem withPublishedCandidateKey_read (hcallback : ∀ k, ReadsKey k (callback k))
    {x : Recorded Command Store} :
    wp (recording (exec scan i)) (advancingUnused rank i t).recorded
      (withPublishedCandidateKey t facets additionalIds callback)
      (fun a y => PublishedRead scan i t facets additionalIds callback a y.2) (fun _ _ => True) x := by
  apply wp_bind_of publishedState_recording
  rintro st y ⟨hst, c, hc⟩
  cases st with
  | none => trivial
  | some p =>
      refine Scoped.Yields.scope (Q := fun a (y : Recorded Command Store) =>
        PublishedRead scan i t facets additionalIds callback a y.2) ?_ ?_ ?_
      · apply (publishedResult_yields hcallback hst).recording.mono
        rintro a z ⟨⟨hat, hread⟩, hsub⟩
        exact ⟨c, y.1, hsub hc, by simp [hat], hread⟩
      · intro a k z hz
        apply wp_mono (fun _ _ h => h) (fun _ _ _ => trivial) (wp_recording_const
          (D := advancingUnused rank i t)
          (F := PublishedRead scan i t facets additionalIds callback a) ?_ (fun _ _ _ _ => trivial) hz)
        rintro history history' hsub ⟨c, at₁, hc, hrest⟩
        exact ⟨c, at₁, hsub hc, hrest⟩
      · exact fun _ _ _ _ => trivial

end RetainedJobIndex

end HorizonNewDawn

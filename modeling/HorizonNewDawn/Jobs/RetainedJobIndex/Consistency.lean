import HorizonNewDawn.Collections.Partition
import HorizonNewDawn.Jobs.RetainedJobIndex.Evaluation
import HorizonNewDawn.Jobs.RetainedJobIndex.Synchronization

/-! # The retained-job index: the consistency check

`indexIsConsistent` never compares two sets. It asks for one-sided differences and adds up
cardinalities, and it unites the facets of a catalog five hundred at a time. Over a store nobody else
changes the check is exact all the same: it succeeds just where the projection and the unresolved
references split the source and the facets of every required dimension split the projection. -/

namespace HorizonNewDawn

open Program

namespace RetainedJobIndex

/-! ## The union in chunks -/

/-- The loop body of `unionKeysInChunks` for one chunk of keys. -/
def unionChunk (working : Working) (heartbeat : Redis Unit) (chunk : List SortedSetKey) :
    ScopedRedis SortedSetKey := do
  Scoped.lift heartbeat
  match chunk with
  | [k] => pure k
  | _ =>
      let unionKey ← Scoped.lift temporaryKey
      Scoped.register unionKey
      Scoped.lift (transaction working fun _ =>
        [.zunionstore (.temporary unionKey) chunk,
          expireTemporary unionKey temporaryKeyTtlSeconds])
      pure (.temporary unionKey)

/-- The loop body of `unionKeysInChunks`. -/
def unionRound (working : Working) (heartbeat : Redis Unit) (keys : List SortedSetKey) :
    ScopedRedis (List SortedSetKey ⊕ Option SortedSetKey) :=
  if keys.length ≤ 1 then pure (.inr keys.head?)
  else do
    Scoped.lift heartbeat
    let nextKeys ← Scoped.collect (keys.arrayChunk catalogScanChunkSize)
      (unionChunk working heartbeat)
    pure (.inl nextKeys)

/-- The union in chunks is a loop of rounds. -/
theorem unionKeysInChunks_eq (index : RetainedJobIndex) (working : Working)
    (keys : List SortedSetKey) (heartbeat : Redis Unit) :
    index.unionKeysInChunks working keys heartbeat =
      Scoped.iterate index.fuel (unionRound working heartbeat) keys.eraseDups := rfl

variable {scan : ScanOrder} {i : ProcessId} {s₀ s : Store} {working : Working}
  {heartbeat : Redis Unit} {t : RetainedJobType} {d : FacetDimension}

/-- The heartbeats of a check that was started in a store: they return and change nothing. -/
def Beats (scan : ScanOrder) (i : ProcessId) (s₀ : Store) (heartbeat : Redis Unit) : Prop :=
  ∀ s, Scratches i s₀ s → heartbeat.eval (exec scan i) s = (.returned (), s)

section Union

variable (working) (hs₀ : s₀.failing = false) (hbeats : Beats scan i s₀ heartbeat)
include hs₀ hbeats

/-- The union of one chunk. -/
theorem evaluatesTo_unionChunk (hs : Scratches i s₀ s) {chunk : List SortedSetKey}
    (hne : chunk ≠ []) (hkeys : ∀ k ∈ chunk, Established i s k) :
    ∃ k drawn s', Scoped.EvaluatesTo (exec scan i) (unionChunk working heartbeat chunk) s k drawn s' ∧
      Scratches i s s' ∧ (∀ r ∈ drawn, DrawnBetween i s s' r) ∧ Established i s' k ∧
      s'.zset k = unionStore (chunk.map s.zset) := by
  have hf : s.failing = false := hs.failing.trans hs₀
  have hbeat := Scoped.EvaluatesTo.lift (ρ := Token) (hbeats s hs)
  have hstore : ∀ chunk : List SortedSetKey, ∃ k drawn s', Scoped.EvaluatesTo (exec scan i)
      (do
        let unionKey ← Scoped.lift temporaryKey
        Scoped.register unionKey
        Scoped.lift (transaction working fun _ =>
          [.zunionstore (.temporary unionKey) chunk,
            expireTemporary unionKey temporaryKeyTtlSeconds])
        pure (.temporary unionKey)) s k drawn s' ∧
      Scratches i s s' ∧ (∀ r ∈ drawn, DrawnBetween i s s' r) ∧ Established i s' k ∧
      s'.zset k = unionStore (chunk.map s.zset) := by
    intro chunk
    have hdrawn := drawnBetween_random (i := i) s
    have hscratches := (Scratches.random s).setZset hdrawn (unionStore (chunk.map s.zset))
    refine ⟨.temporary ⟨i, s.serial i⟩, _, _,
      .bind (.lift (eval_temporaryKey hf)) (.bind (.register _ _)
        (.bind (.lift (eval_transaction working (s := Command.effect i s .random) hf _))
          (.pure _ _))), hscratches, ?_, ?_, ?_⟩
    · intro r hr
      rw [List.nil_append, List.append_nil, List.append_nil, List.mem_singleton] at hr
      rw [hr]
      exact hdrawn
    · exact DrawnBetween.established (s := s) hdrawn
    · show (Store.setZset _ _ _).zset _ = _
      rw [Store.setZset_zset, if_pos rfl]
      rfl
  match chunk, hne with
  | [k], _ =>
      refine ⟨k, [] ++ [], s, hbeat.bind (.pure k s), .refl s, by simp,
        hkeys k List.mem_cons_self, ?_⟩
      rw [List.map_singleton, unionStore_singleton]
  | k :: k' :: chunk, _ =>
      obtain ⟨u, drawn, s', heval, hrest⟩ := hstore (k :: k' :: chunk)
      exact ⟨u, [] ++ drawn, s', hbeat.bind heval, hrest⟩

/-- The unions of the chunks, one after the other. -/
theorem evaluatesTo_collect_unionChunk (hs : Scratches i s₀ s) {chunks : List (List SortedSetKey)}
    (hne : ∀ chunk ∈ chunks, chunk ≠ [])
    (hkeys : ∀ chunk ∈ chunks, ∀ k ∈ chunk, Established i s k) :
    ∃ ks drawn s', Scoped.EvaluatesTo (exec scan i)
        (Scoped.collect chunks (unionChunk working heartbeat)) s ks drawn s' ∧
      Scratches i s s' ∧ (∀ r ∈ drawn, DrawnBetween i s s' r) ∧ (∀ k ∈ ks, Established i s' k) ∧
      ks.map s'.zset = chunks.map fun chunk => unionStore (chunk.map s.zset) := by
  induction chunks generalizing s with
  | nil =>
      exact ⟨[], [], s, .pure [] s, .refl s, by simp, by simp, rfl⟩
  | cons chunk chunks ih =>
      obtain ⟨k, drawn, s₁, heval, hs₁, hdrawn, hk, hzset⟩ :=
        evaluatesTo_unionChunk working hs₀ hbeats hs (hne chunk List.mem_cons_self)
          (hkeys chunk List.mem_cons_self)
      obtain ⟨ks, drawn', s₂, heval', hs₂, hdrawn', hks, hzsets⟩ := ih (hs.trans hs₁)
        (fun c hc => hne c (List.mem_cons_of_mem chunk hc))
        (fun c hc k hk => (hkeys c (List.mem_cons_of_mem chunk hc) k hk).mono hs₁)
      refine ⟨k :: ks, _, s₂, heval.bind (heval'.bind (.pure _ _)), hs₁.trans hs₂, ?_, ?_, ?_⟩
      · intro r hr
        rw [List.append_nil, List.mem_append] at hr
        rcases hr with hr | hr
        · exact (hdrawn r hr).mono hs₂.serial
        · exact (hdrawn' r hr).of_later hs₁
      · intro k' hk'
        rcases List.mem_cons.mp hk' with rfl | hk'
        · exact hk.mono hs₂
        · exact hks k' hk'
      · -- What was united first is left alone by the unions that follow.
        rw [List.map_cons, List.map_cons, hs₂.zset k hk, hzset, hzsets, List.cons.injEq]
        refine ⟨rfl, List.map_congr_left fun c hc => congrArg unionStore ?_⟩
        exact List.map_congr_left fun k' hk' =>
          hs₁.zset k' (hkeys c (List.mem_cons_of_mem chunk hc) k' hk')

/-- **The union in chunks** of any number of keys ends and is the union of all of them. -/
theorem evaluatesTo_iterate_unionRound {fuel : ℕ} (hs : Scratches i s₀ s)
    {keys : List SortedSetKey} (hfuel : keys.length < fuel)
    (hkeys : ∀ k ∈ keys, Established i s k) :
    ∃ k drawn s', Scoped.EvaluatesTo (exec scan i)
        (Scoped.iterate fuel (unionRound working heartbeat) keys) s k drawn s' ∧
      Scratches i s s' ∧ (∀ r ∈ drawn, DrawnBetween i s s' r) ∧ (∀ k' ∈ k, Established i s' k') ∧
      k.map s'.zset = if keys = [] then none else some (unionStore (keys.map s.zset)) := by
  induction fuel generalizing s keys with
  | zero => exact absurd hfuel (Nat.not_lt_zero _)
  | succ fuel ih =>
      by_cases hlength : keys.length ≤ 1
      · have hround : unionRound working heartbeat keys = pure (.inr keys.head?) := if_pos hlength
        refine ⟨keys.head?, [] ++ [], s, ?_, .refl s, by simp, ?_, ?_⟩
        · rw [Scoped.iterate, hround]
          exact Scoped.EvaluatesTo.bind (.pure _ s) (.pure _ s)
        · exact fun k hk => hkeys k (List.mem_of_head? hk)
        · match keys, hlength with
          | [], _ => rfl
          | [k], _ =>
              rw [if_neg (List.cons_ne_nil k []), List.map_singleton, unionStore_singleton]
              rfl
      · have hround : unionRound working heartbeat keys = _ := if_neg hlength
        obtain ⟨ks, drawn, s₁, heval, hs₁, hdrawn, hks, hzsets⟩ :=
          evaluatesTo_collect_unionChunk working hs₀ hbeats hs
            (fun chunk (hc : chunk ∈ keys.arrayChunk catalogScanChunkSize) =>
              List.ne_nil_of_mem_arrayChunk hc)
            (fun _ hc k hk => hkeys k (List.mem_of_mem_arrayChunk hc hk))
        have hmap := congrArg List.length hzsets
        rw [List.length_map, List.length_map] at hmap
        -- There are fewer keys after a round, and what they stand for together stays the same.
        have hfewer : ks.length < keys.length := by
          rw [hmap]
          exact List.length_arrayChunk_lt (by decide) (by omega)
        have hunion : unionStore (ks.map s₁.zset) = unionStore (keys.map s.zset) := by
          have hpieces : (keys.arrayChunk catalogScanChunkSize).map
              (fun chunk => unionStore (chunk.map s.zset)) =
                ((keys.arrayChunk catalogScanChunkSize).map (List.map s.zset)).map unionStore := by
            rw [List.map_map]
            rfl
          rw [hzsets, hpieces, unionStore_map_unionStore, ← List.map_flatten,
            List.flatten_arrayChunk]
        have hnil : ks ≠ [] := by
          rintro rfl
          have hchunks : keys.arrayChunk catalogScanChunkSize = [] :=
            List.length_eq_zero_iff.mp hmap.symm
          have hflatten := List.flatten_arrayChunk catalogScanChunkSize keys
          rw [hchunks, List.flatten_nil] at hflatten
          rw [← hflatten] at hlength
          exact hlength (Nat.zero_le 1)
        obtain ⟨k, drawn', s₂, heval', hs₂, hdrawn', hk, hzset⟩ := ih (hs.trans hs₁)
          (by omega) hks
        have hbody : Scoped.EvaluatesTo (exec scan i) (unionRound working heartbeat keys) s (.inl ks)
            ([] ++ (drawn ++ [])) s₁ := by
          rw [hround]
          exact .bind (.lift (hbeats s hs)) (.bind heval (.pure _ _))
        refine ⟨k, _, s₂, hbody.bind heval', hs₁.trans hs₂, ?_, hk, ?_⟩
        · intro r hr
          rw [List.nil_append, List.append_nil, List.mem_append] at hr
          rcases hr with hr | hr
          · exact (hdrawn r hr).mono hs₂.serial
          · exact (hdrawn' r hr).of_later hs₁
        · have hkeysnil : keys ≠ [] := by
            rintro rfl
            exact hlength (Nat.zero_le 1)
          rw [hzset, if_neg hnil, if_neg hkeysnil, hunion]

/-- The union of the keys, as the index asks for it. -/
theorem evaluatesTo_unionKeysInChunks (index : RetainedJobIndex) (hs : Scratches i s₀ s)
    {keys : List SortedSetKey} (hfuel : keys.length < index.fuel)
    (hkeys : ∀ k ∈ keys, Established i s k) :
    ∃ k drawn s', Scoped.EvaluatesTo (exec scan i)
        (index.unionKeysInChunks working keys heartbeat) s k drawn s' ∧
      Scratches i s s' ∧ (∀ r ∈ drawn, DrawnBetween i s s' r) ∧ (∀ k' ∈ k, Established i s' k') ∧
      k.map s'.zset = if keys = [] then none else some (unionStore (keys.eraseDups.map s.zset)) := by
  have hnil : keys.eraseDups = [] ↔ keys = [] := by
    cases keys with
    | nil => simp
    | cons k keys => simp [List.eraseDups_cons]
  rw [unionKeysInChunks_eq]
  simp only [← hnil]
  refine evaluatesTo_iterate_unionRound working hs₀ hbeats hs ?_ fun k hk => hkeys k (List.mem_eraseDups.mp hk)
  exact (List.length_eraseDups_le keys).trans_lt hfuel

end Union

/-! ## The partition of a catalog -/

/-- The facets of the values a catalog lists split the projection. -/
def CatalogPartitions (s : Store) (t : RetainedJobType) (g : Generation) (d : FacetDimension) : Prop :=
  Partitions (fun value => (s.zset (.facet t g d value)).toSet)
    {value | value ∈ s.catalog ⟨t, g, d⟩} (s.zset (.projection t g)).toSet

/-- What is asked of the catalogs and the facets of an index: where jobs are projected the catalogs
every type must have list something, every required dimension is single-valued and its facets split
the projection, and a required facet has members just where its catalog lists its value. -/
structure StructureConsistent (s : Store) (t : RetainedJobType) (g : Generation)
    (requiredFacets : List (FacetDimension × String))
    (requiredCatalogPartitions : List FacetDimension) : Prop where
  catalogs : (s.zset (.projection t g)).toSet.Nonempty →
    ∀ d ∈ requiredCatalogDimensions t, s.catalog ⟨t, g, d⟩ ≠ []
  partitions : ∀ d ∈ requiredCatalogPartitions, d.isSingleValued = true ∧ CatalogPartitions s t g d
  facets : ∀ f ∈ requiredFacets,
    ((s.zset (.facet t g f.1 f.2)).toSet.Nonempty ↔ f.2 ∈ s.catalog ⟨t, g, f.1⟩)

/-- What is asked of an index: the projection and the unresolved references split the source
snapshot, and the catalogs and facets are in order. -/
structure IndexConsistent (s : Store) (t : RetainedJobType) (g : Generation)
    (requiredFacets : List (FacetDimension × String))
    (requiredCatalogPartitions : List FacetDimension) (source : SourceSnapshot) : Prop
    extends StructureConsistent s t g requiredFacets requiredCatalogPartitions where
  disjoint : Disjoint (s.zset (.projection t g)).toSet (s.zset (.unresolved t g)).toSet
  union : (s.zset (.projection t g)).toSet ∪ (s.zset (.unresolved t g)).toSet =
    (s.zset (.temporary source.key)).toSet

section Checks

variable (hs₀ : s₀.failing = false) (hbeats : Beats scan i s₀ heartbeat)
include hs₀ hbeats

variable (working) in
/-- The two differences of the check, and the clean-up of the keys drawn for it. -/
theorem eval_differences (hs : Scratches i s₀ s) {g : Generation}
    (hg : generationOf s₀ working t = g) {unionKey : SortedSetKey}
    (hunion : Established i s unionKey) :
    ∃ b drawn s', Scoped.EvaluatesTo (exec scan i) (do
        let outsideProjectionKey ← Scoped.lift temporaryKey
        let missingFromCatalogKey ← Scoped.lift temporaryKey
        Scoped.register outsideProjectionKey
        Scoped.register missingFromCatalogKey
        Scoped.lift do
          heartbeat
          let projection ← projectionKey working t
          let outsideProjectionCount ←
            difference working outsideProjectionKey [unionKey, projection]
          heartbeat
          let projection ← projectionKey working t
          let missingFromCatalogCount ←
            difference working missingFromCatalogKey [projection, unionKey]
          return outsideProjectionCount = 0 && missingFromCatalogCount = 0) s b drawn s' ∧
      (b = true ↔ ∀ id, id ∈ s.zset unionKey ↔ id ∈ s₀.zset (.projection t g)) ∧
      Scratches i s₀ s' ∧ s.serial i ≤ s'.serial i ∧ ∀ k ∈ drawn, DrawnBetween i s₀ s' k := by
  have hf : s.failing = false := hs.failing.trans hs₀
  -- Two keys are drawn, then two differences are stored under them.
  set s₁ := Command.effect i s .random with hs₁
  set s₂ := Command.effect i s₁ .random with hs₂
  have hscratches : Scratches i s₀ s₂ := (hs.trans (.random s)).trans (.random s₁)
  have houtside : DrawnBetween i s₀ s₂ ⟨i, s.serial i⟩ :=
    ((drawnBetween_random s).mono (Scratches.random s₁).serial).of_later hs
  have hmissing : DrawnBetween i s₀ s₂ ⟨i, s₁.serial i⟩ :=
    (drawnBetween_random s₁).of_later (hs.trans (.random s))
  set s₃ := s₂.setZset (.temporary ⟨i, s.serial i⟩)
    (diffStore ([unionKey, .projection t g].map s₂.zset)) with hs₃
  have hscratches₃ : Scratches i s₀ s₃ := hscratches.setZset houtside _
  set s₄ := s₃.setZset (.temporary ⟨i, s₁.serial i⟩)
    (diffStore ([.projection t g, unionKey].map s₃.zset)) with hs₄
  have hscratches₄ : Scratches i s₀ s₄ := hscratches₃.setZset hmissing _
  have hprojection : Established i s₀ (.projection t g) := established_of_not_temporary (by simp) s₀
  have hunion₃ : s₃.zset unionKey = s.zset unionKey := by
    rw [hs₃, Store.setZset_zset, if_neg (hunion _ le_rfl)]
    rfl
  have hkey : ∀ s', Scratches i s₀ s' → (projectionKey working t).eval (exec scan i) s' =
      (.returned (.projection t g), s') := fun s' hs' => by
    rw [eval_projectionKey working (hs'.failing.trans hs₀), hs'.generationOf, hg]
  refine ⟨decide ((diffStore ([unionKey, .projection t g].map s₂.zset)).card = 0) &&
      decide ((diffStore ([.projection t g, unionKey].map s₃.zset)).card = 0), _, s₄,
    .bind (.lift (eval_temporaryKey hf)) (.bind (.lift (eval_temporaryKey (s := s₁) hf))
      (.bind (.register _ _) (.bind (.register _ _) (.lift ?_)))), ?_, hscratches₄, ?_, ?_⟩
  · rw [Prog.eval_bind_of (hbeats s₂ hscratches), Prog.eval_bind_of (hkey s₂ hscratches),
      Prog.eval_bind_of (eval_difference working (hscratches.failing.trans hs₀) _ _),
      Prog.eval_bind_of (hbeats s₃ hscratches₃), Prog.eval_bind_of (hkey s₃ hscratches₃),
      Prog.eval_bind_of (eval_difference working (hscratches₃.failing.trans hs₀) _ _)]
    rfl
  · have hp₂ := hscratches.zset _ hprojection
    have hp₃ := hscratches₃.zset _ hprojection
    have hu₂ : s₂.zset unionKey = s.zset unionKey := rfl
    simp only [List.map_cons, List.map_nil, hp₂, hp₃, hu₂, hunion₃, Bool.and_eq_true,
      decide_eq_true_eq, SortedSet.card_eq_zero_iff, mem_diffStore, List.mem_singleton, forall_eq,
      not_and, not_not]
    exact ⟨fun h id => ⟨h.1 id, h.2 id⟩, fun h => ⟨fun id => (h id).mp, fun id => (h id).mpr⟩⟩
  · exact (Scratches.random s).serial.trans (Scratches.random s₁).serial
  · intro k hk
    simp only [List.nil_append, List.append_nil, List.cons_append, List.mem_cons, List.not_mem_nil,
      or_false] at hk
    rcases hk with rfl | rfl
    · exact houtside
    · exact hmissing

/-- **The memberships** are counted chunk by chunk. -/
theorem eval_countMemberships (hs : Scratches i s₀ s) {g : Generation}
    (hg : generationOf s₀ working t = g) (chunks : List (List String)) (membershipCount : ℕ)
    (keys : List SortedSetKey) :
    (countMemberships working t d heartbeat chunks membershipCount keys).eval (exec scan i) s =
      (.returned (if 0 ∈ chunks.flatten.map (fun value => (s₀.zset (.facet t g d value)).card)
        then none
        else some (membershipCount +
            (chunks.flatten.map fun value => (s₀.zset (.facet t g d value)).card).sum,
          keys ++ chunks.flatten.map (.facet t g d))), s) := by
  have hf : s.failing = false := hs.failing.trans hs₀
  have hcollect : ∀ chunk : List String, (Prog.collect chunk (facetKey working t d)).eval
      (exec scan i) s = (.returned (chunk.map (.facet t g d)), s) := fun chunk =>
    Prog.eval_collect fun value _ => by
      rw [eval_facetKey working hf, hs.generationOf, hg]
  have hcounts : ∀ chunk : List String,
      (pipeline working (chunk.map (SortedSetKey.facet t g d)) sortedSetCount).eval
        (exec scan i) s =
          (.returned (chunk.map fun value => (s₀.zset (.facet t g d value)).card), s) := by
    intro chunk
    rw [eval_pipeline working hf fun k _ => eval_sortedSetCount hf, List.map_map, Prod.mk.injEq,
      Outcome.returned.injEq]
    refine ⟨List.map_congr_left fun value _ => ?_, rfl⟩
    have hkey : Established i s₀ (.facet t g d value) :=
      established_of_not_temporary (by simp) s₀
    rw [Function.comp_apply, hs.zset _ hkey]
  induction chunks generalizing membershipCount keys with
  | nil => simp [countMemberships]
  | cons chunk chunks ih =>
      rw [countMemberships, Prog.eval_bind_of (hbeats s hs), Prog.eval_bind_of (hcollect chunk),
        Prog.eval_bind_of (hcounts chunk), List.flatten_cons, List.map_append, List.map_append]
      by_cases hzero : 0 ∈ chunk.map fun value => (s₀.zset (.facet t g d value)).card
      · rw [if_pos hzero, if_pos (List.mem_append_left _ hzero)]
        rfl
      · rw [if_neg hzero, Prog.eval_bind_of (hcollect chunk), ih]
        simp only [List.mem_append, hzero, false_or, List.sum_append, Nat.add_assoc,
          List.append_assoc]

/-- **The partition check** of a dimension is exact. -/
theorem eval_catalogPartitionIsExact (index : RetainedJobIndex) (hs : Scratches i s₀ s)
    {g : Generation} (hg : generationOf s₀ working t = g) {projectionCount : ℕ}
    (hcount : projectionCount = (s₀.zset (.projection t g)).card)
    (hset : (s₀.catalog ⟨t, g, d⟩).Nodup) (hfuel : (s₀.catalog ⟨t, g, d⟩).length < index.fuel) :
    ∃ b s', (index.catalogPartitionIsExact working t d projectionCount heartbeat).eval
        (exec scan i) s = (.returned b, s') ∧
      (b = true ↔ CatalogPartitions s₀ t g d) ∧ Scratches i s₀ s' := by
  have hf : s.failing = false := hs.failing.trans hs₀
  have hpartitions := SortedSet.partitions_iff (z := s₀.zset (.projection t g))
    (f := fun value => s₀.zset (.facet t g d value)) hset
  have hkey : (catalogKey working t d).eval (exec scan i) s = (.returned ⟨t, g, d⟩, s) := by
    rw [eval_catalogKey working hf, hs.generationOf, hg]
  have hvalues : (command (.smembers ⟨t, g, d⟩) : Redis (List String)).eval (exec scan i) s =
      (.returned (s₀.catalog ⟨t, g, d⟩), s) := by
    rw [eval_smembers hf, hs.catalog]
  rw [catalogPartitionIsExact, Prog.eval_bind_of (hbeats s hs), Prog.eval_bind_of hkey]
  erw [Prog.eval_bind_of hvalues]
  rw [CatalogPartitions, ← hpartitions]
  generalize s₀.catalog ⟨t, g, d⟩ = values at *
  -- an empty catalog is exact where the projection is empty
  by_cases hempty : values = []
  · subst hempty
    rw [if_pos rfl]
    refine ⟨_, _, rfl, ?_, hs⟩
    simp only [hcount, decide_eq_true_eq, SortedSet.card_eq_zero_iff, List.not_mem_nil,
      IsEmpty.forall_iff, implies_true, false_and, exists_const, List.map_nil, List.sum_nil, true_and]
    exact ⟨fun h => ⟨h, (SortedSet.card_eq_zero_iff.mpr h).symm⟩, fun h => h.1⟩
  have hmemberships := eval_countMemberships (d := d) hs₀ hbeats hs hg
    (values.arrayChunk catalogScanChunkSize) 0 []
  rw [List.flatten_arrayChunk, Nat.zero_add, List.nil_append] at hmemberships
  rw [if_neg hempty, Prog.eval_bind_of hmemberships]
  -- a catalog value without members, or sizes that do not add up
  by_cases hzero : 0 ∈ values.map fun value => (s₀.zset (.facet t g d value)).card
  · rw [if_pos hzero]
    refine ⟨false, s, rfl, ?_, hs⟩
    obtain ⟨value, hvalue, hcard⟩ := List.mem_map.mp hzero
    exact iff_of_false Bool.false_ne_true fun h => h.1 value hvalue hcard
  rw [if_neg hzero]
  simp only
  by_cases hsum : (values.map fun value => (s₀.zset (.facet t g d value)).card).sum = projectionCount
  swap
  · rw [if_pos hsum]
    exact ⟨false, s, rfl, iff_of_false Bool.false_ne_true fun h => hsum (h.2.2.trans hcount.symm), hs⟩
  rw [if_neg (not_not.mpr hsum)]
  have hfacets : ∀ k ∈ values.map (SortedSetKey.facet t g d), Established i s₀ k := by
    intro k hk
    obtain ⟨value, -, rfl⟩ := List.mem_map.mp hk
    exact established_of_not_temporary (by simp) s₀
  have hlength : (values.map (SortedSetKey.facet t g d)).length < index.fuel := by
    rwa [List.length_map]
  -- the facets are united in chunks, and the projection is compared with the union
  obtain ⟨u, drawn, s₁, hunion, hs₁, hdrawn, hu, hzset⟩ := evaluatesTo_unionKeysInChunks working
    hs₀ hbeats index hs hlength fun k hk => (hfacets k hk).mono hs
  rw [if_neg (by simpa using hempty)] at hzset
  obtain ⟨unionKey, rfl, hunited⟩ := Option.map_eq_some_iff.mp hzset
  have hs₁ := hs.trans hs₁
  have hdrawn : ∀ k ∈ drawn, DrawnBetween i s₀ s₁ k := fun k hk => (hdrawn k hk).of_later hs
  obtain ⟨b, drawn', s₂, hdifferences, hb, hs₂, hle, hdrawn'⟩ := eval_differences working
    hs₀ hbeats hs₁ hg (hu unionKey rfl)
  have hkeys : ∀ k ∈ drawn ++ drawn', DrawnBetween i s₀ s₂ k := fun k hk =>
    (List.mem_append.mp hk).elim (fun hk => (hdrawn k hk).mono hle) (hdrawn' k)
  obtain ⟨s₃, hdelete, hs₃⟩ := eval_forEach_deleteQuietly scan hs₀ hs₂ hkeys
  refine ⟨b, s₃, Scoped.EvaluatesTo.scope (.bind hunion hdifferences) hdelete, ?_, hs₃⟩
  have hmem : ∀ id, id ∈ s₁.zset unionKey ↔ ∃ value ∈ values, id ∈ s₀.zset (.facet t g d value) := by
    intro id
    rw [hunited, mem_unionStore]
    simp only [List.mem_map, List.mem_eraseDups, exists_exists_and_eq_and]
    refine exists_congr fun value => and_congr_right fun hvalue => ?_
    rw [hs.zset _ (hfacets _ (List.mem_map_of_mem hvalue))]
  -- where the sizes add up, a covering family of facets is a partition
  rw [hb]
  simp only [hmem]
  constructor
  · intro h
    refine ⟨fun value hvalue hcard => hzero (List.mem_map.mpr ⟨value, hvalue, hcard⟩),
      fun id hid => (h id).mpr hid, hsum.trans hcount⟩
  · intro h id
    have hunion := Set.ext_iff.mp (hpartitions.mp h).union id
    simpa only [Set.mem_iUnion, Set.mem_ofPred_eq, SortedSet.mem_toSet, exists_prop] using hunion

/-- The search for a required catalog that is empty. -/
theorem eval_emptyCatalog (hs : Scratches i s₀ s) {g : Generation}
    (hg : generationOf s₀ working t = g) (ds : List FacetDimension) :
    ∃ r s', (Prog.firstSome ds fun d => do
        heartbeat
        return if (← setCount (← catalogKey working t d)) = 0 then some () else none).eval
          (exec scan i) s = (.returned r, s') ∧
      (r = none ↔ ∀ d ∈ ds, s₀.catalog ⟨t, g, d⟩ ≠ []) ∧ Scratches i s₀ s' := by
  refine Prog.eval_firstSome_of (fun d _ s hs => ?_) hs
  have hf : s.failing = false := hs.failing.trans hs₀
  have hcount : (setCount ⟨t, g, d⟩).eval (exec scan i) s =
      (.returned (s₀.catalog ⟨t, g, d⟩).length, s) := by
    rw [← hs.catalog]
    exact eval_command hf (.scard _)
  refine ⟨if (s₀.catalog ⟨t, g, d⟩).length = 0 then some () else none, s, ?_, ?_, hs⟩
  · rw [Prog.eval_bind_of (hbeats s hs), Prog.eval_bind_of (eval_catalogKey working hf t d),
      hs.generationOf, hg, Prog.eval_bind_of hcount]
    rfl
  · rw [← List.length_eq_zero_iff.ne]
    by_cases hlength : (s₀.catalog ⟨t, g, d⟩).length = 0 <;> simp [hlength]

/-- The search for a required partition that is not exact. -/
theorem eval_inexactPartition (index : RetainedJobIndex) (hs : Scratches i s₀ s) {g : Generation}
    (hg : generationOf s₀ working t = g) {projectionCount : ℕ}
    (hcount : projectionCount = (s₀.zset (.projection t g)).card)
    (hsets : ∀ d, (s₀.catalog ⟨t, g, d⟩).Nodup)
    (hfuel : ∀ d, (s₀.catalog ⟨t, g, d⟩).length < index.fuel) (ds : List FacetDimension) :
    ∃ r s', (Prog.firstSome ds fun d => do
        heartbeat
        if !d.isSingleValued then return some ()
        let exact ← index.catalogPartitionIsExact working t d projectionCount heartbeat
        return if exact then none else some ()).eval (exec scan i) s = (.returned r, s') ∧
      (r = none ↔ ∀ d ∈ ds, d.isSingleValued = true ∧ CatalogPartitions s₀ t g d) ∧
      Scratches i s₀ s' := by
  refine Prog.eval_firstSome_of (fun d _ s hs => ?_) hs
  rw [Prog.eval_bind_of (hbeats s hs)]
  cases hsingle : d.isSingleValued with
  | false =>
      refine ⟨some (), s, rfl, ?_, hs⟩
      simp
  | true =>
      obtain ⟨b, s', heval, hb, hs'⟩ := eval_catalogPartitionIsExact hs₀ hbeats index hs hg hcount
        (hsets d) (hfuel d)
      refine ⟨if b then none else some (), s', ?_, ?_, hs'⟩
      · rw [if_neg (by simp), Prog.eval_bind_of heval]
        rfl
      · rw [and_iff_right rfl, ← hb]
        cases b <;> simp

/-- The search for a required facet at odds with its catalog. -/
theorem eval_wrongFacet (hs : Scratches i s₀ s) {g : Generation}
    (hg : generationOf s₀ working t = g) (facets : List (FacetDimension × String)) :
    ∃ r s', (Prog.firstSome facets fun f => do
        heartbeat
        let facetCount ← sortedSetCount (← facetKey working t f.1 f.2)
        let catalogHasMember ← setContains (← catalogKey working t f.1) f.2
        return if decide (0 < facetCount) ≠ catalogHasMember then some () else none).eval
          (exec scan i) s = (.returned r, s') ∧
      (r = none ↔ ∀ f ∈ facets,
        ((s₀.zset (.facet t g f.1 f.2)).toSet.Nonempty ↔ f.2 ∈ s₀.catalog ⟨t, g, f.1⟩)) ∧
      Scratches i s₀ s' := by
  refine Prog.eval_firstSome_of (fun f _ s hs => ?_) hs
  have hf : s.failing = false := hs.failing.trans hs₀
  have hfacet := hs.zset (.facet t g f.1 f.2) (established_of_not_temporary (by simp) s₀)
  have hmember : (setContains ⟨t, g, f.1⟩ f.2).eval (exec scan i) s =
      (.returned (decide (f.2 ∈ s₀.catalog ⟨t, g, f.1⟩)), s) := by
    rw [← hs.catalog]
    exact eval_command hf (.sismember _ _)
  refine ⟨if decide (0 < (s₀.zset (.facet t g f.1 f.2)).card) ≠
    decide (f.2 ∈ s₀.catalog ⟨t, g, f.1⟩) then some () else none, s, ?_, ?_, hs⟩
  · rw [Prog.eval_bind_of (hbeats s hs), Prog.eval_bind_of (eval_facetKey working hf t f.1 f.2),
      hs.generationOf, hg, Prog.eval_bind_of (eval_sortedSetCount hf), hfacet,
      Prog.eval_bind_of (eval_catalogKey working hf t f.1), hs.generationOf, hg,
      Prog.eval_bind_of hmember]
    rfl
  · rw [SortedSet.toSet_nonempty, ← Nat.pos_iff_ne_zero]
    by_cases hcard : 0 < (s₀.zset (.facet t g f.1 f.2)).card <;>
      by_cases hin : f.2 ∈ s₀.catalog ⟨t, g, f.1⟩ <;> simp [hcard, hin]

/-- **The structure check**, whatever the index holds. -/
theorem eval_indexStructureIsConsistent (index : RetainedJobIndex) (hs : Scratches i s₀ s)
    {g : Generation} (hg : generationOf s₀ working t = g)
    (hsets : ∀ d, (s₀.catalog ⟨t, g, d⟩).Nodup)
    (hfuel : ∀ d, (s₀.catalog ⟨t, g, d⟩).length < index.fuel)
    (requiredFacets : List (FacetDimension × String)) (requiredCatalogPartitions : List FacetDimension) :
    ∃ b s', (index.indexStructureIsConsistent working t requiredFacets requiredCatalogPartitions
        heartbeat).eval (exec scan i) s = (.returned b, s') ∧
      (b = true ↔ StructureConsistent s₀ t g requiredFacets requiredCatalogPartitions) := by
  have hf : s.failing = false := hs.failing.trans hs₀
  have hprojection := hs.zset (.projection t g) (established_of_not_temporary (by simp) s₀)
  rw [indexStructureIsConsistent, Prog.eval_bind_of (hbeats s hs),
    Prog.eval_bind_of (eval_projectionKey working hf t), hs.generationOf, hg,
    Prog.eval_bind_of (eval_sortedSetCount hf), hprojection]
  generalize hcount : (s₀.zset (.projection t g)).card = projectionCount
  -- first the required catalogs, none of which may be empty
  have hcatalogs : ∃ r s', (if 0 < projectionCount then
      Prog.firstSome (requiredCatalogDimensions t) fun d => do
        heartbeat
        return if (← setCount (← catalogKey working t d)) = 0 then some () else none
      else return none).eval (exec scan i) s = (.returned r, s') ∧
      (r = none ↔ ((s₀.zset (.projection t g)).toSet.Nonempty →
        ∀ d ∈ requiredCatalogDimensions t, s₀.catalog ⟨t, g, d⟩ ≠ [])) ∧ Scratches i s₀ s' := by
    rw [SortedSet.toSet_nonempty, hcount, ← Nat.pos_iff_ne_zero]
    split
    · rename_i hpos
      rw [forall_prop_of_true hpos]
      exact eval_emptyCatalog hs₀ hbeats hs hg _
    · rename_i hzero
      exact ⟨none, s, rfl, by simp [hzero], hs⟩
  obtain ⟨r, s₁, hempty, hr, hs₁⟩ := hcatalogs
  rw [Prog.eval_bind_of hempty]
  cases r with
  | some _ =>
      refine ⟨false, s₁, rfl, iff_of_false Bool.false_ne_true fun h => ?_⟩
      exact nomatch hr.mpr h.catalogs
  | none =>
      -- then the partitions
      obtain ⟨r, s₂, hinexact, hr', hs₂⟩ := eval_inexactPartition hs₀ hbeats index hs₁ hg hcount.symm
        hsets hfuel requiredCatalogPartitions.eraseDups
      simp only [List.mem_eraseDups] at hr'
      rw [if_neg (by simp), Prog.eval_bind_of hinexact]
      cases r with
      | some _ =>
          refine ⟨false, s₂, rfl, iff_of_false Bool.false_ne_true fun h => ?_⟩
          exact nomatch hr'.mpr h.partitions
      | none =>
          -- and last the facets
          obtain ⟨r, s₃, hwrong, hr'', -⟩ := eval_wrongFacet hs₀ hbeats hs₂ hg requiredFacets
          rw [if_neg (by simp), Prog.eval_bind_of hwrong]
          refine ⟨r.isNone, s₃, rfl, ?_⟩
          rw [Option.isNone_iff_eq_none, hr'']
          exact ⟨fun h => ⟨hr.mp rfl, hr'.mp rfl, h⟩, fun h => h.facets⟩

/-- **The check of an index**, whatever the index and the snapshot hold. -/
theorem eval_indexIsConsistent (index : RetainedJobIndex) {g : Generation}
    (hg : generationOf s₀ working t = g) (hsets : ∀ d, (s₀.catalog ⟨t, g, d⟩).Nodup)
    (hfuel : ∀ d, (s₀.catalog ⟨t, g, d⟩).length < index.fuel)
    (requiredFacets : List (FacetDimension × String)) (requiredCatalogPartitions : List FacetDimension)
    {source : SourceSnapshot} (hsource : Established i s₀ (.temporary source.key)) :
    ∃ b s', (index.indexIsConsistent working t requiredFacets requiredCatalogPartitions source
        heartbeat).eval (exec scan i) s₀ = (.returned b, s') ∧
      (b = true ↔ IndexConsistent s₀ t g requiredFacets requiredCatalogPartitions source) := by
  have hprojection : Established i s₀ (.projection t g) := established_of_not_temporary (by simp) s₀
  have hunresolved : Established i s₀ (.unresolved t g) := established_of_not_temporary (by simp) s₀
  have hcovers := SortedSet.disjoint_union_iff (z := s₀.zset (.temporary source.key))
    (x := s₀.zset (.projection t g)) (y := s₀.zset (.unresolved t g))
  -- The gap is stored under a key of its own, which is deleted again.
  set s₁ := Command.effect i s₀ .random with hs₁
  have hscratches₁ : Scratches i s₀ s₁ := .random s₀
  have hdrawn : DrawnBetween i s₀ s₁ ⟨i, s₀.serial i⟩ := drawnBetween_random s₀
  set gap := diffStore [s₀.zset (.temporary source.key), s₀.zset (.projection t g),
    s₀.zset (.unresolved t g)] with hgap
  set s₂ := s₁.setZset (.temporary ⟨i, s₀.serial i⟩) gap with hs₂
  have hscratches₂ : Scratches i s₀ s₂ := hscratches₁.setZset hdrawn gap
  set s₃ := s₂.setZset (.temporary ⟨i, s₀.serial i⟩) ∅ with hs₃
  have hscratches₃ : Scratches i s₀ s₃ := hscratches₂.setZset hdrawn ∅
  have hf₃ : s₃.failing = false := hscratches₃.failing.trans hs₀
  have hcoverage : (Prog.tryFinally
      (do
        let projection ← projectionKey working t
        let unresolved ← unresolvedKey working t
        let gap ← difference working ⟨i, s₀.serial i⟩
          [.temporary source.key, projection, unresolved]
        return decide (gap = 0))
      (deleteQuietly ⟨i, s₀.serial i⟩)).eval (exec scan i) s₁ =
        (.returned (decide (gap.card = 0)), s₃) := by
    refine Prog.eval_tryFinally_of ?_ (eval_deleteQuietly (show s₂.failing = false from hs₀) _)
    rw [Prog.eval_bind_of (eval_projectionKey working (s := s₁) hs₀ t), hscratches₁.generationOf, hg,
      Prog.eval_bind_of (eval_unresolvedKey working (s := s₁) hs₀ t), hscratches₁.generationOf, hg,
      Prog.eval_bind_of (eval_difference working (s := s₁) hs₀ _ _)]
    rfl
  have hcount : ∀ k, Established i s₀ k → (sortedSetCount k).eval (exec scan i) s₃ =
      (.returned (s₀.zset k).card, s₃) := fun k hk => by
    rw [eval_sortedSetCount hf₃, hscratches₃.zset k hk]
  rw [indexIsConsistent, Prog.eval_bind_of (hbeats s₀ (.refl s₀)),
    Prog.eval_bind_of (eval_temporaryKey hs₀), Prog.eval_bind_of hcoverage]
  have hgapless : gap.card = 0 ↔ ∀ id ∈ s₀.zset (.temporary source.key),
      id ∈ s₀.zset (.projection t g) ∨ id ∈ s₀.zset (.unresolved t g) := by
    simp only [hgap, SortedSet.card_eq_zero_iff, mem_diffStore, List.mem_cons, List.not_mem_nil,
      or_false, forall_eq_or_imp, forall_eq]
    exact forall_congr' fun id => by tauto
  by_cases hcard : gap.card = 0
  swap
  · refine ⟨false, s₃, by rw [if_pos (by simpa using hcard)]; rfl,
      iff_of_false Bool.false_ne_true fun h => ?_⟩
    exact hcard (hgapless.mpr (hcovers.mpr ⟨h.disjoint, h.union⟩).1)
  rw [if_neg (by simpa using hcard), Prog.eval_bind_of (eval_projectionKey working hf₃ t),
    hscratches₃.generationOf, hg, Prog.eval_bind_of (hcount _ hprojection),
    Prog.eval_bind_of (eval_unresolvedKey working hf₃ t), hscratches₃.generationOf, hg,
    Prog.eval_bind_of (hcount _ hunresolved), Prog.eval_bind_of (hcount _ hsource)]
  by_cases hsum : (s₀.zset (.projection t g)).card + (s₀.zset (.unresolved t g)).card =
      (s₀.zset (.temporary source.key)).card
  swap
  · refine ⟨false, s₃, by rw [if_pos hsum]; rfl, iff_of_false Bool.false_ne_true fun h => ?_⟩
    exact hsum (hcovers.mpr ⟨h.disjoint, h.union⟩).2
  obtain ⟨b, s', heval, hb⟩ := eval_indexStructureIsConsistent hs₀ hbeats index hscratches₃ hg hsets
    hfuel requiredFacets requiredCatalogPartitions
  rw [if_neg (not_not.mpr hsum)]
  refine ⟨b, s', heval, hb.trans ?_⟩
  obtain ⟨hdisjoint, hunion⟩ := hcovers.mp ⟨hgapless.mp hcard, hsum⟩
  exact ⟨fun h => ⟨h, hdisjoint, hunion⟩, fun h => h.toStructureConsistent⟩

end Checks

/-- **The consistency check is exact.** Whatever an index and a source snapshot hold that do not change
meanwhile, and with heartbeats that do not change what they come to: if the check succeeds, the
projection and the unresolved references split the source snapshot and the facets of every required
dimension, which is single-valued, split the projection. Where the heartbeats return, the check returns
and succeeds whenever this holds, every required facet agrees with its catalog, and the catalogs every
type must have are not empty while the projection is not. The union in chunks ends, whatever the number
of keys, and is the union of all of them. -/
theorem indexIsConsistent_exact (scan : ScanOrder) (i : ProcessId) (index : RetainedJobIndex)
    (working : Working) (t : RetainedJobType) (requiredFacets : List (FacetDimension × String))
    (requiredCatalogPartitions : List FacetDimension) (source : SourceSnapshot)
    (heartbeat : Redis Unit) (s : Store) (hs : s.failing = false)
    (hsource : Established i s (.temporary source.key)) (beat : Outcome Failure Unit)
    (hbeats : ∀ s', Scratches i s s' → heartbeat.eval (exec scan i) s' = (beat, s'))
    (hsets : ∀ d, (s.catalog ⟨t, generationOf s working t, d⟩).Nodup)
    (hfuel : ∀ d, (s.catalog ⟨t, generationOf s working t, d⟩).length < index.fuel) :
    (∀ s', (index.indexIsConsistent working t requiredFacets requiredCatalogPartitions source
        heartbeat).eval (exec scan i) s = (.returned true, s') →
      IndexConsistent s t (generationOf s working t) requiredFacets requiredCatalogPartitions
        source) ∧
    (beat = .returned () →
      (∃ b s', (index.indexIsConsistent working t requiredFacets requiredCatalogPartitions source
          heartbeat).eval (exec scan i) s = (.returned b, s') ∧
        (b = true ↔ IndexConsistent s t (generationOf s working t) requiredFacets
          requiredCatalogPartitions source)) ∧
      ∀ keys : List SortedSetKey, (∀ k ∈ keys, Established i s k) → keys.length < index.fuel →
        ∃ k drawn s', Scoped.EvaluatesTo (exec scan i)
            (index.unionKeysInChunks working keys heartbeat) s k drawn s' ∧
          k.map s'.zset =
            if keys = [] then none else some (unionStore (keys.eraseDups.map s.zset))) := by
  have hexact : beat = .returned () → ∃ b s', (index.indexIsConsistent working t requiredFacets
      requiredCatalogPartitions source heartbeat).eval (exec scan i) s = (.returned b, s') ∧
        (b = true ↔ IndexConsistent s t (generationOf s working t) requiredFacets
          requiredCatalogPartitions source) := by
    rintro rfl
    exact eval_indexIsConsistent hs hbeats index rfl hsets hfuel requiredFacets
      requiredCatalogPartitions hsource
  refine ⟨fun s' hcheck => ?_, fun hbeat => ⟨hexact hbeat, fun keys hkeys hlength => ?_⟩⟩
  · -- The check begins with a heartbeat, which has returned.
    obtain ⟨_, s'', hbeat, -⟩ := Prog.eval_of_bind_returned hcheck
    rw [hbeats s (.refl s), Prod.mk.injEq] at hbeat
    obtain ⟨b, s', heval, hb⟩ := hexact hbeat.1
    rw [heval, Prod.mk.injEq, Outcome.returned.injEq] at hcheck
    exact hb.mp hcheck.1
  · subst hbeat
    obtain ⟨k, drawn, s', heval, -, -, -, hunion⟩ :=
      evaluatesTo_unionKeysInChunks working hs hbeats index (.refl s) hlength hkeys
    exact ⟨k, drawn, s', heval, hunion⟩

/-- Renewing a source snapshot is such a heartbeat. -/
theorem steady_renewSourceSnapshot {source : SourceSnapshot} (hs₀ : s₀.failing = false)
    (hsource : Established i s₀ (.temporary source.key)) :
    ∀ s, Scratches i s₀ s → (renewSourceSnapshot source).eval (exec scan i) s =
      (if 0 < (s₀.zset (.temporary source.key)).card ∨ source.count = 0 then .returned ()
        else .thrown (.runtime "The retained job synchronization source snapshot expired."), s) := by
  intro s hs
  rw [eval_renewSourceSnapshot (hs.failing.trans hs₀), hs.zset _ hsource]
  split <;> rfl

/-- A snapshot of two jobs, one of which is projected. -/
def twoJobsSnapshot : SourceSnapshot := ⟨⟨1, 0⟩, 2⟩

/-- An index that covers the snapshot. -/
def coveredStore : Store :=
  ((((((Store.empty.setZset (.temporary twoJobsSnapshot.key)
      ((∅ : ZSet).insertAll [("a", 1), ("b", 2)])).setZset (.projection .completed .legacy)
      ((∅ : ZSet).insertAll [("a", 1)])).setZset (.unresolved .completed .legacy)
      ((∅ : ZSet).insertAll [("b", 2)])).setZset (.facet .completed .legacy .job "Report")
      ((∅ : ZSet).insertAll [("a", 1)])).setCatalog ⟨.completed, .legacy, .job⟩ ["Report"]).setCatalog
      ⟨.completed, .legacy, .queue⟩ ["default"]).setCatalog ⟨.completed, .legacy, .connection⟩ ["redis"]

/-- An index that covers its facets and catalogs. -/
theorem indexIsConsistent_exact_covered :
    IndexConsistent coveredStore .completed .legacy [(.job, "Report")] [.job] twoJobsSnapshot :=
  (indexIsConsistent_exact .single 0 ⟨1, 2⟩ none .completed [(.job, "Report")] [.job] twoJobsSnapshot
    (renewSourceSnapshot twoJobsSnapshot) coveredStore rfl (fun _ _ h => nomatch h) _
    (steady_renewSourceSnapshot rfl fun _ _ h => nomatch h) (fun d => by cases d <;> decide)
    (fun d => by cases d <;> decide)).1 _ (Prod.ext (by decide +kernel) rfl)

end RetainedJobIndex

end HorizonNewDawn

import HorizonNewDawn.Jobs.RetainedJobIndex.Synchronization

/-! # What a slot of the index says

A slot is exact for the metadata `jobs` when its facets and catalogs agree with its projection
(`Exact`). Storing a job keeps a slot exact, since it is one transaction. A removal is not: between
its steps the slot is only `Loose`, with the stray members and the empty catalog values that are
still to be cleaned up. A removal that is aborted leaves them behind (`Frayed`): they are the residue
of the slot, which is exact without it (`Frayed.exact_iff`). -/

namespace HorizonNewDawn

namespace RetainedJobIndex

/-- The facets of a slot hold exactly the projected jobs with that value, and a catalog holds
exactly the values whose facet is not empty. -/
structure Exact (jobs : String → RetainedJobMetadata) (t : RetainedJobType) (g : Generation)
    (s : Store) : Prop where
  facets : ∀ d value id, id ∈ s.zset (.facet t g d value) ↔
    id ∈ s.zset (.projection t g) ∧ value ∈ facetValues t (jobs id) d
  catalogs : ∀ d value, value ∈ s.catalog ⟨t, g, d⟩ ↔ ∃ id, id ∈ s.zset (.facet t g d value)

/-- A slot without projected jobs, facets and catalogs. -/
structure Vacant (t : RetainedJobType) (g : Generation) (s : Store) : Prop where
  projection : ∀ id, id ∉ s.zset (.projection t g)
  facets : ∀ d value id, id ∉ s.zset (.facet t g d value)
  catalogs : ∀ d value, value ∉ s.catalog ⟨t, g, d⟩

/-- A slot that a clean-up has not been through: the facets may hold the `stray` members of a dimension
that are not projected, the catalogs may hold `idle` values whose facet is empty. -/
structure Loose (jobs : String → RetainedJobMetadata) (t : RetainedJobType) (g : Generation)
    (stray : FacetDimension → String → Prop) (idle : FacetDimension → String → Prop)
    (s : Store) : Prop where
  truthful : ∀ d value id, id ∈ s.zset (.facet t g d value) → value ∈ facetValues t (jobs id) d
  members : ∀ d value id, id ∈ s.zset (.facet t g d value) →
    id ∈ s.zset (.projection t g) ∨ stray d id
  complete : ∀ id ∈ s.zset (.projection t g), ∀ d, ∀ value ∈ facetValues t (jobs id) d,
    id ∈ s.zset (.facet t g d value)
  cataloged : ∀ d value id, id ∈ s.zset (.facet t g d value) → value ∈ s.catalog ⟨t, g, d⟩
  live : ∀ d value, value ∈ s.catalog ⟨t, g, d⟩ →
    (∃ id, id ∈ s.zset (.facet t g d value)) ∨ idle d value

/-- A slot that may have strays and idle values anywhere: what is left after a removal that was
aborted. -/
abbrev Frayed (jobs : String → RetainedJobMetadata) (t : RetainedJobType) (g : Generation)
    (s : Store) : Prop :=
  Loose jobs t g (fun _ _ => True) (fun _ _ => True) s

/-- What is left over in a dimension of a slot: a value of the catalog whose facet is empty or holds a
member that is not projected. -/
def Residue (t : RetainedJobType) (g : Generation) (s : Store) (d : FacetDimension) : Prop :=
  ∃ value ∈ s.catalog ⟨t, g, d⟩, (s.zset (.facet t g d value)).card = 0 ∨
    ∃ id ∈ (s.zset (.facet t g d value)).members, id ∉ s.zset (.projection t g)

instance (t : RetainedJobType) (g : Generation) (s : Store) (d : FacetDimension) :
    Decidable (Residue t g s d) :=
  inferInstanceAs (Decidable (∃ value ∈ s.catalog ⟨t, g, d⟩, _ ∨ ∃ id ∈ (_ : ZSet).members, _))

/-- Two stores agree on the jobs, the facets and the catalogs of a slot. -/
structure SameSlot (t : RetainedJobType) (g : Generation) (s s' : Store) : Prop where
  projection : s'.zset (.projection t g) = s.zset (.projection t g)
  facet : ∀ d value, s'.zset (.facet t g d value) = s.zset (.facet t g d value)
  catalog : ∀ d, s'.catalog ⟨t, g, d⟩ = s.catalog ⟨t, g, d⟩

variable {jobs : String → RetainedJobMetadata} {t : RetainedJobType} {g : Generation}
  {s s' : Store} {stray idle : FacetDimension → String → Prop}

namespace SameSlot

/-- A store agrees with itself. -/
theorem refl (s : Store) : SameSlot t g s s := ⟨rfl, fun _ _ => rfl, fun _ => rfl⟩

/-- Agreement passes on. -/
theorem trans {s'' : Store} (h : SameSlot t g s s') (h' : SameSlot t g s' s'') :
    SameSlot t g s s'' :=
  ⟨h'.projection.trans h.projection, fun d value => (h'.facet d value).trans (h.facet d value),
    fun d => (h'.catalog d).trans (h.catalog d)⟩

/-- Writes of other keys leave a slot alone. -/
theorem of_sameAt (h : ∀ k, k.InSlot t g → s.SameAt s' k) : SameSlot t g s s' :=
  ⟨h (.sortedSet (.projection t g)) ⟨rfl, rfl⟩,
    fun d value => h (.sortedSet (.facet t g d value)) ⟨rfl, rfl⟩,
    fun d => h (.catalog ⟨t, g, d⟩) ⟨rfl, rfl⟩⟩

end SameSlot

/-- What a slot holds decides whether it is exact. -/
theorem Exact.congr (hsame : SameSlot t g s s') (h : Exact jobs t g s) : Exact jobs t g s' := by
  refine ⟨fun d value id => ?_, fun d value => ?_⟩
  · rw [hsame.facet, hsame.projection]
    exact h.facets d value id
  · rw [hsame.facet, hsame.catalog]
    exact h.catalogs d value

/-- And whether it is vacant. -/
theorem Vacant.congr (hsame : SameSlot t g s s') (h : Vacant t g s) : Vacant t g s' := by
  refine ⟨fun id => ?_, fun d value id => ?_, fun d value => ?_⟩
  · rw [hsame.projection]
    exact h.projection id
  · rw [hsame.facet]
    exact h.facets d value id
  · rw [hsame.catalog]
    exact h.catalogs d value

/-- And whether it is loose. -/
theorem Loose.congr (hsame : SameSlot t g s s') (h : Loose jobs t g stray idle s) :
    Loose jobs t g stray idle s' := by
  refine ⟨fun d value id => ?_, fun d value id => ?_, fun id hid d value hv => ?_,
    fun d value id => ?_, fun d value => ?_⟩
  · rw [hsame.facet]
    exact h.truthful d value id
  · rw [hsame.facet, hsame.projection]
    exact h.members d value id
  · rw [hsame.projection] at hid
    rw [hsame.facet]
    exact h.complete id hid d value hv
  · rw [hsame.facet, hsame.catalog]
    exact h.cataloged d value id
  · rw [hsame.facet, hsame.catalog]
    exact h.live d value

/-- An empty slot is exact. -/
theorem Vacant.exact (h : Vacant t g s) : Exact jobs t g s := by
  refine ⟨fun d value id => ⟨fun hid => absurd hid (h.facets d value id), fun hid =>
    absurd hid.1 (h.projection id)⟩, fun d value => ⟨fun hv => absurd hv (h.catalogs d value), ?_⟩⟩
  rintro ⟨id, hid⟩
  exact absurd hid (h.facets d value id)

/-- A slot that is exact is loose, whatever it may have left over. -/
theorem Exact.loose (h : Exact jobs t g s) : Loose jobs t g stray idle s where
  truthful d value id hid := ((h.facets d value id).mp hid).2
  members d value id hid := Or.inl ((h.facets d value id).mp hid).1
  complete id hid d value hv := (h.facets d value id).mpr ⟨hid, hv⟩
  cataloged d value id hid := (h.catalogs d value).mpr ⟨id, hid⟩
  live d value hv := Or.inl ((h.catalogs d value).mp hv)

/-- A loose slot is frayed. -/
theorem Loose.frayed (h : Loose jobs t g stray idle s) : Frayed jobs t g s where
  truthful := h.truthful
  members _ _ _ _ := Or.inr trivial
  complete := h.complete
  cataloged := h.cataloged
  live _ _ _ := Or.inr trivial

/-- A slot with nothing left to clean up is exact. -/
theorem Loose.exact (h : Loose jobs t g stray idle s) (hstray : ∀ d id, ¬stray d id)
    (hidle : ∀ d value, ¬idle d value) : Exact jobs t g s := by
  refine ⟨fun d value id => ⟨fun hid => ⟨?_, h.truthful d value id hid⟩, fun hid =>
    h.complete id hid.1 d value hid.2⟩, fun d value => ⟨fun hv => ?_, ?_⟩⟩
  · exact (h.members d value id hid).resolve_right (hstray d id)
  · exact (h.live d value hv).resolve_right (hidle d value)
  · rintro ⟨id, hid⟩
    exact h.cataloged d value id hid

/-- **Residue**: a frayed slot is exact where it has none. -/
theorem Frayed.exact_iff (h : Frayed jobs t g s) : Exact jobs t g s ↔ ∀ d, ¬Residue t g s d := by
  constructor
  · rintro hexact d ⟨value, hv, hempty | ⟨id, hid, hnot⟩⟩
    · obtain ⟨id, hid⟩ := (hexact.catalogs d value).mp hv
      exact SortedSet.card_eq_zero_iff.mp hempty id hid
    · exact hnot ((hexact.facets d value id).mp hid).1
  · intro hnone
    constructor
    · intro d value id
      constructor
      · intro hid
        refine ⟨?_, h.truthful d value id hid⟩
        by_contra hnot
        exact hnone d ⟨value, h.cataloged d value id hid, Or.inr ⟨id, hid, hnot⟩⟩
      · exact fun hid => h.complete id hid.1 d value hid.2
    · intro d value
      constructor
      · intro hv
        apply SortedSet.card_pos_iff.mp
        apply Nat.pos_of_ne_zero
        exact fun hempty => hnone d ⟨value, hv, Or.inl hempty⟩
      · rintro ⟨id, hid⟩
        exact h.cataloged d value id hid

/-- Residue is what the slot holds. -/
theorem SameSlot.residue_iff (h : SameSlot t g s s') {d : FacetDimension} :
    Residue t g s' d ↔ Residue t g s d := by
  simp only [Residue, h.catalog, h.facet, h.projection]

/-! ## Storing a job -/

section StoreJob

variable {m : RetainedJobMetadata} {id : String} {score : ℚ}

/-- The members of the slot after a job was stored. -/
theorem mem_facet_storeJob {d : FacetDimension} {value id' : String} :
    id' ∈ (s.writeAll (storeJob t g m id score)).zset (.facet t g d value) ↔
      id' ∈ s.zset (.facet t g d value) ∨ id' = id ∧ value ∈ facetValues t m d := by
  rw [Store.mem_zset_writeAll_of_zadds]
  · refine or_congr_right ⟨?_, ?_⟩
    · rintro ⟨score', hw⟩
      rcases mem_storeJob.mp hw with h | ⟨d', value', hv, h | h⟩ | h | h
      · cases h
      · cases h
        exact ⟨rfl, hv⟩
      · cases h
      · cases h
      · cases h
    · rintro ⟨rfl, hv⟩
      exact ⟨score, mem_storeJob.mpr (Or.inr (Or.inl ⟨d, value, hv, Or.inl rfl⟩))⟩
  · intro w hw hkey
    rcases mem_storeJob.mp hw with rfl | ⟨d', value', hv, rfl | rfl⟩ | rfl | rfl
    · cases hkey
    · cases hkey
      exact ⟨score, id, rfl⟩
    · cases hkey
    · cases hkey
    · cases hkey

/-- The projection gets the job. -/
theorem mem_projection_storeJob {id' : String} :
    id' ∈ (s.writeAll (storeJob t g m id score)).zset (.projection t g) ↔
      id' ∈ s.zset (.projection t g) ∨ id' = id := by
  rw [Store.mem_zset_writeAll_of_zadds]
  · refine or_congr_right ⟨?_, ?_⟩
    · rintro ⟨score', hw⟩
      rcases mem_storeJob.mp hw with h | ⟨d', value', hv, h | h⟩ | h | h
      · cases h
      · cases h
      · cases h
      · cases h
        rfl
      · cases h
    · rintro rfl
      exact ⟨score, mem_storeJob.mpr (Or.inr (Or.inr (Or.inl rfl)))⟩
  · intro w hw hkey
    rcases mem_storeJob.mp hw with rfl | ⟨d', value', hv, rfl | rfl⟩ | rfl | rfl
    · cases hkey
    · cases hkey
    · cases hkey
    · exact ⟨score, id, rfl⟩
    · cases hkey

/-- The catalogs get the values of the job. -/
theorem mem_catalog_storeJob {d : FacetDimension} {value : String} :
    value ∈ (s.writeAll (storeJob t g m id score)).catalog ⟨t, g, d⟩ ↔
      value ∈ s.catalog ⟨t, g, d⟩ ∨ value ∈ facetValues t m d := by
  rw [Store.mem_catalog_writeAll_of_sadds]
  · refine or_congr_right ⟨?_, ?_⟩
    · intro hw
      rcases mem_storeJob.mp hw with h | ⟨d', value', hv, h | h⟩ | h | h
      · cases h
      · cases h
      · cases h
        exact hv
      · cases h
      · cases h
    · intro hv
      exact mem_storeJob.mpr (Or.inr (Or.inl ⟨d, value, hv, Or.inr rfl⟩))
  · intro w hw hkey
    rcases mem_storeJob.mp hw with rfl | ⟨d', value', hv, rfl | rfl⟩ | rfl | rfl
    · cases hkey
    · cases hkey
    · cases hkey
      exact ⟨value', rfl⟩
    · cases hkey
    · cases hkey

/-- **Storing a job** with its own metadata leaves nothing over. -/
theorem Loose.storeJob (h : Loose jobs t g stray idle s) (hm : m = jobs id) :
    Loose jobs t g stray idle (s.writeAll (storeJob t g m id score)) := by
  subst hm
  constructor
  · intro d value id' hid
    rcases mem_facet_storeJob.mp hid with hid | ⟨rfl, hv⟩
    · exact h.truthful d value id' hid
    · exact hv
  · intro d value id' hid
    rw [mem_projection_storeJob]
    rcases mem_facet_storeJob.mp hid with hid | ⟨rfl, hv⟩
    · rcases h.members d value id' hid with hprojected | hstray
      · exact Or.inl (Or.inl hprojected)
      · exact Or.inr hstray
    · exact Or.inl (Or.inr rfl)
  · intro id' hid d value hv
    rw [mem_facet_storeJob]
    rcases mem_projection_storeJob.mp hid with hid | rfl
    · exact Or.inl (h.complete id' hid d value hv)
    · exact Or.inr ⟨rfl, hv⟩
  · intro d value id' hid
    rw [mem_catalog_storeJob]
    rcases mem_facet_storeJob.mp hid with hid | ⟨rfl, hv⟩
    · exact Or.inl (h.cataloged d value id' hid)
    · exact Or.inr hv
  · intro d value hv
    rcases mem_catalog_storeJob.mp hv with hv | hv
    · rcases h.live d value hv with ⟨id', hid'⟩ | hidle
      · exact Or.inl ⟨id', mem_facet_storeJob.mpr (Or.inl hid')⟩
      · exact Or.inr hidle
    · exact Or.inl ⟨id, mem_facet_storeJob.mpr (Or.inr ⟨rfl, hv⟩)⟩

end StoreJob

/-! ## Cleaning up

A clean-up takes members out of facets and values out of catalogs, and touches nothing else of the
slot. -/

/-- **Cleaning up**: facets and catalogs shrink, projected members stay in their facets and values
stay in the catalog while their facet has members. -/
theorem Loose.shrink {stray' idle' : FacetDimension → String → Prop}
    (h : Loose jobs t g stray idle s)
    (hprojection : s'.zset (.projection t g) = s.zset (.projection t g))
    (hfacet : ∀ d value id, id ∈ s'.zset (.facet t g d value) → id ∈ s.zset (.facet t g d value))
    (hprojected : ∀ d value id, id ∈ s.zset (.facet t g d value) → id ∈ s.zset (.projection t g) →
      id ∈ s'.zset (.facet t g d value))
    (hcatalog : ∀ d value, value ∈ s'.catalog ⟨t, g, d⟩ → value ∈ s.catalog ⟨t, g, d⟩)
    (hvalue : ∀ d value id, id ∈ s'.zset (.facet t g d value) → value ∈ s.catalog ⟨t, g, d⟩ →
      value ∈ s'.catalog ⟨t, g, d⟩)
    (hstray : ∀ d value id, id ∈ s'.zset (.facet t g d value) → stray d id →
      id ∈ s.zset (.projection t g) ∨ stray' d id)
    (hidle : ∀ d value, value ∈ s'.catalog ⟨t, g, d⟩ →
      (∃ id, id ∈ s.zset (.facet t g d value)) ∨ idle d value →
      (∃ id, id ∈ s'.zset (.facet t g d value)) ∨ idle' d value) :
    Loose jobs t g stray' idle' s' := by
  refine ⟨fun d value id hid => ?_, fun d value id hid => ?_, fun id hid d value hv => ?_,
    fun d value id hid => ?_, fun d value hv => ?_⟩
  · exact h.truthful d value id (hfacet d value id hid)
  · rw [hprojection]
    rcases h.members d value id (hfacet d value id hid) with hin | hin
    · exact Or.inl hin
    · exact hstray d value id hid hin
  · rw [hprojection] at hid
    exact hprojected d value id (h.complete id hid d value hv) hid
  · exact hvalue d value id hid (h.cataloged d value id (hfacet d value id hid))
  · exact hidle d value hv (h.live d value (hcatalog d value hv))

/-- What is known of strays and idle values may be refined by what the slot holds. -/
theorem Loose.refine {stray' idle' : FacetDimension → String → Prop}
    (h : Loose jobs t g stray idle s)
    (hstray : ∀ d value id, id ∈ s.zset (.facet t g d value) → stray d id →
      id ∈ s.zset (.projection t g) ∨ stray' d id)
    (hidle : ∀ d value, value ∈ s.catalog ⟨t, g, d⟩ → idle d value →
      (∃ id, id ∈ s.zset (.facet t g d value)) ∨ idle' d value) :
    Loose jobs t g stray' idle' s :=
  h.shrink rfl (fun _ _ _ h => h) (fun _ _ _ h _ => h) (fun _ _ h => h) (fun _ _ _ _ h => h) hstray
    fun d value hv hor => hor.elim Or.inl (hidle d value hv)

section Clean

variable {known : String → Option RetainedJobMetadata} {ids values : List String}
  {d : FacetDimension}

/-! ### Removing jobs -/

/-- Removed jobs leave the projection. -/
theorem mem_projection_removeJobs {id : String} :
    id ∈ (s.writeAll (ids.flatMap fun id => removeJob t g (known id) id)).zset (.projection t g) ↔
      id ∈ s.zset (.projection t g) ∧ id ∉ ids := by
  rw [Store.mem_zset_writeAll_of_zrems]
  · refine and_congr_right fun _ => ⟨fun h hid => ?_, ?_⟩
    · refine h [id] (List.mem_flatMap.mpr ⟨id, hid, ?_⟩) List.mem_cons_self
      exact mem_removeJob.mpr (Or.inl rfl)
    · intro hid removed hw hmem
      obtain ⟨id', hid', hw⟩ := List.mem_flatMap.mp hw
      rcases mem_removeJob.mp hw with heq | ⟨m, -, d, value, -, heq⟩
      · cases heq
        rw [List.mem_singleton.mp hmem] at hid
        exact hid hid'
      · cases heq
  · intro w hw hkey
    obtain ⟨id', -, hw⟩ := List.mem_flatMap.mp hw
    rcases mem_removeJob.mp hw with rfl | ⟨m, -, d, value, -, rfl⟩
    · exact ⟨[id'], rfl⟩
    · cases hkey

/-- The facets lose the jobs whose metadata is known. -/
theorem mem_facet_removeJobs {d : FacetDimension} {value id : String} :
    id ∈ (s.writeAll (ids.flatMap fun id => removeJob t g (known id) id)).zset
        (.facet t g d value) ↔
      id ∈ s.zset (.facet t g d value) ∧
        ¬(id ∈ ids ∧ ∃ m, known id = some m ∧ value ∈ facetValues t m d) := by
  rw [Store.mem_zset_writeAll_of_zrems]
  · refine and_congr_right fun _ => ⟨?_, ?_⟩
    · rintro h ⟨hid, m, hm, hv⟩
      refine h [id] (List.mem_flatMap.mpr ⟨id, hid, ?_⟩) List.mem_cons_self
      exact mem_removeJob.mpr (Or.inr ⟨m, hm, d, value, hv, rfl⟩)
    · intro h removed hw hmem
      obtain ⟨id', hid', hw⟩ := List.mem_flatMap.mp hw
      rcases mem_removeJob.mp hw with heq | ⟨m, hm, d', value', hv, heq⟩
      · cases heq
      · cases heq
        obtain rfl := List.mem_singleton.mp hmem
        exact h ⟨hid', m, hm, hv⟩
  · intro w hw hkey
    obtain ⟨id', -, hw⟩ := List.mem_flatMap.mp hw
    rcases mem_removeJob.mp hw with rfl | ⟨m, -, d', value', -, rfl⟩
    · cases hkey
    · cases hkey
      exact ⟨[id'], rfl⟩

/-- The catalogs stay. -/
theorem catalog_removeJobs {c : CatalogKey} :
    (s.writeAll (ids.flatMap fun id => removeJob t g (known id) id)).catalog c = s.catalog c := by
  refine Store.sameAt_writeAll_of_keys (k := .catalog c) fun w hw => ?_
  obtain ⟨id', -, hw⟩ := List.mem_flatMap.mp hw
  rcases mem_removeJob.mp hw with rfl | ⟨m, -, d', value', -, rfl⟩ <;> exact Key.noConfusion

/-- **Removing jobs** leaves those without metadata behind in their facets, and the values of facets
it may have emptied in the catalogs. -/
theorem Loose.removeJobs (h : Loose jobs t g stray idle s)
    (hknown : ∀ id m, known id = some m → m = jobs id) :
    Loose jobs t g (fun d id => stray d id ∨ id ∈ ids ∧ known id = none)
      (fun d value => idle d value ∨ (∃ id ∈ ids, ∃ m, known id = some m ∧
        value ∈ facetValues t m d) ∧ ∃ id, id ∈ s.zset (.facet t g d value))
      (s.writeAll (ids.flatMap fun id => removeJob t g (known id) id)) := by
  constructor
  · intro d value id hid
    exact h.truthful d value id (mem_facet_removeJobs.mp hid).1
  · intro d value id hid
    obtain ⟨hin, hnot⟩ := mem_facet_removeJobs.mp hid
    rcases h.members d value id hin with hprojected | hstray
    · by_cases hmem : id ∈ ids
      · refine Or.inr (Or.inr ⟨hmem, Option.eq_none_iff_forall_ne_some.mpr fun m hm => ?_⟩)
        apply hnot
        refine ⟨hmem, m, hm, ?_⟩
        rw [hknown id m hm]
        exact h.truthful d value id hin
      · exact Or.inl (mem_projection_removeJobs.mpr ⟨hprojected, hmem⟩)
    · exact Or.inr (Or.inl hstray)
  · intro id hid d value hv
    obtain ⟨hprojected, hnot⟩ := mem_projection_removeJobs.mp hid
    exact mem_facet_removeJobs.mpr ⟨h.complete id hprojected d value hv, fun hrem => hnot hrem.1⟩
  · intro d value id hid
    rw [catalog_removeJobs]
    exact h.cataloged d value id (mem_facet_removeJobs.mp hid).1
  · intro d value hv
    rw [catalog_removeJobs] at hv
    rcases h.live d value hv with ⟨id, hid⟩ | hidle
    · by_cases hrem : id ∈ ids ∧ ∃ m, known id = some m ∧ value ∈ facetValues t m d
      · exact Or.inr (Or.inr ⟨⟨id, hrem⟩, id, hid⟩)
      · exact Or.inl ⟨id, mem_facet_removeJobs.mpr ⟨hid, hrem⟩⟩
    · exact Or.inr (Or.inl hidle)

/-! ### Removing memberships without metadata -/

/-- Removed members leave their facets. -/
theorem mem_facet_removeMembers {d' : FacetDimension} {value id : String} :
    id ∈ (s.writeAll ((values.map (SortedSetKey.facet t g d)).map fun k => .zrem k ids)).zset
        (.facet t g d' value) ↔
      id ∈ s.zset (.facet t g d' value) ∧ ¬(d' = d ∧ value ∈ values ∧ id ∈ ids) := by
  rw [Store.mem_zset_writeAll_of_zrems]
  · refine and_congr_right fun _ => ⟨?_, ?_⟩
    · rintro h ⟨rfl, hv, hid⟩
      refine h ids ?_ hid
      rw [List.map_map]
      exact List.mem_map.mpr ⟨value, hv, rfl⟩
    · intro h removed hw hmem
      rw [List.map_map] at hw
      obtain ⟨value', hv, heq⟩ := List.mem_map.mp hw
      cases heq
      exact h ⟨rfl, hv, hmem⟩
  · intro w hw hkey
    rw [List.map_map] at hw
    obtain ⟨value', -, rfl⟩ := List.mem_map.mp hw
    cases hkey
    exact ⟨ids, rfl⟩

/-- No other key changes. -/
theorem sameAt_removeMembers {k : Key} (hk : ∀ value, k ≠ .sortedSet (.facet t g d value)) :
    s.SameAt (s.writeAll ((values.map (SortedSetKey.facet t g d)).map fun k => .zrem k ids)) k := by
  refine Store.sameAt_writeAll_of_keys fun w hw => ?_
  rw [List.map_map] at hw
  obtain ⟨value, -, rfl⟩ := List.mem_map.mp hw
  exact (hk value).symm

/-- The projection stays. -/
theorem projection_removeMembers :
    (s.writeAll ((values.map (SortedSetKey.facet t g d)).map fun k => .zrem k ids)).zset
      (.projection t g) = s.zset (.projection t g) :=
  sameAt_removeMembers (k := .sortedSet (.projection t g)) fun _ => by simp

/-- So do the catalogs. -/
theorem catalog_removeMembers {c : CatalogKey} :
    (s.writeAll ((values.map (SortedSetKey.facet t g d)).map fun k => .zrem k ids)).catalog c =
      s.catalog c :=
  sameAt_removeMembers (k := .catalog c) fun _ => by simp

/-- Members that are not projected are taken out of some facets; the values of these facets become
idle. -/
theorem Loose.removeMembers (h : Loose jobs t g stray idle s)
    (habsent : ∀ id ∈ ids, id ∉ s.zset (.projection t g)) :
    Loose jobs t g stray (fun d' value => idle d' value ∨ d' = d ∧ value ∈ values)
      (s.writeAll ((values.map (SortedSetKey.facet t g d)).map fun k => .zrem k ids)) := by
  refine h.shrink projection_removeMembers
    (fun d' value id hid => (mem_facet_removeMembers.mp hid).1)
    (fun d' value id hid hin => ?_) (fun d' value hv => ?_) (fun d' value id hid hv => ?_)
    (fun d' value id hid hstray => Or.inr hstray) fun d' value hv hor => ?_
  · exact mem_facet_removeMembers.mpr ⟨hid, fun hrem => habsent id hrem.2.2 hin⟩
  · rwa [catalog_removeMembers] at hv
  · rwa [catalog_removeMembers]
  · rcases hor with ⟨id, hid⟩ | hidle
    · by_cases hin : d' = d ∧ value ∈ values
      · exact Or.inr (Or.inr hin)
      · exact Or.inl ⟨id, mem_facet_removeMembers.mpr ⟨hid, fun hrem =>
          hin ⟨hrem.1, hrem.2.1⟩⟩⟩
    · exact Or.inr (Or.inl hidle)

/-! ### Removing values with an empty facet -/

/-- A block that takes values out of catalogs and deletes facets, of empty facets only. -/
def RemovesEmpty (t : RetainedJobType) (g : Generation) (s : Store) (ws : List Write) : Prop :=
  ∀ w ∈ ws, ∃ d value, (∀ id, id ∉ s.zset (.facet t g d value)) ∧
    (w = .srem ⟨t, g, d⟩ value ∨ w = .del (.sortedSet (.facet t g d value)))

namespace RemovesEmpty

variable {ws : List Write}

/-- No facet loses a member. -/
theorem mem_facet (h : RemovesEmpty t g s ws) {d : FacetDimension} {value id : String} :
    id ∈ (s.writeAll ws).zset (.facet t g d value) ↔ id ∈ s.zset (.facet t g d value) := by
  rw [Store.mem_zset_writeAll_of_dels]
  · refine ⟨And.left, fun hid => ⟨hid, fun hw => ?_⟩⟩
    obtain ⟨d', value', hempty, heq | heq⟩ := h _ hw
    · cases heq
    · cases heq
      exact hempty id hid
  · intro w hw hkey
    obtain ⟨d', value', -, rfl | rfl⟩ := h w hw
    · cases hkey
    · rw [← hkey]
      rfl

/-- The catalogs lose the values. -/
theorem mem_catalog (h : RemovesEmpty t g s ws) {d : FacetDimension} {value : String} :
    value ∈ (s.writeAll ws).catalog ⟨t, g, d⟩ ↔
      value ∈ s.catalog ⟨t, g, d⟩ ∧ .srem ⟨t, g, d⟩ value ∉ ws := by
  refine Store.mem_catalog_writeAll_of_srems fun w hw hkey => ?_
  obtain ⟨d', value', -, rfl | rfl⟩ := h w hw
  · cases hkey
    exact ⟨value', rfl⟩
  · cases hkey

/-- The projection stays. -/
theorem projection (h : RemovesEmpty t g s ws) :
    (s.writeAll ws).zset (.projection t g) = s.zset (.projection t g) := by
  refine Store.sameAt_writeAll_of_keys (k := .sortedSet (.projection t g)) fun w hw => ?_
  obtain ⟨d', value', -, rfl | rfl⟩ := h w hw <;> simp [Write.key]

end RemovesEmpty

/-- Values whose facet is empty are removed from the catalogs, and empty facets are deleted; the
removed values are idle no more. -/
theorem Loose.removeValues {ws : List Write} (h : Loose jobs t g stray idle s)
    (hws : RemovesEmpty t g s ws) :
    Loose jobs t g stray (fun d value => idle d value ∧ .srem ⟨t, g, d⟩ value ∉ ws)
      (s.writeAll ws) := by
  refine h.shrink hws.projection (fun d value id hid => hws.mem_facet.mp hid)
    (fun d value id hid _ => hws.mem_facet.mpr hid)
    (fun d value hv => (hws.mem_catalog.mp hv).1) (fun d value id hid hv => ?_)
    (fun d value id _ hstray => Or.inr hstray) fun d value hv hor => ?_
  · refine hws.mem_catalog.mpr ⟨hv, fun hw => ?_⟩
    obtain ⟨d', value', hempty, heq | heq⟩ := hws _ hw
    · cases heq
      exact hempty id (hws.mem_facet.mp hid)
    · cases heq
  · rcases hor with ⟨id, hid⟩ | hidle
    · exact Or.inl ⟨id, hws.mem_facet.mpr hid⟩
    · exact Or.inr ⟨hidle, (hws.mem_catalog.mp hv).2⟩

/-! ### Deleting a slot -/

/-- Without its jobs every member of a slot is a stray. -/
theorem Loose.deleteProjection (h : Loose jobs t g stray idle s) {keys : List Key}
    (hprojection : .sortedSet (.projection t g) ∈ keys)
    (hfacet : ∀ d value, .sortedSet (.facet t g d value) ∉ keys)
    (hcatalog : ∀ d, .catalog ⟨t, g, d⟩ ∉ keys) :
    Loose jobs t g (fun _ _ => True) idle (s.writeAll (keys.map .del)) ∧
      ∀ id, id ∉ (s.writeAll (keys.map .del)).zset (.projection t g) := by
  have hnone : ∀ id, id ∉ (s.writeAll (keys.map .del)).zset (.projection t g) := fun id hid =>
    (Store.mem_zset_writeAll_del.mp hid).2 hprojection
  refine ⟨⟨fun d value id hid => ?_, fun _ _ _ _ => Or.inr trivial, fun id hid => absurd hid (hnone id),
    fun d value id hid => ?_, fun d value hv => ?_⟩, hnone⟩
  · exact h.truthful d value id (Store.mem_zset_writeAll_del.mp hid).1
  · have hv := h.cataloged d value id (Store.mem_zset_writeAll_del.mp hid).1
    exact Store.mem_catalog_writeAll_del.mpr ⟨hv, hcatalog d⟩
  · rcases h.live d value (Store.mem_catalog_writeAll_del.mp hv).1 with ⟨id, hid⟩ | hidle
    · exact Or.inl ⟨id, Store.mem_zset_writeAll_del.mpr ⟨hid, hfacet d value⟩⟩
    · exact Or.inr hidle

/-- Keys of a slot without jobs are deleted, catalogs only once their facets are empty. -/
theorem Loose.deleteKeys {idle' : FacetDimension → String → Prop} {keys : List Key}
    (h : Loose jobs t g stray idle s) (hprojection : ∀ id, id ∉ s.zset (.projection t g))
    (hcatalog : ∀ d, .catalog ⟨t, g, d⟩ ∈ keys → ∀ value id, id ∉ s.zset (.facet t g d value))
    (hdeleted : ∀ d value, .sortedSet (.facet t g d value) ∈ keys → idle' d value)
    (hidle : ∀ d value, .catalog ⟨t, g, d⟩ ∉ keys → idle d value → idle' d value) :
    Loose jobs t g stray idle' (s.writeAll (keys.map .del)) := by
  have hnone : ∀ id, id ∉ (s.writeAll (keys.map .del)).zset (.projection t g) := fun id hid =>
    hprojection id (Store.mem_zset_writeAll_del.mp hid).1
  refine ⟨fun d value id hid => ?_, fun d value id hid => ?_, fun id hid => absurd hid (hnone id),
    fun d value id hid => ?_, fun d value hv => ?_⟩
  · exact h.truthful d value id (Store.mem_zset_writeAll_del.mp hid).1
  · have hstray := h.members d value id (Store.mem_zset_writeAll_del.mp hid).1
    exact Or.inr (hstray.resolve_left (hprojection id))
  · have hin := (Store.mem_zset_writeAll_del.mp hid).1
    refine Store.mem_catalog_writeAll_del.mpr ⟨h.cataloged d value id hin, fun hmem => ?_⟩
    exact hcatalog d hmem value id hin
  · obtain ⟨hv, hnot⟩ := Store.mem_catalog_writeAll_del.mp hv
    rcases h.live d value hv with ⟨id, hid⟩ | hi
    · by_cases hdel : .sortedSet (.facet t g d value) ∈ keys
      · exact Or.inr (hdeleted d value hdel)
      · exact Or.inl ⟨id, Store.mem_zset_writeAll_del.mpr ⟨hid, hdel⟩⟩
    · exact Or.inr (hidle d value hnot hi)

/-- A slot without jobs, strays and idle values is vacant. -/
theorem Loose.vacant (h : Loose jobs t g stray idle s)
    (hprojection : ∀ id, id ∉ s.zset (.projection t g)) (hstray : ∀ d id, ¬stray d id)
    (hidle : ∀ d value, ¬idle d value) : Vacant t g s := by
  have hfacets : ∀ d value id, id ∉ s.zset (.facet t g d value) := fun d value id hid =>
    (h.members d value id hid).elim (hprojection id) (hstray d id)
  refine ⟨hprojection, hfacets, fun d value hv => ?_⟩
  rcases h.live d value hv with ⟨id, hid⟩ | hi
  · exact hfacets d value id hid
  · exact hidle d value hi

/-- Deletions keep a vacant slot vacant. -/
theorem Vacant.deleteKeys (h : Vacant t g s) (keys : List Key) :
    Vacant t g (s.writeAll (keys.map .del)) :=
  ⟨fun id hid => h.projection id (Store.mem_zset_writeAll_del.mp hid).1,
    fun d value id hid => h.facets d value id (Store.mem_zset_writeAll_del.mp hid).1,
    fun d value hv => h.catalogs d value (Store.mem_catalog_writeAll_del.mp hv).1⟩

end Clean

end RetainedJobIndex

end HorizonNewDawn

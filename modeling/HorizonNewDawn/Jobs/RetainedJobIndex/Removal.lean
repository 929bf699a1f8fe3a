import HorizonNewDawn.Jobs.RetainedJobIndex.Repair

/-! # Removals and their clean-up

The two programs that take jobs out of a slot: `removeStaleChunk`, which removes some jobs and then
what their facets and catalogs have left of them, and `rebuildTypeIndex`, which empties the slot.
Where they return, the first has left nothing over that was not there before, and the slot of the
second is exact, whatever was left over in it. Where they are aborted, the slot is frayed. -/

namespace HorizonNewDawn

open Program

namespace RetainedJobIndex

variable {jobs : String → RetainedJobMetadata} {t : RetainedJobType} {g : Generation}
  {s s' : Store} {scan : ScanOrder} {i : ProcessId} {token : Token} {source : SourceSnapshot}

/-! ## Memberships without metadata -/

section Memberships

variable {ids values : List String} {d : FacetDimension} {before : String → Prop}
  {stray idle : FacetDimension → String → Prop}

/-- A slot whose jobs `ids` are gone from the projection and, for the values that are `done`, from
the facets of the dimension `d`. -/
structure Tidy (jobs : String → RetainedJobMetadata) (t : RetainedJobType) (g : Generation)
    (ids : List String) (stray idle : FacetDimension → String → Prop) (d : FacetDimension)
    (done : String → Prop) (s : Store) : Prop where
  loose : Loose jobs t g stray idle s
  absent : ∀ id ∈ ids, id ∉ s.zset (.projection t g)
  done : ∀ value, done value → ∀ id ∈ ids, id ∉ s.zset (.facet t g d value)

/-- What is tidy is told by the slot. -/
theorem ofSlot_tidy {done : String → Prop} :
    OfSlot t g (Tidy jobs t g ids stray idle d done) := by
  intro s s' hsame h
  refine ⟨h.loose.congr hsame, fun id hid => ?_, fun value hv id hid => ?_⟩
  · rw [hsame.projection]
    exact h.absent id hid
  · rw [hsame.facet]
    exact h.done value hv id hid

/-- The memberships are taken out of the facets of some values. -/
theorem Tidy.removeMembers (h : Tidy jobs t g ids stray idle d before s) :
    Tidy jobs t g ids stray (fun d' value => idle d' value ∨ d' = d ∧ value ∈ values) d
      (fun value => before value ∨ value ∈ values)
      (s.writeAll ((values.map (SortedSetKey.facet t g d)).map fun k => .zrem k ids)) := by
  refine ⟨h.loose.removeMembers h.absent, fun id hid => ?_, fun value hv id hid hmem => ?_⟩
  · rw [projection_removeMembers]
    exact h.absent id hid
  · obtain ⟨hin, hnot⟩ := mem_facet_removeMembers.mp hmem
    rcases hv with hv | hv
    · exact h.done value hv id hid hin
    · exact hnot ⟨rfl, hv, hid⟩

/-- Among the values whose memberships were taken out, those with an empty facet are idle. -/
theorem Tidy.counted {n : SortedSetKey → ℕ}
    (h : Tidy jobs t g ids stray (fun d' value => idle d' value ∨ d' = d ∧ value ∈ values) d before s)
    (hn : ∀ value ∈ values, (s.zset (.facet t g d value)).card = n (.facet t g d value)) :
    Tidy jobs t g ids stray (fun d' value => idle d' value ∨
      d' = d ∧ value ∈ values.filter fun v => n (.facet t g d v) = 0) d before s := by
  refine ⟨h.loose.refine (fun _ _ _ _ hs => Or.inr hs) fun d' value hv hidle => ?_, h.absent, h.done⟩
  rcases hidle with hidle | ⟨rfl, hin⟩
  · exact Or.inr (Or.inl hidle)
  · by_cases hzero : n (.facet t g d' value) = 0
    · exact Or.inr (Or.inr ⟨rfl, List.mem_filter.mpr ⟨hin, decide_eq_true hzero⟩⟩)
    · refine Or.inl (SortedSet.card_pos_iff.mp ?_)
      rw [hn value hin]
      exact Nat.pos_of_ne_zero hzero

/-- The values with an empty facet are removed. -/
theorem Tidy.removeValues {emptied : List String} {ws : List Write}
    (h : Tidy jobs t g ids stray (fun d' value => idle d' value ∨ d' = d ∧ value ∈ emptied) d
      before s)
    (hempty : ∀ value ∈ emptied, ∀ id, id ∉ s.zset (.facet t g d value))
    (hws : ∀ w, w ∈ ws ↔ ∃ value ∈ emptied,
      w = .srem ⟨t, g, d⟩ value ∨ w = .del (.sortedSet (.facet t g d value))) :
    Tidy jobs t g ids stray idle d before (s.writeAll ws) := by
  have hremoves : RemovesEmpty t g s ws := by
    intro w hw
    obtain ⟨value, hv, hw⟩ := (hws w).mp hw
    exact ⟨d, value, hempty value hv, hw⟩
  refine ⟨(h.loose.removeValues hremoves).refine (fun _ _ _ _ hs => Or.inr hs)
    fun d' value _ hidle => ?_, fun id hid => ?_, fun value hv id hid hmem => ?_⟩
  · obtain ⟨hidle | ⟨rfl, hin⟩, hnot⟩ := hidle
    · exact Or.inr hidle
    · exact absurd ((hws _).mpr ⟨value, hin, Or.inl rfl⟩) hnot
  · rw [hremoves.projection]
    exact h.absent id hid
  · exact h.done value hv id hid (hremoves.mem_facet.mp hmem)

/-- Values with their facets and counts. -/
theorem zip_counts {F : String → SortedSetKey} {n : SortedSetKey → ℕ} (values : List String) :
    (values.zip (values.map F)).zip ((values.map F).map n) =
      values.map fun value => ((value, F value), n (F value)) := by
  induction values with
  | nil => rfl
  | cons value values ih => simp only [List.map_cons, List.zip_cons_cons, ih]

/-- One chunk of values: the memberships of `ids` are gone, and so are the values whose facet has
become empty. -/
theorem repairing_removeMembershipsFromFacets
    (hs : Ready jobs t g s ∧ Tidy jobs t g ids stray idle d before s) :
    wp (exec scan i) (repairing scan i jobs t)
      (removeMembershipsFromFacets (some (t, g)) t ids token d values)
      (fun _ s => Ready jobs t g s ∧
        Tidy jobs t g ids stray idle d (fun value => before value ∨ value ∈ values) s)
      (fun _ => Clean jobs t) s := by
  have hrenew : ∀ {Φ : Store → Prop} {s : Store}, OfSlot t g Φ → Ready jobs t g s ∧ Φ s →
      wp (exec scan i) (repairing scan i jobs t) (renewSynchronizationLock t token)
        (fun _ s => Ready jobs t g s ∧ Φ s) (fun _ => Clean jobs t) s :=
    fun hΦ hs => Preserves.of_writes (steady_ready hΦ) renewSynchronizationLock_writes _ hs
  refine wp_bind_of (hrenew ofSlot_tidy hs) fun _ s hs => ?_
  rw [collect_facetKey_working, Prog.ret_bind]
  refine wp_bind_of (repairing_transaction ofSlot_tidy (fun _ _ w hw => ?_)
    (fun _ _ s hs => hs.removeMembers) (fun _ hs => hs.loose.frayed) hs) fun _ s hs => ?_
  · obtain ⟨k, hk, rfl⟩ := List.mem_map.mp hw
    obtain ⟨value, -, rfl⟩ := List.mem_map.mp hk
    exact ⟨rfl, rfl⟩
  -- The counts are those of the slot from here on, since nobody else writes it.
  let n : SortedSetKey → ℕ := fun k => (s.zset k).card
  let Counted (s : Store) : Prop := Tidy jobs t g ids stray
    (fun d' value => idle d' value ∨ d' = d ∧ value ∈ values) d
    (fun value => before value ∨ value ∈ values) s ∧
      ∀ value, (s.zset (.facet t g d value)).card = n (.facet t g d value)
  have hcounted : OfSlot t g Counted := ofSlot_tidy.and
    (.forall fun value => ofSlot_facet (p := fun z => z.card = n (.facet t g d value)))
  refine wp_bind_of ((reads_ready hcounted).counts (n := n) (fun s hs k hk => ?_)
    ⟨hs.1, hs.2, fun _ => rfl⟩) fun counts s hcounts => ?_
  · obtain ⟨value, -, rfl⟩ := List.mem_map.mp hk
    exact hs.2.2 value
  obtain ⟨rfl, hready, htidy, hn⟩ := hcounts
  have hfilter : (((values.zip (values.map (SortedSetKey.facet t g d))).zip
      ((values.map (SortedSetKey.facet t g d)).map n)).filter fun e => decide (e.2 = 0)) =
        (values.filter fun value => n (.facet t g d value) = 0).map fun value =>
          ((value, .facet t g d value), n (.facet t g d value)) := by
    rw [zip_counts, List.filter_map]
    rfl
  simp only [hfilter]
  generalize hemptied : (values.filter fun value => decide (n (.facet t g d value) = 0)) = emptied
  have hempty : ∀ value ∈ emptied, ∀ id, id ∉ s.zset (.facet t g d value) := by
    intro value hv
    rw [← hemptied, List.mem_filter, decide_eq_true_eq, ← hn] at hv
    exact SortedSet.card_eq_zero_iff.mp hv.2
  have htidy' := htidy.counted fun value _ => hn value
  rw [hemptied] at htidy'
  split
  · rename_i hnil
    rw [List.map_eq_nil_iff.mp hnil] at htidy'
    refine ⟨hready, ⟨htidy'.loose.refine (fun _ _ _ _ hs => Or.inr hs) fun d' value _ hidle => ?_,
      htidy'.absent, htidy'.done⟩⟩
    exact Or.inr (hidle.resolve_right fun h => List.not_mem_nil h.2)
  · have hof : OfSlot t g fun s => Tidy jobs t g ids stray
        (fun d' value => idle d' value ∨ d' = d ∧ value ∈ emptied) d
        (fun value => before value ∨ value ∈ values) s ∧
          ∀ value, value ∈ emptied → ∀ id, id ∉ s.zset (.facet t g d value) :=
      ofSlot_tidy.and (.forall fun _ => .imp (.forall fun id => ofSlot_facet (p := fun z => id ∉ z)))
    refine wp_bind_of (hrenew hof ⟨hready, htidy', hempty⟩) fun _ s hs => ?_
    have hmem : ∀ (generations : RetainedJobType → Generation), generations t = g → ∀ w : Write,
        w ∈ ((emptied.map fun value => ((value, SortedSetKey.facet t g d value),
          n (.facet t g d value))).flatMap fun e =>
            [.srem ⟨t, generations t, d⟩ e.1.1, .del (.sortedSet e.1.2)]) ↔
        ∃ value ∈ emptied, w = .srem ⟨t, g, d⟩ value ∨ w = .del (.sortedSet (.facet t g d value)) := by
      intro generations hg w
      rw [hg, List.flatMap_map]
      simp only [List.mem_flatMap, List.mem_cons, List.not_mem_nil, or_false]
    refine repairing_transaction hof (fun generations hg w hw => ?_)
      (fun generations hg s hs => hs.1.removeValues hs.2 (hmem generations hg))
      (fun _ hs => hs.loose.frayed) hs
    obtain ⟨value, -, rfl | rfl⟩ := (hmem generations hg w).mp hw <;> exact ⟨rfl, rfl⟩

variable (index : RetainedJobIndex)

/-- The jobs `ids` are removed from every facet; what was left over before stays. -/
theorem repairing_removeUnknownFacetMemberships
    (hs : Ready jobs t g s ∧ Loose jobs t g (fun d id => stray d id ∨ id ∈ ids) idle s ∧
      ∀ id ∈ ids, id ∉ s.zset (.projection t g)) :
    wp (exec scan i) (repairing scan i jobs t)
      (index.removeUnknownFacetMemberships (some (t, g)) t ids token)
      (fun _ s => Ready jobs t g s ∧ Loose jobs t g stray idle s)
      (fun _ => Clean jobs t) s := by
  have hend : ∀ {s : Store}, Loose jobs t g
      (fun d id => stray d id ∨ d ∈ ([] : List FacetDimension) ∧ id ∈ ids) idle s →
        Loose jobs t g stray idle s := fun hloose =>
    hloose.refine (fun _ _ _ _ h => Or.inr (h.resolve_right fun hnone =>
      List.not_mem_nil hnone.1)) fun _ _ _ h => Or.inr h
  refine wp_mono (fun _ s hs => ⟨hs.1, hend hs.2.1⟩) (fun _ _ h => h)
    (wp_forEach (I := fun rest s => Ready jobs t g s ∧
      Loose jobs t g (fun d id => stray d id ∨ d ∈ rest ∧ id ∈ ids) idle s ∧
        ∀ id ∈ ids, id ∉ s.zset (.projection t g)) ?_ ⟨hs.1, ?_, hs.2.2⟩)
  · intro d rest s hs
    rw [catalogKey_working, Prog.ret_bind]
    have hof : OfSlot t g fun s =>
        Loose jobs t g (fun d' id => stray d' id ∨ d' ∈ d :: rest ∧ id ∈ ids) idle s ∧
          ∀ id ∈ ids, id ∉ s.zset (.projection t g) :=
      ofSlot_loose.and (.forall fun id => .imp (ofSlot_projection (p := fun z => id ∉ z)))
    refine wp_mono (fun _ s hs => ?_) (fun _ _ h => h) ((reads_ready hof).forCatalogChunks
      (fun value s => ∀ id ∈ ids, id ∉ s.zset (.facet t g d value)) ?_ ?_ ?_ hs)
    · obtain ⟨⟨hready, hloose, habsent⟩, hdone⟩ := hs
      refine ⟨hready, hloose.refine (fun d' value id hid hstray => Or.inr ?_)
        fun _ _ _ h => Or.inr h, habsent⟩
      rcases hstray with hstray | ⟨hd, hin⟩
      · exact Or.inl hstray
      · rcases List.mem_cons.mp hd with rfl | hrest
        · exact absurd hid (hdone value id hin)
        · exact Or.inr ⟨hrest, hin⟩
    · intro value ls s s' hr hdone id hid
      rw [(hr.slots g).facet]
      exact hdone id hid
    · exact fun s value hs hv id _ hid => hv (hs.2.1.cataloged d value id hid)
    · intro before values s hs
      obtain ⟨⟨hready, hloose, habsent⟩, hdone⟩ := hs
      refine wp_mono (fun _ s hs => ?_) (fun _ _ h => h)
        (repairing_removeMembershipsFromFacets ⟨hready, hloose, habsent, hdone⟩)
      exact ⟨⟨hs.1, hs.2.loose, hs.2.absent⟩, hs.2.done⟩
  · refine hs.2.1.refine (fun d _ _ _ h => Or.inr ?_) fun _ _ _ h => Or.inr h
    exact h.imp_right fun h => ⟨FacetDimension.mem_cases d, h⟩

end Memberships

/-! ## The affected facets -/

variable {stray idle : FacetDimension → String → Prop}

/-- The values whose facet the removal has emptied are removed; what was left over before stays. -/
theorem repairing_pruneAffectedFacets {facets : List (FacetDimension × String)}
    {n : SortedSetKey → ℕ}
    (hs : Ready jobs t g s ∧ Loose jobs t g stray
      (fun d value => idle d value ∨ (d, value) ∈ facets ∧ n (.facet t g d value) ≠ 0) s) :
    wp (exec scan i) (repairing scan i jobs t)
      (pruneAffectedFacets (some (t, g)) t
        (facets.map fun f => ((f, .facet t g f.1 f.2), n (.facet t g f.1 f.2))))
      (fun _ s => Ready jobs t g s ∧ Loose jobs t g stray idle s) (fun _ => Clean jobs t) s := by
  rw [pruneAffectedFacets, Prog.forEach_map]
  have hend : ∀ {s : Store}, Loose jobs t g stray (fun d value => idle d value ∨
      (d, value) ∈ ([] : List (FacetDimension × String)) ∧ n (.facet t g d value) ≠ 0) s →
        Loose jobs t g stray idle s := fun hloose =>
    hloose.refine (fun _ _ _ _ h => Or.inr h) fun _ _ _ h => Or.inr (h.resolve_right fun hnone =>
      List.not_mem_nil hnone.1)
  refine wp_mono (fun _ s hs => ⟨hs.1, hend hs.2⟩) (fun _ _ h => h)
    (wp_forEach (I := fun rest s => Ready jobs t g s ∧
      Loose jobs t g stray
        (fun d value => idle d value ∨ (d, value) ∈ rest ∧ n (.facet t g d value) ≠ 0) s) ?_ hs)
  rintro ⟨d, value⟩ rest s hs
  refine wp_bind_of ((reads_ready ofSlot_loose).command (c := .zcard (.facet t g d value))
    (fun _ => rfl) hs) fun count s hcount => ?_
  obtain ⟨rfl, hready, hloose⟩ := hcount
  -- Where the facet has members or had none before, its value stays as it is.
  have hskip : (∃ id, id ∈ s.zset (.facet t g d value)) ∨ n (.facet t g d value) = 0 →
      Ready jobs t g s ∧ Loose jobs t g stray
        (fun d value => idle d value ∨ (d, value) ∈ rest ∧ n (.facet t g d value) ≠ 0) s := by
    refine fun hor => ⟨hready, hloose.refine (fun _ _ _ _ h => Or.inr h) fun d' value' _ h => ?_⟩
    rcases h with hidle | ⟨hin, hne⟩
    · exact Or.inr (Or.inl hidle)
    · rcases List.mem_cons.mp hin with heq | hin
      · cases heq
        exact hor.elim Or.inl fun hzero => absurd hzero hne
      · exact Or.inr (Or.inr ⟨hin, hne⟩)
  split
  · rename_i hcard
    exact hskip (Or.inl (SortedSet.card_pos_iff.mp (Nat.pos_of_ne_zero hcard)))
  rename_i hcard
  have hempty : ∀ id, id ∉ s.zset (.facet t g d value) :=
    SortedSet.card_eq_zero_iff.mp (not_not.mp hcard)
  split
  · rename_i hzero
    exact hskip (Or.inr hzero)
  rw [catalogKey_working, Prog.ret_bind]
  have hofEmpty : OfSlot t g fun s => ∀ id, id ∉ s.zset (.facet t g d value) :=
    .forall fun id => ofSlot_facet (p := fun z => id ∉ z)
  have hsrem : ∀ s : Store, (∀ id, id ∉ s.zset (.facet t g d value)) →
      RemovesEmpty t g s [.srem ⟨t, g, d⟩ value] := by
    intro s he w hw
    exact ⟨d, value, he, Or.inl (List.mem_singleton.mp hw)⟩
  have hdel : ∀ s : Store, (∀ id, id ∉ s.zset (.facet t g d value)) →
      RemovesEmpty t g s [.del (.sortedSet (.facet t g d value))] := by
    intro s he w hw
    exact ⟨d, value, he, Or.inr (List.mem_singleton.mp hw)⟩
  refine wp_bind_of (repairing_write (ofSlot_loose.and hofEmpty)
    (Q := fun s => Loose jobs t g stray
      (fun d value => idle d value ∨ (d, value) ∈ rest ∧ n (.facet t g d value) ≠ 0) s ∧
        ∀ id, id ∉ s.zset (.facet t g d value)) (fun w hw => ?_) (fun s hs => ⟨?_, fun id hid => ?_⟩)
    (fun _ hs => hs.1.frayed) ⟨hready, hloose, hempty⟩) fun _ s hs => ?_
  · rw [List.mem_singleton.mp hw]
    exact ⟨rfl, rfl⟩
  · refine (hs.1.removeValues (hsrem s hs.2)).refine (fun _ _ _ _ h => Or.inr h)
      fun d' value' _ h => ?_
    obtain ⟨hidle | ⟨hin, hn⟩, hnot⟩ := h
    · exact Or.inr (Or.inl hidle)
    · rcases List.mem_cons.mp hin with heq | hin
      · cases heq
        exact absurd List.mem_cons_self hnot
      · exact Or.inr (Or.inr ⟨hin, hn⟩)
  · exact hs.2 id ((hsrem s hs.2).mem_facet.mp hid)
  · refine repairing_write (ofSlot_loose.and hofEmpty) (fun w hw => ?_) (fun s hs => ?_)
      (fun _ hs => hs.frayed) hs
    · rw [List.mem_singleton.mp hw]
      exact ⟨rfl, rfl⟩
    · refine (hs.1.removeValues (hdel s hs.2)).refine (fun _ _ _ _ h => Or.inr h) fun _ _ _ h => ?_
      exact Or.inr h.1

/-! ## Removing a chunk of stale jobs -/

/-- Commands that leave the index alone keep every steady assertion, whatever they are answered. -/
theorem obeys_of_writes {α : Type} {A : (c : Command) → c.Reply → Prop} {Φ : Store → Prop}
    {p : Redis α} (hΦ : Steady jobs t Φ) (h : Writes (Key.Aside t) p) :
    Obeys (Maintains Φ) A p fun _ => True :=
  (Obeys.mono (fun _ _ hc _ _ hs => hΦ.congr (apart_of_writes hc) hs) (fun _ h => h) h).answers
    fun _ _ _ => trivial

/-- What is known of the metadata of some ids agrees with `jobs`. -/
theorem existingMetadata_honest {Φ : Store → Prop} {ids : List String} (hΦ : Steady jobs t Φ) :
    Obeys (Maintains Φ) (Honest jobs) (existingMetadata ids)
      fun metadataById => ∀ id m, metadataById id = some m → m = jobs id := by
  have hread : ∀ {c : Command}, c.writes = [] → ∀ ls, Maintains Φ ls c := fun hc _ i s hs =>
    hΦ.congr (apart_of_writes fun k hk => by rw [hc] at hk; cases hk) hs
  unfold existingMetadata
  split
  · exact fun id m h => by cases h
  refine Obeys.bind (R := fun _ => True) ⟨hread rfl _, fun x _ => by cases x <;> trivial⟩
    fun size _ => ?_
  split
  · exact fun id m h => by cases h
  refine Obeys.bind (Obeys.collect (Q := fun chunk => ∀ e ∈ chunk, ∀ m, e.2 = some m → m = jobs e.1)
    fun chunk _ => ?_) fun found hfound => ?_
  · refine Obeys.bind (R := fun values => ∀ e ∈ chunk.zip values, ∀ m, e.2 = some m → m = jobs e.1)
      ⟨hread rfl _, fun x hx => ?_⟩ fun values hvalues => hvalues
    cases x with
    | none => trivial
    | some values => exact hx
  · intro id m h
    obtain ⟨e, he, hm⟩ := Option.bind_eq_some_iff.mp h
    have hkey : e.1 = id := by simpa using List.find?_some he
    obtain ⟨chunk, hchunk, hin⟩ := List.mem_flatten.mp (List.mem_of_find?_eq_some he)
    rw [← hkey]
    exact hfound chunk hchunk e hin m hm

/-- Facets with their keys and counts. -/
theorem zip_facet_counts {n : SortedSetKey → ℕ} (facets : List (FacetDimension × String)) :
    (facets.zip (facets.map fun f => SortedSetKey.facet t g f.1 f.2)).zip
        ((facets.map fun f => SortedSetKey.facet t g f.1 f.2).map n) =
      facets.map fun f => ((f, .facet t g f.1 f.2), n (.facet t g f.1 f.2)) := by
  induction facets with
  | nil => rfl
  | cons f facets ih => simp only [List.map_cons, List.zip_cons_cons, ih]

/-- The metadata of other jobs are no part of the slot. -/
theorem removeUnretainedMetadata_preserves {Φ : Store → Prop} {working : Working}
    {ids : List String} (hΦ : Steady jobs t Φ) :
    Preserves scan i jobs t Φ (removeUnretainedMetadata working ids) := by
  refine .bind (.of_writes hΦ retainedByAnySource_writes) fun retained => .forEach fun e _ => ?_
  refine .ite .ret (.of_maintains (R := fun _ => True) hΦ ⟨fun i s hs => ?_, fun x _ => ?_⟩)
  · exact hΦ.congr apart_hdel hs
  · cases x <;> trivial

variable (index : RetainedJobIndex)

/-- **Removing stale jobs** leaves nothing over that was not there before. -/
theorem removeStaleChunk_preserves {ids : List String} :
    Preserves scan i jobs t (fun s => Ready jobs t g s ∧ Loose jobs t g stray idle s)
      (index.removeStaleChunk (some (t, g)) t ids token) := by
  intro s hs
  have hsteady : Steady jobs t fun s => Ready jobs t g s ∧ Loose jobs t g stray idle s :=
    steady_ready ofSlot_loose
  refine wp_bind_of (wp_mono (fun _ _ h => h) (fun _ _ h => hsteady.clean h)
    (wp_of_maintains hsteady (existingMetadata_honest hsteady) hs)) fun metadataById s hs => ?_
  obtain ⟨hknown, hs⟩ := hs
  simp only [collect_facetKeys_working, Prog.ret_bind]
  generalize hfacets : affectedFacets t (ids.filterMap metadataById) = facets
  generalize hkeys : (facets.map fun f => SortedSetKey.facet t g f.1 f.2) = keys
  -- The counts before the removal.
  let n : SortedSetKey → ℕ := fun k => (s.zset k).card
  let Counted (s : Store) : Prop :=
    Loose jobs t g stray idle s ∧ ∀ d value, (s.zset (.facet t g d value)).card = n (.facet t g d value)
  have hcounted : OfSlot t g Counted := ofSlot_loose.and (.forall fun d => .forall fun value =>
    ofSlot_facet (p := fun z => z.card = n (.facet t g d value)))
  refine wp_bind_of (Q := fun counts s => counts = keys.map n ∧ Ready jobs t g s ∧ Counted s) ?_
    fun counts s hc => ?_
  · split
    · rename_i hnil
      exact ⟨by rw [hnil]; rfl, hs.1, hs.2, fun _ _ => rfl⟩
    · refine (reads_ready hcounted).counts (fun s hs k hk => ?_) ⟨hs.1, hs.2, fun _ _ => rfl⟩
      rw [← hkeys] at hk
      obtain ⟨f, -, rfl⟩ := List.mem_map.mp hk
      exact hs.2.2 f.1 f.2
  obtain ⟨rfl, hc⟩ := hc
  subst hkeys
  rw [zip_facet_counts]
  -- The removal itself, after which more is left over.
  refine wp_bind_of (Q := fun _ s => Ready jobs t g s ∧
    (Loose jobs t g (fun d id => stray d id ∨ id ∈ ids ∧ metadataById id = none)
      (fun d value => idle d value ∨ (d, value) ∈ facets ∧ n (.facet t g d value) ≠ 0) s ∧
        ∀ id ∈ ids, id ∉ s.zset (.projection t g))) ?_ fun _ s hs => ?_
  · refine repairing_transaction hcounted (fun generations hg w hw => ?_)
      (fun generations hg s hs => ⟨?_, fun id hid hin => ?_⟩) (fun _ hs => hs.1.frayed) hc
    · obtain ⟨id, -, hw⟩ := List.mem_flatMap.mp hw
      rw [hg] at hw
      rcases mem_removeJob.mp hw with rfl | ⟨m, -, d, value, -, rfl⟩ <;> exact ⟨rfl, rfl⟩
    · rw [hg]
      refine (hs.1.removeJobs hknown).refine (fun _ _ _ _ h => Or.inr h) fun d value _ h => ?_
      rcases h with hidle | ⟨⟨id, hid, m, hm, hv⟩, hfilled⟩
      · exact Or.inr (Or.inl hidle)
      · refine Or.inr (Or.inr ⟨?_, ?_⟩)
        · rw [← hfacets]
          exact mem_affectedFacets.mpr ⟨m, List.mem_filterMap.mpr ⟨id, hid, hm⟩, hv⟩
        · rw [← hs.2]
          exact (SortedSet.card_pos_iff.mpr hfilled).ne'
    · rw [hg] at hin
      exact (mem_projection_removeJobs.mp hin).2 hid
  -- The clean-up.
  have hmem : ∀ id, id ∈ ids.filter (fun id => (metadataById id).isNone) ↔
      id ∈ ids ∧ metadataById id = none := by
    intro id
    rw [List.mem_filter, Option.isNone_iff_eq_none]
  refine wp_bind_of (Q := fun _ s => Ready jobs t g s ∧ Loose jobs t g stray
      (fun d value => idle d value ∨ (d, value) ∈ facets ∧ n (.facet t g d value) ≠ 0) s) ?_
    fun _ s hs => wp_bind_of (repairing_pruneAffectedFacets hs) fun _ s hs =>
      removeUnretainedMetadata_preserves hsteady s hs
  refine wp_ifThen (fun _ => ?_) fun hnil => ⟨hs.1, hs.2.1.refine (fun _ _ id _ h => Or.inr ?_)
    fun _ _ _ h => Or.inr h⟩
  · refine repairing_removeUnknownFacetMemberships index ⟨hs.1, hs.2.1.refine
      (fun _ _ id _ h => Or.inr (h.imp_right (hmem id).mpr)) fun _ _ _ h => Or.inr h,
      fun id hid => ?_⟩
    exact hs.2.2 id ((hmem id).mp hid).1
  · rcases h with hstray | hnone
    · exact hstray
    · rw [not_not] at hnil
      have hin := (hmem id).mpr hnone
      rw [hnil] at hin
      exact absurd hin List.not_mem_nil

/-! ## Storing jobs -/

/-- Storing a job keeps the slot ready, and leaves nothing over. -/
theorem Ready.storeJob {id : String} {score : ℚ}
    (h : Ready jobs t g s ∧ Loose jobs t g stray idle s) :
    Ready jobs t g (s.writeAll (storeJob t g (jobs id) id score)) ∧
      Loose jobs t g stray idle (s.writeAll (storeJob t g (jobs id) id score)) := by
  have hloose : Loose jobs t g stray idle (s.writeAll (RetainedJobIndex.storeJob t g (jobs id) id score)) :=
    h.2.storeJob rfl
  refine ⟨h.1.writeAll (fun w hw => ?_) hloose.frayed, hloose⟩
  rcases mem_storeJob.mp hw with rfl | ⟨d, value, -, rfl | rfl⟩ | rfl | rfl
  · exact Or.inr ⟨id, rfl⟩
  all_goals exact Or.inl ⟨rfl, rfl⟩

/-- What was fetched agrees with `jobs` as what was known does. -/
theorem remember_honest {fetched : List RetainedJobMetadata}
    {known : String → Option RetainedJobMetadata} (hknown : ∀ id m, known id = some m → m = jobs id)
    (hfetched : ∀ m ∈ fetched, m = jobs m.id) :
    ∀ id m, remember fetched known id = some m → m = jobs id := by
  induction fetched generalizing known with
  | nil => exact hknown
  | cons m fetched ih =>
      refine ih (fun id m' h => ?_) fun m' hm' => hfetched m' (List.mem_cons_of_mem m hm')
      by_cases hid : id = m.id
      · subst hid
        simp only [Function.update_self, Option.some.injEq] at h
        subst h
        exact hfetched m List.mem_cons_self
      · simp only [Function.update_of_ne hid] at h
        exact hknown id m' h

/-- Hydrating keeps the slot ready, and leaves nothing over. -/
theorem hydrateAndStore_preserves {heartbeat : Redis Unit} (hh : Writes (Key.Aside t) heartbeat)
    {scores : List (String × ℚ)} :
    Preserves scan i jobs t (fun s => Ready jobs t g s ∧ Loose jobs t g stray idle s)
      (index.hydrateAndStore (some (t, g)) t scores heartbeat) := by
  have hsteady : Steady jobs t fun s => Ready jobs t g s ∧ Loose jobs t g stray idle s :=
    steady_ready ofSlot_loose
  have hheartbeat := obeys_of_writes (A := Honest jobs) hsteady hh
  refine .of_maintains (R := fun _ => True) hsteady ?_
  refine (existingMetadata_honest hsteady).bind fun existing hexisting => ?_
  refine Obeys.bind (Obeys.collect (Q := fun ms => ∀ m ∈ ms, m = jobs m.id) fun chunk _ => ?_)
    fun fetched hfetched => ?_
  · refine Obeys.bind (R := fun found => ∀ job ∈ found, ∀ m,
      RetainedJobMetadata.fromJob job = some m → m = jobs m.id)
      ⟨fun _ _ hs => hs, fun x hx => ?_⟩ fun found hfound => hheartbeat.bind fun _ _ => ?_
    · cases x with
      | none => trivial
      | some found => exact hx
    · intro m hm
      obtain ⟨job, hjob, hfrom⟩ := List.mem_filterMap.mp hm
      exact hfound job hjob m hfrom
  -- Whatever was remembered or fetched, it is the metadata of its job.
  have hmetadata := remember_honest hexisting fun m hm => by
    obtain ⟨ms, hms, hin⟩ := List.mem_flatten.mp hm
    exact hfetched ms hms m hin
  generalize remember fetched.flatten existing = metadataById at hmetadata ⊢
  refine Obeys.bind (obeys_of_writes hsteady (.collect fun _ _ => .bind (.read rfl)
    fun _ => .ret)) fun unresolved _ => ?_
  refine Obeys.bind (obeys_of_writes hsteady (.forEach fun chunk _ => .bind
    (transaction_writes fun _ _ w hw => ?_) fun _ => hh)) fun _ _ => ?_
  · obtain ⟨e, -, rfl⟩ := List.mem_map.mp hw
    trivial
  refine Obeys.forEach fun chunk hchunk => Obeys.bind (R := fun _ => True) ?_
    fun _ _ => hheartbeat
  have hsnapshot : Obeys (Allows (Key.Aside t)) (fun _ _ => True)
      (withAtomicGenerationSnapshot (some (t, g)))
        fun generations => ∀ t' g', some (t, g) = some (t', g') → generations t' = g' :=
    withAtomicGenerationSnapshot_obeys
  refine Obeys.bind (Obeys.answers (fun _ _ _ => trivial) (hsnapshot.mono
    (fun _ c hc i s hs => hsteady.congr (apart_of_writes hc) hs) fun _ h => h))
    fun generations hg => ⟨fun i s hs => ?_, fun x _ => by cases x <;> trivial⟩
  simp only [Command.effect, hg t g rfl]
  clear hsnapshot hchunk
  -- The transaction stores the entries of the chunk one after the other.
  induction chunk generalizing s with
  | nil => exact hs
  | cons e chunk ih =>
      rw [List.flatMap_cons, Store.writeAll_append]
      refine ih _ ?_
      split
      · exact hs
      · rename_i m hm
        rw [hmetadata e.1 m hm]
        exact Ready.storeJob hs

/-- Temporary keys are aside. -/
theorem aside_temporary (k : Token) : Key.Aside t (.sortedSet (.temporary k)) := trivial

/-- Adding the missing jobs keeps the slot ready, and leaves nothing over. -/
theorem addMissingJobs_preserves :
    Preserves scan i jobs t (fun s => Ready jobs t g s ∧ Loose jobs t g stray idle s)
      (index.addMissingJobs (some (t, g)) t token source) := by
  have hread : ∀ {α : Type} {p : Redis α}, Writes (Key.Aside t) p →
      Preserves scan i jobs t (fun s => Ready jobs t g s ∧ Loose jobs t g stray idle s) p :=
    .of_writes (steady_ready ofSlot_loose)
  refine .bind (hread randomToken_writes) fun missing => .tryFinally ?_
    (hread (deleteQuietly_writes aside_temporary))
    (.of_writes steady_clean (deleteQuietly_writes aside_temporary))
  refine .bind (hread projectionKey_writes) fun _ => .bind (hread unresolvedKey_writes) fun _ => ?_
  refine .bind (hread (difference_writes aside_temporary)) fun n => ?_
  refine .bind (.ifThen (hread renewWorkingSet_writes)) fun _ => ?_
  refine .bind (.iterate fun start => .bind (hread sortedSetScores_writes) fun scores => ?_)
    fun _ => .ret
  refine .ite .ret (.bind (hread renewWorkingSet_writes) fun _ => ?_)
  exact .bind (hydrateAndStore_preserves index renewWorkingSet_writes) fun _ => .ret

/-! ## Emptying a slot -/

/-- A deletion in one chunk. -/
theorem deleteIndexKeys_eq {keys : List Key} (chunk : List Key)
    (h : keys.eraseDups.arrayChunk catalogScanChunkSize = [chunk]) :
    deleteIndexKeys t token source keys = (do
      renewSynchronizationState t token source
      write (chunk.map .del)) := by
  rw [deleteIndexKeys, h, Prog.forEach]
  exact bind_pure_unit (x := do
    renewSynchronizationState t token source
    write (chunk.map .del))

/-- Keys of the slot are deleted chunk by chunk. -/
theorem repairing_deleteIndexKeys {keys : List Key} {I : List (List Key) → Store → Prop}
    (hI : ∀ rest, OfSlot t g (I rest)) (hfrayed : ∀ rest s, I rest s → Frayed jobs t g s)
    (hslot : ∀ k ∈ keys, k.InSlot t g)
    (hstep : ∀ chunk rest s, (∀ k ∈ chunk, k ∈ keys) → I (chunk :: rest) s →
      I rest (s.writeAll (chunk.map .del)))
    (hs : Ready jobs t g s ∧ I (keys.eraseDups.arrayChunk catalogScanChunkSize) s) :
    wp (exec scan i) (repairing scan i jobs t) (deleteIndexKeys t token source keys)
      (fun _ s => Ready jobs t g s ∧ I [] s) (fun _ => Clean jobs t) s := by
  refine wp_mono (fun _ s h => ⟨h.1, h.2.2⟩) (fun _ _ h => h) (wp_forEach (I := fun rest s =>
    Ready jobs t g s ∧ (∀ chunk ∈ rest, ∀ k ∈ chunk, k ∈ keys) ∧ I rest s)
    (fun chunk rest s hs => ?_) ⟨hs.1, fun chunk hchunk k hk => ?_, hs.2⟩)
  · obtain ⟨hready, hrest, hi⟩ := hs
    have hchunk := hrest chunk List.mem_cons_self
    refine wp_bind_of (Preserves.of_writes (steady_ready (hI _)) renewSynchronizationState_writes _
      ⟨hready, hi⟩) fun _ s hs => ?_
    refine wp_mono (fun _ s h => ⟨h.1, fun c hc => hrest c (List.mem_cons_of_mem chunk hc), h.2⟩)
      (fun _ _ h => h) (repairing_write (hI _) (fun w hw => ?_)
        (fun s hs => hstep chunk rest s hchunk hs) (hfrayed rest) hs)
    obtain ⟨k, hk, rfl⟩ := List.mem_map.mp hw
    exact hslot k (hchunk k hk)
  · exact List.mem_eraseDups.mp (List.mem_of_mem_arrayChunk hchunk hk)

/-- A slot without jobs in which only the dimensions `rest` hold anything. -/
structure Razed (jobs : String → RetainedJobMetadata) (t : RetainedJobType) (g : Generation)
    (rest : List FacetDimension) (s : Store) : Prop where
  loose : Loose jobs t g (fun d _ => d ∈ rest) (fun d _ => d ∈ rest) s
  projection : ∀ id, id ∉ s.zset (.projection t g)

/-- What is razed is told by the slot. -/
theorem ofSlot_razed {rest : List FacetDimension} : OfSlot t g (Razed jobs t g rest) := by
  refine fun s s' hsame h => ⟨h.loose.congr hsame, fun id => ?_⟩
  rw [hsame.projection]
  exact h.projection id

/-- Facets of the first dimension are deleted. -/
theorem Razed.deleteFacets {d : FacetDimension} {rest : List FacetDimension} {keys : List Key}
    (h : Razed jobs t g (d :: rest) s)
    (hkeys : ∀ k ∈ keys, ∃ value, k = .sortedSet (.facet t g d value)) :
    Razed jobs t g (d :: rest) (s.writeAll (keys.map .del)) := by
  refine ⟨h.loose.deleteKeys h.projection (fun d' hd' => ?_) (fun d' value hd' => ?_)
    fun _ _ _ hidle => hidle, fun id hid => h.projection id (Store.mem_zset_writeAll_del.mp hid).1⟩
  · obtain ⟨value, heq⟩ := hkeys _ hd'
    cases heq
  · obtain ⟨value', heq⟩ := hkeys _ hd'
    cases heq
    exact List.mem_cons_self

/-- The catalog of the first dimension is deleted, once its facets are empty. -/
theorem Razed.deleteCatalog {d : FacetDimension} {rest : List FacetDimension}
    (h : Razed jobs t g (d :: rest) s) (hempty : ∀ value id, id ∉ s.zset (.facet t g d value)) :
    Razed jobs t g rest (s.writeAll ([.catalog ⟨t, g, d⟩].map .del)) := by
  have hloose : Loose jobs t g (fun d' _ => d' ∈ d :: rest) (fun d' _ => d' ∈ rest)
      (s.writeAll ([.catalog ⟨t, g, d⟩].map .del)) := by
    refine h.loose.deleteKeys h.projection (fun d' hd' value id => ?_) (fun d' value hd' => ?_)
      fun d' value hd' hidle => ?_
    · cases List.mem_singleton.mp hd'
      exact hempty value id
    · cases List.mem_singleton.mp hd'
    · rcases List.mem_cons.mp hidle with rfl | hin
      · exact absurd List.mem_cons_self hd'
      · exact hin
  refine ⟨hloose.refine (fun d' value id hid hstray => Or.inr ?_) fun _ _ _ h => Or.inr h,
    fun id hid => h.projection id (Store.mem_zset_writeAll_del.mp hid).1⟩
  rcases List.mem_cons.mp hstray with rfl | hin
  · exact absurd (Store.mem_zset_writeAll_del.mp hid).1 (hempty value id)
  · exact hin

/-- One dimension: its facets are deleted while its catalog is scanned, then the catalog. -/
theorem repairing_razeDimension {d : FacetDimension} {rest : List FacetDimension}
    (hs : Ready jobs t g s ∧ Razed jobs t g (d :: rest) s) :
    wp (exec scan i) (repairing scan i jobs t) (do
      let catalog ← catalogKey (some (t, g)) t d
      forCatalogChunks index.fuel catalog fun values => do
        let facetKeys ← Prog.collect values (facetKey (some (t, g)) t d)
        deleteIndexKeys t token source (facetKeys.map .sortedSet)
      let catalog ← catalogKey (some (t, g)) t d
      deleteIndexKeys t token source [.catalog catalog])
      (fun _ s => Ready jobs t g s ∧ Razed jobs t g rest s) (fun _ => Clean jobs t) s := by
  rw [catalogKey_working, Prog.ret_bind]
  refine wp_bind_of ((reads_ready ofSlot_razed).forCatalogChunks
    (fun value s => ∀ id, id ∉ s.zset (.facet t g d value)) ?_ ?_ ?_ hs) fun _ s hs => ?_
  · intro value ls s s' hr hdone
    rw [(hr.slots g).facet]
    exact hdone
  · exact fun s value hs hv id hid => hv (hs.2.loose.cataloged d value id hid)
  · -- The facets of the chunk are emptied one transaction at a time: one of them is empty or still listed.
    intro before values s hs
    rw [collect_facetKey_working, Prog.ret_bind]
    obtain ⟨⟨hready, hrazed⟩, hbefore⟩ := hs
    have hslot : ∀ k ∈ (values.map (SortedSetKey.facet t g d)).map Key.sortedSet,
        ∃ value, k = .sortedSet (.facet t g d value) := by
      intro k hk
      rw [List.map_map] at hk
      obtain ⟨value, -, rfl⟩ := List.mem_map.mp hk
      exact ⟨value, rfl⟩
    refine wp_mono (fun _ s hs => ?_) (fun _ _ h => h) (repairing_deleteIndexKeys
      (I := fun rest' s => Razed jobs t g (d :: rest) s ∧ ∀ value, before value ∨ value ∈ values →
        (∀ id, id ∉ s.zset (.facet t g d value)) ∨
          .sortedSet (.facet t g d value) ∈ rest'.flatten)
      (fun rest' => ofSlot_razed.and (.forall fun value => .imp ?_))
      (fun _ _ hs => hs.1.loose.frayed) (fun k hk => ?_)
      (fun chunk rest' s hchunk hs => ⟨hs.1.deleteFacets fun k hk => hslot k (hchunk k hk), ?_⟩)
      ⟨hready, hrazed, fun value hv => ?_⟩)
    · obtain ⟨hready, hrazed, hdone⟩ := hs
      exact ⟨⟨hready, hrazed⟩, fun value hv => (hdone value hv).resolve_right List.not_mem_nil⟩
    · exact ofSlot_facet (p := fun z => (∀ id, id ∉ z) ∨
        Key.sortedSet (.facet t g d value) ∈ rest'.flatten)
    · obtain ⟨value, rfl⟩ := hslot k hk
      exact ⟨rfl, rfl⟩
    · intro value hv
      rcases hs.2 value hv with hempty | hin
      · exact Or.inl fun id hid => hempty id (Store.mem_zset_writeAll_del.mp hid).1
      · rw [List.flatten_cons, List.mem_append] at hin
        rcases hin with hin | hin
        · exact Or.inl fun id hid => (Store.mem_zset_writeAll_del.mp hid).2 hin
        · exact Or.inr hin
    · rcases hv with hv | hv
      · exact Or.inl (hbefore value hv)
      · rw [List.flatten_arrayChunk, List.mem_eraseDups, List.map_map]
        exact Or.inr (List.mem_map.mpr ⟨value, hv, rfl⟩)
  · -- No facet has a member left, so the catalog may go.
    obtain ⟨⟨hready, hrazed⟩, hempty⟩ := hs
    rw [Prog.ret_bind, deleteIndexKeys_eq [.catalog ⟨t, g, d⟩] rfl]
    have hof : OfSlot t g fun s => Razed jobs t g (d :: rest) s ∧
        ∀ value id, id ∉ s.zset (.facet t g d value) := ofSlot_razed.and
      (.forall fun value => .forall fun id => ofSlot_facet (p := fun z => id ∉ z))
    refine wp_bind_of (Preserves.of_writes (steady_ready hof) renewSynchronizationState_writes _
      ⟨hready, hrazed, hempty⟩) fun _ s hs => ?_
    refine repairing_write hof (fun w hw => ?_) (fun s hs => hs.1.deleteCatalog hs.2)
      (fun _ hs => hs.loose.frayed) hs
    rw [List.mem_singleton.mp hw]
    exact ⟨rfl, rfl⟩

/-- What a vacant slot holds. -/
theorem ofSlot_vacant : OfSlot t g (Vacant t g) := fun _ _ => Vacant.congr

/-- What an exact slot holds. -/
theorem ofSlot_exact : OfSlot t g (Exact jobs t g) := fun _ _ => Exact.congr

/-- A slot with nothing left over is exact. -/
theorem exact_iff_loose :
    Exact jobs t g s ↔ Loose jobs t g (fun _ _ => False) (fun _ _ => False) s :=
  ⟨Exact.loose, fun h => h.exact (fun _ _ h => h) fun _ _ h => h⟩

/-- Deletions of facets keep a vacant slot ready. -/
theorem deleteIndexKeys_vacant {keys : List Key} (hslot : ∀ k ∈ keys, k.InSlot t g) :
    Preserves scan i jobs t (fun s => Ready jobs t g s ∧ Vacant t g s)
      (deleteIndexKeys t token source keys) := by
  refine .forEach fun chunk hchunk => .bind
    (.of_writes (steady_ready ofSlot_vacant) renewSynchronizationState_writes) fun _ => ?_
  refine fun s hs => repairing_write ofSlot_vacant (fun w hw => ?_)
    (fun s hs => hs.deleteKeys chunk) (fun _ hs => hs.exact.loose) hs
  obtain ⟨k, hk, rfl⟩ := List.mem_map.mp hw
  exact hslot k (List.mem_eraseDups.mp (List.mem_of_mem_arrayChunk hchunk hk))

/-- **Rebuilding** makes a slot exact, whatever was left over in it. -/
theorem rebuildTypeIndex_exact {requiredFacets : List (FacetDimension × String)}
    (hs : Ready jobs t g s) :
    wp (exec scan i) (repairing scan i jobs t)
      (index.rebuildTypeIndex (some (t, g)) t token requiredFacets source)
      (fun _ s => Ready jobs t g s ∧ Exact jobs t g s) (fun _ => Clean jobs t) s := by
  have hrenew : ∀ {Φ : Store → Prop}, OfSlot t g Φ → Preserves scan i jobs t
      (fun s => Ready jobs t g s ∧ Φ s) (renewSynchronizationState t token source) :=
    fun hΦ => .of_writes (steady_ready hΦ) renewSynchronizationState_writes
  rw [rebuildTypeIndex, projectionKey_working, Prog.ret_bind, unresolvedKey_working, Prog.ret_bind,
    deleteIndexKeys_eq [.sortedSet (.projection t g), .sortedSet (.unresolved t g)]
      (by simp [List.eraseDups_cons, List.arrayChunk, List.arrayChunkFrom, catalogScanChunkSize])]
  refine wp_bind_of (Q := fun _ s => Ready jobs t g s ∧
    (Loose jobs t g (fun _ _ => True) (fun _ _ => True) s ∧
      ∀ id, id ∉ s.zset (.projection t g))) ?_ fun _ s hs => ?_
  · refine wp_bind_of (hrenew ofSlot_loose s ⟨hs, hs.frayed g⟩) fun _ s hs => ?_
    refine repairing_write ofSlot_loose (fun w hw => ?_) (fun s hs =>
      hs.deleteProjection List.mem_cons_self ?_ ?_) (fun _ hs => hs.1) hs
    · simp only [List.map_cons, List.map_nil, List.mem_cons, List.not_mem_nil, or_false] at hw
      rcases hw with rfl | rfl <;> exact ⟨rfl, rfl⟩
    · simp
    · simp
  refine wp_bind_of (Q := fun _ s => Ready jobs t g s ∧ Vacant t g s) ?_ fun _ s hs => ?_
  · refine wp_mono (fun _ s hs => ?_) (fun _ _ h => h)
      (wp_forEach (I := fun rest s => Ready jobs t g s ∧ Razed jobs t g rest s)
        (fun d rest s hs => repairing_razeDimension index hs) ⟨hs.1, hs.2.1.refine
          (fun d _ _ _ _ => Or.inr (FacetDimension.mem_cases d))
          fun d _ _ _ => Or.inr (FacetDimension.mem_cases d), hs.2.2⟩)
    exact ⟨hs.1, hs.2.loose.vacant hs.2.projection (fun _ _ h => List.not_mem_nil h)
      fun _ _ h => List.not_mem_nil h⟩
  simp only [collect_facetKeys_working, Prog.ret_bind]
  refine wp_bind_of (deleteIndexKeys_vacant (fun k hk => ?_) s hs) fun _ s hs => ?_
  · rw [List.map_map] at hk
    obtain ⟨f, -, rfl⟩ := List.mem_map.mp hk
    exact ⟨rfl, rfl⟩
  refine wp_bind_of (addMissingJobs_preserves index s ⟨hs.1, exact_iff_loose.mp hs.2.exact⟩)
    fun _ s hs => ?_
  exact hrenew ofSlot_exact s ⟨hs.1, exact_iff_loose.mpr hs.2⟩

end RetainedJobIndex

end HorizonNewDawn

import HorizonNewDawn.Jobs.RetainedJobIndex.PublishedCandidate
import Mathlib

/-! # The retained-job index: filtered pages and counts

A list without a filter is read off the live source. A filtered one is read off a candidate, live or
published. Either way a page holds the next jobs of the listing of exactly the jobs the filter is about,
and a count is their number, whatever the others do to the index meanwhile. -/

namespace HorizonNewDawn

open Program SortedSet

namespace RetainedJobIndex

variable (index : RetainedJobIndex)

/-! ## The programs -/

/-- `pageIds` -/
def pageIds (lower : String → String) (trimmed synchronized : Bool) (t : RetainedJobType)
    (facets : List (FacetDimension × String)) (additionalIds : Option IdSet)
    (after : Option RetainedJobPosition) (limit : ℕ) (search : Option String) : Redis ScoredPage :=
  let search := Php.trim (search.getD "")
  let candidatePage := index.withCandidateKey lower trimmed synchronized t facets additionalIds search
    fun k => sourcePage t k after limit
  if facets = [] ∧ search = "" then
    match additionalIds with
    | none => sourcePage t (.source t) after limit
    | some additionalIds => pageAdditionalIdsFromSource none t additionalIds after limit
  else candidatePage

/-- `pageIdsExcluding` -/
def pageIdsExcluding (lower : String → String) (trimmed synchronized : Bool) (t : RetainedJobType)
    (facets : List (FacetDimension × String)) (additionalIds : Option IdSet)
    (excludeIds : List String) (after : Option RetainedJobPosition) (limit : ℕ)
    (search : Option String) : Redis ScoredPage :=
  if excludeIds = [] then
    index.pageIds lower trimmed synchronized t facets additionalIds after limit search
  else
    let search := Php.trim (search.getD "")
    if facets = [] ∧ additionalIds.isNone ∧ search = "" then
      sourcePageExcluding t (.source t) excludeIds after limit
    else
      index.withCandidateKey lower trimmed synchronized t facets additionalIds search
        fun k => sourcePageExcluding t k excludeIds after limit

/-- `pageIdsFromPublishedIndex` -/
def pageIdsFromPublishedIndex (t : RetainedJobType) (facets : List (FacetDimension × String))
    (additionalIds : Option IdSet) (after : Option RetainedJobPosition) (limit : ℕ) :
    Redis ScoredPage :=
  withPublishedCandidateKey t facets additionalIds fun k => sourcePage t k after limit

/-- `pageIdsFromPublishedIndexExcluding` -/
def pageIdsFromPublishedIndexExcluding (t : RetainedJobType)
    (facets : List (FacetDimension × String)) (additionalIds : Option IdSet)
    (excludeIds : List String) (after : Option RetainedJobPosition) (limit : ℕ) :
    Redis ScoredPage :=
  if excludeIds = [] then pageIdsFromPublishedIndex t facets additionalIds after limit
  else withPublishedCandidateKey t facets additionalIds
    fun k => sourcePageExcluding t k excludeIds after limit

/-- `number_format($value, 6, '.', '')`, as the number it spells: six decimals, halves away from
zero. -/
def numberFormat (value : ℚ) : ℚ :=
  let units := value * 10 ^ 6
  (if 0 ≤ value then ⌊units + 1 / 2⌋ else -⌊-units + 1 / 2⌋) / 10 ^ 6

/-- `sortedSetCountSince`; the scores are the negated times. -/
def sortedSetCountSince (k : SortedSetKey) (since : ℚ) : Redis ℕ :=
  sortedSetCountBetween k .negInf (.inclusive (numberFormat (-since)))

/-- The number of jobs since some time, or of all of them. -/
def countOf (since : Option ℚ) (k : SortedSetKey) : Redis ℕ :=
  match since with
  | none => sortedSetCount k
  | some since => sortedSetCountSince k since

/-- `count` -/
def count (lower : String → String) (trimmed synchronized : Bool) (t : RetainedJobType)
    (facets : List (FacetDimension × String)) (additionalIds : Option IdSet) (since : Option ℚ) :
    Redis ℕ :=
  if facets = [] ∧ additionalIds.isNone then countOf since (.source t)
  else index.withCandidateKey lower trimmed synchronized t facets additionalIds "" (countOf since)

/-- `array{total: int, hour: int, day: int}` -/
structure PeriodCounts where
  total : ℕ
  hour : ℕ
  day : ℕ
  deriving DecidableEq

/-- The counts of one sorted set. -/
def periodCountsOf (hourCutoff dayCutoff : ℚ) (k : SortedSetKey) : Redis PeriodCounts := do
  let total ← sortedSetCount k
  let hour ← sortedSetCountSince k hourCutoff
  let day ← sortedSetCountSince k dayCutoff
  return ⟨total, hour, day⟩

/-- `periodCounts` -/
def periodCounts (lower : String → String) (trimmed synchronized : Bool) (t : RetainedJobType)
    (facets : List (FacetDimension × String)) (hourCutoff dayCutoff : ℚ) : Redis PeriodCounts :=
  if facets = [] then periodCountsOf hourCutoff dayCutoff (.source t)
  else index.withCandidateKey lower trimmed synchronized t facets none ""
    (periodCountsOf hourCutoff dayCutoff)

/-- `periodCountsFromPublishedIndex` -/
def periodCountsFromPublishedIndex (t : RetainedJobType) (facets : List (FacetDimension × String))
    (hourCutoff dayCutoff : ℚ) : Redis PeriodCounts :=
  withPublishedCandidateKey t facets none (periodCountsOf hourCutoff dayCutoff)

/-- `catalogValuesFromPublishedIndex` -/
def catalogValuesFromPublishedIndex (t : RetainedJobType) (d : FacetDimension) :
    Redis (List String) := do
  match ← publishedState t with
  | none => .fail .retainedJobIndexWarming
  | some state => do
      let values : List String ← command (.smembers ⟨t, state.generation, d⟩)
      if (← publishedState t) ≠ some state then .fail .retainedJobIndexWarming
      else return values

variable {rank : Option PublishedState → ℕ} {i : ProcessId} {t : RetainedJobType}
  {scan : ScanOrder} {facets : List (FacetDimension × String)} {additionalIds : Option IdSet}
  {lower : String → String} {trimmed synchronized : Bool} {after : Option RetainedJobPosition}
  {limit : ℕ} {search : Option String} {excludeIds : List String} {k : SortedSetKey} {z : ZSet}
  {page : ScoredPage} {hourCutoff dayCutoff : ℚ} {counts : PeriodCounts}

/-! ## One page, one count -/

/-- A page of the listing of a set without the excluded ids. -/
structure IsPage (z : ZSet) (reverse : Bool) (excludeIds : List String)
    (after : Option RetainedJobPosition) (limit : ℕ) (page : ScoredPage) : Prop where
  ids : page.ids = ((included excludeIds (unread z reverse after)).take limit).map Prod.fst
  total : page.total = z.card
  currentOffset : page.currentOffset = after.elim 0 (·.offset)
  last : page.next = none → (included excludeIds (unread z reverse after)).length ≤ limit
  more : ∀ p ∈ page.next, p.score ≠ none ∧
    included excludeIds (unread z reverse (some p)) =
      (included excludeIds (unread z reverse after)).drop limit

/-- The result on a set is the one in a store that holds nothing else. -/
theorem ResultOn.eval {α : Type} {p : Redis α} {a : α} (h : ResultOn scan i k z p a) :
    p.eval (exec scan i) (Store.empty.setZset k z) = (.returned a, Store.empty.setZset k z) :=
  h _ rfl ((Store.setZset_zset).trans (if_pos rfl))

/-- Nothing is excluded where no id is given. -/
theorem included_nil (rows : List (String × ℚ)) : included [] rows = rows :=
  List.filter_eq_self.mpr fun _ _ => by simp

/-- A page that is read off a set is a page of the set, without the excluded ids. -/
theorem ResultOn.isPage_excluding (hlimit : 1 ≤ limit) (hscore : ∀ p ∈ after, p.score ≠ none)
    (hmembers : ∀ id ∈ z, isIntegerKey id = false)
    (h : ResultOn scan i k z (sourcePageExcluding t k excludeIds after limit) page) :
    IsPage z (!t.newestFirst) excludeIds after limit page := by
  have hzset : (Store.empty.setZset k z).zset k = z := (Store.setZset_zset).trans (if_pos rfl)
  obtain ⟨next, hleads, heval, -⟩ := eval_sourcePageExcluding (s := Store.empty.setZset k z) (k := k)
    scan i t excludeIds rfl (by rwa [hzset]) hscore hlimit
  rw [hzset, h.eval, Prod.mk.injEq, Outcome.returned.injEq] at heval
  rw [hzset] at hleads
  obtain ⟨rfl, -⟩ := heval
  refine ⟨rfl, rfl, rfl, hleads.last, fun p hp => ?_⟩
  obtain ⟨hpscore, hmore, -⟩ := hleads.more p hp
  exact ⟨hpscore, hmore⟩

/-- A page that is read off a set is a page of the set. -/
theorem ResultOn.isPage (hlimit : 1 ≤ limit) (hscore : ∀ p ∈ after, p.score ≠ none)
    (hmembers : ∀ id ∈ z, isIntegerKey id = false)
    (h : ResultOn scan i k z (sourcePage t k after limit) page) :
    IsPage z (!t.newestFirst) [] after limit page := by
  have hzset : (Store.empty.setZset k z).zset k = z := (Store.setZset_zset).trans (if_pos rfl)
  have heval := h.eval.symm.trans (eval_sourcePage rfl (by rwa [hzset]) hscore)
  rw [hzset, Prod.mk.injEq, Outcome.returned.injEq] at heval
  obtain ⟨rfl, -⟩ := heval
  obtain ⟨hnone, hsome⟩ := rawNext_eq z (!t.newestFirst) after hlimit
  refine ⟨?_, rfl, rfl, fun hnext => ?_, fun p hp => ?_⟩
  · rw [included_nil, ids_scoredPageResult]
  · rw [included_nil]
    exact hnone hnext
  · obtain ⟨hpscore, -, hdrop⟩ := hsome p hp
    rw [included_nil, included_nil]
    exact ⟨hpscore, hdrop⟩

/-- The number of jobs of a set since some time. -/
def countSince (z : ZSet) (since : ℚ) : ℕ :=
  z.entries.countP fun e => e.2 ≤ numberFormat (-since)

/-- The count since a cutoff. -/
theorem eval_sortedSetCountSince {s : Store} (hs : s.failing = false) (since : ℚ) :
    (sortedSetCountSince k since).eval (exec scan i) s =
      (.returned (countSince (s.zset k) since), s) := by
  apply (eval_command hs (.zcount k .negInf (.inclusive (numberFormat (-since))))).trans
  simp [Command.answer, ScoreBound.isAbove, ScoreBound.isBelow, countSince, Command.effect]
  rfl

/-- Counts that are read off a set are those of the set. -/
theorem ResultOn.periodCounts (h : ResultOn scan i k z (periodCountsOf hourCutoff dayCutoff k) counts) :
    counts = ⟨z.card, countSince z hourCutoff, countSince z dayCutoff⟩ := by
  have hzset : (Store.empty.setZset k z).zset k = z := (Store.setZset_zset).trans (if_pos rfl)
  have heval := h.eval
  rw [periodCountsOf, Prog.eval_bind_of (eval_sortedSetCount rfl),
    Prog.eval_bind_of (eval_sortedSetCountSince rfl hourCutoff),
    Prog.eval_bind_of (eval_sortedSetCountSince rfl dayCutoff), hzset] at heval
  exact (Outcome.returned.inj (congrArg Prod.fst heval)).symm

/-- The counts are read off one set. -/
theorem readsKey_periodCountsOf (k : SortedSetKey) :
    ReadsKey k (periodCountsOf hourCutoff dayCutoff k) := by
  apply ReadsKey.bind (.command .zcard)
  intro total
  apply ReadsKey.bind (.command (.zcount _ _))
  intro hour
  exact ReadsKey.bind (.command (.zcount _ _)) fun _ => trivial

/-! ## Filtered pages -/

section Live

variable {jobs : String → RetainedJobMetadata} {α : Type} {callback : SortedSetKey → Redis α}

/-- What holds of the result of a callback on the candidate of a filter that is read off an exact
slot. -/
def OnCandidate (lower : String → String) (jobs : String → RetainedJobMetadata) (t : RetainedJobType)
    (facets : List (FacetDimension × String)) (additionalIds : Option IdSet) (search : String)
    (R : ZSet → Prop) (history : List (Command × Store)) : Prop :=
  ∃ retained at₁, Inspected t history retained at₁ ∧
    (Agrees jobs t at₁ → (∀ id ∈ at₁.zset (.temporary retained), isIntegerKey id = false) →
      ∃ z, IsCandidate lower jobs t facets additionalIds search at₁ retained z ∧ R z)

/-- A reader of one set that is handed a candidate. -/
theorem withCandidateKey_selected {search : String} {R : α → ZSet → Prop}
    (hcallback : ∀ k, ReadsKey k (callback k))
    (hR : ∀ k z a, ResultOn scan i k z (callback k) a → (∀ id ∈ z, isIntegerKey id = false) → R a z)
    {x : Recorded Command Store} :
    wp (recording (exec scan i)) (advancingUnused rank i t).recorded
      (index.withCandidateKey lower trimmed synchronized t facets additionalIds search callback)
      (fun a y => OnCandidate lower jobs t facets additionalIds search (R a) y.2)
      (fun _ _ => True) x := by
  apply wp_mono _ (fun _ _ h => h) (withCandidateKey_read index hcallback)
  intro a y hread
  obtain ⟨retained, at₁, hinspected, k, z, hresult, hz⟩ := hread.isCandidate jobs
  refine ⟨retained, at₁, hinspected, fun hagrees hmembers => ?_⟩
  refine ⟨z, hz hagrees, hR k z a hresult fun id hid => ?_⟩
  obtain ⟨x, hx⟩ := exists_score hid
  exact hmembers id (mem_of_score ((hz hagrees id x).mp hx).1)

/-- **A page of a candidate** along every run, with a record of its commands. -/
theorem pageIdsExcluding_wp (hfilter : facets ≠ [] ∨ Php.trim (search.getD "") ≠ "")
    (hlimit : 1 ≤ limit) (hscore : ∀ p ∈ after, p.score ≠ none) {x : Recorded Command Store} :
    wp (recording (exec scan i)) (advancingUnused rank i t).recorded
      (index.pageIdsExcluding lower trimmed synchronized t facets additionalIds excludeIds after limit
        search)
      (fun page y => OnCandidate lower jobs t facets additionalIds (Php.trim (search.getD ""))
        (fun z => IsPage z (!t.newestFirst) excludeIds after limit page) y.2)
      (fun _ _ => True) x := by
  unfold pageIdsExcluding
  split
  · rename_i hnil
    subst hnil
    simp only [pageIds]
    rw [if_neg fun h => hfilter.elim (fun hf => hf h.1) fun hsearch => hsearch h.2]
    exact withCandidateKey_selected index (fun k => .sourcePage t after limit)
      fun k z page h hmembers => h.isPage hlimit hscore hmembers
  · simp only
    rw [if_neg fun h => hfilter.elim (fun hf => hf h.1) fun hsearch => hsearch h.2.2]
    exact withCandidateKey_selected index (fun k => .sourcePageExcluding t excludeIds after limit)
      fun k z page h hmembers => h.isPage_excluding hlimit hscore hmembers

/-- **A filtered page is exact under interference.** In every run of `pageIdsExcluding` with a facet
or a search in which the others replace the published state by newer states only and leave a published
slot as it is, a page that is returned was read off one published slot: when that slot agrees with the
metadata, the page holds the first jobs behind its position that are not excluded, in the listing of
exactly those projected jobs of a snapshot of the source that the filter is about, it counts all of
these, and its next position stands for exactly the ones that are left. -/
theorem pageIdsExcluding_selected (hfilter : facets ≠ [] ∨ Php.trim (search.getD "") ≠ "")
    (hlimit : 1 ≤ limit) (hscore : ∀ p ∈ after, p.score ≠ none) {s : Store}
    {y : Recorded Command Store}
    (hrun : Run (recording (exec scan i)) (advancingUnused rank i t).recorded.rely
      (advancingUnused rank i t).recorded.assume
      (index.pageIdsExcluding lower trimmed synchronized t facets additionalIds excludeIds after limit
        search, (s, [])) (.ret page, y)) :
    ∃ retained at₁, Inspected t y.2 retained at₁ ∧
      (Agrees jobs t at₁ → (∀ id ∈ at₁.zset (.temporary retained), isIntegerKey id = false) →
        ∃ z, IsCandidate lower jobs t facets additionalIds (Php.trim (search.getD "")) at₁ retained z ∧
          IsPage z (!t.newestFirst) excludeIds after limit page) := by
  refine hrun.sound (Q := fun page y => OnCandidate lower jobs t facets additionalIds
    (Php.trim (search.getD "")) (fun z => IsPage z (!t.newestFirst) excludeIds after limit page) y.2)
    (fun page x x' hr h => ?_) (fun _ _ _ _ h => h)
    (pageIdsExcluding_wp index hfilter hlimit hscore)
  rw [hr.2]
  exact h

/-- **Filtered counts are exact under interference**: the jobs of the candidate, and those of them
that are not older than the cutoffs. -/
theorem periodCounts_selected (hfacets : facets ≠ []) {s : Store} {y : Recorded Command Store}
    (hrun : Run (recording (exec scan i)) (advancingUnused rank i t).recorded.rely
      (advancingUnused rank i t).recorded.assume
      (index.periodCounts lower trimmed synchronized t facets hourCutoff dayCutoff, (s, []))
      (.ret counts, y)) :
    ∃ retained at₁, Inspected t y.2 retained at₁ ∧
      (Agrees jobs t at₁ → (∀ id ∈ at₁.zset (.temporary retained), isIntegerKey id = false) →
        ∃ z, IsCandidate lower jobs t facets none "" at₁ retained z ∧
          counts = ⟨z.card, countSince z hourCutoff, countSince z dayCutoff⟩) := by
  refine hrun.sound (Q := fun counts y => OnCandidate lower jobs t facets none ""
    (fun z => counts = ⟨z.card, countSince z hourCutoff, countSince z dayCutoff⟩) y.2)
    (E := fun _ _ => True) (fun counts x x' hr h => ?_) (fun _ _ _ _ h => h) ?_
  · rw [hr.2]
    exact h
  · show wp _ _ (index.periodCounts lower trimmed synchronized t facets hourCutoff dayCutoff) _ _ _
    unfold RetainedJobIndex.periodCounts
    rw [if_neg hfacets]
    exact withCandidateKey_selected index readsKey_periodCountsOf fun k z counts h _ => h.periodCounts

end Live

/-! ## Published pages -/

section Published

variable {jobs : String → RetainedJobMetadata} {α : Type} {callback : SortedSetKey → Redis α}
  {at₁ : Store}

/-- The candidate of a published slot: the projected jobs with the values of the facets that are among
the ids that are given, with the scores they have in the first of the sets that are intersected. -/
structure IsPublishedCandidate (jobs : String → RetainedJobMetadata) (t : RetainedJobType)
    (facets : List (FacetDimension × String)) (additionalIds : Option IdSet) (at₁ : Store)
    (z : ZSet) : Prop where
  mem_iff : ∀ id, id ∈ z ↔ id ∈ at₁.zset (.projection t (at₁.publishedGeneration t)) ∧
    (∀ f ∈ facets, f.2 ∈ facetValues t (jobs id) f.1) ∧ ∀ ids ∈ additionalIds, id ∈ ids.ids
  score : ∀ k₀ ∈ (slotKeys t (at₁.publishedGeneration t) facets).head?, ∀ id ∈ z,
    z.score id = (at₁.zset k₀).score id

/-- The members of the first set that are in all the facets are the projected jobs with their
values. -/
theorem PublishedExact.mem_slotKeys_head (h : PublishedExact jobs t at₁) {k₀ : SortedSetKey}
    (hk₀ : k₀ ∈ (slotKeys t (at₁.publishedGeneration t) facets).head?) (id : String) :
    (id ∈ at₁.zset k₀ ∧
        ∀ f ∈ facets, id ∈ at₁.zset (.facet t (at₁.publishedGeneration t) f.1 f.2)) ↔
      id ∈ at₁.zset (.projection t (at₁.publishedGeneration t)) ∧
        ∀ f ∈ facets, f.2 ∈ facetValues t (jobs id) f.1 := by
  have hfacet : ∀ f : FacetDimension × String,
      id ∈ at₁.zset (.facet t (at₁.publishedGeneration t) f.1 f.2) ↔
        id ∈ at₁.zset (.projection t (at₁.publishedGeneration t)) ∧
          f.2 ∈ facetValues t (jobs id) f.1 := fun f => h.facets f.1 f.2 id
  rcases facets with _ | ⟨f, rest⟩
  · have hprojection : SortedSetKey.projection t (at₁.publishedGeneration t) = k₀ := by
      simpa [slotKeys] using hk₀
    rw [← hprojection]
    simp
  · have hfirst : SortedSetKey.facet t (at₁.publishedGeneration t) f.1 f.2 = k₀ := by
      simpa [slotKeys] using hk₀
    rw [← hfirst]
    simp only [hfacet, List.forall_mem_cons]
    constructor
    · rintro ⟨⟨hprojection, hvalue⟩, -, hrest⟩
      exact ⟨hprojection, hvalue, fun f' hf' => (hrest f' hf').2⟩
    · rintro ⟨hprojection, hvalue, hrest⟩
      exact ⟨⟨hprojection, hvalue⟩, ⟨hprojection, hvalue⟩, fun f' hf' => ⟨hprojection, hrest f' hf'⟩⟩

/-- A reader of one set that is handed a published candidate. -/
theorem withPublishedCandidateKey_selected {R : α → ZSet → Prop}
    (hcallback : ∀ k, ReadsKey k (callback k))
    (hR : ∀ k z a, ResultOn scan i k z (callback k) a → (∀ id ∈ z, isIntegerKey id = false) → R a z)
    {x : Recorded Command Store} :
    wp (recording (exec scan i)) (advancingUnused rank i t).recorded
      (withPublishedCandidateKey t facets additionalIds callback)
      (fun a y => ∃ c at₁, (c, at₁) ∈ y.2 ∧ (at₁.publishedState t).isSome ∧
        (PublishedExact jobs t at₁ →
          (∀ id ∈ at₁.zset (.projection t (at₁.publishedGeneration t)), isIntegerKey id = false) →
          ∃ z, IsPublishedCandidate jobs t facets additionalIds at₁ z ∧ R a z))
      (fun _ _ => True) x := by
  apply wp_mono _ (fun _ _ h => h) (withPublishedCandidateKey_read hcallback)
  rintro a y ⟨c, at₁, hc, hpublished, k, z, hresult, hz⟩
  refine ⟨c, at₁, hc, hpublished, fun hexact hmembers => ?_⟩
  obtain ⟨k₀, hk₀⟩ := Option.isSome_iff_exists.mp
    (List.isSome_head?.mpr (slotKeys_ne_nil t (at₁.publishedGeneration t) facets))
  simp only [hk₀, Option.mem_some_iff, exists_eq_left'] at hz
  have hmem : ∀ id, id ∈ z ↔ id ∈ at₁.zset (.projection t (at₁.publishedGeneration t)) ∧
      (∀ f ∈ facets, f.2 ∈ facetValues t (jobs id) f.1) ∧ ∀ ids ∈ additionalIds, id ∈ ids.ids := by
    intro id
    have hhead := hexact.mem_slotKeys_head hk₀ id
    rw [← and_assoc, ← hhead]
    constructor
    · intro hid
      obtain ⟨x, hx⟩ := exists_score hid
      obtain ⟨hfirst, hfacets, hids⟩ := (hz id x).mp hx
      exact ⟨⟨mem_of_score hfirst, hfacets⟩, hids⟩
    · rintro ⟨⟨hfirst, hfacets⟩, hids⟩
      obtain ⟨x, hx⟩ := exists_score hfirst
      exact mem_of_score ((hz id x).mpr ⟨hx, hfacets, hids⟩)
  refine ⟨z, ⟨hmem, fun k hk id hid => ?_⟩, hR k z a hresult fun id hid => ?_⟩
  · obtain rfl : k₀ = k := by
      rw [hk₀] at hk
      exact Option.some.inj hk
    obtain ⟨x, hx⟩ := exists_score hid
    rw [hx, ((hz id x).mp hx).1]
  · exact hmembers id ((hmem id).mp hid).1

/-- **A published page is exact under interference.** In every run of
`pageIdsFromPublishedIndexExcluding` in which the others replace the published state by newer states
only and leave a published slot as it is, a page that is returned was read off one slot that was
published in the course of the call: when that slot is exact, the page holds the first jobs behind its
position that are not excluded, in the listing of exactly the projected jobs the filter is about. -/
theorem pageIdsFromPublishedIndexExcluding_selected (hlimit : 1 ≤ limit)
    (hscore : ∀ p ∈ after, p.score ≠ none) {s : Store} {y : Recorded Command Store}
    (hrun : Run (recording (exec scan i)) (advancingUnused rank i t).recorded.rely
      (advancingUnused rank i t).recorded.assume
      (pageIdsFromPublishedIndexExcluding t facets additionalIds excludeIds after limit, (s, []))
      (.ret page, y)) :
    ∃ c at₁, (c, at₁) ∈ y.2 ∧ (at₁.publishedState t).isSome ∧
      (PublishedExact jobs t at₁ →
        (∀ id ∈ at₁.zset (.projection t (at₁.publishedGeneration t)), isIntegerKey id = false) →
        ∃ z, IsPublishedCandidate jobs t facets additionalIds at₁ z ∧
          IsPage z (!t.newestFirst) excludeIds after limit page) := by
  refine hrun.sound (Q := fun page y => ∃ c at₁, (c, at₁) ∈ y.2 ∧ (at₁.publishedState t).isSome ∧
    (PublishedExact jobs t at₁ →
      (∀ id ∈ at₁.zset (.projection t (at₁.publishedGeneration t)), isIntegerKey id = false) →
      ∃ z, IsPublishedCandidate jobs t facets additionalIds at₁ z ∧
        IsPage z (!t.newestFirst) excludeIds after limit page)) (E := fun _ _ => True)
    (fun page x x' hr h => ?_) (fun _ _ _ _ h => h) ?_
  · rw [hr.2]
    exact h
  · show wp _ _ (pageIdsFromPublishedIndexExcluding t facets additionalIds excludeIds after limit) _ _ _
    unfold pageIdsFromPublishedIndexExcluding
    split
    · rename_i hnil
      subst hnil
      exact withPublishedCandidateKey_selected (fun k => .sourcePage t after limit)
        fun k z page h hmembers => h.isPage hlimit hscore hmembers
    · exact withPublishedCandidateKey_selected (fun k => .sourcePageExcluding t excludeIds after limit)
        fun k z page h hmembers => h.isPage_excluding hlimit hscore hmembers

/-- **Published counts are exact under interference.** -/
theorem periodCountsFromPublishedIndex_selected {s : Store} {y : Recorded Command Store}
    (hrun : Run (recording (exec scan i)) (advancingUnused rank i t).recorded.rely
      (advancingUnused rank i t).recorded.assume
      (periodCountsFromPublishedIndex t facets hourCutoff dayCutoff, (s, [])) (.ret counts, y)) :
    ∃ c at₁, (c, at₁) ∈ y.2 ∧ (at₁.publishedState t).isSome ∧
      (PublishedExact jobs t at₁ →
        (∀ id ∈ at₁.zset (.projection t (at₁.publishedGeneration t)), isIntegerKey id = false) →
        ∃ z, IsPublishedCandidate jobs t facets none at₁ z ∧
          counts = ⟨z.card, countSince z hourCutoff, countSince z dayCutoff⟩) := by
  refine hrun.sound (Q := fun counts y => ∃ c at₁, (c, at₁) ∈ y.2 ∧ (at₁.publishedState t).isSome ∧
    (PublishedExact jobs t at₁ →
      (∀ id ∈ at₁.zset (.projection t (at₁.publishedGeneration t)), isIntegerKey id = false) →
      ∃ z, IsPublishedCandidate jobs t facets none at₁ z ∧
        counts = ⟨z.card, countSince z hourCutoff, countSince z dayCutoff⟩)) (E := fun _ _ => True)
    (fun counts x x' hr h => ?_) (fun _ _ _ _ h => h) ?_
  · rw [hr.2]
    exact h
  · exact withPublishedCandidateKey_selected readsKey_periodCountsOf
      fun k z counts h _ => h.periodCounts

/-- The values are the catalog of a slot that was published in the course of the call. -/
theorem catalogValuesFromPublishedIndex_wp {d : FacetDimension} {x : Recorded Command Store} :
    wp (recording (exec scan i)) (advancingUnused rank i t).recorded
      (catalogValuesFromPublishedIndex t d)
      (fun values y => ∃ c at₁, (c, at₁) ∈ y.2 ∧ (at₁.publishedState t).isSome ∧
        values = at₁.catalog ⟨t, at₁.publishedGeneration t, d⟩) (fun _ _ => True) x := by
  apply wp_bind_of publishedState_recording
  rintro st y ⟨hst, c, hc⟩
  cases st with
  | none => trivial
  | some p =>
      -- The fence is the published state that was read first: once it is lost, it stays lost.
      have hfence : Fence (exec scan i) (drawing rank i t) (advancingUnused rank i t)
          (Allows (Key.Unpublishing t)) (fun s => s.publishedState t = some p)
          (Stale rank t (some p)) := fence.assuming
      have hwrites : Writes (Key.Unpublishing t) (command (.smembers ⟨t, p.generation, d⟩)) :=
        .read rfl
      have hread : wp (exec scan i) (advancingUnused rank i t) (do
          let values : List String ← command (.smembers ⟨t, p.generation, d⟩)
          if (← publishedState t) ≠ some p then .fail .retainedJobIndexWarming
          else return values : Redis (List String))
          (fun values _ => y.1.publishedState t = some p ∧
            values = y.1.catalog ⟨t, y.1.publishedGeneration t, d⟩) (fun _ _ => True) y.1 := by
        apply wp_bind_of (Q := fun values s => Stale rank t (some p) s ∨
          y.1.publishedState t = some p ∧
            values = y.1.catalog ⟨t, y.1.publishedGeneration t, d⟩)
        · rcases hst with hfresh | hstale
          · have hkeeping : Keeping i t (some p) y.1 (fun _ => none) y.1 :=
              ⟨hfresh, .refl y.1, fun k z hk => by cases hk⟩
            have halone : wp (exec scan i) (undisturbed rank i t)
                (command (.smembers ⟨t, p.generation, d⟩) : Redis (List String)) _ _ y.1 :=
              Keeping.reads.command (c := .smembers ⟨t, p.generation, d⟩) (fun _ => rfl) hkeeping
            have hcatalog := wp_assuming (A := Unused i) halone
            apply wp_mono _ (fun _ _ _ => trivial) (wp_fenced hfence hwrites hfresh hcatalog)
            rintro values s (hstale | ⟨-, rfl, hs⟩)
            · exact Or.inl hstale
            · have hgeneration : y.1.publishedGeneration t = p.generation :=
                congrArg generationFromPublishedState hfresh
              rw [hgeneration]
              exact Or.inr ⟨hfresh, hs.slot.catalog d⟩
          · exact wp_mono (fun _ _ hs => Or.inl hs) (fun _ _ _ => trivial)
              (hfence.wp_stale hwrites hstale)
        · rintro values s (hstale | hvalues)
          · -- The fence was lost, and the second read of the state notices.
            apply wp_bind_of (wp_assuming (publishedState_stale hstale))
            intro st s hst
            rw [if_pos hst]
            trivial
          · apply wp_bind_of (Q := fun _ _ => True)
              (wp_mono (fun _ _ _ => trivial) (fun _ _ _ => trivial)
                (Program.wp_trivial (D := advancingUnused rank i t) fun _ _ _ _ => trivial))
            intro st s _
            split
            · trivial
            · exact hvalues
      apply wp_mono _ (fun _ _ _ => trivial) (wp_recording hread)
      rintro values z ⟨⟨hat, rfl⟩, hsub⟩
      exact ⟨c, y.1, hsub hc, by simp [hat], rfl⟩

/-- **Published catalogs are exact under interference**: when the slot that was published is exact,
the values are those of the projected jobs. -/
theorem catalogValuesFromPublishedIndex_exact {d : FacetDimension} {values : List String}
    {s : Store} {y : Recorded Command Store}
    (hrun : Run (recording (exec scan i)) (advancingUnused rank i t).recorded.rely
      (advancingUnused rank i t).recorded.assume (catalogValuesFromPublishedIndex t d, (s, []))
      (.ret values, y)) :
    ∃ c at₁, (c, at₁) ∈ y.2 ∧ (at₁.publishedState t).isSome ∧
      (PublishedExact jobs t at₁ → ∀ v, v ∈ values ↔
        ∃ id ∈ at₁.zset (.projection t (at₁.publishedGeneration t)), v ∈ facetValues t (jobs id) d) := by
  have hcatalog : ∃ c at₁, (c, at₁) ∈ y.2 ∧ (at₁.publishedState t).isSome ∧
      values = at₁.catalog ⟨t, at₁.publishedGeneration t, d⟩ := by
    refine hrun.sound (Q := fun values y => ∃ c at₁, (c, at₁) ∈ y.2 ∧ (at₁.publishedState t).isSome ∧
      values = at₁.catalog ⟨t, at₁.publishedGeneration t, d⟩) (E := fun _ _ => True)
      (fun values x x' hr h => ?_) (fun _ _ _ _ h => h) catalogValuesFromPublishedIndex_wp
    rw [hr.2]
    exact h
  obtain ⟨c, at₁, hc, hpublished, rfl⟩ := hcatalog
  refine ⟨c, at₁, hc, hpublished, fun hexact v => ?_⟩
  rw [hexact.catalogs d v]
  exact exists_congr fun id => hexact.facets d v id

end Published

/-! ## Runs of the readers -/

/-- Nothing stands in for the published state, and a key that is drawn is not in use. -/
def quiet (t : RetainedJobType) (i : ProcessId) (c : Command) (x : Recorded Command Store) : Bool :=
  (x.1.revision t).isNone && (match c with
    | .random => decide ((x.1.zset (.temporary ⟨i, x.1.serial i⟩)).card = 0)
    | _ => true)

/-- A store where nothing is published anew meets the assumptions. -/
theorem assume_of_quiet {ls : List Section} {c : Command} {x : Recorded Command Store}
    (h : quiet t i c x = true) : (advancingUnused publishedRank i t).recorded.assume ls c x := by
  unfold quiet at h
  rw [Bool.and_eq_true, Option.isNone_iff_eq_none] at h
  refine ⟨fun p _ => ?_, ?_⟩
  · right
    rw [legacyState, h.1]
    exact Nat.one_pos
  · rintro rfl
    have hcard : (x.1.zset (.temporary ⟨i, x.1.serial i⟩)).card = 0 := of_decide_eq_true h.2
    exact SortedSet.ext fun id => by
      rw [score_eq_none_iff.mpr (card_eq_zero_iff.mp hcard id), score_empty]

/-- A program that returns when nobody disturbs it has a run. -/
theorem run_of_quiet {α : Type} {p : Redis α} {a : α}
    (h : (p.eval (recording (exec .single 0)) (indexedStore, [])).1 = .returned a)
    (hquiet : p.Along (recording (exec .single 0)) (fun c x => quiet .pending 0 c x = true)
      (indexedStore, [])) :
    Run (recording (exec .single 0)) (advancingUnused publishedRank 0 .pending).recorded.rely
      (advancingUnused publishedRank 0 .pending).recorded.assume (p, (indexedStore, []))
      (.ret a, (p.eval (recording (exec .single 0)) (indexedStore, [])).2) :=
  Prog.run_eval (C := fun c x => quiet .pending 0 c x = true) (fun _ _ _ => assume_of_quiet)
    (Prod.ext h rfl) hquiet

/-- The first page of the pending jobs of one name. -/
def namedPage : Redis ScoredPage :=
  (⟨500, 3⟩ : RetainedJobIndex).pageIdsExcluding id false false .pending [(.job, "App")] none [] none 1
    none

/-- A search for a job by its name. -/
theorem pageIdsExcluding_selected_named : ∃ y : Recorded Command Store,
    ∃ retained at₁, Inspected .pending y.2 retained at₁ ∧
      (Agrees appJobs .pending at₁ → (∀ id ∈ at₁.zset (.temporary retained), isIntegerKey id = false) →
        ∃ z, IsCandidate id appJobs .pending [(.job, "App")] none "" at₁ retained z ∧
          IsPage z true [] none 1 ⟨["job"], 1, 0, none⟩) :=
  ⟨_, pageIdsExcluding_selected ⟨500, 3⟩ (Or.inl (by decide)) le_rfl (by decide)
    (run_of_quiet (p := namedPage) (by decide +kernel) (by decide +kernel))⟩

/-- The pending jobs of one name in the last five seconds, and in the last twenty. -/
def namedCounts : Redis PeriodCounts :=
  (⟨500, 3⟩ : RetainedJobIndex).periodCounts id false false .pending [(.job, "App")] 20 5

/-- The counts of the jobs with a name. -/
theorem periodCounts_selected_named : ∃ y : Recorded Command Store,
    ∃ retained at₁, Inspected .pending y.2 retained at₁ ∧
      (Agrees appJobs .pending at₁ → (∀ id ∈ at₁.zset (.temporary retained), isIntegerKey id = false) →
        ∃ z, IsCandidate id appJobs .pending [(.job, "App")] none "" at₁ retained z ∧
          (⟨1, 0, 1⟩ : PeriodCounts) = ⟨z.card, countSince z 20, countSince z 5⟩) :=
  ⟨_, periodCounts_selected ⟨500, 3⟩ (by decide)
    (run_of_quiet (p := namedCounts) (by decide +kernel) (by decide +kernel))⟩

/-- A page of the published jobs with a name. -/
theorem pageIdsFromPublishedIndexExcluding_selected_named : ∃ y : Recorded Command Store,
    ∃ c at₁, (c, at₁) ∈ y.2 ∧ (at₁.publishedState .pending).isSome ∧
      (PublishedExact appJobs .pending at₁ →
        (∀ id ∈ at₁.zset (.projection .pending (at₁.publishedGeneration .pending)),
          isIntegerKey id = false) →
        ∃ z, IsPublishedCandidate appJobs .pending [(.job, "App"), (.queue, "default")] none at₁ z ∧
          IsPage z true ["other"] none 1 ⟨["job"], 1, 0, none⟩) :=
  ⟨_, pageIdsFromPublishedIndexExcluding_selected le_rfl (by decide)
    (run_of_quiet (by decide +kernel) (by decide +kernel))⟩

/-- The counts of the published jobs with a name. -/
theorem periodCountsFromPublishedIndex_selected_named : ∃ y : Recorded Command Store,
    ∃ c at₁, (c, at₁) ∈ y.2 ∧ (at₁.publishedState .pending).isSome ∧
      (PublishedExact appJobs .pending at₁ →
        (∀ id ∈ at₁.zset (.projection .pending (at₁.publishedGeneration .pending)),
          isIntegerKey id = false) →
        ∃ z, IsPublishedCandidate appJobs .pending [] none at₁ z ∧
          (⟨1, 0, 1⟩ : PeriodCounts) = ⟨z.card, countSince z 20, countSince z 5⟩) :=
  ⟨_, periodCountsFromPublishedIndex_selected
    (run_of_quiet (by decide +kernel) (by decide +kernel))⟩

/-- The names in the published catalog. -/
theorem catalogValuesFromPublishedIndex_exact_named : ∃ y : Recorded Command Store,
    ∃ c at₁, (c, at₁) ∈ y.2 ∧ (at₁.publishedState .pending).isSome ∧
      (PublishedExact appJobs .pending at₁ → ∀ v, v ∈ ["App"] ↔
        ∃ id ∈ at₁.zset (.projection .pending (at₁.publishedGeneration .pending)),
          v ∈ facetValues .pending (appJobs id) .job) :=
  ⟨_, catalogValuesFromPublishedIndex_exact
    (run_of_quiet (by decide +kernel) (by decide +kernel))⟩

end RetainedJobIndex

end HorizonNewDawn

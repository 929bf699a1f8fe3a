import HorizonNewDawn.Jobs.RetainedJobIndex.Archive
import HorizonNewDawn.Jobs.RetainedJobQuery
import Mathlib

/-! # Queries of one queue, answered by the published index

What is asked about one queue is answered by one facet. The total of a page, its ids, and the counts are
those of this facet in one publication, whatever is published meanwhile; the pages of pending jobs are
put together from several readings, so that only their total is. -/

namespace HorizonNewDawn

open Program SortedSet RetainedJobIndex

namespace RetainedJobQuery

variable {query : RetainedJobQuery} {t : RetainedJobType} {queue : String} {i : ProcessId}
  {scan : ScanOrder} {s : Store} {archive : Archive} {α β : Type}
  {ranks : RetainedJobType → Option PublishedState → ℕ} {cursor : Option CursorState}
  {K : Key → Prop}

/-- The filter of one queue. -/
def queueFilters (queue : String) : JobIndexFiltersData where
  job := none
  queue := some queue
  connection := none
  state := none

/-- The facet of a queue. -/
theorem facets_queueFilters : facets t (queueFilters queue) none = return [(.queue, queue)] := rfl

/-! ## What the queries write -/

section Writes

variable {facets : List (FacetDimension × String)} {filters : JobIndexFiltersData}
  {after : Option RetainedJobPosition} {limit : ℕ} {search : Option String} {ids : List String}

/-- A page of ids is read with temporary keys only. -/
theorem pageIdsFromPublishedIndex_writes {additionalIds : Option IdSet} :
    Writes Key.IsTemporary (pageIdsFromPublishedIndex t facets additionalIds after limit) :=
  withPublishedCandidateKey_writes fun _ => .sourcePage t after limit

/-- The job objects are read without a write. -/
theorem toPage_writes {page : ScoredPage} {total : ℕ} {current next : Option CursorState} :
    Writes K (toPage page total current next) := by
  have hhydrate : Writes K (hydrate page.ids page.currentOffset) :=
    Writes.ite .ret ((Writes.read rfl).bind fun _ => .ret)
  exact hhydrate.bind fun _ => .ret

/-- A page that does not lead with the reserved jobs is read with temporary keys only. -/
theorem pageFromPublishedIndex_writes
    (hlead : query.shouldLeadWithReserved t (queueFilters queue) = false) :
    Writes Key.IsTemporary (query.pageFromPublishedIndex t (queueFilters queue) cursor) := by
  have hdelayed : query.shouldPageDelayedByAvailability t (queueFilters queue) = false := by
    simp [shouldPageDelayedByAvailability, queueFilters]
  rw [pageFromPublishedIndex, hlead, hdelayed]
  exact pageIdsFromPublishedIndex_writes.bind fun _ => toPage_writes

/-- The job objects of a page stand under the indexes of their ids. -/
theorem hydrate_indexed {ids : List String} {startingAt : ℤ} :
    Obeys (fun _ _ => True) (fun _ _ => True) (hydrate ids startingAt) fun jobs =>
      ∀ job ∈ jobs, ∃ id ∈ ids, job.1.id = some id ∧ job.2 = startingAt + ids.idxOf id := by
  apply Obeys.ite
  · intro _
    exact List.forall_mem_nil _
  · intro _
    apply Obeys.bind (.of_true (command (.getJobs ids)))
    intro jobs _ job hjob
    obtain ⟨id, hid, hfound⟩ := List.mem_filterMap.mp hjob
    obtain ⟨found, hfind, rfl⟩ := Option.map_eq_some_iff.mp hfound
    have hfoundId : found.id = some id := by simpa using List.find?_some hfind
    exact ⟨id, hid, hfoundId, rfl⟩

/-- A page of job objects. -/
theorem toPage_obeys {page : ScoredPage} {total : ℕ} {current next : Option CursorState} :
    Obeys (fun _ _ => True) (fun _ _ => True) (toPage page total current next) fun result =>
      (result.total = total ∧ result.current = current) ∧ result.next = next ∧
        ∀ job ∈ result.jobs, ∃ id ∈ page.ids, job.1.id = some id ∧
          job.2 = page.currentOffset + page.ids.idxOf id :=
  Obeys.bind hydrate_indexed fun _ hjobs => ⟨⟨rfl, rfl⟩, rfl, hjobs⟩

/-- It has the total and the cursor it is given. -/
theorem toPage_total {page : ScoredPage} {total : ℕ} {current next : Option CursorState} :
    Obeys (fun _ _ => True) (fun _ _ => True) (toPage page total current next)
      fun result => result.total = total ∧ result.current = current :=
  toPage_obeys.weaken fun _ h => h.1

/-- So has a page of the reserved jobs. -/
theorem pageReservedLead_total {reservedIds : IdSet} {total : ℕ} :
    Obeys (fun _ _ => True) (fun _ _ => True)
      (query.pageReservedLead t facets filters reservedIds after search true total cursor)
      fun page => page.total = total ∧ page.current = cursor := by
  apply Obeys.bind (.of_true _)
  rintro ⟨ids, found, offset, next⟩ _
  cases next with
  | some next => exact toPage_total
  | none =>
      apply Obeys.ite
      · intro _
        exact Obeys.bind (.of_true _) fun _ _ => toPage_total
      · intro _
        exact Obeys.bind (.of_true _) fun _ _ => toPage_total

end Writes

/-! ## What the answers are about -/

/-- The jobs of a queue in a publication. -/
def jobsOf (archive : Archive) (t : RetainedJobType) (queue : String) (p : PublishedState) : ZSet :=
  archive t p (.facet t p.generation .queue queue)

/-- A page of the jobs of one queue, as far as it is read off one set: its total always, and its jobs
unless it is put together from the reserved jobs and the rest. -/
structure IsQueuePage (query : RetainedJobQuery) (t : RetainedJobType) (cursor : Option CursorState)
    (z : ZSet) (page : Page) : Prop where
  total : page.total = z.card
  current : page.current = cursor
  jobs : (t = .pending → query.pendingStates = none) → (∀ id ∈ z, isIntegerKey id = false) →
    (∀ p ∈ cursor.bind (·.position), p.score ≠ none) →
    ∃ ids : ScoredPage, IsPage z (!t.newestFirst) [] (cursor.bind (·.position)) pageSize ids ∧
      (∀ job ∈ page.jobs, ∃ id ∈ ids.ids, job.1.id = some id ∧
        job.2 = ids.currentOffset + ids.ids.idxOf id) ∧
      page.next = ids.next.map fun next => ⟨some next, .default⟩

/-- Sequencing behind a reading. -/
theorem wp_bind_between {p : Redis α} {f : α → Redis β} {R : PublishedState → α → Prop}
    {R' : PublishedState → β → Prop}
    (h : wp (exec scan i) (reading ranks archive i) p
      (fun a s' => Between (ranks t) t s s' fun p => R p a) (fun _ _ => True) s)
    (hf : ∀ a, Obeys (fun _ _ => True) (fun _ _ => True) (f a) fun b => ∀ p, R p a → R' p b) :
    wp (exec scan i) (reading ranks archive i) (p >>= f)
      (fun b s' => Between (ranks t) t s s' fun p => R' p b) (fun _ _ => True) s := by
  apply wp_bind_of h
  intro a s' ha
  have hlater : wp (exec scan i) (reading ranks archive i) (f a)
      (fun _ s'' => ∀ t, Later (ranks t) (s'.publishedState t) (s''.publishedState t))
      (fun _ s'' => ∀ t, Later (ranks t) (s'.publishedState t) (s''.publishedState t)) s' :=
    wp_later
  have hresult : wp (exec scan i) (reading ranks archive i) (f a)
      (fun b _ => (∀ p, R p a → R' p b) ∧ True) (fun _ _ => True) s' :=
    wp_of_obeys (Discipline.stable_const _ True) (fun _ _ _ _ _ _ => ⟨trivial, trivial, trivial⟩)
      (hf a) trivial
  apply wp_mono _ (fun _ _ _ => trivial) (wp_and hlater hresult)
  rintro b s'' ⟨hlater, hR, -⟩
  exact (ha.later (hlater t)).imp fun p hp => hR p hp

/-- Sequencing before a reading. -/
theorem wp_bind_before {p : Redis α} {f : α → Redis β} {R : PublishedState → β → Prop}
    (hf : ∀ a s', wp (exec scan i) (reading ranks archive i) (f a)
      (fun b s'' => Between (ranks t) t s' s'' fun p => R p b) (fun _ _ => True) s') :
    wp (exec scan i) (reading ranks archive i) (p >>= f)
      (fun b s' => Between (ranks t) t s s' fun p => R p b) (fun _ _ => True) s := by
  have hlater : wp (exec scan i) (reading ranks archive i) p
      (fun _ s' => ∀ t, Later (ranks t) (s.publishedState t) (s'.publishedState t))
      (fun _ _ => True) s := wp_mono (fun _ _ h => h) (fun _ _ _ => trivial) wp_later
  apply wp_bind_of hlater
  intro a s' hs'
  exact wp_mono (fun _ _ h => h.earlier (hs' t)) (fun _ _ _ => trivial) (hf a s')

/-- A page of ids of one queue. -/
theorem pageIdsFromPublishedIndex_archived {after : Option RetainedJobPosition} {limit : ℕ} :
    wp (exec scan i) (reading ranks archive i)
      (pageIdsFromPublishedIndex t [(.queue, queue)] none after limit)
      (fun page s' => Between (ranks t) t s s' fun p =>
        ∃ k, ResultOn scan i k (jobsOf archive t queue p) (sourcePage t k after limit) page)
      (fun _ _ => True) s :=
  wp_mono (fun _ _ h => h.imp fun _ hp => hp.of_facet) (fun _ _ _ => trivial)
    (withPublishedCandidateKey_archived fun _ => .sourcePage t after limit)

/-- **A page of one queue** is a page of its jobs in one publication. -/
theorem pageFromPublishedIndex_archived :
    wp (exec scan i) (reading ranks archive i)
      (query.pageFromPublishedIndex t (queueFilters queue) cursor)
      (fun page s' => Between (ranks t) t s s' fun p =>
        IsQueuePage query t cursor (jobsOf archive t queue p) page) (fun _ _ => True) s := by
  have hdelayed : query.shouldPageDelayedByAvailability t (queueFilters queue) = false := by
    simp [shouldPageDelayedByAvailability, queueFilters]
  rw [pageFromPublishedIndex, hdelayed]
  by_cases hlead : query.shouldLeadWithReserved t (queueFilters queue) = true
  · -- The pages of the reserved jobs and the rest are several readings, and so is the total.
    have hstates : t = .pending ∧ query.pendingStates.isSome = true := by
      simpa [shouldLeadWithReserved, queueFilters] using hlead
    rw [if_pos hlead, pagePendingReservedFirst, facets_queueFilters]
    apply wp_bind_before
    intro reserved s'
    have htotal : wp (exec scan i) (reading ranks archive i)
        ((·.total) <$> query.pageIds t [(.queue, queue)] none none 1 none true)
        (fun total s'' => Between (ranks t) t s' s'' fun p =>
          total = (jobsOf archive t queue p).card) (fun _ _ => True) s' := by
      apply wp_bind_of pageIdsFromPublishedIndex_archived
      intro page s'' hpage
      apply hpage.imp
      rintro p ⟨k, hresult⟩
      exact hresult.total
    apply wp_bind_between htotal
    intro total
    have hpage : ∀ page : Page, page.total = total ∧ page.current = cursor → ∀ p : PublishedState,
        total = (jobsOf archive t queue p).card →
          IsQueuePage query t cursor (jobsOf archive t queue p) page := by
      rintro page ⟨hpage, hcurrent⟩ p hp
      refine ⟨hpage.trans hp, hcurrent, fun hnot _ _ => ?_⟩
      have hnone := hnot hstates.1
      rw [hnone] at hstates
      cases hstates.2
    apply Obeys.weaken _ hpage
    apply Obeys.ite
    · intro _
      exact Obeys.bind (.of_true _) fun _ _ => toPage_total
    · intro _
      apply Obeys.ite
      · intro _
        exact pageReservedLead_total
      · intro _
        exact Obeys.bind (.of_true _) fun _ _ => toPage_total
  · rw [if_neg hlead, if_neg Bool.false_ne_true]
    apply wp_bind_between pageIdsFromPublishedIndex_archived
    intro ids
    apply toPage_obeys.weaken
    rintro page ⟨⟨htotal, hcurrent⟩, hnext, hjobs⟩ p ⟨k, hresult⟩
    refine ⟨htotal.trans (hresult.total), hcurrent, fun _ hmembers hscore => ?_⟩
    exact ⟨ids, hresult.isPage (by decide) hscore hmembers, hjobs, hnext⟩

end RetainedJobQuery

end HorizonNewDawn

import HorizonNewDawn.Jobs.RetainedJobQuery.Published
import HorizonNewDawn.Program.Reread
import Mathlib

/-! # The jobs of a queue

The pages and the numbers of the jobs of a queue are read off the published indexes, between two
readings of the revisions that are published. The numbers of the four kinds of jobs come from four
indexes. All of it is then about one moment of the call, at which all four revisions were published
(`publishedSummarySnapshot_published`). -/

namespace HorizonNewDawn

open Program SortedSet RetainedJobIndex RetainedJobQuery

/-- A page of the jobs of a queue: `QueueActivityPageData`, with the cursors as they are decoded. -/
structure QueueJobsPage (JobRow : Type) where
  available : Bool
  rows : List JobRow
  total : ℕ
  complete : Bool
  pageName : String
  current : Option CursorState
  next : Option CursorState
  message : Option String
  deriving DecidableEq

/-- What `safeSummary` tells about the jobs of one kind. -/
structure JobsSummary where
  total : Option ℕ
  complete : Bool
  hour : Option ℕ
  day : Option ℕ
  available : Bool
  deriving DecidableEq

/-- `QueueRetainedJobsData`; the rates per minute are rational numbers. -/
structure QueueRetainedJobsData where
  pending : ℕ
  pendingComplete : Bool
  completed : Option ℕ
  completedAvailable : Bool
  completedComplete : Bool
  completedPerMinute : Option ℚ
  completedPerMinuteComplete : Bool
  completedPastHour : Option ℕ
  completedPastHourComplete : Bool
  completedPastDay : Option ℕ
  completedPastDayComplete : Bool
  completedRetentionMinutes : ℕ
  failed : ℕ
  failedComplete : Bool
  failedPerMinute : ℚ
  failedPerMinuteComplete : Bool
  failedPastHour : ℕ
  failedPastHourComplete : Bool
  failedPastDay : ℕ
  failedPastDayComplete : Bool
  failedRetentionMinutes : ℕ
  silenced : ℕ
  silencedComplete : Bool
  message : Option String
  warming : Bool
  deriving DecidableEq

/-- What the pages and the numbers of a queue are made with: the query, the row of a job, how long jobs
of a kind are kept, and what the clock shows at the two cutoffs of a count. The tabs of jobs are the
types of retained jobs. -/
structure QueueJobsData (JobRow : Type) where
  retainedQuery : RetainedJobQuery
  row : RetainedJobType → JobObject × ℤ → Option JobRow
  retentionMinutes : RetainedJobType → ℕ
  now : RetainedJobType → ℤ × ℤ

namespace QueueJobsData

variable {JobRow : Type} (data : QueueJobsData JobRow)

/-- The page of rows that `publishedRetainedPage` makes of a page of jobs. -/
def activityPage (t : RetainedJobType) (page : Page) : QueueJobsPage JobRow where
  available := true
  rows := page.jobs.filterMap (data.row t)
  total := page.total
  complete := true
  pageName := "starting_at"
  current := page.current
  next := page.next
  message := none

/-- `publishedRetainedPage` -/
def publishedRetainedPage (queue : String) (t : RetainedJobType) (afterIndex : Option CursorState) :
    Redis (QueueJobsPage JobRow) := do
  let page ← data.retainedQuery.pageFromPublishedIndex t (queueFilters queue) afterIndex
  return data.activityPage t page

/-- `publishedActivitySnapshot` -/
def publishedActivitySnapshot (queue : String) (t : RetainedJobType)
    (afterIndex : Option CursorState) : Redis (PublishedState × QueueJobsPage JobRow) :=
  Prog.unchanged (publishedRevision t) (data.publishedRetainedPage queue t afterIndex)
    .retainedJobIndexWarming 2

/-- `listRevision`, for a tab of jobs; the answer is encoded as a list of three. -/
def listRevision (queue : String) (t : RetainedJobType) :
    Redis (Option PublishedState × ℕ × Option String) :=
  (do
    let (revision, metadata) ← Prog.unchanged (publishedRevision t)
      (data.retainedQuery.publishedPageMetadata t (queueFilters queue)) .retainedJobIndexWarming 2
    return (some revision, metadata.total, metadata.headId) :
      Redis (Option PublishedState × ℕ × Option String)).tryCatch fun _ => return (none, 0, none)

/-! ## The numbers -/

/-- `$hourCutoff` -/
def hourCutoff (t : RetainedJobType) : ℚ :=
  (data.now t).1 - 60 * (min 60 (data.retentionMinutes t) : ℕ)

/-- `$dayCutoff` -/
def dayCutoff (t : RetainedJobType) : ℚ :=
  (data.now t).2 - 60 * (min 1440 (data.retentionMinutes t) : ℕ)

/-- `retainedSummary` -/
def retainedSummary (queue : String) (t : RetainedJobType) (published : Bool) : Redis JobsSummary := do
  let counts ←
    if published then
      RetainedJobQuery.periodCountsFromPublishedIndex t (queueFilters queue) (data.hourCutoff t)
        (data.dayCutoff t)
    else
      data.retainedQuery.periodCounts t (queueFilters queue) (data.hourCutoff t) (data.dayCutoff t)
  return ⟨some counts.total, true, some counts.hour, some counts.day, true⟩

/-- What `safeSummary` says after an exception. -/
def unavailableSummary (t : RetainedJobType) : JobsSummary where
  total := if t = .completed then none else some 0
  complete := false
  hour := if t = .completed then none else some 0
  day := if t = .completed then none else some 0
  available := false

/-- `safeSummary` -/
def safeSummary (queue : String) (t : RetainedJobType) (published : Bool) : Redis JobsSummary :=
  (data.retainedSummary queue t published).tryCatch fun e =>
    if e = .retainedJobIndexWarming then .fail e else return unavailableSummary t

/-- `round(…, 2)` of a rate, which is not negative. -/
def roundedRate (count minutes : ℕ) : ℚ :=
  (⌊((count : ℚ) / max 1 (min 60 minutes)) * 100 + 1 / 2⌋ : ℚ) / 100

/-- The numbers that `buildSummary` makes of those of the four kinds. -/
def summaryOf (pending completed failed silenced : JobsSummary) : QueueRetainedJobsData where
  pending := pending.total.getD 0
  pendingComplete := pending.complete
  completed := completed.total
  completedAvailable := completed.available
  completedComplete := completed.complete
  completedPerMinute := completed.hour.map fun hour =>
    roundedRate hour (data.retentionMinutes .completed)
  completedPerMinuteComplete := completed.complete
  completedPastHour := completed.hour
  completedPastHourComplete := completed.complete
  completedPastDay := completed.day
  completedPastDayComplete := completed.complete
  completedRetentionMinutes := data.retentionMinutes .completed
  failed := failed.total.getD 0
  failedComplete := failed.complete
  failedPerMinute := roundedRate (failed.hour.getD 0) (data.retentionMinutes .failed)
  failedPerMinuteComplete := failed.complete
  failedPastHour := failed.hour.getD 0
  failedPastHourComplete := failed.complete
  failedPastDay := failed.day.getD 0
  failedPastDayComplete := failed.complete
  failedRetentionMinutes := data.retentionMinutes .failed
  silenced := silenced.total.getD 0
  silencedComplete := silenced.complete
  message :=
    -- The completed jobs have a flag of their own.
    if pending.available && failed.available && silenced.available then none
    else some "Some retained job data is currently unavailable."
  warming := false

/-- `buildSummary` -/
def buildSummary (queue : String) (published : Bool) : Redis QueueRetainedJobsData := do
  let pending ← data.safeSummary queue .pending published
  let completed ← data.safeSummary queue .completed published
  let failed ← data.safeSummary queue .failed published
  let silenced ← data.safeSummary queue .silenced published
  return data.summaryOf pending completed failed silenced

/-- The published revisions of some types, by their types. -/
def revisionsOf : List RetainedJobType → Redis (Option (List (RetainedJobType × PublishedState)))
  | [] => return some []
  | t :: ts => do
      match ← publishedRevision t with
      | none => return none
      | some revision => return (← revisionsOf ts).map ((t, revision) :: ·)

/-- `publishedRevisions` -/
def publishedRevisions : Redis (Option (List (RetainedJobType × PublishedState))) :=
  revisionsOf RetainedJobType.cases

/-- `publishedSummarySnapshot` -/
def publishedSummarySnapshot (queue : String) :
    Redis (List (RetainedJobType × PublishedState) × QueueRetainedJobsData) :=
  Prog.unchanged publishedRevisions (data.buildSummary queue true) .retainedJobIndexWarming 2

/-! ## What the snapshots write -/

section Writes

variable {data} {queue : String} {t : RetainedJobType} {cursor : Option CursorState}

/-- A reading that is repeated writes what its parts write. -/
theorem unchanged_writes {K : Key → Prop} {α ρ : Type} [DecidableEq ρ] {revisions : Redis (Option ρ)}
    {body : Redis α} (hrevisions : Writes K revisions) (hbody : Writes K body) (attempts : ℕ) :
    Writes K (Prog.unchanged revisions body .retainedJobIndexWarming attempts) := by
  induction attempts with
  | zero => exact .fail
  | succ attempts ih =>
      apply hrevisions.bind
      intro state
      cases state with
      | none => exact .fail
      | some revision => exact hbody.bind fun _ => hrevisions.bind fun _ => .ite .ret ih

/-- The revision of a list is told with temporary keys only. -/
theorem listRevision_writes : Writes Key.IsTemporary (data.listRevision queue t) := by
  apply Writes.tryCatch
  · have hmetadata : Writes Key.IsTemporary
        (data.retainedQuery.publishedPageMetadata t (queueFilters queue)) :=
      pageIdsFromPublishedIndex_writes.bind fun _ => .ret
    exact (unchanged_writes publishedState_writes hmetadata 2).bind fun _ => .ret
  · intro _
    exact .ret

/-- So is a part of a summary. -/
theorem safeSummary_writes : Writes Key.IsTemporary (data.safeSummary queue t true) := by
  apply Writes.tryCatch
  · have hcounts : Writes Key.IsTemporary (RetainedJobIndex.periodCountsFromPublishedIndex t
        [(.queue, queue)] (data.hourCutoff t) (data.dayCutoff t)) :=
      withPublishedCandidateKey_writes readsKey_periodCountsOf
    exact hcounts.bind fun _ => .ret
  · intro e
    exact .ite .fail .ret

/-- Revisions are read without a write. -/
theorem revisionsOf_writes {K : Key → Prop} (ts : List RetainedJobType) :
    Writes K (revisionsOf ts) := by
  induction ts with
  | nil => exact .ret
  | cons t ts ih =>
      apply publishedState_writes.bind
      intro state
      cases state with
      | none => exact .ret
      | some revision => exact ih.bind fun _ => .ret

/-- A summary is told with temporary keys only. -/
theorem publishedSummarySnapshot_writes :
    Writes Key.IsTemporary (data.publishedSummarySnapshot queue) := by
  apply unchanged_writes (revisionsOf_writes _)
  exact safeSummary_writes.bind fun _ => safeSummary_writes.bind fun _ => safeSummary_writes.bind
    fun _ => safeSummary_writes.bind fun _ => .ret

end Writes

/-! ## The revisions -/

section Revisions

variable {ranks : RetainedJobType → Option PublishedState → ℕ} {archive : Archive} {i : ProcessId}
  {scan : ScanOrder} {s s' : Store} {t : RetainedJobType} {queue : String}

/-- These revisions were published, or are. -/
def Past (ranks : RetainedJobType → Option PublishedState → ℕ)
    (revisions : List (RetainedJobType × PublishedState)) (s : Store) : Prop :=
  revisions.map Prod.fst = RetainedJobType.cases ∧
    ∀ x ∈ revisions, Later (ranks x.1) (some x.2) (s.publishedState x.1)

/-- These revisions are published. -/
def Shows (revisions : List (RetainedJobType × PublishedState)) (s : Store) : Prop :=
  revisions.map Prod.fst = RetainedJobType.cases ∧
    ∀ x ∈ revisions, s.publishedState x.1 = some x.2

/-- The revisions that are collected were published. -/
theorem revisionsOf_past (ts : List RetainedJobType) :
    wp (exec scan i) (reading ranks archive i) (revisionsOf ts)
      (fun st s' => ∀ revisions ∈ st, revisions.map Prod.fst = ts ∧
        ∀ x ∈ revisions, Later (ranks x.1) (some x.2) (s'.publishedState x.1))
      (fun _ _ => True) s := by
  induction ts generalizing s with
  | nil =>
      rintro revisions ⟨⟩
      simp
  | cons t ts ih =>
      apply wp_bind_of publishedState_reading
      intro state s₁ hstate
      cases state with
      | none =>
          rintro revisions ⟨⟩
      | some revision =>
          have hrest : wp (exec scan i) (reading ranks archive i) (revisionsOf ts)
              (fun st s' => (∀ revisions ∈ st, revisions.map Prod.fst = ts ∧
                ∀ x ∈ revisions, Later (ranks x.1) (some x.2) (s'.publishedState x.1)) ∧
                ∀ t, Later (ranks t) (s₁.publishedState t) (s'.publishedState t))
              (fun _ _ => True) s₁ :=
            wp_mono (fun _ _ h => h) (fun _ _ _ => trivial) (wp_and ih wp_later)
          apply wp_bind_of hrest
          rintro st s' ⟨hst, hlater⟩ revisions hrevisions
          obtain ⟨rest, hmem, rfl⟩ := Option.map_eq_some_iff.mp hrevisions
          obtain ⟨hfst, hall⟩ := hst rest hmem
          constructor
          · simp [hfst]
          · exact List.forall_mem_cons.mpr ⟨hstate.trans (hlater t), hall⟩

/-- Revisions that are collected again were published all the time. -/
theorem revisionsOf_again (ts : List RetainedJobType)
    (revisions : List (RetainedJobType × PublishedState)) :
    wp (exec scan i) (reading ranks archive i) (revisionsOf ts)
      (fun st _ => st = some revisions → ∀ x ∈ revisions,
        Later (ranks x.1) (some x.2) (s.publishedState x.1) → s.publishedState x.1 = some x.2)
      (fun _ _ => True) s := by
  induction ts generalizing s revisions with
  | nil =>
      rintro ⟨⟩
      exact List.forall_mem_nil _
  | cons t ts ih =>
      cases revisions with
      | nil =>
          exact wp_mono (fun _ _ _ _ => List.forall_mem_nil _) (fun _ _ _ => trivial)
            (wp_trivial fun _ _ _ _ => trivial)
      | cons y revisions =>
          have hfirst : wp (exec scan i) (reading ranks archive i) (publishedState t)
              (fun st s' => (st = some y.2 → Later (ranks t) (some y.2) (s.publishedState t) →
                s.publishedState t = some y.2) ∧
                ∀ t, Later (ranks t) (s.publishedState t) (s'.publishedState t))
              (fun _ _ => True) s := by
            have hlater : wp (exec scan i) (reading ranks archive i) (publishedState t)
                (fun _ s' => ∀ t, Later (ranks t) (s.publishedState t) (s'.publishedState t))
                (fun _ s' => ∀ t, Later (ranks t) (s.publishedState t) (s'.publishedState t)) s :=
              wp_later
            by_cases hpast : Later (ranks t) (some y.2) (s.publishedState t)
            · exact wp_mono (fun _ _ h => ⟨fun hst _ => h.1 hst, h.2⟩) (fun _ _ _ => trivial)
                (wp_and (publishedState_again hpast) hlater)
            · exact wp_mono (fun _ _ h => ⟨fun _ h' => absurd h' hpast, h⟩) (fun _ _ _ => trivial)
                hlater
          apply wp_bind_of hfirst
          rintro state s₁ ⟨hstate, hlater⟩
          cases state with
          | none => rintro ⟨⟩
          | some revision =>
              apply wp_bind_of (ih revisions)
              rintro st s' hst heq
              obtain ⟨rest, rfl, hcons⟩ := Option.map_eq_some_iff.mp heq
              obtain ⟨rfl, rfl⟩ := List.cons.inj hcons
              intro x hx hpast
              -- A later revision of the list is compared with the store behind the first reading.
              rcases List.mem_cons.mp hx with rfl | hx
              · exact hstate rfl hpast
              · have hsame : s₁.publishedState x.1 = some x.2 :=
                  hst rfl x hx (hpast.trans (hlater x.1))
                have hback := hlater x.1
                rw [hsame] at hback
                exact hpast.eq_of_between hback

/-- The revisions that are read are past ones. -/
theorem publishedRevisions_past :
    wp (exec scan i) (reading ranks archive i) publishedRevisions
      (fun st s' => ∀ revisions ∈ st, Past ranks revisions s') (fun _ _ => True) s :=
  revisionsOf_past RetainedJobType.cases

/-- Revisions that are read again were published all the time. -/
theorem publishedRevisions_again {revisions : List (RetainedJobType × PublishedState)}
    (hpast : Past ranks revisions s) :
    wp (exec scan i) (reading ranks archive i) publishedRevisions
      (fun st _ => st = some revisions → Shows revisions s) (fun _ _ => True) s := by
  apply wp_mono _ (fun _ _ _ => trivial) (revisionsOf_again RetainedJobType.cases revisions)
  intro st s' hst heq
  exact ⟨hpast.1, fun x hx => hst heq x hx (hpast.2 x hx)⟩

/-- What is past stays past. -/
theorem stable_past (revisions : List (RetainedJobType × PublishedState)) :
    (reading ranks archive i).Stable (Past ranks revisions) := by
  intro _ s s' hr hpast
  exact ⟨hpast.1, fun x hx => (hpast.2 x hx).trans (hr x.1).later⟩

/-- What was published between two moments with the same revision is this revision. -/
theorem between_unchanged {p : PublishedState} {R : PublishedState → Prop}
    (hbetween : Between (ranks t) t s s' R) (hpast : Later (ranks t) (some p) (s.publishedState t))
    (hshows : s'.publishedState t = some p) : R p := by
  obtain ⟨p', hfrom, hto, hR⟩ := hbetween
  rw [hshows] at hto
  have hsame : some p' = some p := (hpast.trans hfrom).eq_of_between hto
  rwa [← Option.some.inj hsame]

end Revisions

/-! ## One moment -/

section Snapshots

variable {data} {ranks : RetainedJobType → Option PublishedState → ℕ} {archive : Archive}
  {i : ProcessId} {scan : ScanOrder} {s : Store} {t : RetainedJobType} {queue : String}
  {cursor : Option CursorState}

/-- The summary of the jobs in a set. -/
def countedSummary (data : QueueJobsData JobRow) (t : RetainedJobType) (z : ZSet) : JobsSummary where
  total := some z.card
  complete := true
  hour := some (countSince z (data.hourCutoff t))
  day := some (countSince z (data.dayCutoff t))
  available := true

/-- The numbers of the jobs of one kind are those of one publication, or unavailable. -/
theorem safeSummary_archived :
    wp (exec scan i) (reading ranks archive i) (data.safeSummary queue t true)
      (fun told s' => (told = unavailableSummary t ∨ Between (ranks t) t s s' fun p =>
          told = countedSummary data t (jobsOf archive t queue p)) ∧
        ∀ t, Later (ranks t) (s.publishedState t) (s'.publishedState t)) (fun _ _ => True) s := by
  have hcounts : wp (exec scan i) (reading ranks archive i)
      (RetainedJobIndex.periodCountsFromPublishedIndex t [(.queue, queue)] (data.hourCutoff t)
        (data.dayCutoff t))
      (fun counts s' => Between (ranks t) t s s' fun p =>
        counts = ⟨(jobsOf archive t queue p).card, countSince (jobsOf archive t queue p)
          (data.hourCutoff t), countSince (jobsOf archive t queue p) (data.dayCutoff t)⟩)
      (fun _ _ => True) s := by
    apply wp_mono _ (fun _ _ _ => trivial) (withPublishedCandidateKey_archived readsKey_periodCountsOf)
    intro counts s' hbetween
    apply hbetween.imp
    intro p hread
    obtain ⟨k, hresult⟩ := hread.of_facet
    exact hresult.periodCounts
  have htold : wp (exec scan i) (reading ranks archive i) (data.safeSummary queue t true)
      (fun told s' => told = unavailableSummary t ∨ Between (ranks t) t s s' fun p =>
        told = countedSummary data t (jobsOf archive t queue p)) (fun _ _ => True) s := by
    apply wp_tryCatch.mpr
    apply wp_bind_of
    · apply wp_mono (fun _ _ h => h) _ hcounts
      intro e s' _
      -- Only the warming of the index is thrown on.
      split
      · trivial
      · exact Or.inl rfl
    · intro counts s' hbetween
      right
      apply hbetween.imp
      rintro p rfl
      rfl
  exact wp_mono (fun _ _ h => h) (fun _ _ _ => trivial) (wp_and htold wp_later)

/-- The numbers of a queue that are said to be complete are those of these sets. -/
structure IsSummary (data : QueueJobsData JobRow) (z : RetainedJobType → ZSet)
    (summary : QueueRetainedJobsData) : Prop where
  pending : summary.pendingComplete = true → summary.pending = (z .pending).card
  completed : summary.completedAvailable = true → summary.completed = some (z .completed).card ∧
    summary.completedPastHour = some (countSince (z .completed) (data.hourCutoff .completed)) ∧
    summary.completedPastDay = some (countSince (z .completed) (data.dayCutoff .completed))
  failed : summary.failedComplete = true → summary.failed = (z .failed).card ∧
    summary.failedPastHour = countSince (z .failed) (data.hourCutoff .failed) ∧
    summary.failedPastDay = countSince (z .failed) (data.dayCutoff .failed)
  silenced : summary.silencedComplete = true → summary.silenced = (z .silenced).card
  message : summary.message = none →
    summary.pendingComplete = true ∧ summary.failedComplete = true ∧ summary.silencedComplete = true

/-- The numbers of the jobs in a set, or that they are unavailable. -/
def Tells (data : QueueJobsData JobRow) (t : RetainedJobType) (z : ZSet) (told : JobsSummary) : Prop :=
  told = unavailableSummary t ∨ told = countedSummary data t z

/-- The summary of four sets, or of what is available of it. -/
theorem isSummary_summaryOf {z : RetainedJobType → ZSet}
    {pending completed failed silenced : JobsSummary}
    (hpending : Tells data .pending (z .pending) pending)
    (hcompleted : Tells data .completed (z .completed) completed)
    (hfailed : Tells data .failed (z .failed) failed)
    (hsilenced : Tells data .silenced (z .silenced) silenced) :
    IsSummary data z (data.summaryOf pending completed failed silenced) := by
  constructor
  · rcases hpending with rfl | rfl <;> simp [summaryOf, unavailableSummary, countedSummary]
  · rcases hcompleted with rfl | rfl <;> simp [summaryOf, unavailableSummary, countedSummary]
  · rcases hfailed with rfl | rfl <;> simp [summaryOf, unavailableSummary, countedSummary]
  · rcases hsilenced with rfl | rfl <;> simp [summaryOf, unavailableSummary, countedSummary]
  · rcases hpending with rfl | rfl <;> rcases hfailed with rfl | rfl <;>
      rcases hsilenced with rfl | rfl <;> simp [summaryOf, unavailableSummary, countedSummary]

/-- Between two moments with the same revisions, the numbers are those of the revisions. -/
theorem buildSummary_unchanged {revisions : List (RetainedJobType × PublishedState)}
    (hpast : Past ranks revisions s) :
    wp (exec scan i) (reading ranks archive i) (data.buildSummary queue true)
      (fun summary s' => Past ranks revisions s' ∧ (Shows revisions s' →
        ∀ revision : RetainedJobType → PublishedState, (∀ x ∈ revisions, x.2 = revision x.1) →
          IsSummary data (fun t => jobsOf archive t queue (revision t)) summary))
      (fun _ _ => True) s := by
  apply wp_bind_of safeSummary_archived
  rintro pending s₁ ⟨hpending, hlater₁⟩
  apply wp_bind_of safeSummary_archived
  rintro completed s₂ ⟨hcompleted, hlater₂⟩
  apply wp_bind_of safeSummary_archived
  rintro failed s₃ ⟨hfailed, hlater₃⟩
  apply wp_bind_of safeSummary_archived
  rintro silenced s₄ ⟨hsilenced, hlater₄⟩
  constructor
  · refine ⟨hpast.1, fun x hx => ?_⟩
    exact (hpast.2 x hx).trans ((hlater₁ x.1).trans ((hlater₂ x.1).trans
      ((hlater₃ x.1).trans (hlater₄ x.1))))
  · intro hshows revision hrevision
    have hmem : ∀ t, (t, revision t) ∈ revisions := by
      intro t
      have ht : t ∈ revisions.map Prod.fst := by rw [hpast.1]; exact t.mem_cases
      obtain ⟨x, hx, rfl⟩ := List.mem_map.mp ht
      rw [← hrevision x hx]
      exact hx
    -- The reading of each kind is between the two moments.
    have htold : ∀ t told, (told = unavailableSummary t ∨ Between (ranks t) t s s₄ fun p =>
        told = countedSummary data t (jobsOf archive t queue p)) →
        Tells data t (jobsOf archive t queue (revision t)) told := by
      intro t told h
      exact h.imp_right fun hbetween =>
        between_unchanged hbetween (hpast.2 _ (hmem t)) (hshows.2 _ (hmem t))
    have hlater₂₄ : ∀ t, Later (ranks t) (s₂.publishedState t) (s₄.publishedState t) := fun t =>
      (hlater₃ t).trans (hlater₄ t)
    have hlater₁₄ : ∀ t, Later (ranks t) (s₁.publishedState t) (s₄.publishedState t) := fun t =>
      (hlater₂ t).trans (hlater₂₄ t)
    have hlater₀₂ : ∀ t, Later (ranks t) (s.publishedState t) (s₂.publishedState t) := fun t =>
      (hlater₁ t).trans (hlater₂ t)
    have hlater₀₃ : ∀ t, Later (ranks t) (s.publishedState t) (s₃.publishedState t) := fun t =>
      (hlater₀₂ t).trans (hlater₃ t)
    apply isSummary_summaryOf
    · exact htold _ _ (hpending.imp_right fun h => h.later (hlater₁₄ _))
    · exact htold _ _ (hcompleted.imp_right fun h => (h.later (hlater₂₄ _)).earlier (hlater₁ _))
    · exact htold _ _ (hfailed.imp_right fun h => (h.later (hlater₄ _)).earlier (hlater₀₂ _))
    · exact htold _ _ (hsilenced.imp_right fun h => h.earlier (hlater₀₃ _))

/-- The jobs of a queue in the index that is published. -/
def publishedJobs (s : Store) (queue : String) (t : RetainedJobType) : ZSet :=
  s.zset (.facet t (s.publishedGeneration t) .queue queue)

/-- The jobs of a queue in the archive are those that are published. -/
theorem jobsOf_archived {p : PublishedState} (harchived : Archived archive s)
    (hs : s.publishedState t = some p) : jobsOf archive t queue p = publishedJobs s queue t := by
  have hgeneration : s.publishedGeneration t = p.generation := congrArg generationFromPublishedState hs
  rw [publishedJobs, hgeneration]
  exact (harchived t p hs (.facet t p.generation .queue queue) ⟨rfl, rfl⟩).symm

/-- **The numbers of a queue are those of one moment.** At one step of the call the four revisions were
all published, and the numbers are those of the jobs of the queue in the four indexes. -/
theorem publishedSummarySnapshot_published {y : Recorded Command Store}
    {revisions : List (RetainedJobType × PublishedState)} {summary : QueueRetainedJobsData}
    (hrun : Run (recording (exec scan i)) (readers ranks i).recorded.rely
      (readers ranks i).recorded.assume (data.publishedSummarySnapshot queue, (s, []))
      (.ret (revisions, summary), y)) :
    ∃ revision : RetainedJobType → PublishedState,
      revisions = RetainedJobType.cases.map (fun t => (t, revision t)) ∧
      ∃ c at₁, (c, at₁) ∈ y.2 ∧ (∀ t, at₁.publishedState t = some (revision t)) ∧
        IsSummary data (publishedJobs at₁ queue) summary := by
  obtain ⟨archive, hrun⟩ := exists_archive (run_quiet publishedSummarySnapshot_writes hrun)
  have hunchanged : wp (recording (exec scan i)) (reading ranks archive i).recorded
      (data.publishedSummarySnapshot queue)
      (fun result y => (∀ revision : RetainedJobType → PublishedState,
          (∀ x ∈ result.1, x.2 = revision x.1) →
            IsSummary data (fun t => jobsOf archive t queue (revision t)) result.2) ∧
        ∃ ls c at₁, (c, at₁) ∈ y.2 ∧ (reading ranks archive i).assume ls c at₁ ∧ Shows result.1 at₁)
      (fun _ _ => True) (s, []) :=
    wp_unchanged ⟨_, _, _, rfl⟩ stable_past (fun _ => publishedRevisions_past)
      (fun _ _ hpast => buildSummary_unchanged hpast) fun _ _ hpast => publishedRevisions_again hpast
  have hresult := hrun.sound (fun result x x' hr h => by rw [hr.2]; exact h) (fun _ _ _ _ h => h)
    hunchanged
  obtain ⟨hsummary, ls, c, at₁, hmem, ⟨-, -, harchived, -⟩, hfst, hall⟩ := hresult
  have hpublished : ∀ t, ∃ p, at₁.publishedState t = some p := by
    intro t
    have ht : t ∈ revisions.map Prod.fst := by rw [hfst]; exact t.mem_cases
    obtain ⟨x, hx, rfl⟩ := List.mem_map.mp ht
    exact ⟨x.2, hall x hx⟩
  choose revision hrevision using hpublished
  have hvalues : ∀ x ∈ revisions, x.2 = revision x.1 := by
    intro x hx
    have hboth : some x.2 = some (revision x.1) := (hall x hx).symm.trans (hrevision x.1)
    exact Option.some.inj hboth
  have hjobs : (fun t => jobsOf archive t queue (revision t)) = publishedJobs at₁ queue := by
    funext t
    exact jobsOf_archived harchived (hrevision t)
  refine ⟨revision, ?_, c, at₁, hmem, hrevision, hjobs ▸ hsummary revision hvalues⟩
  calc revisions = revisions.map id := (List.map_id _).symm
    _ = revisions.map fun x => (x.1, revision x.1) :=
        List.map_congr_left fun x hx => Prod.ext rfl (hvalues x hx)
    _ = RetainedJobType.cases.map fun t => (t, revision t) := by
        rw [← hfst, List.map_map]
        rfl

/-! ## One page -/

/-- Between two moments with the same revision, a reading is one of the revision. -/
theorem reading_unchanged {α : Type} {q : Redis α} {R : PublishedState → α → Prop}
    (hq : ∀ s, wp (exec scan i) (reading ranks archive i) q
      (fun a s' => Between (ranks t) t s s' fun p => R p a) (fun _ _ => True) s)
    {attempts : ℕ} {x : Recorded Command Store} :
    wp (recording (exec scan i)) (reading ranks archive i).recorded
      (Prog.unchanged (publishedRevision t) q .retainedJobIndexWarming attempts)
      (fun result y => R result.1 result.2 ∧ ∃ ls c at₁, (c, at₁) ∈ y.2 ∧
        (reading ranks archive i).assume ls c at₁ ∧ at₁.publishedState t = some result.1)
      (fun _ _ => True) x := by
  have hop : ∃ ls c next, publishedRevision t = .op ls c next := ⟨_, _, _, rfl⟩
  have hstable : ∀ p : PublishedState, (reading ranks archive i).Stable
      fun s => Later (ranks t) (some p) (s.publishedState t) := by
    intro p _ s s' hr hpast
    exact hpast.trans (hr t).later
  have hfirst : ∀ s, wp (exec scan i) (reading ranks archive i) (publishedRevision t)
      (fun st s' => ∀ p ∈ st, Later (ranks t) (some p) (s'.publishedState t)) (fun _ _ => True) s := by
    intro s
    apply wp_mono _ (fun _ _ _ => trivial) publishedState_reading
    rintro _ s' hlater p rfl
    exact hlater
  have hbody : ∀ (s : Store) (p : PublishedState), Later (ranks t) (some p) (s.publishedState t) →
      wp (exec scan i) (reading ranks archive i) q
        (fun a s' => Later (ranks t) (some p) (s'.publishedState t) ∧
          (s'.publishedState t = some p → R p a)) (fun _ _ => True) s := by
    intro s p hpast
    apply wp_mono _ (fun _ _ _ => trivial) (hq s)
    intro a s' hbetween
    constructor
    · obtain ⟨p', hfrom, hto, -⟩ := hbetween
      exact hpast.trans (hfrom.trans hto)
    · exact between_unchanged hbetween hpast
  have hagain : ∀ (s : Store) (p : PublishedState), Later (ranks t) (some p) (s.publishedState t) →
      wp (exec scan i) (reading ranks archive i) (publishedRevision t)
        (fun st _ => st = some p → s.publishedState t = some p) (fun _ _ => True) s := by
    intro s p hpast
    exact publishedState_again hpast
  exact wp_unchanged hop hstable hfirst hbody hagain

/-- The first id of the listing of a set. -/
def firstListed (t : RetainedJobType) (z : ZSet) : Option String :=
  (unread z (!t.newestFirst) none).head?.map Prod.fst

/-- **The metadata of a page** are those of one publication. -/
theorem publishedPageMetadata_archived {query : RetainedJobQuery} :
    wp (exec scan i) (reading ranks archive i) (query.publishedPageMetadata t (queueFilters queue))
      (fun metadata s' => Between (ranks t) t s s' fun p =>
        metadata.total = (jobsOf archive t queue p).card ∧
          ((∀ id ∈ jobsOf archive t queue p, isIntegerKey id = false) →
            metadata.headId = firstListed t (jobsOf archive t queue p))) (fun _ _ => True) s := by
  apply wp_bind_of pageIdsFromPublishedIndex_archived
  intro page s' hbetween
  apply hbetween.imp
  rintro p ⟨k, hresult⟩
  refine ⟨hresult.total, fun hmembers => ?_⟩
  have hpage := hresult.isPage le_rfl (by simp) hmembers
  show page.ids.head? = firstListed t (jobsOf archive t queue p)
  rw [hpage.ids, included_nil, List.head?_map, List.head?_take, if_neg one_ne_zero]
  rfl

/-- **The revision of a list** is told with the number of jobs of the queue in the index of this revision
and the first of them, as it was published at a step of the call. -/
theorem listRevision_published {y : Recorded Command Store} {revision : PublishedState} {total : ℕ}
    {headId : Option String}
    (hrun : Run (recording (exec scan i)) (readers ranks i).recorded.rely
      (readers ranks i).recorded.assume (data.listRevision queue t, (s, []))
      (.ret (some revision, total, headId), y)) :
    ∃ c at₁, (c, at₁) ∈ y.2 ∧ at₁.publishedState t = some revision ∧
      total = (publishedJobs at₁ queue t).card ∧
      ((∀ id ∈ publishedJobs at₁ queue t, isIntegerKey id = false) →
        headId = firstListed t (publishedJobs at₁ queue t)) := by
  obtain ⟨archive, hrun⟩ := exists_archive (run_quiet listRevision_writes hrun)
  have hlist : wp (recording (exec scan i)) (reading ranks archive i).recorded
      (data.listRevision queue t)
      (fun result y => ∀ revision ∈ result.1,
        ∃ c at₁, (c, at₁) ∈ y.2 ∧ at₁.publishedState t = some revision ∧
          result.2.1 = (publishedJobs at₁ queue t).card ∧
          ((∀ id ∈ publishedJobs at₁ queue t, isIntegerKey id = false) →
            result.2.2 = firstListed t (publishedJobs at₁ queue t)))
      (fun _ _ => True) (s, []) := by
    apply wp_tryCatch.mpr
    apply wp_bind_of
    · apply wp_mono (fun _ _ h => h) _ (reading_unchanged fun s => publishedPageMetadata_archived)
      rintro e y _ revision ⟨⟩
    · rintro ⟨revision, metadata⟩ y ⟨hmetadata, ls, c, at₁, hmem, ⟨-, -, harchived, -⟩, hpublished⟩ _ ⟨⟩
      rw [jobsOf_archived harchived hpublished] at hmetadata
      exact ⟨c, at₁, hmem, hpublished, hmetadata⟩
  have hresult := hrun.sound (fun result x x' hr h => by rw [hr.2]; exact h) (fun _ _ _ _ h => h) hlist
  exact hresult revision rfl

/-! ## Four published indexes -/

/-- The index of the example, published for jobs of every kind. -/
def publishedStore : Store := { indexedStore with published := fun _ => some ⟨.a, ⟨0, 0⟩⟩ }

/-- A reader of the example that nobody disturbs meets the assumptions. -/
theorem run_of_published {α : Type} {q : Redis α} {a : α}
    (h : (q.eval (recording (exec .single 0)) (publishedStore, [])).1 = .returned a)
    (hquiet : q.Along (recording (exec .single 0))
      (fun c x => ∀ t ∈ RetainedJobType.cases, quiet t 0 c x = true) (publishedStore, [])) :
    Run (recording (exec .single 0)) (readers (fun _ => publishedRank) 0).recorded.rely
      (readers (fun _ => publishedRank) 0).recorded.assume (q, (publishedStore, []))
      (.ret a, (q.eval (recording (exec .single 0)) (publishedStore, [])).2) := by
  apply Prog.run_eval _ (Prod.ext h rfl) hquiet
  intro ls c x hc
  have hassume : ∀ t, (advancingUnused publishedRank 0 t).recorded.assume ls c x := fun t =>
    assume_of_quiet (hc t t.mem_cases)
  exact ⟨fun t => (hassume t).1, (hassume .pending).2⟩

/-- The pages and numbers of the example; a row is the id of its job. -/
def plainData : QueueJobsData (Option String) where
  retainedQuery := ⟨⟨500, 3⟩, none, id, false, false⟩
  row _ job := some job.1.id
  retentionMinutes _ := 1
  now _ := (70, 70)

/-- The numbers of a queue with one pending job. -/
theorem publishedSummarySnapshot_published_pending : ∃ y : Recorded Command Store,
    ∃ revision : RetainedJobType → PublishedState,
      RetainedJobType.cases.map (fun t => (t, (⟨.a, ⟨0, 0⟩⟩ : PublishedState))) =
        RetainedJobType.cases.map (fun t => (t, revision t)) ∧
      ∃ c at₁, (c, at₁) ∈ y.2 ∧ (∀ t, at₁.publishedState t = some (revision t)) ∧
        IsSummary plainData (publishedJobs at₁ "default")
          (plainData.summaryOf ⟨some 1, true, some 1, some 1, true⟩
            ⟨some 0, true, some 0, some 0, true⟩ ⟨some 0, true, some 0, some 0, true⟩
            ⟨some 0, true, some 0, some 0, true⟩) :=
  ⟨_, publishedSummarySnapshot_published
    (run_of_published (by decide +kernel) (by decide +kernel))⟩

/-- Where the states of the pending jobs are unavailable, no page leads with the reserved ones. -/
theorem publishedActivitySnapshot_writes (hstates : data.retainedQuery.pendingStates = none) :
    Writes Key.IsTemporary (data.publishedActivitySnapshot queue t cursor) := by
  have hlead : data.retainedQuery.shouldLeadWithReserved t (queueFilters queue) = false := by
    simp [RetainedJobQuery.shouldLeadWithReserved, hstates]
  exact unchanged_writes publishedState_writes ((pageFromPublishedIndex_writes hlead).bind fun _ => .ret) 2

/-- The revision of its list. -/
theorem listRevision_published_pending : ∃ y : Recorded Command Store,
    ∃ c at₁, (c, at₁) ∈ y.2 ∧ at₁.publishedState .pending = some ⟨.a, ⟨0, 0⟩⟩ ∧
      1 = (publishedJobs at₁ "default" .pending).card ∧
      ((∀ id ∈ publishedJobs at₁ "default" .pending, isIntegerKey id = false) →
        some "job" = firstListed .pending (publishedJobs at₁ "default" .pending)) :=
  ⟨_, listRevision_published
    (run_of_published (q := plainData.listRevision "default" .pending) (by decide +kernel)
      (by decide +kernel))⟩

end Snapshots

end QueueJobsData

end HorizonNewDawn

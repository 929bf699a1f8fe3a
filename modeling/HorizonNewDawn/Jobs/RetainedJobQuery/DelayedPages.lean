import HorizonNewDawn.Jobs.RetainedJobQuery.PendingPages
import Mathlib

/-! # Traversals of the delayed jobs

The delayed jobs among the pending ones are paged by the times they become available, the soonest first.
The listing is made anew for every page, from what is delayed and still retained then; a job that stays
is shown exactly once to a reader who follows the pages. -/

namespace HorizonNewDawn

open Program SortedSet Keyset RetainedJobIndex

namespace RetainedJobQuery

/-- The filter of the delayed jobs. -/
def delayedFilter : JobIndexFiltersData := ⟨none, none, none, some "delayed"⟩

/-- The place a cursor stands for. -/
def delayedPlaceOf (cursor : Option CursorState) : Place (String × ℚ) := .rest (positionOf cursor)

variable (scan : ScanOrder) {states : PendingStates} {i : ProcessId} {s : Store} {source : ZSet}
  {delayed : List (String × ℚ)} {reserved : List String} {job : String → JobObject}

/-- The delayed jobs that are retained, under the scores they are ranked by. -/
def delayedRows (source : ZSet) (delayed : List (String × ℚ)) : List (String × ℚ) :=
  (scoredSet source (orderingScores delayed []) []).listing true

/-- The rows of the delayed jobs that are retained. -/
theorem mem_delayedRows (hdelayed : (delayed.map Prod.fst).Nodup) {e : String × ℚ} :
    e ∈ delayedRows source delayed ↔ Assignments.get e.1 delayed = some (-e.2) ∧ e.1 ∈ source := by
  have hscored : ((retained source (orderingScores delayed []) []).map Prod.fst).Nodup :=
    (nodup_orderingScores hdelayed).sublist (List.filter_sublist.map Prod.fst)
  rw [delayedRows, mem_listing, ← score_eq_some_iff, scoredSet, score_insertAll_empty hscored, retained,
    List.mem_filter, mem_orderingScores hdelayed]
  simp

/-- A page of the delayed jobs is one of a rest that nothing is taken from. -/
abbrev DelayedPage (source : ZSet) (delayed : List (String × ℚ)) :
    Place (String × ℚ) → List (String × ℚ) → Option (Place (String × ℚ)) → Prop :=
  LeadAndRest (Precedes true) (Precedes true) [] (delayedRows source delayed) pageSize fun _ => false

variable (query : RetainedJobQuery)

/-- **A page of the delayed jobs** shows the next of them behind the position of its cursor. -/
theorem eval_page_delayed (hstates : query.pendingStates = some states)
    (hs : Listed states i source delayed reserved job s) {search : Option String}
    (hsearch : Php.trim (search.getD "") = "") (failedTag : Option String)
    {cursor : Option CursorState} (hcursor : Scored cursor) :
    ∃ shown s', (query.page .pending delayedFilter cursor failedTag search).eval (exec scan i) s =
        (.returned shown, s') ∧
      (∃ rows : List (String × ℚ), shown.jobs.map (·.1.id) = rows.map (fun e => some e.1) ∧
        DelayedPage source delayed (delayedPlaceOf cursor) rows
          (shown.next.map fun c => delayedPlaceOf (some c))) ∧
      Scored shown.next := by
  have hleads : query.shouldLeadWithReserved .pending delayedFilter = false := by
    simp [shouldLeadWithReserved, delayedFilter]
  have hpages : query.shouldPageDelayedByAvailability .pending delayedFilter = true := by
    simp [shouldPageDelayedByAvailability, delayedFilter, hstates]
  rw [RetainedJobQuery.page]
  simp only [normalizedSearch, hsearch, if_true, hleads, hpages, Bool.false_eq_true, if_false]
  have hfacets : (RetainedJobQuery.facets .pending delayedFilter none).eval (exec scan i) s =
      (.returned [], s) := rfl
  have hdelayed : (query.delayedOrderingScores delayedFilter []).eval (exec scan i) s =
      (.returned (orderingScores delayed []), s) := by
    -- The targets are not filtered by a state.
    have hscanned : Scanned states delayedFilter s := ⟨hs.scanned.published, hs.scanned.queues⟩
    rw [← hs.delayed_eq]
    exact eval_delayedOrderingScores hstates hs.failing hscanned []
  rw [RetainedJobQuery.pagePendingDelayedByAvailability, Prog.eval_bind_of hfacets,
    Prog.eval_bind_of hdelayed]
  split
  · -- Nothing is delayed.
    rename_i hnone
    have hrows : delayedRows source delayed = [] := by
      rw [delayedRows, hnone]
      exact List.length_eq_zero_iff.mp length_listing
    have hfollowing : following (Precedes true) (delayedRows source delayed) (positionOf cursor) = [] := by
      rw [hrows]
      exact List.sublist_nil.mp (following_sublist _)
    refine ⟨_, s, rfl, ⟨[], rfl, .rest (by decide) ⟨?_, fun _ => ?_, by rintro place ⟨⟩⟩⟩, scored_none⟩
    · simp [hfollowing]
    · simp [hfollowing]
  · have hnodup : ((orderingScores delayed []).map Prod.fst).Nodup :=
      nodup_orderingScores hs.delayed_keys
    have hmembers : ∀ id ∈ s.zset (.source .pending), isIntegerKey id = false := by
      rw [hs.source_eq]
      exact fun id hid => isIntegerKey_of_numeric (hs.source_ids id hid)
    have hpage : ∃ page s', (query.index.pageScoredIds query.lower query.trimmed query.synchronized
        .pending [] (orderingScores delayed []) [] (cursor.bind (·.position)) pageSize none false).eval
          (exec scan i) s = (.returned page, s') ∧ _ :=
      eval_pageScoredIds query.index query.lower query.trimmed query.synchronized false (by decide)
        hs.failing hs.unused hnodup hmembers hcursor (by decide)
    obtain ⟨page, s', hpageEval, hscratches, hpage⟩ := hpage
    rw [hs.source_eq] at hpage
    have hrows : FirstRows ((unread (scoredSet source (orderingScores delayed []) []) true
        (cursor.bind (·.position))).filter fun _ => !false) pageSize page.toScoredPage := by
      rw [hpage]
      simp only [Bool.not_false, List.filter_true]
      exact firstRows_scoredPageResult (by decide) _ _
    have hids : ∀ id ∈ page.toScoredPage.ids, id ∈ source := by
      intro id hid
      rw [hrows.ids] at hid
      obtain ⟨e, he, rfl⟩ := List.mem_map.mp hid
      have hmem : e ∈ delayedRows source delayed :=
        (following_sublist _).subset (List.mem_of_mem_filter (List.mem_of_mem_take he))
      exact ((mem_delayedRows hs.delayed_keys).mp hmem).2
    obtain ⟨shown, heval, hjobs, -, -, hnext⟩ := eval_toPage scan hs hscratches hids page.total cursor
      (page.next.map fun next => ⟨some next, .default⟩)
    have hplaces : (shown.next.map fun c => delayedPlaceOf (some c)) =
        page.next.map fun next => .rest next.entry := by
      rw [hnext, Option.map_map]
      rfl
    have hdelayedPage := LeadAndRest.rest (r := Precedes true) (l := []) (show 0 < pageSize by decide)
      (restPage_of_firstRows hrows)
    rw [← hplaces] at hdelayedPage
    refine ⟨shown, s', (Prog.eval_bind_of hpageEval).trans heval, ⟨_, ?_, hdelayedPage⟩, ?_⟩
    · rw [hjobs, hrows.ids, List.map_map]
      rfl
    · rw [hnext]
      exact scored_of_firstRows hrows .default

/-- The ids that are shown are those of a page of the delayed jobs. -/
theorem exists_rows_of_delayedIds (hstates : query.pendingStates = some states)
    (hs : Listed states i source delayed reserved job s) {failedTag search : Option String}
    (hsearch : Php.trim (search.getD "") = "") {cursor : Option CursorState} (hcursor : Scored cursor)
    {ids : List String} {next : Option (Option CursorState)}
    (h : PendingIds query scan i delayedFilter failedTag search s cursor ids next) :
    (∃ rows : List (String × ℚ), ids = rows.map Prod.fst ∧
      DelayedPage source delayed (delayedPlaceOf cursor) rows (next.map delayedPlaceOf)) ∧
      ∀ cursor' ∈ next, Scored cursor' := by
  obtain ⟨shown, s', heval, ⟨rows, hrows, hshown⟩, hscored⟩ :=
    eval_page_delayed scan query hstates hs hsearch failedTag hcursor
  obtain ⟨rfl, rfl⟩ := (pendingIds_iff scan query heval hrows).mp h
  refine ⟨⟨rows, rfl, ?_⟩, ?_⟩
  · rw [Option.map_map]
    exact hshown
  · intro cursor' hcursor'
    obtain ⟨c, hc, rfl⟩ := Option.map_eq_some_iff.mp hcursor'
    rw [← hc]
    exact hscored

/-- A reader of the delayed jobs reaches the end where they stay from some page on. -/
theorem exists_delayedPages (hstates : query.pendingStates = some states) {stores : ℕ → Store}
    {source : ℕ → ZSet} {delayed : ℕ → List (String × ℚ)} {reserved : ℕ → List String}
    {job : ℕ → String → JobObject}
    (hs : ∀ n, Listed states i (source n) (delayed n) (reserved n) (job n) (stores n)) (k : ℕ)
    (hstays : ∀ n, k ≤ n → source n = source k ∧ delayed n = delayed k)
    (failedTag : Option String) {search : Option String} (hsearch : Php.trim (search.getD "") = "") :
    ∃ visited ids, Traverses (fun n => query.PendingIds scan i delayedFilter failedTag search (stores n))
      0 none visited ids := by
  apply Traverses.exists_of_decreasing (P := Scored) (f := fun cursor =>
    (following (Precedes true) (delayedRows (source k) (delayed k)) (positionOf cursor)).length) k _ 0
    scored_none
  intro n cursor hcursor
  obtain ⟨shown, s', heval, ⟨rows, hrows, hshown⟩, hscored⟩ :=
    eval_page_delayed scan query hstates (hs n) hsearch failedTag hcursor
  refine ⟨_, _, (pendingIds_iff scan query heval hrows).mpr ⟨rfl, rfl⟩, ?_⟩
  intro cursor' hcursor'
  obtain ⟨c, hc, rfl⟩ := Option.map_eq_some_iff.mp hcursor'
  rw [hc] at hscored hshown
  refine ⟨hscored, fun hn => ?_⟩
  rw [(hstays n hn).1, (hstays n hn).2] at hshown
  exact hshown.remaining_lt _ rfl

/-- **A delayed job that stays**: whatever jobs are delayed, released and removed between the pages, a
job that stays delayed until the same time is shown exactly once to a reader who reaches the end; and
where all stay, the reader reaches the end and is shown all of them, the soonest first. -/
theorem delayedPages_shown_once (hstates : query.pendingStates = some states) {stores : ℕ → Store}
    {source : ℕ → ZSet} {delayed : ℕ → List (String × ℚ)} {reserved : ℕ → List String}
    {job : ℕ → String → JobObject}
    (hs : ∀ n, Listed states i (source n) (delayed n) (reserved n) (job n) (stores n))
    (failedTag : Option String) {search : Option String} (hsearch : Php.trim (search.getD "") = "")
    {visited : List (Option CursorState)} {ids : List String}
    (h : Traverses (fun n => query.PendingIds scan i delayedFilter failedTag search (stores n)) 0 none
      visited ids) :
    (∀ (id : String) (time : ℚ), (∀ n, id ∈ source n ∧ Assignments.get id (delayed n) = some time) →
      ids.count id = 1) ∧
    ((∀ n, source n = source 0 ∧ delayed n = delayed 0) →
      ids = (delayedRows (source 0) (delayed 0)).map Prod.fst) := by
  have hplaces : Traverses (fun n place ids next => ∃ rows : List (String × ℚ),
      ids = rows.map Prod.fst ∧ DelayedPage (source n) (delayed n) place rows next)
        0 (delayedPlaceOf none) (visited.map delayedPlaceOf) ids := by
    apply h.imp (P := Scored) (f := delayedPlaceOf) (Q := fun _ _ => True) _
      scored_none
    · exact fun _ _ _ => trivial
    · intro n cursor ids next hcursor _ hpage
      exact exists_rows_of_delayedIds scan query hstates (hs n) hsearch hcursor hpage
  obtain ⟨rows, rfl, hrows⟩ := hplaces.exists_rows
  constructor
  · -- The row of the job is the same at every page, so it is due at one place only.
    intro id time hstays
    have hmem : ∀ n, (id, -time) ∈ delayedRows (source n) (delayed n) := by
      intro n
      rw [mem_delayedRows (hs n).delayed_keys, neg_neg]
      exact ⟨(hstays n).2, (hstays n).1⟩
    have hcount := hrows.countP_eq_due (b := (id, -time)) (q := fun e => decide (e.1 = id))
      (fun k => pairwise_listing) hmem (fun _ => rfl) (fun k a ha => ?_) (fun k a ha => by cases ha)
    · rw [List.count_eq_countP, List.countP_map,
        ← List.countP_congr (p := fun e => decide (e.1 = id)), hcount]
      · rfl
      · simp
    · -- No other row of a page can show the id: an id has one time.
      rw [decide_eq_true_eq]
      constructor
      · rintro rfl
        have htime := ((mem_delayedRows (hs k).delayed_keys).mp ha).1
        rw [(hstays k).2, Option.some.injEq] at htime
        exact Prod.ext rfl (by rw [htime, neg_neg])
      · rintro rfl
        rfl
  · intro hconstant
    have hsame : Traverses (fun _ => DelayedPage (source 0) (delayed 0)) 0 (delayedPlaceOf none)
        (visited.map delayedPlaceOf) rows := by
      apply hrows.mono
      intro n c rows next hpage
      rwa [(hconstant n).1, (hconstant n).2] at hpage
    rw [hsame.eq_of_constant]
    simp only [delayedPlaceOf, Place.content, Bool.not_false, List.filter_true]
    rfl


/-- A page shows at most as many jobs as a page has room for. -/
theorem length_le_of_delayedIds (hstates : query.pendingStates = some states)
    (hs : Listed states i source delayed reserved job s) {failedTag search : Option String}
    (hsearch : Php.trim (search.getD "") = "") {cursor : Option CursorState} (hcursor : Scored cursor)
    {ids : List String} {next : Option (Option CursorState)}
    (h : PendingIds query scan i delayedFilter failedTag search s cursor ids next) :
    ids.length ≤ pageSize ∧ ∀ cursor' ∈ next, Scored cursor' := by
  obtain ⟨⟨rows, rfl, hrows⟩, hnext⟩ :=
    exists_rows_of_delayedIds scan query hstates hs hsearch hcursor h
  rw [List.length_map]
  exact ⟨hrows.length_le, hnext⟩

/-! Sixty delayed jobs, one of which is released after the first page. -/

/-- The jobs of the example, each delayed until a later time than the one before. -/
def sixtyDelayed : List (String × ℚ) := (List.range 60).map fun n => (jobName n, n + 1)

/-- The jobs that are delayed when a page is read. -/
def releasingDelayed : ℕ → List (String × ℚ)
  | 0 => sixtyDelayed
  | _ + 1 => sixtyDelayed.filter fun e => e.1 ≠ jobName 9

/-- They are the jobs of the example. -/
theorem map_sixtyDelayed : sixtyDelayed.map Prod.fst = sixtyIds := by
  rw [sixtyDelayed, List.map_map, sixtyIds]
  rfl

/-- A delayed job is listed once. -/
theorem nodup_sixtyDelayed : (sixtyDelayed.map Prod.fst).Nodup := by
  rw [map_sixtyDelayed]
  exact nodup_sixtyIds

/-- So is one that is left over. -/
theorem nodup_releasingDelayed (n : ℕ) : ((releasingDelayed n).map Prod.fst).Nodup := by
  cases n with
  | zero => exact nodup_sixtyDelayed
  | succ n => exact nodup_sixtyDelayed.sublist (List.filter_sublist.map Prod.fst)

/-- The store a page is read from. -/
def releasingStore (n : ℕ) : Store :=
  exampleStore sixtyIds (bareSet [] List.nodup_nil)
    (bareSet (releasingDelayed n) (nodup_releasingDelayed n))

/-- The jobs of these stores. -/
theorem listed_releasingStore (n : ℕ) :
    Listed allFinite 0 (sourceOf sixtyIds) (releasingDelayed n) [] bareJob (releasingStore n) := by
  have htimes : ∀ e ∈ sixtyDelayed, e.1 ≠ "" ∧ 0 < e.2 := by
    intro e he
    obtain ⟨m, -, rfl⟩ := List.mem_map.mp he
    exact ⟨jobName_ne_empty m, Nat.cast_add_one_pos m⟩
  have hdelayed : ∀ e ∈ releasingDelayed n, e.1 ≠ "" ∧ 0 < e.2 := by
    intro e he
    cases n with
    | zero => exact htimes e he
    | succ n => exact htimes e (List.mem_filter.mp he).1
  have hreserved : (([] : List (String × ℚ)).map Prod.fst).Nodup := List.nodup_nil
  exact listed_exampleStore hreserved _ numeric_sixtyIds (List.forall_mem_nil _) hdelayed

/-- The times of the jobs in the listing, the soonest first. -/
theorem pairwise_sixtyDelayed : (sixtyDelayed.map fun e => (e.1, -e.2)).Pairwise (Precedes true) := by
  rw [sixtyDelayed, List.map_map, List.pairwise_map]
  refine List.pairwise_lt_range.imp fun {m n} hmn => ?_
  have hlt : -((n : ℚ) + 1) < -((m : ℚ) + 1) := by
    rw [neg_lt_neg_iff, add_lt_add_iff_right, Nat.cast_lt]
    exact hmn
  exact Prod.Lex.toLex_lt_toLex.mpr (Or.inl hlt)

/-- The listing of the delayed jobs. -/
theorem delayedRows_sixty : (delayedRows (sourceOf sixtyIds) sixtyDelayed).map Prod.fst = sixtyIds := by
  have hrows : delayedRows (sourceOf sixtyIds) sixtyDelayed =
      sixtyDelayed.map fun e => (e.1, -e.2) := by
    apply eq_of_perm (r := Precedes true) _ pairwise_listing pairwise_sixtyDelayed
    apply (List.perm_ext_iff_of_nodup (nodup_of_pairwise (r := Precedes true) pairwise_listing)
      (nodup_of_pairwise (r := Precedes true) pairwise_sixtyDelayed)).mpr
    rintro ⟨id, score⟩
    rw [← delayedRows, mem_delayedRows nodup_sixtyDelayed, mem_sourceOf, List.mem_map]
    constructor
    · rintro ⟨htime, -⟩
      exact ⟨_, Assignments.mem_of_get htime, by simp⟩
    · rintro ⟨e, he, heq⟩
      cases heq
      have hid : e.1 ∈ sixtyIds := map_sixtyDelayed ▸ List.mem_map_of_mem he
      exact ⟨by rw [neg_neg]; exact Assignments.get_of_mem nodup_sixtyDelayed he, hid⟩
  rw [hrows, List.map_map]
  exact map_sixtyDelayed

/-- **Two pages** of the delayed jobs: the job that is released while they are read aside, every job is
shown once, and all of them the soonest first where none is released. -/
theorem delayedPages_shown_once_sixty :
    (∃ visited ids, Traverses (fun n => exampleQuery.PendingIds .single 0 delayedFilter none none
      (releasingStore n)) 0 none visited ids ∧
        (∀ id ∈ sixtyIds, id ≠ jobName 9 → ids.count id = 1) ∧ 2 ≤ visited.length) ∧
    ∃ visited, Traverses (fun _ => exampleQuery.PendingIds .single 0 delayedFilter none none
      (releasingStore 0)) 0 none visited sixtyIds := by
  have hsearch : Php.trim ((none : Option String).getD "") = "" := by decide
  constructor
  · obtain ⟨visited, ids, h⟩ := exists_delayedPages .single exampleQuery rfl listed_releasingStore 1
      (fun n hn => by
        obtain ⟨m, rfl⟩ := Nat.exists_eq_succ_of_ne_zero (by omega : n ≠ 0)
        exact ⟨rfl, rfl⟩) none hsearch
    obtain ⟨honce, -⟩ := delayedPages_shown_once .single exampleQuery rfl listed_releasingStore none
      hsearch h
    have hstaying : ∀ id ∈ sixtyIds, id ≠ jobName 9 → ids.count id = 1 := by
      intro id hid hne
      have hdelayed : id ∈ sixtyDelayed.map Prod.fst := by
        rwa [map_sixtyDelayed]
      obtain ⟨⟨id, time⟩, he, rfl⟩ := List.mem_map.mp hdelayed
      apply honce id time
      intro n
      refine ⟨mem_sourceOf.mpr hid, Assignments.get_of_mem (nodup_releasingDelayed n) ?_⟩
      cases n with
      | zero => exact he
      | succ n => exact List.mem_filter.mpr ⟨he, by simpa using hne⟩
    refine ⟨visited, ids, h, hstaying, ?_⟩
    have hlength : ids.length ≤ pageSize * visited.length :=
      h.length_le (P := Scored) (fun n c ids next hc hpage =>
        length_le_of_delayedIds .single exampleQuery rfl (listed_releasingStore n) hsearch hc hpage)
        scored_none
    have hsubset : sixtyIds.erase (jobName 9) ⊆ ids := by
      apply subset_of_count
      intro id hid
      obtain ⟨hne, hmem⟩ := nodup_sixtyIds.mem_erase_iff.mp hid
      exact hstaying id hmem hne
    have hmany : pageSize < (sixtyIds.erase (jobName 9)).length := by
      rw [List.length_erase_of_mem (mem_sixtyIds.mpr ⟨9, by decide, rfl⟩)]
      simp [sixtyIds, pageSize]
    exact two_le_of_shown hlength (nodup_sixtyIds.erase _) hsubset hmany
  · obtain ⟨visited, ids, h⟩ := exists_delayedPages .single exampleQuery rfl
      (fun _ => listed_releasingStore 0) 0 (fun _ _ => ⟨rfl, rfl⟩) none hsearch
    obtain ⟨-, hall⟩ := delayedPages_shown_once .single exampleQuery rfl
      (fun _ => listed_releasingStore 0) none hsearch h
    have hids : ids = (delayedRows (sourceOf sixtyIds) sixtyDelayed).map Prod.fst :=
      hall fun _ => ⟨rfl, rfl⟩
    rw [delayedRows_sixty] at hids
    exact ⟨visited, hids ▸ h⟩

end RetainedJobQuery

end HorizonNewDawn

import HorizonNewDawn.Jobs.PendingJobStateIndex.Tags
import HorizonNewDawn.Jobs.RetainedJobQuery.PendingRest
import Mathlib

/-! # Traversals of the pending jobs

A reader of the pending jobs follows the cursors from page to page, while jobs may be reserved and
released. Every page is a page of a lead and a rest (`leadAndRest_page`). A reader who is shown the
pages of a queue nobody works on is shown every job once, the reserved ones first; and whatever happens
to the others, a job that is never reserved is shown exactly once, unless a cursor of the lead is handed
in when nothing is reserved any more: then its position is taken for one among the rest. -/

namespace HorizonNewDawn

open Program SortedSet Keyset RetainedJobIndex

namespace RetainedJobQuery

/-! ## Stores a page is read from -/

/-- What a page of the pending jobs is read from: the source, the delayed jobs with their times and the
reserved jobs of the queues, and the job objects, with ids that are not numeric and keys that are used
once. -/
structure Listed (states : PendingStates) (i : ProcessId) (source : ZSet)
    (delayed : List (String × ℚ)) (reserved : List String) (job : String → JobObject) (s : Store) :
    Prop where
  failing : s.failing = false
  source_eq : s.zset (.source .pending) = source
  scanned : Scanned states .none s
  delayed_eq : delayedAt s .none = delayed
  reserved_eq : reservedAt s .none = reserved
  unused : s.zset (.temporary ⟨i, s.serial i⟩) = ∅
  repository : ∀ ids : List String, (∀ id ∈ ids, id ∈ source) → s.repository ids = ids.map job
  job_id : ∀ id, (job id).id = some id
  source_ids : ∀ id ∈ source, Php.numeric id = none
  reserved_ids : ∀ id ∈ reserved, Php.numeric id = none

/-- A delayed job is listed once. -/
theorem Listed.delayed_keys {states : PendingStates} {i : ProcessId} {source : ZSet}
    {delayed : List (String × ℚ)} {reserved : List String} {job : String → JobObject} {s : Store}
    (hs : Listed states i source delayed reserved job s) : (delayed.map Prod.fst).Nodup := by
  rw [← hs.delayed_eq]
  exact nodup_delayedAt

variable (scan : ScanOrder) {states : PendingStates} {i : ProcessId} {s s' : Store} {source : ZSet}
  {delayed : List (String × ℚ)} {reserved : List String} {job : String → JobObject}

/-- The job objects of ids of the source, with their indexes. -/
theorem eval_hydrate (hs : Listed states i source delayed reserved job s) (hscratches : Scratches i s s')
    {ids : List String} (hids : ∀ id ∈ ids, id ∈ source) (startingAt : ℤ) :
    (hydrate ids startingAt).eval (exec scan i) s' =
      (.returned (ids.map fun id => (job id, startingAt + ids.idxOf id)), s') := by
  rw [hydrate]
  split
  · rename_i hnil
    rw [hnil]
    rfl
  · have hjobs : (command (.getJobs ids) : Redis (List JobObject)).eval (exec scan i) s' =
        (.returned (s'.repository ids), s') :=
      eval_command (hscratches.failing.trans hs.failing) (.getJobs ids)
    have hrepository : s'.repository ids = ids.map job := by
      rw [hscratches.rest]
      exact hs.repository ids hids
    have hfind : ∀ id ∈ ids, ((ids.map job).reverse.find? fun job => job.id = some id) =
        some (job id) := by
      intro id hid
      have hsome : ((ids.map job).reverse.find? fun job => job.id = some id).isSome := by
        rw [List.find?_isSome]
        exact ⟨job id, by simpa using ⟨id, hid, rfl⟩, by simp [hs.job_id]⟩
      obtain ⟨found, hfound⟩ := Option.isSome_iff_exists.mp hsome
      have hmem : found ∈ (ids.map job).reverse := List.mem_of_find?_eq_some hfound
      have hfoundId := List.find?_some hfound
      obtain ⟨id', -, rfl⟩ := List.mem_map.mp (List.mem_reverse.mp hmem)
      rw [decide_eq_true_eq, hs.job_id, Option.some.injEq] at hfoundId
      rw [hfound, hfoundId]
    apply (Prog.eval_bind_of hjobs).trans
    rw [hrepository]
    have hrows : ∀ l ⊆ ids, (l.filterMap fun id => ((ids.map job).reverse.find? fun job =>
        job.id = some id).map fun job => (job, startingAt + (ids.idxOf id : ℤ))) =
          l.map fun id => (job id, startingAt + (ids.idxOf id : ℤ)) := by
      intro l hl
      induction l with
      | nil => rfl
      | cons id l ih =>
          simp only [List.filterMap_cons, List.map_cons, hfind id (hl List.mem_cons_self),
            Option.map_some, ih (List.Subset.trans (List.subset_cons_self id l) hl)]
    rw [hrows ids (List.Subset.refl ids)]
    rfl

/-- The page of some ids. -/
theorem eval_toPage (hs : Listed states i source delayed reserved job s) (hscratches : Scratches i s s')
    {ids : ScoredPage} (hids : ∀ id ∈ ids.ids, id ∈ source) (total : ℕ)
    (current next : Option CursorState) :
    ∃ page, (toPage ids total current next).eval (exec scan i) s' = (.returned page, s') ∧
      page.jobs.map (·.1.id) = ids.ids.map some ∧ page.total = total ∧ page.current = current ∧
      page.next = next := by
  rw [toPage, Prog.eval_bind_of (eval_hydrate scan hs hscratches hids _)]
  refine ⟨_, rfl, ?_, rfl, rfl, rfl⟩
  rw [List.map_map]
  exact List.map_congr_left fun id _ => hs.job_id id

/-! ## Places -/

/-- The lead: the entries of the source. -/
def leadRows (source : ZSet) : List (String × ℚ) := source.listing true

/-- The rest: the entries under the scores they are ranked by there. -/
def restRows (source : ZSet) (delayed : List (String × ℚ)) : List (String × ℚ) :=
  (restSet source delayed).listing true

/-- The position of a cursor. -/
def positionOf (cursor : Option CursorState) : Option (String × ℚ) :=
  (cursor.bind (·.position)).bind RetainedJobPosition.entry

/-- The place a cursor stands for: a cursor of the ordinary listing is one among the rest. -/
def placeOf (cursor : Option CursorState) : Place (String × ℚ) :=
  if cursor.elim .reserved (·.phase) = .reserved then .lead (positionOf cursor)
  else .rest (positionOf cursor)

/-- The place a page is read at: among the rest where nothing is reserved. -/
def placeIn (reserved : List String) (cursor : Option CursorState) : Place (String × ℚ) :=
  if reserved = [] then .rest (positionOf cursor) else placeOf cursor

/-- The positions of a cursor have scores. -/
def Scored (cursor : Option CursorState) : Prop :=
  ∀ p ∈ cursor.bind (·.position), p.score ≠ none

/-- Where there is no cursor there is no position. -/
theorem scored_none : Scored none := by
  rintro p ⟨⟩

/-- A page of the pending jobs is one of a lead and a rest. -/
abbrev PendingPage (source : ZSet) (delayed : List (String × ℚ)) (reserved : List String) :
    Place (String × ℚ) → List (String × ℚ) → Option (Place (String × ℚ)) → Prop :=
  LeadAndRest (Precedes true) (Precedes true) (leadRows source) (restRows source delayed) pageSize
    fun e => decide (e.1 ∈ reserved)

variable {after : Option RetainedJobPosition} {limit : ℕ} {page : ScoredPage}

/-- The rows that are not excluded. -/
theorem included_eq (excludeIds : List String) (rows : List (String × ℚ)) :
    included excludeIds rows = rows.filter fun e => !decide (e.1 ∈ excludeIds) := by
  rw [included]
  exact List.filter_congr fun e _ => decide_not

/-- A page that shows the first rows behind a position is a page of a rest. -/
theorem restPage_of_firstRows {z : ZSet} {p : String × ℚ → Bool}
    (h : FirstRows ((unread z true after).filter fun e => !p e) limit page) :
    RestPage (Precedes true) (z.listing true) p limit (after.bind RetainedJobPosition.entry)
      (((unread z true after).filter fun e => !p e).take limit)
      (page.next.map fun next => .rest next.entry) where
  rows_eq := rfl
  last hnone := h.last (by simpa using hnone)
  more place hplace := by
    obtain ⟨next, hnext, rfl⟩ := Option.map_eq_some_iff.mp hplace
    obtain ⟨hscore, hentry⟩ := h.more next hnext
    obtain ⟨x, hx⟩ := Option.ne_none_iff_exists'.mp hscore
    have hlast : next.entry = some (next.id, x) := by
      rw [RetainedJobPosition.entry, hx]
      rfl
    rw [hlast] at hentry ⊢
    exact .inr ⟨_, rfl, Behind.of_getLast pairwise_listing hentry.symm⟩

/-- The rest shows jobs of the source, and its cursors are places among it. -/
theorem restPage_pending
    (h : FirstRows (included reserved (unread (restSet source delayed) true after)) limit page)
    (phase : Phase) (hphase : phase ≠ .reserved) :
    ∃ rows, page.ids = rows.map Prod.fst ∧ (∀ e ∈ rows, e.1 ∈ source) ∧
      RestPage (Precedes true) (restRows source delayed) (fun e => decide (e.1 ∈ reserved)) limit
        (after.bind RetainedJobPosition.entry) rows
        ((page.next.map fun next => (⟨some next, phase⟩ : CursorState)).map fun c => placeOf (some c)) := by
  rw [included_eq] at h
  refine ⟨_, h.ids, fun e he => ?_, ?_⟩
  · have hmem := mem_unread.mp (List.mem_of_mem_filter (List.mem_of_mem_take he))
    rw [score_restSet, restScore] at hmem
    by_contra hnot
    rw [if_neg hnot] at hmem
    cases hmem.1
  · have hplaces : ((page.next.map fun next => (⟨some next, phase⟩ : CursorState)).map fun c =>
        placeOf (some c)) = page.next.map fun next => .rest next.entry := by
      rw [Option.map_map]
      congr 1
      funext next
      simp only [Function.comp_apply, placeOf, Option.elim_some, positionOf, Option.bind_some]
      exact if_neg hphase
    rw [hplaces]
    exact restPage_of_firstRows h

/-! ## Pages -/

/-- What a page of the pending jobs at a place shows. -/
structure ShowsAt (source : ZSet) (delayed : List (String × ℚ)) (reserved : List String)
    (place : Place (String × ℚ)) (page : Page) : Prop where
  rows : ∃ rows : List (String × ℚ), page.jobs.map (·.1.id) = rows.map (fun e => some e.1) ∧
    PendingPage source delayed reserved place rows (page.next.map fun c => placeOf (some c))
  scored : Scored page.next
  total : page.total = source.card

/-- What is unread of some ids. -/
theorem unread_filter (z : ZSet) (ids : List String) (reverse : Bool)
    (after : Option RetainedJobPosition) :
    unread (z.filter fun id _ => decide (id ∈ ids)) reverse after =
      (unread z reverse after).filter fun e => decide (e.1 ∈ ids) := by
  apply eq_of_perm _ (pairwise_unread _ _ _) ((pairwise_unread _ _ _).filter _)
  rw [List.perm_ext_iff_of_nodup (nodup_unread _ _ _).of_map ((nodup_unread _ _ _).of_map.filter _)]
  intro e
  rw [List.mem_filter, mem_unread, mem_unread, score_filter_members (p := fun id => decide (id ∈ ids))]
  by_cases h : e.1 ∈ ids <;> simp [h]

section Reading

variable (query : RetainedJobQuery)

/-- The position behind a page that shows first rows has a score. -/
theorem scored_of_firstRows {rows : List (String × ℚ)} (h : FirstRows rows limit page)
    (phase : Phase) : Scored (page.next.map fun next => ⟨some next, phase⟩) := by
  intro p hp
  cases hnext : page.next with
  | none =>
      rw [hnext] at hp
      cases hp
  | some next =>
      rw [hnext] at hp
      cases hp
      exact (h.more _ hnext).1

/-- The page of ids that are shown with some rows. -/
theorem showsAt_of_rows (hs : Listed states i source delayed reserved job s) (hscratches : Scratches i s s')
    {rows : List (String × ℚ)} {place : Place (String × ℚ)} {next : Option CursorState}
    (hids : page.ids = rows.map Prod.fst) (hrows : ∀ e ∈ rows, e.1 ∈ source)
    (hpage : PendingPage source delayed reserved place rows (next.map fun c => placeOf (some c)))
    (hscored : Scored next) (current : Option CursorState) :
    ∃ shown, (toPage page source.card current next).eval (exec scan i) s' = (.returned shown, s') ∧
      ShowsAt source delayed reserved place shown := by
  have hmem : ∀ id ∈ page.ids, id ∈ source := by
    intro id hid
    rw [hids] at hid
    obtain ⟨e, he, rfl⟩ := List.mem_map.mp hid
    exact hrows e he
  obtain ⟨shown, heval, hjobs, htotal, -, hnext⟩ := eval_toPage scan hs hscratches hmem
    source.card current next
  refine ⟨shown, heval, ⟨rows, ?_, ?_⟩, ?_, htotal⟩
  · rw [hjobs, hids, List.map_map]
    rfl
  · rw [hnext]
    exact hpage
  · rw [hnext]
    exact hscored

/-- A page that shows the first rows of the rest. -/
theorem showsAt_rest (hs : Listed states i source delayed reserved job s) (hscratches : Scratches i s s')
    (hpage : FirstRows (included reserved (unread (restSet source delayed) true after)) pageSize page)
    (phase : Phase) (hphase : phase ≠ .reserved) (current : Option CursorState) :
    ∃ shown, (toPage page source.card current (page.next.map fun next => ⟨some next, phase⟩)).eval
        (exec scan i) s' = (.returned shown, s') ∧
      ShowsAt source delayed reserved (.rest (after.bind RetainedJobPosition.entry)) shown := by
  obtain ⟨rows, hids, hrows, hrest⟩ := restPage_pending hpage phase hphase
  exact showsAt_of_rows scan hs hscratches hids hrows (.rest (by decide) hrest)
    (scored_of_firstRows hpage phase) current

/-- An array has the keys it is made of. -/
theorem mem_arrayKeys {ids : List String} (id : String) : id ∈ (arrayKeys ids).ids ↔ id ∈ ids :=
  List.mem_eraseDups

/-- The page of the leading rows, the reserved jobs in the order of the source. -/
theorem eval_pageIds_reserved (hs : Listed states i source delayed reserved job s)
    (hscore : ∀ p ∈ after, p.score ≠ none) :
    ∃ page, (query.pageIds .pending [] (some (arrayKeys reserved)) after pageSize none false).eval
        (exec scan i) s = (.returned page, s) ∧
      FirstRows ((following (Precedes true) (leadRows source) (after.bind RetainedJobPosition.entry)).filter
        fun e => decide (e.1 ∈ reserved)) pageSize page := by
  have hids : ∀ id ∈ (arrayKeys reserved).ids, Php.numeric id = none :=
    fun id hid => hs.reserved_ids id ((mem_arrayKeys id).mp hid)
  have hpage : (pageAdditionalIdsFromSource none .pending (arrayKeys reserved) after pageSize).eval
      (exec scan i) s = _ :=
    eval_pageAdditionalIdsFromSource scan i none hs.failing hids (by decide) rfl hscore
  refine ⟨_, hpage, ?_⟩
  rw [unread_filter, hs.source_eq]
  simp only [mem_arrayKeys]
  exact firstRows_scoredPageResult (by decide) _ _

/-- The total of the pages. -/
theorem eval_pageIds_total (hs : Listed states i source delayed reserved job s) :
    ∃ page, (query.pageIds .pending [] none none 1 none false).eval (exec scan i) s =
      (.returned page, s) ∧ page.total = source.card := by
  have hmembers : ∀ id ∈ s.zset (.source .pending), isIntegerKey id = false := by
    intro id hid
    rw [hs.source_eq] at hid
    exact isIntegerKey_of_numeric (hs.source_ids id hid)
  have hpage : (sourcePage .pending (.source .pending) none 1).eval (exec scan i) s = _ :=
    eval_sourcePage hs.failing hmembers (by simp)
  exact ⟨_, hpage, by rw [hs.source_eq]; rfl⟩

/-- The rest of the pending jobs, read at a store. -/
theorem eval_pagePendingRest_listed (hstates : query.pendingStates = some states)
    (hs : Listed states i source delayed reserved job s) {excludeIds : List String}
    (hexclude : ∀ id, id ∈ excludeIds ↔ id ∈ reserved) (hscore : ∀ p ∈ after, p.score ≠ none)
    (hlimit : 1 ≤ limit) :
    ∃ page s', (query.pagePendingRest .pending [] .none excludeIds after limit none false).eval
        (exec scan i) s = (.returned page, s') ∧ Scratches i s s' ∧
      FirstRows (included reserved (unread (restSet source delayed) true after)) limit page := by
  have hids : ∀ id ∈ s.zset (.source .pending), Php.numeric id = none := by
    rw [hs.source_eq]
    exact hs.source_ids
  have h : ∃ page s', (query.pagePendingRest .pending [] JobIndexFiltersData.none excludeIds after limit
      none false).eval (exec scan i) s = (.returned page, s') ∧ _ :=
    eval_pagePendingRest query scan hstates hs.failing hs.scanned hids hs.delayed_eq hs.delayed_keys hs.unused
      (by decide) excludeIds hscore hlimit
  obtain ⟨page, s', heval, hscratches, -, hpage⟩ := h
  rw [hs.source_eq] at hpage
  have hincluded : ∀ rows, included excludeIds rows = included reserved rows := by
    intro rows
    simp only [included, hexclude]
  rw [hincluded] at hpage
  exact ⟨page, s', heval, hscratches, hpage⟩

/-- **The lead**: the next reserved jobs, and behind the last of them as much of the rest as the page
has room for. -/
theorem eval_pageReservedLead (hstates : query.pendingStates = some states)
    (hs : Listed states i source delayed reserved job s) (hscore : ∀ p ∈ after, p.score ≠ none)
    (current : Option CursorState) :
    ∃ shown s', (query.pageReservedLead .pending [] .none (arrayKeys reserved) after none false
        source.card current).eval (exec scan i) s = (.returned shown, s') ∧
      ShowsAt source delayed reserved (.lead (after.bind RetainedJobPosition.entry)) shown := by
  obtain ⟨leadPage, hleadEval, hlead⟩ := eval_pageIds_reserved scan query hs hscore
  rw [RetainedJobQuery.pageReservedLead, Prog.eval_bind_of hleadEval]
  have hleadRows : ∀ e ∈ (following (Precedes true) (leadRows source)
      (after.bind RetainedJobPosition.entry)).filter (fun e => decide (e.1 ∈ reserved)),
        e.1 ∈ source := by
    intro e he
    have hmem := (following_sublist _).subset (List.mem_of_mem_filter he)
    exact mem_map_listing.mp (List.mem_map_of_mem hmem)
  generalize hrows : (following (Precedes true) (leadRows source)
    (after.bind RetainedJobPosition.entry)).filter (fun e => decide (e.1 ∈ reserved)) = rows at *
  have hpages := @LeadAndRest.fill (String × ℚ) (Precedes true) (Precedes true) _ _ (leadRows source)
    (restRows source delayed) pageSize (fun e => decide (e.1 ∈ reserved))
    (after.bind RetainedJobPosition.entry)
  rw [hrows] at hpages
  cases hnext : leadPage.next with
  | some next =>
      -- More of the reserved jobs follow.
      obtain ⟨hnextScore, hentry⟩ := hlead.more next hnext
      obtain ⟨x, hx⟩ := Option.ne_none_iff_exists'.mp hnextScore
      have hlast : next.entry = some (next.id, x) := by
        rw [RetainedJobPosition.entry, hx]
        rfl
      have hbehind : Behind (Precedes true) (leadRows source) (fun e => decide (e.1 ∈ reserved))
          pageSize (after.bind RetainedJobPosition.entry) (next.id, x) := by
        apply Behind.of_getLast (l := leadRows source) pairwise_listing
        rw [hrows, ← hentry, hlast]
      have hplace : ((some ⟨some next, .reserved⟩ : Option CursorState).map fun c =>
          placeOf (some c)) = some (.lead (some (next.id, x))) := by
        simp only [Option.map_some, placeOf, Option.elim_some, if_true, positionOf,
          Option.bind_some, hlast]
      have hpage := LeadAndRest.lead (s := Precedes true) (m := restRows source delayed) hbehind
      rw [hrows, ← hplace] at hpage
      obtain ⟨shown, heval, hshown⟩ := showsAt_of_rows scan hs (.refl s) hlead.ids
        (fun e he => hleadRows e (List.mem_of_mem_take he)) hpage
        (by rintro p ⟨⟩; exact hnextScore) current
      exact ⟨shown, s, heval, hshown⟩
  | none =>
      have hend : rows.length ≤ pageSize := hlead.last hnext
      have hids : leadPage.ids = rows.map Prod.fst := by
        rw [hlead.ids, List.take_of_length_le hend]
      rw [hids, List.length_map]
      simp only
      split
      · -- The page has room for some of the rest.
        rename_i hroom
        obtain ⟨fill, s', hfillEval, hscratches, hfill⟩ := eval_pagePendingRest_listed scan
          query hstates hs mem_arrayKeys
          (show ∀ p ∈ (none : Option RetainedJobPosition), p.score ≠ none by simp)
          (show 1 ≤ pageSize - rows.length by omega)
        obtain ⟨fillRows, hfillIds, hfillRows, hrest⟩ :=
          restPage_pending hfill .rest (by decide)
        rw [Prog.eval_bind_of hfillEval]
        have hall : (⟨rows.map Prod.fst ++ fill.ids, leadPage.total, leadPage.currentOffset, none⟩ :
            ScoredPage).ids = (rows ++ fillRows).map Prod.fst := by
          simp only [hfillIds, List.map_append]
        have hmem : ∀ e ∈ rows ++ fillRows, e.1 ∈ source := by
          intro e he
          rcases List.mem_append.mp he with he | he
          · exact hleadRows e he
          · exact hfillRows e he
        obtain ⟨shown, heval, hshown⟩ := showsAt_of_rows scan hs hscratches hall hmem
          (hpages hend hrest) (scored_of_firstRows hfill .rest) current
        exact ⟨shown, s', heval, hshown⟩
      · -- The rest starts on the next page, if there is one.
        rename_i hfull
        obtain ⟨probe, s', hprobeEval, hscratches, hprobe⟩ := eval_pagePendingRest_listed scan
          query hstates hs mem_arrayKeys
          (show ∀ p ∈ (none : Option RetainedJobPosition), p.score ≠ none by simp) (le_refl 1)
        rw [Prog.eval_bind_of hprobeEval]
        have hzero : pageSize - rows.length = 0 := by omega
        rw [hzero] at hpages
        have hshows : ∀ next : Option CursorState, Scored next →
            RestPage (Precedes true) (restRows source delayed) (fun e => decide (e.1 ∈ reserved)) 0 none
              [] (next.map fun c => placeOf (some c)) →
            ∃ shown, (toPage leadPage source.card current next).eval (exec scan i) s' =
              (.returned shown, s') ∧
              ShowsAt source delayed reserved (.lead (after.bind RetainedJobPosition.entry)) shown := by
          intro next hscored hrest
          have hpage := hpages hend hrest
          rw [List.append_nil] at hpage
          exact showsAt_of_rows scan hs hscratches hids hleadRows hpage hscored current
        have hprobed : probe.ids = [] ↔ included reserved
            (unread (restSet source delayed) true none) = [] := by
          rw [hprobe.ids, List.map_eq_nil_iff, List.take_eq_nil_iff]
          simp
        rw [included_eq] at hprobed
        split
        · obtain ⟨shown, heval, hshown⟩ := hshows (some ⟨none, .rest⟩) (by rintro p ⟨⟩)
            ⟨rfl, by simp, by rintro place ⟨⟩; exact .inl ⟨rfl, rfl⟩⟩
          exact ⟨shown, s', heval, hshown⟩
        · rename_i hnone
          have hrest : (following (Precedes true) (restRows source delayed) none).filter
              (fun e => !decide (e.1 ∈ reserved)) = [] := hprobed.mp (not_not.mp hnone)
          obtain ⟨shown, heval, hshown⟩ := hshows none (by rintro p ⟨⟩)
            ⟨rfl, fun _ => by rw [hrest]; rfl, by rintro place ⟨⟩⟩
          exact ⟨shown, s', heval, hshown⟩

/-- **A page of the pending jobs** is one of the lead and the rest at the place of its cursor. -/
theorem eval_page (hstates : query.pendingStates = some states) (hs : Listed states i source delayed reserved job s)
    {search : Option String} (hsearch : Php.trim (search.getD "") = "") (failedTag : Option String)
    {cursor : Option CursorState} (hcursor : Scored cursor) :
    ∃ shown s', (query.page .pending .none cursor failedTag search).eval (exec scan i) s =
        (.returned shown, s') ∧
      ShowsAt source delayed reserved (placeIn reserved cursor) shown := by
  have hleads : query.shouldLeadWithReserved .pending .none = true := by
    simp [shouldLeadWithReserved, JobIndexFiltersData.none, hstates]
  have hreserved : (query.reservedIds .none).eval (exec scan i) s =
      (.returned (arrayKeys reserved), s) := by
    rw [← hs.reserved_eq]
    exact eval_reservedIds hstates hs.failing hs.scanned
  have hfacets : (RetainedJobQuery.facets .pending .none none).eval (exec scan i) s =
      (.returned [], s) := rfl
  obtain ⟨first, hfirst, htotal⟩ := eval_pageIds_total scan query hs
  have hsome : ∀ id, id ∈ (arrayKeys reserved).ids ↔ id ∈ reserved := mem_arrayKeys
  rw [RetainedJobQuery.page]
  simp only [normalizedSearch, hsearch, if_true, hleads]
  rw [RetainedJobQuery.pagePendingReservedFirst, Prog.eval_bind_of hreserved, Prog.eval_bind_of hfacets]
  have htotalEval : ((·.total) <$> query.pageIds .pending [] none none 1 none false : Redis ℕ).eval
      (exec scan i) s = (.returned source.card, s) := by
    rw [← htotal]
    exact Prog.eval_bind_of hfirst
  rw [Prog.eval_bind_of htotalEval]
  -- Without reserved jobs there is no lead, and the page is one of the rest from the start.
  by_cases hnone : reserved = []
  · have hids : (arrayKeys reserved).ids = [] := by rw [hnone]; rfl
    simp only [hids, if_true, placeIn, if_pos hnone]
    obtain ⟨page, s', hpageEval, hscratches, hpage⟩ := eval_pagePendingRest_listed scan query
      hstates hs (show ∀ id, id ∈ ([] : List String) ↔ id ∈ reserved by simp [hnone]) hcursor (show 1 ≤ pageSize by decide)
    obtain ⟨shown, heval, hshown⟩ := showsAt_rest scan hs hscratches hpage .default (by decide)
      cursor
    exact ⟨shown, s', (Prog.eval_bind_of hpageEval).trans heval, hshown⟩
  · have hids : (arrayKeys reserved).ids ≠ [] := by
      intro hnil
      rw [List.eq_nil_iff_forall_not_mem] at hnil hnone
      exact hnone fun id hid => hnil id ((hsome id).mpr hid)
    simp only [hids, if_false, placeIn, if_neg hnone, placeOf]
    -- The phase of the cursor decides: a cursor of no phase continues the rest.
    have hphase : (if cursor.elim Phase.reserved (·.phase) = .default then Phase.rest
        else cursor.elim Phase.reserved (·.phase)) = .reserved ↔
          cursor.elim Phase.reserved (·.phase) = .reserved := by
      cases cursor.elim Phase.reserved (·.phase) <;> simp
    by_cases hlead : cursor.elim Phase.reserved (·.phase) = .reserved
    · rw [if_pos (hphase.mpr hlead), if_pos hlead]
      exact eval_pageReservedLead scan query hstates hs hcursor cursor
    · rw [if_neg fun h => hlead (hphase.mp h), if_neg hlead]
      obtain ⟨page, s', hpageEval, hscratches, hpage⟩ := eval_pagePendingRest_listed scan
        query hstates hs hsome hcursor (show 1 ≤ pageSize by decide)
      obtain ⟨shown, heval, hshown⟩ := showsAt_rest scan hs hscratches hpage .rest (by decide)
        cursor
      exact ⟨shown, s', (Prog.eval_bind_of hpageEval).trans heval, hshown⟩

/-! ## Following the pages -/

/-- What a reader of the pending jobs is shown at a store: the ids of the jobs of the page at a cursor,
and the next cursor. -/
def PendingIds (scan : ScanOrder) (i : ProcessId) (filters : JobIndexFiltersData)
    (failedTag search : Option String) (s : Store) (cursor : Option CursorState) (ids : List String)
    (next : Option (Option CursorState)) : Prop :=
  ∃ page s', (query.page .pending filters cursor failedTag search).eval (exec scan i) s =
    (.returned page, s') ∧ page.jobs.map (·.1.id) = ids.map some ∧ page.next.map some = next

/-- The ids that are shown are determined by the page. -/
theorem pendingIds_iff {filters : JobIndexFiltersData} {failedTag search : Option String}
    {cursor : Option CursorState} {page : Page} {rows : List (String × ℚ)}
    (heval : (query.page .pending filters cursor failedTag search).eval (exec scan i) s =
      (.returned page, s')) (hrows : page.jobs.map (·.1.id) = rows.map fun e => some e.1)
    {ids : List String} {next : Option (Option CursorState)} :
    PendingIds query scan i filters failedTag search s cursor ids next ↔
      ids = rows.map Prod.fst ∧ next = page.next.map some := by
  constructor
  · rintro ⟨page', s'', heval', hids, rfl⟩
    rw [heval, Prod.mk.injEq, Outcome.returned.injEq] at heval'
    obtain ⟨rfl, -⟩ := heval'
    refine ⟨List.map_injective_iff.mpr (Option.some_injective String) ?_, rfl⟩
    rw [← hids, hrows, List.map_map]
    rfl
  · rintro ⟨rfl, rfl⟩
    refine ⟨page, s', heval, ?_, rfl⟩
    rw [hrows, List.map_map]
    rfl

/-- The ids that are shown are those of a page of the lead and the rest. -/
theorem exists_rows_of_pendingIds (hstates : query.pendingStates = some states)
    (hs : Listed states i source delayed reserved job s) {failedTag search : Option String}
    (hsearch : Php.trim (search.getD "") = "") {cursor : Option CursorState} (hcursor : Scored cursor)
    {ids : List String} {next : Option (Option CursorState)}
    (h : PendingIds query scan i .none failedTag search s cursor ids next) :
    (∃ rows : List (String × ℚ), ids = rows.map Prod.fst ∧
      PendingPage source delayed reserved (placeIn reserved cursor) rows (next.map placeOf)) ∧
      ∀ cursor' ∈ next, Scored cursor' := by
  obtain ⟨shown, s', heval, ⟨rows, hrows, hshown⟩, hscored, -⟩ :=
    eval_page scan query hstates hs hsearch failedTag hcursor
  obtain ⟨rfl, rfl⟩ := (pendingIds_iff scan query heval hrows).mp h
  refine ⟨⟨rows, rfl, ?_⟩, ?_⟩
  · rw [Option.map_map]
    exact hshown
  · intro cursor' hcursor'
    obtain ⟨c, hc, rfl⟩ := Option.map_eq_some_iff.mp hcursor'
    rw [← hc]
    exact hscored

/-- Less is left to read behind every page. -/
theorem remaining_lt_of_pendingPage {cursor : Option CursorState} {rows : List (String × ℚ)}
    {next : Option (Place (String × ℚ))}
    (h : PendingPage source delayed reserved (placeIn reserved cursor) rows next) :
    ∀ place ∈ next, place.remaining (Precedes true) (Precedes true) (leadRows source)
        (restRows source delayed) <
      (placeOf cursor).remaining (Precedes true) (Precedes true) (leadRows source)
        (restRows source delayed) := by
  intro place hplace
  apply (h.remaining_lt place hplace).trans_le
  rw [placeIn]
  split
  · rw [placeOf]
    split
    · -- The position of a cursor of the lead is taken for one among the rest.
      have hle : (following (Precedes true) (restRows source delayed) (positionOf cursor)).length ≤
          (restRows source delayed).length := (following_sublist _).length_le
      simp only [Place.remaining]
      omega
    · exact le_rfl
  · exact le_rfl

/-- Where the reserved jobs stay, the place of the next cursor is the place it is read at. -/
theorem placeIn_next {cursor : Option CursorState} {rows : List (String × ℚ)}
    {next : Option (Option CursorState)}
    (h : PendingPage source delayed reserved (placeIn reserved cursor) rows (next.map placeOf)) :
    ∀ cursor' ∈ next, placeIn reserved cursor' = placeOf cursor' := by
  rintro cursor' hcursor'
  rw [hcursor', Option.map_some, placeIn] at h
  rw [placeIn]
  split
  · rename_i hnone
    rw [if_pos hnone] at h
    rw [placeOf] at h ⊢
    split at h
    · generalize hplace : some (Place.lead (positionOf cursor')) = next at h
      cases h with
      | rest hsize h =>
          rcases h.more _ hplace.symm with ⟨heq, -⟩ | ⟨a, heq, -⟩ <;> cases heq
    · rename_i hphase
      rw [if_neg hphase]
  · rfl

/-- The ids of the rest are those of the source. -/
theorem perm_restRows (source : ZSet) (delayed : List (String × ℚ)) :
    ((restRows source delayed).map Prod.fst).Perm ((leadRows source).map Prod.fst) := by
  rw [restRows, leadRows, List.perm_ext_iff_of_nodup nodup_listing nodup_listing]
  intro id
  rw [mem_map_listing, mem_map_listing, ← score_isSome_iff, score_restSet, restScore]
  by_cases h : id ∈ source
  · rw [if_pos h]
    cases Assignments.get id delayed <;> simp [h, score_isSome_iff]
  · simp [h]

/-- A page shows at most as many jobs as a page has room for. -/
theorem length_le_of_pendingIds (hstates : query.pendingStates = some states)
    (hs : Listed states i source delayed reserved job s) {failedTag search : Option String}
    (hsearch : Php.trim (search.getD "") = "") {cursor : Option CursorState} (hcursor : Scored cursor)
    {ids : List String} {next : Option (Option CursorState)}
    (h : PendingIds query scan i .none failedTag search s cursor ids next) :
    ids.length ≤ pageSize ∧ ∀ cursor' ∈ next, Scored cursor' := by
  obtain ⟨⟨rows, rfl, hrows⟩, hnext⟩ :=
    exists_rows_of_pendingIds scan query hstates hs hsearch hcursor h
  rw [List.length_map]
  exact ⟨hrows.length_le, hnext⟩

/-- A reader of the pages reaches the end where the source stays from some page on, also while jobs are
reserved and released. -/
theorem exists_pendingPages (hstates : query.pendingStates = some states) {stores : ℕ → Store}
    {source : ℕ → ZSet} {delayed : ℕ → List (String × ℚ)} {reserved : ℕ → List String}
    {job : ℕ → String → JobObject}
    (hs : ∀ n, Listed states i (source n) (delayed n) (reserved n) (job n) (stores n)) (k : ℕ)
    (hstays : ∀ n, k ≤ n → source n = source k ∧ delayed n = delayed k)
    (failedTag : Option String) {search : Option String} (hsearch : Php.trim (search.getD "") = "") :
    ∃ visited ids, Traverses (fun n => query.PendingIds scan i .none failedTag search (stores n)) 0 none
      visited ids := by
  apply Traverses.exists_of_decreasing (P := Scored) (f := fun cursor =>
    (placeOf cursor).remaining (Precedes true) (Precedes true) (leadRows (source k))
      (restRows (source k) (delayed k))) k _ 0 scored_none
  intro n cursor hcursor
  obtain ⟨shown, s', heval, ⟨rows, hrows, hshown⟩, hscored, -⟩ :=
    eval_page scan query hstates (hs n) hsearch failedTag hcursor
  refine ⟨_, _, (pendingIds_iff scan query heval hrows).mpr ⟨rfl, rfl⟩, ?_⟩
  intro cursor' hcursor'
  obtain ⟨c, hc, rfl⟩ := Option.map_eq_some_iff.mp hcursor'
  rw [hc] at hscored hshown
  refine ⟨hscored, fun hn => ?_⟩
  rw [(hstays n hn).1, (hstays n hn).2] at hshown
  exact remaining_lt_of_pendingPage hshown _ rfl

/-- **A queue at rest**: a reader who follows the pages from the first one reaches the end, also while
jobs are reserved and released, and where none are, is shown the reserved jobs in the order they are
retained in and then the others in the order of the times they are available at, every job once. -/
theorem pendingPages_listed (hstates : query.pendingStates = some states) {stores : ℕ → Store}
    {reserved : ℕ → List String} (hs : ∀ n, Listed states i source delayed (reserved n) job (stores n))
    (failedTag : Option String) {search : Option String} (hsearch : Php.trim (search.getD "") = "") :
    (∃ visited ids, Traverses (fun n => query.PendingIds scan i .none failedTag search (stores n)) 0 none
      visited ids) ∧
    ∀ visited ids, (∀ n, reserved n = reserved 0) →
      Traverses (fun n => query.PendingIds scan i .none failedTag search (stores n)) 0 none visited ids →
        ids = ((leadRows source).filter (fun e => decide (e.1 ∈ reserved 0)) ++
          (restRows source delayed).filter fun e => !decide (e.1 ∈ reserved 0)).map Prod.fst ∧
        ids.Perm ((leadRows source).map Prod.fst) := by
  refine ⟨exists_pendingPages scan query hstates hs 0 (fun _ _ => ⟨rfl, rfl⟩) failedTag hsearch, ?_⟩
  intro visited ids hconstant h
  have hlistings : ids = ((leadRows source).filter (fun e => decide (e.1 ∈ reserved 0)) ++
      (restRows source delayed).filter fun e => !decide (e.1 ∈ reserved 0)).map Prod.fst := by
    -- What the pages show from a cursor on is the content of its place.
    rw [h.eq_content (P := Scored) (f := fun cursor => ((placeIn (reserved 0) cursor).content
      (Precedes true) (Precedes true) (leadRows source) (restRows source delayed)
      fun e => decide (e.1 ∈ reserved 0)).map Prod.fst) _ scored_none]
    · rw [placeIn]
      split
      · rename_i hnone
        simp [Place.content, hnone, positionOf]
      · rfl
    · intro n cursor ids next hcursor hpage
      obtain ⟨⟨rows, rfl, hrows⟩, hnext⟩ :=
        exists_rows_of_pendingIds scan query hstates (hs n) hsearch hcursor hpage
      rw [hconstant n] at hrows
      have hplace := placeIn_next hrows
      refine ⟨?_, hnext⟩
      rw [hrows.splits, List.map_append]
      cases next with
      | none => rfl
      | some cursor' =>
          rw [Option.elim_some, hplace cursor' rfl]
          rfl
  refine ⟨hlistings, ?_⟩
  rw [hlistings, List.map_append]
  -- The rest lists the same ids as the lead, so the two filters share them out.
  have hlead : ∀ rows : List (String × ℚ), (rows.filter fun e => decide (e.1 ∈ reserved 0)).map
      Prod.fst = (rows.map Prod.fst).filter fun id => decide (id ∈ reserved 0) := by
    intro rows
    rw [List.filter_map]
    rfl
  have hrest : ∀ rows : List (String × ℚ), (rows.filter fun e => !decide (e.1 ∈ reserved 0)).map
      Prod.fst = (rows.map Prod.fst).filter fun id => !decide (id ∈ reserved 0) := by
    intro rows
    rw [List.filter_map]
    rfl
  rw [hlead, hrest]
  exact (((perm_restRows source delayed).filter _).append_left _).trans
    (List.filter_append_perm _ _)

/-- **A job nobody reserves**: whatever jobs are retained, delayed, reserved and removed between the
pages, a job that stays among the rest is shown exactly once to a reader who reaches the end, unless a
cursor of the lead is handed in while nothing is reserved. -/
theorem pendingPages_shown_once (hstates : query.pendingStates = some states) {stores : ℕ → Store}
    {source : ℕ → ZSet} {delayed : ℕ → List (String × ℚ)} {reserved : ℕ → List String}
    {job : ℕ → String → JobObject}
    (hs : ∀ n, Listed states i (source n) (delayed n) (reserved n) (job n) (stores n))
    (failedTag : Option String) {search : Option String} (hsearch : Php.trim (search.getD "") = "")
    {id : String} {x : ℚ} (hrest : ∀ n, restScore (source n) (delayed n) id = some x)
    (hreserved : ∀ n, id ∉ reserved n) {visited : List (Option CursorState)} {ids : List String}
    (hlead : ∀ n c, visited[n]? = some (some c) → c.phase = .reserved → reserved n ≠ [])
    (h : Traverses (fun n => query.PendingIds scan i .none failedTag search (stores n)) 0 none visited ids) :
    ids.count id = 1 := by
  have hplaces : Traverses (fun n place ids next => ∃ rows : List (String × ℚ),
      ids = rows.map Prod.fst ∧ PendingPage (source n) (delayed n) (reserved n) place rows next)
        0 (placeOf none) (visited.map placeOf) ids := by
    apply h.imp (P := Scored) (f := placeOf)
      (Q := fun n cursor => ∀ c, cursor = some c → c.phase = .reserved → reserved n ≠ []) _ scored_none
    · intro k cursor hk c hc hphase
      rw [Nat.zero_add]
      exact hlead k c (hc ▸ hk) hphase
    · intro n cursor ids next hcursor hfit hpage
      obtain ⟨⟨rows, hids, hrows⟩, hnext⟩ :=
        exists_rows_of_pendingIds scan query hstates (hs n) hsearch hcursor hpage
      refine ⟨⟨rows, hids, ?_⟩, hnext⟩
      rw [placeIn] at hrows
      split at hrows
      · rename_i hnone
        cases cursor with
        | none =>
            -- Without reserved jobs the first page is one of an empty lead.
            cases hrows with
            | rest _ hrows => exact LeadAndRest.lead_of_rest (by simp [hnone]) hrows
        | some c =>
            have hphase : c.phase ≠ .reserved := fun hphase => hfit c rfl hphase hnone
            rwa [placeOf, Option.elim_some, if_neg hphase]
      · exact hrows
  obtain ⟨rows, rfl, hrows⟩ := hplaces.exists_rows
  have hcount := hrows.countP_eq_due (b := (id, x)) (q := fun e => decide (e.1 = id))
    (fun k => pairwise_listing) (fun k => mem_listing.mpr (by
      rw [← score_eq_some_iff, score_restSet]
      exact hrest k))
    (fun k => decide_eq_false (hreserved k)) (fun k a ha => ?_) (fun k a ha hq => ?_)
  · rw [List.count_eq_countP, List.countP_map, ← List.countP_congr (p := fun e => decide (e.1 = id)),
      hcount]
    · rfl
    · simp
  · rw [decide_eq_true_eq]
    have hscore : restScore (source k) (delayed k) a.1 = some a.2 := by
      rw [← score_restSet, score_eq_some_iff]
      exact mem_listing.mp ha
    constructor
    · rintro rfl
      exact Prod.ext rfl (Option.some.inj (hscore.symm.trans (hrest k)))
    · rintro rfl
      rfl
  · rw [of_decide_eq_true hq]
    exact decide_eq_false (hreserved k)

end Reading

/-! ## An example -/

open PendingStates PendingJobStateIndex

/-- The name of a job of the example. -/
def jobName (n : ℕ) : String := "job-" ++ toString n

/-- Different jobs have different names. -/
theorem jobName_injective : Function.Injective jobName := by
  intro m n h
  exact Php.eq_of_toString_eq ((String.append_right_inj "job-").mp h)

/-- The names are not numeric. -/
theorem numeric_jobName (n : ℕ) : Php.numeric (jobName n) = none := by
  have hs : (jobName n).toList = 'j' :: ("ob-".toList ++ (toString n).toList) := by
    rw [jobName, String.toList_append]
    rfl
  exact Php.numeric_eq_none hs (by decide)

/-- No name is empty. -/
theorem jobName_ne_empty (n : ℕ) : jobName n ≠ "" := by
  simp [jobName]

/-- The pending jobs of the example. -/
def sixtyIds : List String := (List.range 60).map jobName

/-- The source that retains some jobs, all with the same score. -/
def sourceOf (ids : List String) : ZSet := (∅ : ZSet).insertAll (ids.map fun id => (id, 0))

/-- The source retains these jobs. -/
theorem mem_sourceOf {ids : List String} {id : String} : id ∈ sourceOf ids ↔ id ∈ ids := by
  rw [sourceOf, mem_insertAll, List.map_map]
  simp [Function.comp_def]

/-- The lead of the source is made of these jobs. -/
theorem perm_sourceOf {ids : List String} (hids : ids.Nodup) :
    ((leadRows (sourceOf ids)).map Prod.fst).Perm ids := by
  rw [leadRows, List.perm_ext_iff_of_nodup nodup_listing hids]
  intro id
  rw [mem_map_listing, mem_sourceOf]

/-- A job that is not delayed stands among the rest where it is retained. -/
theorem restScore_sourceOf {ids : List String} (hids : ids.Nodup) {delayed : List (String × ℚ)}
    {id : String} (hid : id ∈ ids) (hdelayed : Assignments.get id delayed = none) :
    restScore (sourceOf ids) delayed id = some 0 := by
  have hnodup : ((ids.map fun id => (id, (0 : ℚ))).map Prod.fst).Nodup := by
    simpa [Function.comp_def] using hids
  have hmem : (id, (0 : ℚ)) ∈ ids.map fun id => (id, (0 : ℚ)) := List.mem_map.mpr ⟨id, hid, rfl⟩
  rw [restScore, if_pos (mem_sourceOf.mpr hid), hdelayed]
  exact score_insertAll_of_mem hnodup hmem

/-- The payload of which only the id is known. -/
def barePayload (id : String) : List UInt8 := Php.jsonBytes [("uuid", .str id)]

/-- The payload is decoded to its id. -/
theorem decodePayload_barePayload (id : String) :
    decodePayload (barePayload id) = [("uuid", .str id)] := by
  have hkeys : Php.keys [("uuid", Php.str id)] = ["uuid"] := rfl
  have hlist : ["uuid"] ≠ Php.listKeys 1 := by decide
  exact decodePayload_jsonBytes (by simp [hkeys]) hlist (by simp [Php.Scalar])

/-- A job that has an id is named by it. -/
theorem jobId_barePayload {id : String} (hid : id ≠ "") :
    jobId (decodePayload (barePayload id)) = some id := by
  rw [decodePayload_barePayload]
  simp [jobId, Php.entry, Php.get, coalesce, hid]

/-- The payloads of different ids differ. -/
theorem barePayload_injective : Function.Injective barePayload := by
  intro id id' h
  have hdecode := congrArg decodePayload h
  rw [decodePayload_barePayload, decodePayload_barePayload] at hdecode
  simpa using hdecode

/-- A job object of which only the id is known. -/
def bareJob (id : String) : JobObject := ⟨some id, none, none, none, none⟩

/-- A sorted set of such payloads. -/
def bareSet (entries : List (String × ℚ)) (h : (entries.map Prod.fst).Nodup) :
    PendingJobStateIndex.SortedSet ℚ where
  entries := entries.map fun e => (barePayload e.1, e.2)
  nodup := by
    have hnodup := h.map barePayload_injective
    simpa only [List.map_map, Function.comp_def] using hnodup

/-- An index that is published with the target of one queue, and that queue at the time 0. -/
def exampleStore (ids : List String) (reserved delayed : PendingJobStateIndex.SortedSet ℚ) : Store :=
  { (Store.empty.setZset (.source .pending) (sourceOf ids)).setCatalog ⟨.pending, .a, .target⟩
      [Json.encodeStrings ["redis", "default"]] with
    published := fun _ => some ⟨.a, ⟨0, 0⟩⟩
    repository := fun ids => ids.map bareJob
    queues := fun _ _ => some (⟨[], reserved, delayed⟩, 0) }

/-- Where every score is finite. -/
def allFinite : PendingStates := ⟨fun _ => none, fun _ => true⟩

/-- The jobs that are named in a set of bare payloads. -/
theorem filterMap_bareSet {entries : List (String × ℚ)} {h : (entries.map Prod.fst).Nodup}
    (hne : ∀ e ∈ entries, e.1 ≠ "") :
    (bareSet entries h).entries.filterMap (fun e => (jobId (decodePayload e.1)).map fun id => (id, e.2)) =
      entries := by
  have hentries : (bareSet entries h).entries = entries.map fun e => (barePayload e.1, e.2) := rfl
  rw [hentries, List.filterMap_map]
  apply (List.filterMap_congr (g := some) fun e he => ?_).trans List.filterMap_some
  simp [jobId_barePayload (hne e he)]

/-- **The store of the example** lists its jobs. -/
theorem listed_exampleStore {ids : List String} {reserved delayed : List (String × ℚ)}
    (hreserved : (reserved.map Prod.fst).Nodup) (hdelayed : (delayed.map Prod.fst).Nodup)
    (hids : ∀ id ∈ ids, Php.numeric id = none)
    (hnames : ∀ e ∈ reserved, Php.numeric e.1 = none ∧ e.1 ≠ "")
    (htimes : ∀ e ∈ delayed, e.1 ≠ "" ∧ 0 < e.2) :
    Listed allFinite 0 (sourceOf ids) delayed (reserved.map Prod.fst) bareJob
      (exampleStore ids (bareSet reserved hreserved) (bareSet delayed hdelayed)) := by
  have htargets : targetsAt (exampleStore ids (bareSet reserved hreserved) (bareSet delayed hdelayed))
      .none = [⟨"redis", "default"⟩] := by
    have hcatalog : (exampleStore ids (bareSet reserved hreserved) (bareSet delayed hdelayed)).catalog
        ⟨.pending, .a, .target⟩ = [Json.encodeStrings ["redis", "default"]] := by
      simp [exampleStore]
    show targetsOf .none ((exampleStore _ _ _).catalog ⟨.pending, .a, .target⟩) = _
    rw [hcatalog]
    simp [targetsOf, targetOf_encodeStrings, allowsTarget, JobIndexFiltersData.none]
  have hsnapshots : snapshotsAt (exampleStore ids (bareSet reserved hreserved)
      (bareSet delayed hdelayed)) [⟨"redis", "default"⟩] =
        [(⟨"redis", "default"⟩, ⟨[], bareSet reserved hreserved, bareSet delayed hdelayed⟩, 0)] := rfl
  have hscannable : ∀ {entries : List (String × ℚ)} (h : (entries.map Prod.fst).Nodup),
      (∀ e ∈ entries, e.1 ≠ "") → (bareSet entries h).Scannable allFinite.isFinite := by
    intro entries h hne e he
    obtain ⟨x, hx, rfl⟩ := List.mem_map.mp he
    exact ⟨not_integerLike_of_jobId (jobId_barePayload (hne x hx)), rfl⟩
  constructor
  · rfl
  · simp [exampleStore]
  · refine ⟨rfl, ?_⟩
    rw [htargets]
    intro target htarget
    exact ⟨_, _, rfl, hscannable hreserved fun e he => (hnames e he).2,
      hscannable hdelayed fun e he => (htimes e he).1⟩
  · rw [delayedAt, htargets, hsnapshots]
    have hscores : delayedScores ⟨[], bareSet reserved hreserved, bareSet delayed hdelayed⟩ 0 =
        delayed := by
      have hlate : ((bareSet delayed hdelayed).entries.filter fun e => (0 : ℚ) < e.2) =
          (bareSet delayed hdelayed).entries := by
        rw [List.filter_eq_self]
        intro e he
        obtain ⟨x, hx, rfl⟩ := List.mem_map.mp he
        exact decide_eq_true (htimes x hx).2
      rw [delayedScores, hlate, filterMap_bareSet fun e he => (htimes e he).1]
    simp only [List.flatMap_cons, List.flatMap_nil, List.append_nil, hscores]
    exact Assignments.collapse_of_nodup hdelayed
  · rw [reservedAt, htargets, hsnapshots]
    have hids : reservedIn ⟨[], bareSet reserved hreserved, bareSet delayed hdelayed⟩ =
        reserved.map Prod.fst := by
      conv_rhs => rw [← filterMap_bareSet (h := hreserved) fun e he => (hnames e he).2]
      rw [reservedIn, List.map_filterMap]
      simp [Function.comp_def]
    simp only [List.flatMap_cons, List.flatMap_nil, List.append_nil, hids]
  · simp [exampleStore, Store.empty]
  · intro _ _
    rfl
  · intro _
    rfl
  · exact fun id hid => hids id (mem_sourceOf.mp hid)
  · intro id hid
    obtain ⟨e, he, rfl⟩ := List.mem_map.mp hid
    exact (hnames e he).1

/-- The query of the example. -/
def exampleQuery : RetainedJobQuery := ⟨⟨500, 3⟩, some allFinite, id, false, false⟩

/-- No id of the example is listed twice. -/
theorem nodup_sixtyIds : sixtyIds.Nodup := List.nodup_range.map jobName_injective

/-- The ids of the example are the first sixty names. -/
theorem mem_sixtyIds {id : String} : id ∈ sixtyIds ↔ ∃ n < 60, jobName n = id := by
  simp [sixtyIds]

/-- No id of the example is numeric. -/
theorem numeric_sixtyIds : ∀ id ∈ sixtyIds, Php.numeric id = none := by
  intro id hid
  obtain ⟨n, -, rfl⟩ := mem_sixtyIds.mp hid
  exact numeric_jobName n

/-- A sorted set of one payload. -/
def bareSingle (id : String) (score : ℚ) : PendingJobStateIndex.SortedSet ℚ :=
  bareSet [(id, score)] (List.nodup_singleton id)

/-- Sixty pending jobs, one of them reserved and one delayed until the time 2. -/
def sixtyStore : Store := exampleStore sixtyIds (bareSingle (jobName 7) 1) (bareSingle (jobName 3) 2)

/-- The jobs of this store. -/
theorem listed_sixtyStore :
    Listed allFinite 0 (sourceOf sixtyIds) [(jobName 3, 2)] [jobName 7] bareJob sixtyStore := by
  have hreserved : ∀ e ∈ [(jobName 7, (1 : ℚ))], Php.numeric e.1 = none ∧ e.1 ≠ "" := by
    simp [numeric_jobName, jobName_ne_empty]
  have hdelayed : ∀ e ∈ [(jobName 3, (2 : ℚ))], e.1 ≠ "" ∧ 0 < e.2 := by
    simp [jobName_ne_empty]
  exact listed_exampleStore _ _ numeric_sixtyIds hreserved hdelayed

/-- Where more jobs are shown than fit on one page, a cursor has been followed. -/
theorem two_le_of_shown {pages : ℕ} {ids shown : List String} (hlength : ids.length ≤ pageSize * pages)
    (hnodup : shown.Nodup) (hsubset : shown ⊆ ids) (hmany : pageSize < shown.length) : 2 ≤ pages := by
  have hshown : shown.length ≤ ids.length := (hnodup.subperm hsubset).length_le
  rw [pageSize] at hlength hmany
  omega

/-- Jobs that are shown once are shown. -/
theorem subset_of_count {ids shown : List String} (h : ∀ id ∈ shown, ids.count id = 1) :
    shown ⊆ ids := by
  intro id hid
  rw [← List.count_pos_iff, h id hid]
  exact Nat.one_pos

/-- **Two pages** of sixty jobs: the reserved job comes first, and the reader follows a cursor to be
shown the others. -/
theorem pendingPages_listed_sixty : ∃ visited ids,
    Traverses (fun _ => exampleQuery.PendingIds .single 0 .none none none sixtyStore) 0 none visited ids ∧
      ids.Perm sixtyIds ∧ ids.head? = some (jobName 7) ∧ 2 ≤ visited.length := by
  have hsearch : Php.trim ((none : Option String).getD "") = "" := by decide
  have hs : ∀ _ : ℕ, Listed allFinite 0 (sourceOf sixtyIds) [(jobName 3, 2)] [jobName 7] bareJob
      sixtyStore := fun _ => listed_sixtyStore
  obtain ⟨⟨visited, ids, h⟩, hall⟩ := pendingPages_listed .single exampleQuery rfl hs none hsearch
  obtain ⟨hlistings, hperm⟩ := hall visited ids (fun _ => rfl) h
  have hids : ids.Perm sixtyIds := hperm.trans (perm_sourceOf nodup_sixtyIds)
  refine ⟨visited, ids, h, hids, ?_, ?_⟩
  · -- The lead is the reserved job.
    have hlead : (((leadRows (sourceOf sixtyIds)).filter fun e => decide (e.1 ∈ [jobName 7])).map
        Prod.fst) = [jobName 7] := by
      have hmem : jobName 7 ∈ sixtyIds := mem_sixtyIds.mpr ⟨7, by decide, rfl⟩
      have honly : (sixtyIds.filter fun id => decide (id ∈ [jobName 7])) = [jobName 7] := by
        simp [List.filter_eq, List.count_eq_one_of_mem nodup_sixtyIds hmem]
      have hfilter := (perm_sourceOf nodup_sixtyIds).filter fun id => decide (id ∈ [jobName 7])
      rw [List.filter_map, honly] at hfilter
      exact hfilter.eq_singleton
    rw [hlistings, List.map_append, hlead]
    rfl
  · have hlength : ids.length ≤ pageSize * visited.length :=
      h.length_le (P := Scored) (fun n c ids next hc hpage =>
        length_le_of_pendingIds .single exampleQuery rfl (hs n) hsearch hc hpage) scored_none
    exact two_le_of_shown hlength nodup_sixtyIds hids.symm.subset (by simp [sixtyIds, pageSize])

/-! A queue that is worked on: after the first page a job is gone, another one is reserved and the
delayed one is due. -/

/-- The jobs that are retained when a page is read. -/
def movingIds : ℕ → List String
  | 0 => sixtyIds
  | _ + 1 => sixtyIds.erase (jobName 9)

/-- The jobs that are reserved then. -/
def movingReserved : ℕ → List (String × ℚ)
  | 0 => [(jobName 7, 1)]
  | _ + 1 => [(jobName 7, 1), (jobName 8, 1)]

/-- The jobs that are delayed then. -/
def movingDelayed : ℕ → List (String × ℚ)
  | 0 => [(jobName 3, 2)]
  | _ + 1 => []

/-- A reserved job is listed once. -/
theorem nodup_movingReserved (n : ℕ) : ((movingReserved n).map Prod.fst).Nodup := by
  cases n <;> simp [movingReserved, jobName_injective.eq_iff]

/-- A delayed job is listed once. -/
theorem nodup_movingDelayed (n : ℕ) : ((movingDelayed n).map Prod.fst).Nodup := by
  cases n <;> simp [movingDelayed]

/-- The store a page is read from. -/
def movingStore (n : ℕ) : Store :=
  exampleStore (movingIds n) (bareSet (movingReserved n) (nodup_movingReserved n))
    (bareSet (movingDelayed n) (nodup_movingDelayed n))

/-- The jobs of these stores. -/
theorem listed_movingStore (n : ℕ) : Listed allFinite 0 (sourceOf (movingIds n)) (movingDelayed n)
    ((movingReserved n).map Prod.fst) bareJob (movingStore n) := by
  apply listed_exampleStore
  · intro id hid
    cases n with
    | zero => exact numeric_sixtyIds id hid
    | succ n =>
        have hid' : id ∈ sixtyIds.erase (jobName 9) := hid
        exact numeric_sixtyIds id (List.mem_of_mem_erase hid')
  · intro e he
    have hname : ∃ m, e.1 = jobName m := by
      cases n with
      | zero => exact ⟨7, by rw [List.mem_singleton.mp he]⟩
      | succ n =>
          rcases List.mem_pair.mp he with rfl | rfl
          · exact ⟨7, rfl⟩
          · exact ⟨8, rfl⟩
    obtain ⟨m, hm⟩ := hname
    rw [hm]
    exact ⟨numeric_jobName m, jobName_ne_empty m⟩
  · cases n <;> simp [movingDelayed, jobName_ne_empty]

/-- The jobs nothing happens to. -/
def stayingIds : List String :=
  ((List.range 60).filter fun n => decide (n ∉ [3, 7, 8, 9])).map jobName

/-- They are all different. -/
theorem nodup_stayingIds : stayingIds.Nodup := (List.nodup_range.filter _).map jobName_injective

/-- **Two pages** of a queue that is worked on: every job nothing happens to is shown once. -/
theorem pendingPages_shown_once_moving : ∃ visited ids,
    Traverses (fun n => exampleQuery.PendingIds .single 0 .none none none (movingStore n)) 0 none visited
      ids ∧ (∀ id ∈ stayingIds, ids.count id = 1) ∧ 2 ≤ visited.length := by
  have hsearch : Php.trim ((none : Option String).getD "") = "" := by decide
  obtain ⟨visited, ids, h⟩ := exists_pendingPages .single exampleQuery rfl listed_movingStore 1
    (fun n hn => by
      obtain ⟨m, rfl⟩ := Nat.exists_eq_succ_of_ne_zero (by omega : n ≠ 0)
      exact ⟨rfl, rfl⟩) none hsearch
  have hstaying : ∀ id ∈ stayingIds, ids.count id = 1 := by
    intro id hid
    obtain ⟨m, hm, rfl⟩ := List.mem_map.mp hid
    obtain ⟨hrange, hothers⟩ := List.mem_filter.mp hm
    simp only [List.mem_cons, List.not_mem_nil, or_false, not_or, decide_eq_true_eq] at hothers
    have hmem : jobName m ∈ sixtyIds := List.mem_map_of_mem hrange
    apply pendingPages_shown_once .single exampleQuery rfl listed_movingStore none hsearch (x := 0)
      _ _ _ h
    · intro n
      cases n with
      | zero => exact restScore_sourceOf nodup_sixtyIds hmem (by
            simp [movingDelayed, Assignments.get, jobName_injective.eq_iff, Ne.symm hothers.1])
      | succ n =>
          have hne : jobName m ≠ jobName 9 := fun h => hothers.2.2.2 (jobName_injective h)
          have hnodup : (movingIds (n + 1)).Nodup := nodup_sixtyIds.erase (jobName 9)
          have hleft : jobName m ∈ movingIds (n + 1) := (List.mem_erase_of_ne hne).mpr hmem
          exact restScore_sourceOf hnodup hleft rfl
    · intro n
      cases n <;> simp [movingReserved, jobName_injective.eq_iff, hothers]
    · intro n c _ _
      cases n <;> simp [movingReserved]
  refine ⟨visited, ids, h, hstaying, ?_⟩
  have hlength : ids.length ≤ pageSize * visited.length :=
    h.length_le (P := Scored) (fun n c ids next hc hpage =>
      length_le_of_pendingIds .single exampleQuery rfl (listed_movingStore n) hsearch hc hpage)
      scored_none
  have hmany : pageSize < stayingIds.length := by
    rw [stayingIds, List.length_map]
    decide
  exact two_le_of_shown hlength nodup_stayingIds (subset_of_count hstaying) hmany

end RetainedJobQuery

end HorizonNewDawn

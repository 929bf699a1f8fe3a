import HorizonNewDawn.Jobs.RetainedJobIndex.Paging

/-! # The retained-job index: pages of a selection

Two readers page through a part of a sorted set without a set of their own for it. One leaves out
excluded ids: it asks for as many members as it still needs, drops the excluded ones and goes on
behind the last one. The other is given the ids: it looks up their scores, and sorts and cuts the page
itself. Both show what `sourcePage` would show of a set that holds just the selection. -/

namespace HorizonNewDawn

open Program Keyset SortedSet

namespace RetainedJobIndex

/-! ## Leaving out excluded ids -/

/-- `foreach ($page['ids'] as $id)`: the ids that are not excluded are collected; whether there are
enough of them. -/
def collectIncluded (excludeIds : List String) (limit : ℕ) :
    List String → List String → List String × Bool
  | collected, [] => (collected, false)
  | collected, id :: ids =>
      if id ∈ excludeIds then collectIncluded excludeIds limit collected ids
      else if (collected ++ [id]).length = limit then (collected ++ [id], true)
      else collectIncluded excludeIds limit (collected ++ [id]) ids

/-- The loop over the raw pages, of which there are at most `maxRawPages`. -/
def excludingPages (t : RetainedJobType) (k : SortedSetKey) (excludeIds : List String)
    (limit total : ℕ) (currentOffset : ℤ) :
    ℕ → List String → Option RetainedJobPosition → Redis ScoredPage
  | 0, collected, cursor => return ⟨collected, total, currentOffset, cursor⟩
  | maxRawPages + 1, collected, cursor =>
      let remaining := limit - collected.length
      if remaining = 0 then return ⟨collected, total, currentOffset, cursor⟩
      else do
        let page ← sourcePage t k cursor remaining
        if page.ids = [] then return ⟨collected, total, currentOffset, none⟩
        else
          let (collected, full) := collectIncluded excludeIds limit collected page.ids
          if full then return ⟨collected, total, currentOffset, page.next⟩
          else
            match page.next with
            | none => return ⟨collected, total, currentOffset, none⟩
            | some next =>
                excludingPages t k excludeIds limit total currentOffset maxRawPages collected
                  (some next)

/-- `$maxRawPages` -/
def maxRawPages (excludeIds : List String) (limit : ℕ) : ℕ := limit + excludeIds.length + 1

/-- A page of a sorted set without the excluded ids. -/
def sourcePageExcluding (t : RetainedJobType) (k : SortedSetKey) (excludeIds : List String)
    (after : Option RetainedJobPosition) (limit : ℕ) : Redis ScoredPage :=
  if limit = 0 then do
    let total ← sortedSetCount k
    return ⟨[], total, after.elim 0 (·.offset), none⟩
  else do
    let total ← sortedSetCount k
    excludingPages t k excludeIds limit total (after.elim 0 (·.offset))
      (maxRawPages excludeIds limit) [] after

/-- The entries that are not excluded. -/
def included (excludeIds : List String) (rows : List (String × ℚ)) : List (String × ℚ) :=
  rows.filter fun e => e.1 ∉ excludeIds

variable {excludeIds : List String} {limit : ℕ}

/-- What is collected of the ids of a raw page. -/
theorem collectIncluded_eq (excludeIds : List String) {collected : List String}
    (h : collected.length < limit) (ids : List String) :
    collectIncluded excludeIds limit collected ids =
      if limit ≤ collected.length + (ids.filter (· ∉ excludeIds)).length then
        (collected ++ (ids.filter (· ∉ excludeIds)).take (limit - collected.length), true)
      else (collected ++ ids.filter (· ∉ excludeIds), false) := by
  induction ids generalizing collected with
  | nil =>
      rw [List.filter_nil, List.length_nil, if_neg (by omega), List.append_nil]
      rfl
  | cons id ids ih =>
      rw [collectIncluded]
      by_cases hid : id ∈ excludeIds
      · rw [if_pos hid, ih h, List.filter_cons_of_neg (by simpa using hid)]
      · rw [if_neg hid, List.filter_cons_of_pos (by simpa using hid), List.length_append,
          List.length_singleton, List.length_cons]
        by_cases hfull : collected.length + 1 = limit
        · have hone : limit - collected.length = 1 := by omega
          rw [if_pos hfull, if_pos (by omega), hone, List.take_succ_cons, List.take_zero]
        · have hlength : (collected ++ [id]).length = collected.length + 1 := by simp
          have hrest : limit - collected.length = limit - (collected.length + 1) + 1 := by omega
          rw [if_neg hfull, ih (by omega), hlength, hrest, List.take_succ_cons]
          simp only [List.append_assoc, List.singleton_append]
          by_cases hle : limit ≤
              collected.length + 1 + (ids.filter (· ∉ excludeIds)).length
          · rw [if_pos hle, if_pos (by omega)]
          · rw [if_neg hle, if_neg (by omega)]

/-- What is included of two lists, one after the other. -/
theorem included_append (excludeIds : List String) (rows rows' : List (String × ℚ)) :
    included excludeIds (rows ++ rows') = included excludeIds rows ++ included excludeIds rows' :=
  List.filter_append rows rows'

/-- The ids that are included. -/
theorem map_included (rows : List (String × ℚ)) :
    (rows.map Prod.fst).filter (· ∉ excludeIds) = (included excludeIds rows).map Prod.fst := by
  rw [List.filter_map]
  rfl

/-- Every row is included or excluded. -/
theorem length_included_add_countP (excludeIds : List String) (rows : List (String × ℚ)) :
    (included excludeIds rows).length + rows.countP (fun e => e.1 ∈ excludeIds) = rows.length := by
  have hsplit := List.length_eq_countP_add_countP (fun e : String × ℚ => e.1 ∈ excludeIds)
    (l := rows)
  rw [included, ← List.countP_eq_length_filter, Nat.add_comm, hsplit]
  simp only [decide_not, decide_eq_true_eq]

/-- A page as long as it may be that is shown whole. -/
theorem included_eq_self {rows : List (String × ℚ)} {n : ℕ} (hrows : rows.length ≤ n)
    (h : n ≤ (included excludeIds rows).length) :
    included excludeIds rows = rows ∧ rows.length = n := by
  have hle : (included excludeIds rows).length ≤ rows.length := List.length_filter_le _ _
  have hsub : (included excludeIds rows).Sublist rows := List.filter_sublist
  exact ⟨hsub.eq_of_length_le (by omega), by omega⟩

section Excluding

variable {scan : ScanOrder} {i : ProcessId} {s : Store} {k : SortedSetKey} {t : RetainedJobType}
  {cursor : Option RetainedJobPosition} {collected : List String} {total : ℕ} {offset : ℤ}

/-- What a next position, or its absence, says of the entries that are not excluded, of which `n` are
shown. -/
structure Leads (z : ZSet) (reverse : Bool) (excludeIds : List String) (n : ℕ)
    (cursor next : Option RetainedJobPosition) : Prop where
  last : next = none → (included excludeIds (unread z reverse cursor)).length ≤ n
  more : ∀ p ∈ next, p.score ≠ none ∧
    included excludeIds (unread z reverse (some p)) =
      (included excludeIds (unread z reverse cursor)).drop n ∧
    (unread z reverse (some p)).length < (unread z reverse cursor).length

/-- The next position of the raw page that is asked for the missing entries. -/
def rawNext (z : ZSet) (reverse : Bool) (cursor : Option RetainedJobPosition) (remaining : ℕ) :
    Option RetainedJobPosition :=
  (scoredPageResult ((unread z reverse cursor).take (remaining + 1)) z.card cursor remaining).next

/-- One raw page: nothing is left, or what is missing is found, or the raw page is the last one, or
the loop goes on behind it. -/
theorem eval_excludingPages_succ (hs : s.failing = false)
    (hmembers : ∀ id ∈ s.zset k, isIntegerKey id = false) (hscore : ∀ p ∈ cursor, p.score ≠ none)
    (hlength : collected.length < limit) {remaining : ℕ} (hremaining : limit - collected.length = remaining)
    {shown : List (String × ℚ)} (hshown : included excludeIds
      ((unread (s.zset k) (!t.newestFirst) cursor).take remaining) = shown) (bound : ℕ) :
    (excludingPages t k excludeIds limit total offset (bound + 1) collected cursor).eval
        (exec scan i) s =
      if unread (s.zset k) (!t.newestFirst) cursor = [] then
        (.returned ⟨collected, total, offset, none⟩, s)
      else if remaining ≤ shown.length then
        (.returned ⟨collected ++ shown.map Prod.fst, total, offset,
          rawNext (s.zset k) (!t.newestFirst) cursor remaining⟩, s)
      else
        match rawNext (s.zset k) (!t.newestFirst) cursor remaining with
        | none => (.returned ⟨collected ++ shown.map Prod.fst, total, offset, none⟩, s)
        | some next => (excludingPages t k excludeIds limit total offset bound
            (collected ++ shown.map Prod.fst) (some next)).eval (exec scan i) s := by
  have hpos : 1 ≤ remaining := by omega
  have hpage : (sourcePage t k cursor remaining).eval (exec scan i) s = _ :=
    eval_sourcePage hs hmembers hscore
  have hlen : shown.length ≤ remaining := by
    rw [← hshown]
    exact (List.length_filter_le _ _).trans (List.length_take_le _ _)
  rw [excludingPages]
  simp only [hremaining]
  rw [if_neg (by omega), Prog.eval_bind_of hpage, ids_scoredPageResult]
  have hcollect := collectIncluded_eq excludeIds hlength
    (((unread (s.zset k) (!t.newestFirst) cursor).take remaining).map Prod.fst)
  rw [map_included, List.length_map, hshown, hremaining] at hcollect
  have hnil : ((unread (s.zset k) (!t.newestFirst) cursor).take remaining).map Prod.fst = [] ↔
      unread (s.zset k) (!t.newestFirst) cursor = [] := by
    rw [List.map_eq_nil_iff, List.take_eq_nil_iff]
    exact or_iff_right (by omega)
  by_cases hempty : unread (s.zset k) (!t.newestFirst) cursor = []
  · rw [if_pos (hnil.mpr hempty), if_pos hempty]
    rfl
  rw [if_neg (mt hnil.mp hempty), if_neg hempty]
  by_cases hfull : remaining ≤ shown.length
  · have hall : (shown.map Prod.fst).take remaining = shown.map Prod.fst :=
      List.take_of_length_le (by rw [List.length_map]; exact hlen)
    rw [if_pos (by omega), hall] at hcollect
    rw [hcollect, if_pos hfull]
    rfl
  · rw [if_neg (by omega)] at hcollect
    rw [hcollect, if_neg hfull]
    show Prog.eval _ (match rawNext (s.zset k) (!t.newestFirst) cursor remaining with
      | none => _ | some next => _) s = _
    cases rawNext (s.zset k) (!t.newestFirst) cursor remaining with
    | none => rfl
    | some next => rfl

/-- What the next position of a raw page says. -/
theorem rawNext_eq (z : ZSet) (reverse : Bool) (cursor : Option RetainedJobPosition)
    {remaining : ℕ} (hpos : 1 ≤ remaining) :
    (rawNext z reverse cursor remaining = none →
      (unread z reverse cursor).length ≤ remaining) ∧
    ∀ p, rawNext z reverse cursor remaining = some p → p.score ≠ none ∧
      remaining < (unread z reverse cursor).length ∧
      unread z reverse (some p) = (unread z reverse cursor).drop remaining := by
  rw [rawNext, next_scoredPageResult hpos]
  split
  · rename_i hlt
    refine ⟨fun h => (nomatch h), fun p hp => ?_⟩
    rw [← Option.some.inj hp]
    exact ⟨Option.some_ne_none _, hlt, unread_next hpos (by omega) _⟩
  · rename_i hle
    exact ⟨fun _ => by omega, fun _ h => nomatch h⟩

/-- A raw page that is shown whole leads to the entries behind it. -/
theorem leads_of_whole (excludeIds : List String) (z : ZSet) (reverse : Bool)
    (cursor : Option RetainedJobPosition) {remaining : ℕ} (hpos : 1 ≤ remaining)
    (hfull : remaining ≤ (included excludeIds ((unread z reverse cursor).take remaining)).length) :
    Leads z reverse excludeIds remaining cursor (rawNext z reverse cursor remaining) := by
  obtain ⟨hnone, hsome⟩ := rawNext_eq z reverse cursor hpos
  obtain ⟨hself, hlen⟩ := included_eq_self (List.length_take_le _ _) hfull
  constructor
  · exact fun h => (List.length_filter_le _ _).trans (hnone h)
  · intro p hp
    obtain ⟨hscore, hlt, hunread⟩ := hsome p hp
    refine ⟨hscore, ?_, ?_⟩
    · have hsplit := included_append excludeIds ((unread z reverse cursor).take remaining)
        ((unread z reverse cursor).drop remaining)
      rw [List.take_append_drop, hself] at hsplit
      rw [hunread, hsplit, List.drop_left' hlen]
    · rw [hunread, List.length_drop]
      omega

/-- Where a raw page is not enough, the entries that are shown of it come first. -/
theorem Leads.of_part {z : ZSet} {reverse : Bool} {remaining : ℕ} {p : RetainedJobPosition}
    {next : Option RetainedJobPosition} {shown : List (String × ℚ)}
    (hsplit : included excludeIds (unread z reverse cursor) =
      shown ++ included excludeIds (unread z reverse (some p)))
    (hlen : shown.length ≤ remaining)
    (hdec : (unread z reverse (some p)).length < (unread z reverse cursor).length)
    (h : Leads z reverse excludeIds (remaining - shown.length) (some p) next) :
    Leads z reverse excludeIds remaining cursor next := by
  constructor
  · intro hnone
    have hlast := h.last hnone
    rw [hsplit, List.length_append]
    omega
  · intro q hq
    obtain ⟨hscore, hincluded, hlt⟩ := h.more q hq
    refine ⟨hscore, ?_, hlt.trans hdec⟩
    rw [hincluded, hsplit, List.drop_append, List.drop_of_length_le hlen, List.nil_append]

/-- **The loop over the raw pages** collects what is missing, whatever its bound is, as long as the
bound exceeds the number of excluded entries to come. -/
theorem eval_excludingPages (scan : ScanOrder) (i : ProcessId) (t : RetainedJobType)
    (excludeIds : List String) (total : ℕ) (offset : ℤ) (hs : s.failing = false)
    (hmembers : ∀ id ∈ s.zset k, isIntegerKey id = false) (hscore : ∀ p ∈ cursor, p.score ≠ none)
    (hlength : collected.length < limit) :
    ∃ next, Leads (s.zset k) (!t.newestFirst) excludeIds (limit - collected.length) cursor next ∧
      ∀ bound, (unread (s.zset k) (!t.newestFirst) cursor).countP (fun e => e.1 ∈ excludeIds) < bound →
        (excludingPages t k excludeIds limit total offset bound collected cursor).eval
            (exec scan i) s =
          (.returned ⟨collected ++ ((included excludeIds
              (unread (s.zset k) (!t.newestFirst) cursor)).take
                (limit - collected.length)).map Prod.fst, total, offset, next⟩, s) := by
  -- Every raw page that is not enough holds an excluded entry.
  induction hn : (unread (s.zset k) (!t.newestFirst) cursor).countP (fun e => e.1 ∈ excludeIds)
    using Nat.strongRecOn generalizing cursor collected with
  | ind n ih =>
      subst hn
      have hstep : ∀ bound, (excludingPages t k excludeIds limit total offset (bound + 1) collected
          cursor).eval (exec scan i) s = _ := fun bound =>
        eval_excludingPages_succ hs hmembers hscore hlength rfl rfl bound
      have hpos : 1 ≤ limit - collected.length := by omega
      generalize hremaining : limit - collected.length = remaining at hstep hpos ⊢
      obtain ⟨hnone, hsome⟩ := rawNext_eq (s.zset k) (!t.newestFirst) cursor hpos
      have hwhole := leads_of_whole excludeIds (s.zset k) (!t.newestFirst) cursor hpos
      generalize hrows : unread (s.zset k) (!t.newestFirst) cursor = rows at hstep hnone hsome hwhole ⊢
      have hsplit := included_append excludeIds (rows.take remaining) (rows.drop remaining)
      rw [List.take_append_drop] at hsplit
      have hlen : (included excludeIds (rows.take remaining)).length ≤ remaining :=
        (List.length_filter_le _ _).trans (List.length_take_le _ _)
      have hcount := length_included_add_countP excludeIds (rows.take remaining)
      generalize hshown : included excludeIds (rows.take remaining) = shown
        at hstep hwhole hsplit hlen hcount
      by_cases hempty : rows = []
      · refine ⟨none, ⟨fun _ => by simp [hrows, hempty, included], fun _ h => nomatch h⟩,
          fun bound hbound => ?_⟩
        obtain ⟨bound, rfl⟩ := Nat.exists_eq_succ_of_ne_zero (Nat.ne_zero_of_lt hbound)
        rw [hstep, if_pos hempty]
        simp [hempty, included]
      by_cases hfull : remaining ≤ shown.length
      · refine ⟨_, hwhole hfull, fun bound hbound => ?_⟩
        obtain ⟨bound, rfl⟩ := Nat.exists_eq_succ_of_ne_zero (Nat.ne_zero_of_lt hbound)
        rw [hstep, if_neg hempty, if_pos hfull, hsplit, List.take_append_of_le_length hfull,
          List.take_of_length_le hlen]
      cases hnext : rawNext (s.zset k) (!t.newestFirst) cursor remaining with
      | none =>
          have hall : included excludeIds rows = shown := by
            rw [← hshown, List.take_of_length_le (hnone hnext)]
          refine ⟨none, ⟨fun _ => ?_, fun _ h => nomatch h⟩, fun bound hbound => ?_⟩
          · rw [hrows, hall]
            exact hlen
          · obtain ⟨bound, rfl⟩ := Nat.exists_eq_succ_of_ne_zero (Nat.ne_zero_of_lt hbound)
            rw [hstep, if_neg hempty, if_neg hfull, hnext, hall, List.take_of_length_le hlen]
      | some p =>
          obtain ⟨hpscore, hlt, hunread⟩ := hsome p hnext
          have hexcluded : 0 < (rows.take remaining).countP fun e => e.1 ∈ excludeIds := by
            rw [List.length_take] at hcount
            omega
          have hfewer : (rows.drop remaining).countP (fun e => e.1 ∈ excludeIds) <
              rows.countP fun e => e.1 ∈ excludeIds := by
            conv_rhs => rw [← List.take_append_drop remaining rows, List.countP_append]
            omega
          have hrest : limit - (collected ++ shown.map Prod.fst).length =
              remaining - shown.length := by
            rw [List.length_append, List.length_map]
            omega
          have hgood : ∀ q ∈ some p, q.score ≠ none := fun q hq => Option.some.inj hq ▸ hpscore
          obtain ⟨next, hleads, heval⟩ := ih
            ((rows.drop remaining).countP fun e => e.1 ∈ excludeIds) (by rw [hrows]; exact hfewer)
            hgood (show (collected ++ shown.map Prod.fst).length < limit from by omega)
            (by rw [hunread])
          rw [hrest] at hleads heval
          refine ⟨next, hleads.of_part (by rw [hrows, hunread, hsplit]) hlen ?_,
            fun bound hbound => ?_⟩
          · rw [hrows, hunread, List.length_drop]
            omega
          · obtain ⟨bound, rfl⟩ := Nat.exists_eq_succ_of_ne_zero (Nat.ne_zero_of_lt hbound)
            rw [hstep, if_neg hempty, if_neg hfull, hnext]
            simp only
            rw [heval bound (by omega), hunread, hsplit, List.take_append,
              List.take_of_length_le hlen, List.map_append, List.append_assoc]

/-- The excluded entries of a set are no more than the excluded ids. -/
theorem countP_excluded_le (excludeIds : List String) (z : ZSet) (reverse : Bool)
    (cursor : Option RetainedJobPosition) :
    (unread z reverse cursor).countP (fun e => e.1 ∈ excludeIds) ≤ excludeIds.length := by
  rw [List.countP_eq_length_filter, ← List.length_map (f := Prod.fst)]
  have hsub : (unread z reverse cursor).Sublist (z.listing reverse) := following_sublist _
  have hnodup : (((unread z reverse cursor).filter fun e => e.1 ∈ excludeIds).map Prod.fst).Nodup :=
    nodup_listing.sublist ((List.filter_sublist.trans hsub).map Prod.fst)
  refine (hnodup.subperm fun id hid => ?_).length_le
  obtain ⟨e, he, rfl⟩ := List.mem_map.mp hid
  exact of_decide_eq_true (List.mem_filter.mp he).2

/-- **A page without the excluded ids** is one of the rows that are included. -/
theorem eval_sourcePageExcluding (scan : ScanOrder) (i : ProcessId) (t : RetainedJobType)
    (excludeIds : List String) (hs : s.failing = false)
    (hmembers : ∀ id ∈ s.zset k, isIntegerKey id = false) (hscore : ∀ p ∈ cursor, p.score ≠ none)
    (hlimit : 1 ≤ limit) :
    ∃ next, Leads (s.zset k) (!t.newestFirst) excludeIds limit cursor next ∧
      (sourcePageExcluding t k excludeIds cursor limit).eval (exec scan i) s =
        (.returned ⟨((included excludeIds (unread (s.zset k) (!t.newestFirst) cursor)).take
          limit).map Prod.fst, (s.zset k).card, cursor.elim 0 (·.offset), next⟩, s) ∧
      ∀ bound, maxRawPages excludeIds limit ≤ bound →
        (excludingPages t k excludeIds limit (s.zset k).card (cursor.elim 0 (·.offset)) bound []
            cursor).eval (exec scan i) s =
          (sourcePageExcluding t k excludeIds cursor limit).eval (exec scan i) s := by
  obtain ⟨next, hleads, heval⟩ := eval_excludingPages scan i t excludeIds (s.zset k).card
    (cursor.elim 0 (·.offset)) hs hmembers hscore (show ([] : List String).length < limit from hlimit)
  have hbound : ∀ bound, maxRawPages excludeIds limit ≤ bound →
      (unread (s.zset k) (!t.newestFirst) cursor).countP (fun e => e.1 ∈ excludeIds) < bound := by
    intro bound hbound
    have hle := countP_excluded_le excludeIds (s.zset k) (!t.newestFirst) cursor
    rw [maxRawPages] at hbound
    omega
  have hpage : (sourcePageExcluding t k excludeIds cursor limit).eval (exec scan i) s =
      (excludingPages t k excludeIds limit (s.zset k).card (cursor.elim 0 (·.offset))
        (maxRawPages excludeIds limit) [] cursor).eval (exec scan i) s := by
    rw [sourcePageExcluding, if_neg (by omega), Prog.eval_bind_of (eval_sortedSetCount hs)]
  rw [heval _ (hbound _ le_rfl)] at hpage
  refine ⟨next, hleads, hpage, fun bound hle => ?_⟩
  rw [hpage]
  exact heval bound (hbound bound hle)

/-- A position without a score is refused. -/
theorem eval_sourcePageExcluding_thrown (scan : ScanOrder) (i : ProcessId) (t : RetainedJobType)
    (excludeIds : List String) (hs : s.failing = false) (hlimit : 1 ≤ limit)
    {p : RetainedJobPosition} (hp : p.score = none) :
    (sourcePageExcluding t k excludeIds (some p) limit).eval (exec scan i) s =
      (.thrown (.runtime "The retained job cursor score is unavailable."), s) := by
  rw [sourcePageExcluding, if_neg (by omega), Prog.eval_bind_of (eval_sortedSetCount hs),
    maxRawPages, excludingPages]
  simp only [List.length_nil, Nat.sub_zero]
  rw [if_neg (by omega)]
  refine Prog.eval_bind_of_thrown (Prog.eval_bind_of_thrown ?_)
  simp only [pageEntries, hp]
  rfl

/-- What a reader is shown who leaves out excluded ids: the ids of a page and the next position. -/
def ShowsIncluded (scan : ScanOrder) (i : ProcessId) (s : Store) (t : RetainedJobType)
    (k : SortedSetKey) (excludeIds : List String) (limit : ℕ) (after : Option RetainedJobPosition)
    (ids : List String) (next : Option RetainedJobPosition) : Prop :=
  ∃ page, (sourcePageExcluding t k excludeIds after limit).eval (exec scan i) s =
    (.returned page, s) ∧ page.ids = ids ∧ page.next = next

/-- Every page splits the entries that are not excluded. -/
theorem splits_sourcePageExcluding (hs : s.failing = false)
    (hmembers : ∀ id ∈ s.zset k, isIntegerKey id = false) (hlimit : 1 ≤ limit)
    (hscore : ∀ p ∈ cursor, p.score ≠ none) :
    ∃ ids next, Splits (ShowsIncluded scan i s t k excludeIds limit)
      (fun after => ∀ p ∈ after, p.score ≠ none)
      (fun after => (included excludeIds (unread (s.zset k) (!t.newestFirst) after)).map Prod.fst)
      (fun after => (unread (s.zset k) (!t.newestFirst) after).length) cursor ids next := by
  obtain ⟨next, hleads, heval, -⟩ := eval_sourcePageExcluding scan i t excludeIds hs hmembers hscore
    hlimit
  refine ⟨((included excludeIds (unread (s.zset k) (!t.newestFirst) cursor)).take limit).map Prod.fst,
    next, fun ids' next' => ?_, fun hnone => ?_, fun p hp => ?_⟩
  · constructor
    · rintro ⟨page, hpage, rfl, rfl⟩
      rw [heval, Prod.mk.injEq, Outcome.returned.injEq] at hpage
      rw [← hpage.1]
      exact ⟨rfl, rfl⟩
    · rintro ⟨rfl, rfl⟩
      exact ⟨_, heval, rfl, rfl⟩
  · rw [List.take_of_length_le (hleads.last hnone)]
  · obtain ⟨hpscore, hincluded, hlt⟩ := hleads.more p hp
    refine ⟨?_, fun q hq => Option.some.inj hq ▸ hpscore, hlt⟩
    rw [hincluded, ← List.map_append, List.take_append_drop]

/-- **Pages without excluded ids are exact.** Of a sorted set that nobody changes and whose members
are not integer-like, a page holds exactly the first members behind its position that are not
excluded; without a next position there are no more of them, and a next position stands for exactly
the others; a greater bound on the raw pages makes no difference; a position without a score is
refused; and following the pages from the start shows every member that is not excluded exactly
once. -/
theorem sourcePageExcluding_exact (scan : ScanOrder) (i : ProcessId) (t : RetainedJobType)
    (k : SortedSetKey) (excludeIds : List String) (limit : ℕ) (hlimit : 1 ≤ limit) (s : Store)
    (hs : s.failing = false) (hmembers : ∀ id ∈ s.zset k, isIntegerKey id = false) :
    (∀ after, (∀ p ∈ after, p.score ≠ none) →
      ∃ page, (sourcePageExcluding t k excludeIds after limit).eval (exec scan i) s =
          (.returned page, s) ∧
        page.ids = ((included excludeIds (unread (s.zset k) (!t.newestFirst) after)).take
          limit).map Prod.fst ∧
        (page.next = none →
          (included excludeIds (unread (s.zset k) (!t.newestFirst) after)).length ≤ limit) ∧
        (∀ p ∈ page.next, p.score ≠ none ∧
          included excludeIds (unread (s.zset k) (!t.newestFirst) (some p)) =
            (included excludeIds (unread (s.zset k) (!t.newestFirst) after)).drop limit) ∧
        ∀ bound, maxRawPages excludeIds limit ≤ bound →
          (excludingPages t k excludeIds limit (s.zset k).card (after.elim 0 (·.offset)) bound []
            after).eval (exec scan i) s = (.returned page, s)) ∧
    (∀ p : RetainedJobPosition, p.score = none →
      (sourcePageExcluding t k excludeIds (some p) limit).eval (exec scan i) s =
        (.thrown (.runtime "The retained job cursor score is unavailable."), s)) ∧
    ∀ ids, Traversal (ShowsIncluded scan i s t k excludeIds limit) none ids ↔
      ids = (included excludeIds ((s.zset k).listing (!t.newestFirst))).map Prod.fst := by
  refine ⟨fun after hscore => ?_, fun p hp =>
    eval_sourcePageExcluding_thrown scan i t excludeIds hs hlimit hp, fun ids => ?_⟩
  · obtain ⟨next, hleads, heval, hbound⟩ := eval_sourcePageExcluding scan i t excludeIds hs hmembers
      hscore hlimit
    refine ⟨_, heval, rfl, hleads.last, fun p hp => ?_, fun bound hle => ?_⟩
    · obtain ⟨hpscore, hincluded, -⟩ := hleads.more p hp
      exact ⟨hpscore, hincluded⟩
    · rw [hbound bound hle, heval]
  · have hgood : ∀ p ∈ (none : Option RetainedJobPosition), p.score ≠ none := fun _ h => nomatch h
    exact traversal_iff
      (fun after hscore => splits_sourcePageExcluding hs hmembers hlimit hscore) hgood

end Excluding

/-- A store whose completed jobs are an integer-like id and two others. -/
def integerLikeStore : Store :=
  Store.empty.setZset (.source .completed) ((∅ : ZSet).insertAll [("5", 1), ("a", 2), ("b", 3)])

/-- An integer-like id takes a place in the raw page and is not shown: the page is not the first
member, and it ends although a member follows. -/
theorem integerLike_ends : ∃ page,
    (sourcePageExcluding .completed (.source .completed) [] none 1).eval (exec .single 0)
      integerLikeStore = (.returned page, integerLikeStore) ∧
    page.ids = ["a"] ∧ page.next = none ∧ "b" ∈ integerLikeStore.zset (.source .completed) := by
  refine ⟨_, rfl, ?_, ?_, ?_⟩
  · decide +kernel
  · decide +kernel
  · decide +kernel

/-- Pages of one member each, without the one in the middle. -/
theorem sourcePageExcluding_exact_tied :
    Traversal (ShowsIncluded .single 0 tiedStore .pending (.source .pending) ["b"] 1) none
      ["c", "a"] :=
  ((sourcePageExcluding_exact .single 0 .pending (.source .pending) ["b"] 1 le_rfl tiedStore rfl
    (by decide +kernel)).2.2 _).mpr (by decide +kernel)

/-! ## Integer-like ids are numeric -/

/-- A string that is not numeric is no integer-like key. -/
theorem isIntegerKey_of_numeric {id : String} (h : Php.numeric id = none) :
    isIntegerKey id = false := by
  by_contra hkey
  obtain ⟨ds, hds, hdigits, hlist⟩ := digits_of_isIntegerKey (by simpa using hkey)
  have hsome := Php.numeric_isSome hds hdigits hlist
  rw [h] at hsome
  exact nomatch hsome

/-! ## Ids that are given -/

/-- `array<string, true>` -/
structure IdSet where
  ids : List String
  /-- The keys of an array are distinct. -/
  nodup : ids.Nodup

/-- `scoresForIds` -/
def scoresForIds (working : Working) (k : SortedSetKey) (ids : List String) :
    Redis (List (String × ℚ)) :=
  if ids = [] then return []
  else do
    let normalized ← Prog.collect (ids.arrayChunk sourceChunkSize) fun chunk => do
      let scores ← pipeline working chunk (zscore k)
      return (chunk.zip scores).filterMap fun e => e.2.map fun score => (e.1, score)
    return normalized.flatten

/-- `scoresForRetainedIds` -/
def scoresForRetainedIds (working : Working) (t : RetainedJobType) (ids : List String) :
    Redis (List (String × ℚ)) := scoresForIds working (.source t) ids

/-- The order the pairs are sorted in: by score, then by id, or the reverse of it. -/
def comparePairs (reverse : Bool) (left right : String × ℚ) : Ordering :=
  let scoreComparison := compare left.2 right.2
  if scoreComparison ≠ .eq then if reverse then scoreComparison.swap else scoreComparison
  else
    let idComparison := Php.spaceship left.1 right.1
    if reverse then idComparison.swap else idComparison

/-- Whether a pair stands behind a position. -/
def standsBehind (reverse : Bool) (score : ℚ) (id : String) (pair : String × ℚ) : Bool :=
  let scoreComparison := compare pair.2 score
  if scoreComparison ≠ .eq then
    if reverse then scoreComparison.isLT else scoreComparison.isGT
  else
    let idComparison := Php.spaceship pair.1 id
    if reverse then idComparison.isLT else idComparison.isGT

/-- A page of the ids that are given, sorted and cut here, with the scores of the source. -/
def pageAdditionalIdsFromSource (working : Working) (t : RetainedJobType) (additionalIds : IdSet)
    (after : Option RetainedJobPosition) (limit : ℕ) : Redis ScoredPage :=
  if limit = 0 ∨ additionalIds.ids = [] then return ⟨[], 0, after.elim 0 (·.offset), none⟩
  else do
    let scores ← scoresForRetainedIds working t additionalIds.ids
    let reverse := !t.newestFirst
    let pairs := scores.mergeSort fun left right => (comparePairs reverse left right).isLE
    let entries :=
      match after.bind fun after => after.score.map fun score => (after.id, score) with
      | some (id, score) => pairs.filter (standsBehind reverse score id)
      | none => pairs
    return scoredPageResult entries scores.length after limit

/-! ## Sorting here and sorting there -/

/-- The order of the listings, with equal entries. -/
def ListedLE (reverse : Bool) (a b : String × ℚ) : Prop :=
  if reverse then toLex (b.2, b.1) ≤ toLex (a.2, a.1) else toLex (a.2, a.1) ≤ toLex (b.2, b.1)

instance {reverse : Bool} : DecidableRel (ListedLE reverse) := fun a b =>
  inferInstanceAs (Decidable (if reverse then toLex (b.2, b.1) ≤ toLex (a.2, a.1)
    else toLex (a.2, a.1) ≤ toLex (b.2, b.1)))

variable {reverse : Bool} {a : String × ℚ}

/-- The order of the listing is transitive. -/
theorem ListedLE.trans {b c : String × ℚ} (h : ListedLE reverse a b) (h' : ListedLE reverse b c) :
    ListedLE reverse a c := by
  cases reverse
  · exact le_trans (α := Lex (ℚ × String)) h h'
  · exact le_trans (α := Lex (ℚ × String)) h' h

/-- Any two rows are ordered. -/
theorem listedLE_total (a b : String × ℚ) : ListedLE reverse a b ∨ ListedLE reverse b a := by
  cases reverse
  · exact le_total (α := Lex (ℚ × String)) _ _
  · exact le_total (α := Lex (ℚ × String)) _ _

/-- Entries with distinct members stand strictly in order. -/
theorem ListedLE.precedes {b : String × ℚ} (h : ListedLE reverse a b) (hne : a.1 ≠ b.1) :
    Precedes reverse a b := by
  have hlex : toLex (a.2, a.1) ≠ toLex (b.2, b.1) := fun heq =>
    hne (congrArg Prod.snd (toLex_inj.mp heq))
  cases reverse
  · exact lt_of_le_of_ne (α := Lex (ℚ × String)) h hlex
  · exact lt_of_le_of_ne (α := Lex (ℚ × String)) h hlex.symm

/-- The order of the pairs is the one of the listings, where the ids are not numeric. -/
theorem isLE_comparePairs (ha : Php.numeric a.1 = none) (b : String × ℚ) :
    (comparePairs reverse a b).isLE = decide (ListedLE reverse a b) := by
  rw [Bool.eq_iff_iff, decide_eq_true_eq, comparePairs, Php.spaceship_eq_strcmp ha, ListedLE]
  rcases lt_trichotomy a.2 b.2 with h | h | h
  · have hcompare : compare a.2 b.2 = .lt := compare_lt_iff_lt.mpr h
    cases reverse <;> simp [hcompare, Prod.Lex.toLex_le_toLex, h, h.not_gt, h.ne']
  · cases reverse
    · simp [Prod.Lex.toLex_le_toLex, h, strcmp, Ordering.isLE_iff_ne_gt, compare_le_iff_le]
    · simp [Prod.Lex.toLex_le_toLex, h, strcmp, Ordering.isGE_iff_ne_lt, compare_ge_iff_ge]
  · have hcompare : compare a.2 b.2 = .gt := compare_gt_iff_gt.mpr h
    cases reverse <;> simp [hcompare, Prod.Lex.toLex_le_toLex, h, h.not_gt, h.ne']

/-- Standing behind a position is following it in the listing. -/
theorem standsBehind_eq (ha : Php.numeric a.1 = none) (score : ℚ) (id : String) :
    standsBehind reverse score id a = decide (Precedes reverse (id, score) a) := by
  rw [Bool.eq_iff_iff, decide_eq_true_eq, standsBehind, Php.spaceship_eq_strcmp ha, Precedes]
  rcases lt_trichotomy a.2 score with h | h | h
  · have hcompare : compare a.2 score = .lt := compare_lt_iff_lt.mpr h
    cases reverse <;> simp [hcompare, Prod.Lex.toLex_lt_toLex, h, h.not_gt, h.ne']
  · cases reverse
    · simp [Prod.Lex.toLex_lt_toLex, h, strcmp, compare_gt_iff_gt]
    · simp [Prod.Lex.toLex_lt_toLex, h, strcmp, compare_lt_iff_lt]
  · have hcompare : compare a.2 score = .gt := compare_gt_iff_gt.mpr h
    cases reverse <;> simp [hcompare, Prod.Lex.toLex_lt_toLex, h, h.not_gt, h.ne']

/-- The scores found for some ids. -/
def foundScores (z : ZSet) (ids : List String) : List (String × ℚ) :=
  ids.filterMap fun id => (z.score id).map fun score => (id, score)

/-- The scores that are found are those of the set. -/
theorem mem_foundScores {z : ZSet} {ids : List String} {e : String × ℚ} :
    e ∈ foundScores z ids ↔ e.1 ∈ ids ∧ z.score e.1 = some e.2 := by
  rw [foundScores, List.mem_filterMap]
  constructor
  · rintro ⟨id, hid, hsome⟩
    obtain ⟨score, hscore, rfl⟩ := Option.map_eq_some_iff.mp hsome
    exact ⟨hid, hscore⟩
  · rintro ⟨hid, hscore⟩
    exact ⟨e.1, hid, by rw [hscore]; rfl⟩

/-- No id is found twice. -/
theorem nodup_map_foundScores {z : ZSet} {ids : List String} (h : ids.Nodup) :
    ((foundScores z ids).map Prod.fst).Nodup := by
  have hmap : (foundScores z ids).map Prod.fst = ids.filter fun id => (z.score id).isSome := by
    rw [foundScores]
    induction ids with
    | nil => rfl
    | cons id ids ih =>
        cases hscore : z.score id with
        | none =>
            rw [List.filterMap_cons_none (by rw [hscore]; rfl),
              List.filter_cons_of_neg (by simp [hscore]), ih (List.nodup_cons.mp h).2]
        | some score =>
            rw [List.filterMap_cons_some (by rw [hscore]; rfl),
              List.filter_cons_of_pos (by simp [hscore]), List.map_cons,
              ih (List.nodup_cons.mp h).2]
  rw [hmap]
  exact h.filter _

/-- **Sorting the pairs lists the set** that holds just the ids. -/
theorem mergeSort_foundScores (reverse : Bool) (z : ZSet) {ids : List String} (hnodup : ids.Nodup)
    (hids : ∀ id ∈ ids, Php.numeric id = none) :
    (foundScores z ids).mergeSort (fun left right => (comparePairs reverse left right).isLE) =
      (z.filter fun id _ => id ∈ ids).listing reverse := by
  have hle : (foundScores z ids).mergeSort (fun left right => (comparePairs reverse left right).isLE) =
      (foundScores z ids).mergeSort fun left right => decide (ListedLE reverse left right) := by
    have hmap := List.map_mergeSort (f := id)
      (r := fun left right => (comparePairs reverse left right).isLE)
      (s := fun left right => decide (ListedLE reverse left right)) (l := foundScores z ids)
      fun a ha b _ => isLE_comparePairs (hids a.1 (mem_foundScores.mp ha).1) b
    rwa [List.map_id, List.map_id] at hmap
  have hsorted : ((foundScores z ids).mergeSort fun left right =>
      decide (ListedLE reverse left right)).Pairwise fun a b =>
        decide (ListedLE reverse a b) = true :=
    List.pairwise_mergeSort
      (fun a b c hab hbc => decide_eq_true ((of_decide_eq_true hab).trans (of_decide_eq_true hbc)))
      (fun a b => by
        rw [Bool.or_eq_true, decide_eq_true_eq, decide_eq_true_eq]
        exact listedLE_total a b) _
  have hdistinct : ((foundScores z ids).mergeSort fun left right =>
      decide (ListedLE reverse left right)).Pairwise fun a b => a.1 ≠ b.1 :=
    (List.mergeSort_perm _ _).symm.pairwise (List.pairwise_map.mp (nodup_map_foundScores hnodup))
      fun h => Ne.symm h
  rw [hle]
  refine eq_of_perm ((List.mergeSort_perm _ _).trans ?_)
    ((hsorted.and hdistinct).imp fun h => (of_decide_eq_true h.1).precedes h.2) pairwise_listing
  refine (List.perm_ext_iff_of_nodup (nodup_map_foundScores hnodup).of_map nodup_listing.of_map).mpr
    fun e => ?_
  rw [mem_listing, mem_foundScores, ← score_eq_some_iff, score_filter_members]
  by_cases hid : e.1 ∈ ids
  · rw [if_pos (decide_eq_true hid)]
    exact and_iff_right hid
  · rw [if_neg (by simpa using hid)]
    exact iff_of_false (fun h => hid h.1) (Option.some_ne_none _).symm

/-! ## Reading the scores -/

section Reading

variable (scan : ScanOrder) (i : ProcessId) (working : Working) {s : Store} {k : SortedSetKey}
  {t : RetainedJobType} {after : Option RetainedJobPosition} {limit : ℕ}

/-- The scores of a chunk of ids. -/
theorem eval_pipeline_zscore (hs : s.failing = false) (chunk : List String) :
    (pipeline working chunk (zscore k)).eval (exec scan i) s =
      (.returned (chunk.map (s.zset k).score), s) := by
  exact eval_pipeline working hs fun id _ => eval_command hs (.zscore k id)

/-- The answers of a pipeline, without those of missing members. -/
theorem filterMap_zip_map (z : ZSet) (chunk : List String) :
    (chunk.zip (chunk.map z.score)).filterMap (fun e => e.2.map fun score => (e.1, score)) =
      foundScores z chunk := by
  induction chunk with
  | nil => rfl
  | cons id chunk ih =>
      rw [List.map_cons, List.zip_cons_cons, List.filterMap_cons, ih]
      rfl

/-- **The scores of ids** are those that are found. -/
theorem eval_scoresForIds (hs : s.failing = false) (ids : List String) :
    (scoresForIds working k ids).eval (exec scan i) s =
      (.returned (foundScores (s.zset k) ids), s) := by
  rw [scoresForIds]
  split
  · rename_i hnil
    rw [hnil]
    rfl
  have hchunk : ∀ chunk ∈ ids.arrayChunk sourceChunkSize, Prog.eval (exec scan i) (do
      let scores ← pipeline working chunk (zscore k)
      return (chunk.zip scores).filterMap fun e => e.2.map fun score => (e.1, score)) s =
        (.returned (foundScores (s.zset k) chunk), s) := by
    intro chunk _
    rw [Prog.eval_bind_of (eval_pipeline_zscore scan i working hs chunk),
      filterMap_zip_map (s.zset k) chunk]
    rfl
  have hflatten : ((ids.arrayChunk sourceChunkSize).map (foundScores (s.zset k))).flatten =
      foundScores (s.zset k) ids := by
    conv_rhs => rw [← List.flatten_arrayChunk sourceChunkSize ids, foundScores, List.filterMap_flatten]
    rfl
  rw [Prog.eval_bind_of (Prog.eval_collect hchunk), ← hflatten]
  rfl

/-! ## Pages -/

/-- A page is the same whether one entry more than it holds is read or all of them are. -/
theorem scoredPageResult_take (rows : List (String × ℚ)) (total : ℕ) :
    scoredPageResult (rows.take (limit + 1)) total after limit =
      scoredPageResult rows total after limit := by
  have htake : (rows.take (limit + 1)).take limit = rows.take limit := by
    rw [List.take_take, Nat.min_eq_left (Nat.le_succ limit)]
  have hlength : limit < (rows.take (limit + 1)).length ↔ limit < rows.length := by
    rw [List.length_take]
    omega
  simp only [scoredPageResult, htake, hlength]

/-- The page of the ids that are given is read off a listing of just these ids. -/
theorem eval_pageAdditionalIdsFromSource (hs : s.failing = false) {additionalIds : IdSet}
    (hids : ∀ id ∈ additionalIds.ids, Php.numeric id = none) (hlimit : 1 ≤ limit) {z : ZSet}
    (hz : z = (s.zset (.source t)).filter fun id _ => id ∈ additionalIds.ids)
    (hscore : ∀ p ∈ after, p.score ≠ none) :
    (pageAdditionalIdsFromSource working t additionalIds after limit).eval (exec scan i) s =
      (.returned (scoredPageResult (unread z (!t.newestFirst) after) z.card after limit), s) := by
  have hlisting := mergeSort_foundScores (!t.newestFirst) (s.zset (.source t)) additionalIds.nodup
    hids
  rw [← hz] at hlisting
  have hcard : (foundScores (s.zset (.source t)) additionalIds.ids).length = z.card := by
    rw [← (List.mergeSort_perm _ _).length_eq, hlisting, length_listing]
  have hnumeric : ∀ e ∈ z.listing (!t.newestFirst), Php.numeric e.1 = none := by
    intro e he
    have hmem : e.1 ∈ z := mem_map_listing.mp (List.mem_map_of_mem he)
    rw [hz, mem_filter] at hmem
    exact hids e.1 (of_decide_eq_true hmem.2)
  rw [pageAdditionalIdsFromSource]
  split
  · rename_i hempty
    have hnil := hempty.resolve_left (by omega)
    rw [hnil] at hcard
    have hlength : (z.listing (!t.newestFirst)).length = 0 := by
      rw [length_listing, ← hcard]
      rfl
    have hunread : unread z (!t.newestFirst) after = [] := by
      have hsub : (unread z (!t.newestFirst) after).Sublist (z.listing (!t.newestFirst)) :=
        following_sublist _
      exact List.sublist_nil.mp (List.length_eq_zero_iff.mp hlength ▸ hsub)
    rw [hunread, ← hcard]
    simp only [scoredPageResult, foundScores, List.take_nil, List.map_nil, List.filterMap_nil,
      List.length_nil, Nat.not_lt_zero, if_false]
    rfl
  · rw [scoresForRetainedIds, Prog.eval_bind_of (eval_scoresForIds scan i working hs _)]
    simp only [hlisting, hcard]
    have hentries : (match after.bind fun after => after.score.map fun score => (after.id, score) with
        | some (id, score) =>
            (z.listing (!t.newestFirst)).filter (standsBehind (!t.newestFirst) score id)
        | none => z.listing (!t.newestFirst)) = unread z (!t.newestFirst) after := by
      cases after with
      | none => rfl
      | some p =>
          obtain ⟨score, hp⟩ := Option.ne_none_iff_exists'.mp (hscore p rfl)
          simp only [unread, RetainedJobPosition.entry, Option.bind_some, hp, Option.map_some,
            following]
          exact List.filter_congr fun e he => standsBehind_eq (hnumeric e he) score p.id
    rw [hentries]
    rfl

/-- **Both ways to page given ids agree.** For ids that are not numeric, the page that is sorted and
cut from the scores of the source is the page `sourcePage` reads of a sorted set that holds exactly
the ids that are in the source, with their scores there. -/
theorem pageAdditionalIdsFromSource_eq (t : RetainedJobType) (additionalIds : IdSet)
    (hids : ∀ id ∈ additionalIds.ids, Php.numeric id = none) (after : Option RetainedJobPosition)
    (hscore : ∀ p ∈ after, p.score ≠ none) (limit : ℕ) (hlimit : 1 ≤ limit) (s : Store)
    (hs : s.failing = false) :
    ∃ page, (pageAdditionalIdsFromSource working t additionalIds after limit).eval (exec scan i) s =
        (.returned page, s) ∧
      ∀ (s' : Store) (k : SortedSetKey), s'.failing = false →
        s'.zset k = (s.zset (.source t)).filter (fun id _ => id ∈ additionalIds.ids) →
        (sourcePage t k after limit).eval (exec scan i) s' = (.returned page, s') := by
  refine ⟨_, eval_pageAdditionalIdsFromSource scan i working hs hids hlimit rfl hscore,
    fun s' k hs' hk => ?_⟩
  have hmembers : ∀ id ∈ s'.zset k, isIntegerKey id = false := by
    intro id hid
    rw [hk, mem_filter] at hid
    exact isIntegerKey_of_numeric (hids id (of_decide_eq_true hid.2))
  rw [eval_sourcePage hs' hmembers hscore, scoredPageResult_take, hk]

end Reading

/-- The ids of three jobs, one of which is not in the source. -/
def leadIds : IdSet := ⟨["c", "x", "a"], by decide⟩

/-- A source of which only the given ids are kept. -/
def leadStore : Store :=
  Store.empty.setZset (.source .pending) ((∅ : ZSet).insertAll [("c", 1), ("a", 1)])

/-- The second page of given ids among jobs of the same score. -/
theorem pageAdditionalIdsFromSource_eq_tied :
    ∃ page, (pageAdditionalIdsFromSource none .pending leadIds (some ⟨some 1, "c", 1⟩) 1).eval
        (exec .single 0) tiedStore = (.returned page, tiedStore) ∧
      (sourcePage .pending (.source .pending) (some ⟨some 1, "c", 1⟩) 1).eval (exec .single 0) leadStore =
        (.returned page, leadStore) ∧ page = ⟨["a"], 2, 1, none⟩ := by
  have hscore : ∀ p ∈ some (⟨some 1, "c", 1⟩ : RetainedJobPosition), p.score ≠ none := by simp
  obtain ⟨page, hpage, hsource⟩ := pageAdditionalIdsFromSource_eq .single 0 none .pending leadIds
    (by decide +kernel) (some ⟨some 1, "c", 1⟩) hscore 1 le_rfl tiedStore rfl
  have hlead := hsource leadStore (.source .pending) rfl (eq_of_entries (by decide +kernel))
  have heval : ((sourcePage .pending (.source .pending) (some ⟨some 1, "c", 1⟩) 1).eval
      (exec .single 0) leadStore).1 = .returned ⟨["a"], 2, 1, none⟩ := by decide +kernel
  rw [hlead] at heval
  exact ⟨page, hpage, hlead, Outcome.returned.inj heval⟩

end RetainedJobIndex

end HorizonNewDawn

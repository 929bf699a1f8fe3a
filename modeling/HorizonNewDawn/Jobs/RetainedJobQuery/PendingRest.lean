import HorizonNewDawn.Collections.LeadAndRest
import HorizonNewDawn.Collections.Merging
import HorizonNewDawn.Jobs.RetainedJobQuery.PendingTargets
import Mathlib

/-! # The rest of the pending jobs

Behind the reserved jobs the others are listed, where a delayed job is ranked by the time it becomes
available. The listing is never stored: a page is merged from a page of the source without the delayed
ids and a page of these under the scores they are ranked by. `eval_pagePendingRest` shows that the
merge is a page of the whole listing. -/

namespace HorizonNewDawn

open Program SortedSet Keyset

namespace RetainedJobIndex

variable {scan : ScanOrder} {i : ProcessId} {s : Store} {k : SortedSetKey} {t : RetainedJobType}
  {after : Option RetainedJobPosition} {limit : ℕ} {rows : List (String × ℚ)}
  {excludeIds : List String}

/-! ## Pages of rows -/

/-- A page shows the first of some rows, and hands out the last one it shows if there may be more. -/
structure FirstRows (rows : List (String × ℚ)) (limit : ℕ) (page : ScoredPage) : Prop where
  ids : page.ids = (rows.take limit).map Prod.fst
  last : page.next = none → rows.length ≤ limit
  more : ∀ p ∈ page.next, p.score ≠ none ∧ p.entry = (rows.take limit).getLast?

/-- A page has the first rows. -/
theorem firstRows_scoredPageResult (hlimit : 1 ≤ limit) (rows : List (String × ℚ)) (total : ℕ) :
    FirstRows rows limit (scoredPageResult rows total after limit) where
  ids := rfl
  last hnone := by
    simp only [scoredPageResult] at hnone
    split at hnone
    · rename_i hmore
      rw [Option.map_eq_none_iff, List.getLast?_eq_none_iff, List.take_eq_nil_iff] at hnone
      rcases hnone with hzero | rfl
      · omega
      · exact absurd hmore (Nat.not_lt_zero limit)
    · omega
  more p hp := by
    simp only [scoredPageResult] at hp
    split at hp
    · obtain ⟨e, he, rfl⟩ := Option.map_eq_some_iff.mp hp
      exact ⟨Option.some_ne_none _, he.symm⟩
    · cases hp

/-- What is included was there before. -/
theorem included_subset (excludeIds : List String) (rows : List (String × ℚ)) :
    included excludeIds rows ⊆ rows := List.filter_subset_self rows

/-- The next position of a raw page is the last entry of it. -/
theorem rawNext_more {z : ZSet} {reverse : Bool} {cursor : Option RetainedJobPosition}
    {remaining : ℕ} (hpos : 1 ≤ remaining) {p : RetainedJobPosition}
    (hp : rawNext z reverse cursor remaining = some p) :
    p.score ≠ none ∧ p.entry = ((unread z reverse cursor).take remaining).getLast? := by
  rw [rawNext, scoredPageResult_take] at hp
  exact (firstRows_scoredPageResult hpos _ _).more p hp

/-- The next position of a page without excluded ids is the last entry that is shown. -/
theorem next_excludingPages {cursor : Option RetainedJobPosition} {collected : List String}
    {total : ℕ} {offset : ℤ} (hs : s.failing = false)
    (hmembers : ∀ id ∈ s.zset k, isIntegerKey id = false) (hscore : ∀ p ∈ cursor, p.score ≠ none)
    (hlength : collected.length < limit) {bound : ℕ}
    (hbound : (unread (s.zset k) (!t.newestFirst) cursor).countP (fun e => e.1 ∈ excludeIds) < bound)
    {page : ScoredPage} {s' : Store}
    (heval : (excludingPages t k excludeIds limit total offset bound collected cursor).eval
      (exec scan i) s = (.returned page, s')) :
    ∀ p ∈ page.next, p.score ≠ none ∧ p.entry = ((included excludeIds
      (unread (s.zset k) (!t.newestFirst) cursor)).take (limit - collected.length)).getLast? := by
  -- by strong induction on the number of excluded rows that are still unread
  induction hn : (unread (s.zset k) (!t.newestFirst) cursor).countP (fun e => e.1 ∈ excludeIds)
    using Nat.strongRecOn generalizing cursor collected bound with
  | ind n ih =>
      subst hn
      obtain ⟨bound, rfl⟩ := Nat.exists_eq_succ_of_ne_zero (Nat.ne_zero_of_lt hbound)
      rw [eval_excludingPages_succ hs hmembers hscore hlength rfl rfl bound] at heval
      have hpos : 1 ≤ limit - collected.length := by omega
      have hmore : ∀ p, rawNext (s.zset k) (!t.newestFirst) cursor (limit - collected.length) = some p →
          p.score ≠ none ∧ p.entry = ((unread (s.zset k) (!t.newestFirst) cursor).take
            (limit - collected.length)).getLast? := fun p => rawNext_more hpos
      obtain ⟨-, hsome⟩ := rawNext_eq (s.zset k) (!t.newestFirst) cursor hpos
      generalize hremaining : limit - collected.length = remaining at *
      generalize hrows : unread (s.zset k) (!t.newestFirst) cursor = rows at *
      have hsplit := included_append excludeIds (rows.take remaining) (rows.drop remaining)
      rw [List.take_append_drop] at hsplit
      have hlen : (included excludeIds (rows.take remaining)).length ≤ remaining :=
        (List.length_filter_le _ _).trans (List.length_take_le _ _)
      intro p hp
      split at heval
      · cases heval
        cases hp
      split at heval
      · -- The raw page is shown whole.
        rename_i hfull
        cases heval
        obtain ⟨hself, -⟩ := included_eq_self (List.length_take_le _ _) hfull
        obtain ⟨hpscore, hentry⟩ := hmore p hp
        rw [hsplit, List.take_append_of_le_length hfull, List.take_of_length_le hlen, hself]
        exact ⟨hpscore, hentry⟩
      rename_i hfull
      cases hnext : rawNext (s.zset k) (!t.newestFirst) cursor remaining with
      | none =>
          rw [hnext] at heval
          cases heval
          cases hp
      -- The loop goes on behind the raw page, where fewer excluded rows are left.
      | some q =>
          rw [hnext] at heval
          obtain ⟨hqscore, hlt, hunread⟩ := hsome q hnext
          have hcount := length_included_add_countP excludeIds (rows.take remaining)
          have hexcluded : 0 < (rows.take remaining).countP fun e => e.1 ∈ excludeIds := by
            rw [List.length_take] at hcount
            omega
          have hfewer : (rows.drop remaining).countP (fun e => e.1 ∈ excludeIds) <
              rows.countP fun e => e.1 ∈ excludeIds := by
            conv_rhs => rw [← List.take_append_drop remaining rows, List.countP_append]
            omega
          have hrest : limit - (collected ++
              (included excludeIds (rows.take remaining)).map Prod.fst).length =
                remaining - (included excludeIds (rows.take remaining)).length := by
            rw [List.length_append, List.length_map]
            omega
          have hgood : ∀ p ∈ some q, p.score ≠ none := fun p hp => Option.some.inj hp ▸ hqscore
          have hbehind := ih ((rows.drop remaining).countP fun e => e.1 ∈ excludeIds)
            hfewer hgood (by omega)
            (by rw [hunread]; omega) heval (by rw [hunread]) p hp
          rw [hrest, hunread] at hbehind
          obtain ⟨hpscore, hentry⟩ := hbehind
          refine ⟨hpscore, ?_⟩
          obtain ⟨x, hx⟩ := Option.ne_none_iff_exists'.mp hpscore
          have hlast : p.entry = some (p.id, x) := by rw [RetainedJobPosition.entry, hx]; rfl
          rw [hsplit, List.take_append, List.take_of_length_le hlen, List.getLast?_append, ← hentry,
            hlast]
          rfl

/-- Pages without excluded ids. -/
theorem firstRows_sourcePageExcluding (scan : ScanOrder) (i : ProcessId) (t : RetainedJobType)
    (excludeIds : List String) (hs : s.failing = false)
    (hmembers : ∀ id ∈ s.zset k, isIntegerKey id = false) (hscore : ∀ p ∈ after, p.score ≠ none)
    (hlimit : 1 ≤ limit) :
    ∃ page, (sourcePageExcluding t k excludeIds after limit).eval (exec scan i) s =
        (.returned page, s) ∧ page.total = (s.zset k).card ∧
      page.currentOffset = after.elim 0 (·.offset) ∧
      FirstRows (included excludeIds (unread (s.zset k) (!t.newestFirst) after)) limit page := by
  obtain ⟨next, hleads, heval, hbound⟩ := eval_sourcePageExcluding scan i t excludeIds hs hmembers
    hscore hlimit
  refine ⟨_, heval, rfl, rfl, rfl, hleads.last, ?_⟩
  have hpages := hbound _ le_rfl
  rw [heval] at hpages
  have hcollected : ([] : List String).length < limit := hlimit
  have hle := countP_excluded_le excludeIds (s.zset k) (!t.newestFirst) after
  exact next_excludingPages hs hmembers hscore hcollected (by rw [maxRawPages]; omega) hpages

/-! ## Sorting pairs -/

/-- Sorting pairs with distinct ids that are not numeric puts them into the order of the listings. -/
theorem pairwise_mergeSort_comparePairs {reverse : Bool} {l : List (String × ℚ)}
    (hids : ∀ e ∈ l, Php.numeric e.1 = none) (hnodup : (l.map Prod.fst).Nodup) :
    (l.mergeSort fun left right => (comparePairs reverse left right).isLE).Pairwise
      (Precedes reverse) := by
  have hle : (l.mergeSort fun left right => (comparePairs reverse left right).isLE) =
      l.mergeSort fun left right => decide (ListedLE reverse left right) := by
    have hmap := List.map_mergeSort (f := id)
      (r := fun left right => (comparePairs reverse left right).isLE)
      (s := fun left right => decide (ListedLE reverse left right)) (l := l)
      fun a ha b _ => isLE_comparePairs (hids a ha) b
    rwa [List.map_id, List.map_id] at hmap
  have hsorted : (l.mergeSort fun left right => decide (ListedLE reverse left right)).Pairwise
      fun a b => decide (ListedLE reverse a b) = true :=
    List.pairwise_mergeSort
      (fun a b c hab hbc => decide_eq_true ((of_decide_eq_true hab).trans (of_decide_eq_true hbc)))
      (fun a b => by
        rw [Bool.or_eq_true, decide_eq_true_eq, decide_eq_true_eq]
        exact listedLE_total a b) l
  have hdistinct : (l.mergeSort fun left right => decide (ListedLE reverse left right)).Pairwise
      fun a b => a.1 ≠ b.1 :=
    (List.mergeSort_perm l _).symm.pairwise (List.pairwise_map.mp hnodup) fun h => Ne.symm h
  rw [hle]
  exact (hsorted.and hdistinct).imp fun h => (of_decide_eq_true h.1).precedes h.2

/-- What is unread is in order. -/
theorem pairwise_unread (z : ZSet) (reverse : Bool) (after : Option RetainedJobPosition) :
    (unread z reverse after).Pairwise (Precedes reverse) :=
  pairwise_following pairwise_listing _

/-- No id is unread twice. -/
theorem nodup_unread (z : ZSet) (reverse : Bool) (after : Option RetainedJobPosition) :
    ((unread z reverse after).map Prod.fst).Nodup :=
  nodup_listing.sublist ((following_sublist _).map Prod.fst)

/-- A sorted set that is made of a list of assignments. -/
theorem score_insertAll_empty {l : List (String × ℚ)} (hl : (l.map Prod.fst).Nodup) {id : String}
    {x : ℚ} : ((∅ : ZSet).insertAll l).score id = some x ↔ (id, x) ∈ l := by
  constructor
  · intro h
    have hmem : id ∈ l.map Prod.fst :=
      (mem_insertAll.mp (mem_of_score h)).resolve_right not_mem_empty
    obtain ⟨⟨id', y⟩, he, rfl⟩ := List.mem_map.mp hmem
    rw [score_insertAll_of_mem hl he] at h
    rwa [← Option.some.inj h]
  · exact score_insertAll_of_mem hl

end RetainedJobIndex

namespace RetainedJobQuery

open RetainedJobIndex

/-! ## The listing of the rest -/

/-- The score a pending job is ranked by among the rest: a delayed one by its time, negated. -/
def restScore (source : ZSet) (delayed : List (String × ℚ)) (id : String) : Option ℚ :=
  if id ∈ source then
    match Assignments.get id delayed with
    | some time => some (-time)
    | none => source.score id
  else none

/-- The pending jobs with these scores. -/
def restSet (source : ZSet) (delayed : List (String × ℚ)) : ZSet :=
  ofFun source.members (restScore source delayed)

variable {source : ZSet} {delayed : List (String × ℚ)} {excludeIds : List String}
  {after : Option RetainedJobPosition} {limit : ℕ}

/-- The scores of the rest. -/
@[simp] theorem score_restSet (id : String) :
    (restSet source delayed).score id = restScore source delayed id := by
  apply score_ofFun_of_forall
  intro id x h
  rw [restScore] at h
  split at h
  · exact mem_iff_members.mp ‹_›
  · cases h

/-- The ordering scores are the negated times that are not excluded. -/
theorem mem_orderingScores (hdelayed : (delayed.map Prod.fst).Nodup) {id : String} {x : ℚ} :
    (id, x) ∈ orderingScores delayed excludeIds ↔
      Assignments.get id delayed = some (-x) ∧ id ∉ excludeIds := by
  simp only [orderingScores, List.mem_map, List.mem_filter, decide_eq_true_eq, Prod.mk.injEq]
  constructor
  · rintro ⟨⟨id', time⟩, ⟨hmem, hid⟩, rfl, rfl⟩
    rw [neg_neg]
    exact ⟨Assignments.get_of_mem hdelayed hmem, hid⟩
  · rintro ⟨hget, hid⟩
    exact ⟨(id, -x), ⟨Assignments.mem_of_get hget, hid⟩, rfl, neg_neg x⟩

/-- No id has two of them. -/
theorem nodup_orderingScores (hdelayed : (delayed.map Prod.fst).Nodup) :
    ((orderingScores delayed excludeIds).map Prod.fst).Nodup := by
  rw [orderingScores, List.map_map]
  exact hdelayed.sublist ((List.filter_sublist (l := delayed)).map Prod.fst)

/-- **Two streams**: behind every position the rest that is not excluded is the source without the
delayed ids, and these under the scores they are ranked by. -/
theorem perm_streams (hdelayed : (delayed.map Prod.fst).Nodup) {nonDelayedExclude : List String}
    (hexclude : ∀ id, id ∈ nonDelayedExclude ↔
      id ∈ excludeIds ∨ id ∈ (orderingScores delayed excludeIds).map Prod.fst) :
    (included excludeIds (unread (restSet source delayed) true after)).Perm
      (included nonDelayedExclude (unread source true after) ++
        unread (scoredSet source (orderingScores delayed excludeIds) excludeIds) true after) := by
  have hscored : ((retained source (orderingScores delayed excludeIds) excludeIds).map
      Prod.fst).Nodup :=
    (nodup_orderingScores hdelayed).sublist (List.filter_sublist.map Prod.fst)
  -- the ids that get a score of their own are the delayed ones that are not excluded
  have hkeys : ∀ id, id ∈ (orderingScores delayed excludeIds).map Prod.fst ↔
      (Assignments.get id delayed).isSome ∧ id ∉ excludeIds := by
    intro id
    rw [List.mem_map]
    constructor
    · rintro ⟨⟨id', x⟩, he, rfl⟩
      obtain ⟨hget, hid⟩ := (mem_orderingScores hdelayed).mp he
      exact ⟨by rw [hget]; rfl, hid⟩
    · rintro ⟨hget, hid⟩
      obtain ⟨time, htime⟩ := Option.isSome_iff_exists.mp hget
      exact ⟨(id, -time), (mem_orderingScores hdelayed).mpr ⟨by rw [htime, neg_neg], hid⟩, rfl⟩
  have hleft : ∀ e, e ∈ included excludeIds (unread (restSet source delayed) true after) ↔
      (restScore source delayed e.1 = some e.2 ∧
        ∀ a ∈ after.bind RetainedJobPosition.entry, Precedes true a e) ∧ e.1 ∉ excludeIds := by
    intro e
    rw [included, List.mem_filter, mem_unread, score_restSet, decide_eq_true_eq]
  have hstream : ∀ e, e ∈ included nonDelayedExclude (unread source true after) ↔
      (source.score e.1 = some e.2 ∧
        ∀ a ∈ after.bind RetainedJobPosition.entry, Precedes true a e) ∧
        e.1 ∉ excludeIds ∧ Assignments.get e.1 delayed = none := by
    intro e
    rw [included, List.mem_filter, mem_unread, decide_eq_true_eq, hexclude, hkeys]
    cases Assignments.get e.1 delayed <;> simp
  have hdelayedStream : ∀ e, e ∈ unread (scoredSet source
      (orderingScores delayed excludeIds) excludeIds) true after ↔
      ((Assignments.get e.1 delayed = some (-e.2) ∧ e.1 ∉ excludeIds) ∧ e.1 ∈ source) ∧
        ∀ a ∈ after.bind RetainedJobPosition.entry, Precedes true a e := by
    intro e
    rw [mem_unread, scoredSet, score_insertAll_empty hscored, retained, List.mem_filter,
      mem_orderingScores hdelayed, decide_eq_true_eq]
    tauto
  -- Both sides list every entry once, so it is enough to compare their members.
  rw [List.perm_ext_iff_of_nodup]
  · intro e
    rw [List.mem_append, hleft, hstream, hdelayedStream, restScore]
    cases hget : Assignments.get e.1 delayed with
    | none =>
        have hmem : ∀ x, source.score e.1 = some x → e.1 ∈ source := fun x => mem_of_score
        simp only [reduceCtorEq, false_and, or_false, and_true]
        constructor
        · rintro ⟨⟨hscore, hbehind⟩, hid⟩
          split at hscore
          · exact ⟨⟨hscore, hbehind⟩, hid⟩
          · cases hscore
        · rintro ⟨⟨hscore, hbehind⟩, hid⟩
          rw [if_pos (hmem _ hscore)]
          exact ⟨⟨hscore, hbehind⟩, hid⟩
    | some time =>
        simp only [reduceCtorEq, and_false, false_or, Option.some.injEq]
        constructor
        · rintro ⟨⟨hscore, hbehind⟩, hid⟩
          split at hscore
          · rename_i hmem
            have htime : -time = e.2 := Option.some.inj hscore
            exact ⟨⟨⟨by rw [← htime, neg_neg], hid⟩, hmem⟩, hbehind⟩
          · cases hscore
        · rintro ⟨⟨⟨htime, hid⟩, hmem⟩, hbehind⟩
          rw [if_pos hmem, htime, neg_neg]
          exact ⟨⟨rfl, hbehind⟩, hid⟩
  · exact ((nodup_unread _ _ _).of_map).filter _
  · rw [List.nodup_append]
    refine ⟨((nodup_unread _ _ _).of_map).filter _, (nodup_unread _ _ _).of_map, ?_⟩
    rintro e he e' he' rfl
    have hnone := ((hstream e).mp he).2.2
    have hsome := ((hdelayedStream e).mp he').1.1.1
    rw [hnone] at hsome
    cases hsome

/-! ## Merging the streams -/

/-- The page is read off the sorted pairs. -/
theorem mergePendingRestStreams_eq {a b : List (String × ℚ)} (ha : (a.map Prod.fst).Nodup)
    (hb : (b.map Prod.fst).Nodup) (reverse : Bool) :
    mergePendingRestStreams (a.map Prod.fst) a (b.map Prod.fst) b after limit reverse =
      scoredPageResult ((a ++ b).mergeSort fun left right => (comparePairs reverse left right).isLE) 0
        after limit := by
  have hstream : ∀ l : List (String × ℚ), (l.map Prod.fst).Nodup →
      scoredStream (l.map Prod.fst) l = l := fun l hl => filterMap_get hl (List.Subset.refl l)
  simp only [mergePendingRestStreams, hstream a ha, hstream b hb, scoredPageResult, decide_eq_true_eq]

/-- **Merging one more than a page** of each stream gives the page of the whole listing. -/
theorem firstRows_mergePendingRestStreams (hlimit : 1 ≤ limit)
    (hdelayed : (delayed.map Prod.fst).Nodup) (hids : ∀ id ∈ source, Php.numeric id = none)
    {nonDelayedExclude : List String} (hexclude : ∀ id, id ∈ nonDelayedExclude ↔
      id ∈ excludeIds ∨ id ∈ (orderingScores delayed excludeIds).map Prod.fst)
    {a b : List (String × ℚ)}
    (ha : a = (included nonDelayedExclude (unread source true after)).take (limit + 1))
    (hb : b = (unread (scoredSet source (orderingScores delayed excludeIds) excludeIds) true after).take
      (limit + 1)) :
    FirstRows (included excludeIds (unread (restSet source delayed) true after)) limit
      (mergePendingRestStreams (a.map Prod.fst) a (b.map Prod.fst) b after limit true) := by
  have hperm := @perm_streams source delayed excludeIds after hdelayed nonDelayedExclude hexclude
  set rest := included excludeIds (unread (restSet source delayed) true after) with hrest
  set stream := included nonDelayedExclude (unread source true after)
  set delayedStream := unread (scoredSet source (orderingScores delayed excludeIds) excludeIds) true
    after
  have hnodup : ((stream ++ delayedStream).map Prod.fst).Nodup := by
    apply (hperm.map Prod.fst).nodup_iff.mp
    exact (nodup_unread _ _ _).sublist (List.filter_sublist.map Prod.fst)
  have hsub : (a ++ b).Sublist (stream ++ delayedStream) := by
    rw [ha, hb]
    exact (List.take_sublist _ _).append (List.take_sublist _ _)
  have hpairs : ((a ++ b).map Prod.fst).Nodup := hnodup.sublist (hsub.map Prod.fst)
  have hnumeric : ∀ e ∈ a ++ b, Php.numeric e.1 = none := by
    intro e he
    have hmem : e ∈ rest := hperm.mem_iff.mpr (hsub.subset he)
    rw [hrest, included, List.mem_filter, mem_unread, score_restSet, restScore] at hmem
    apply hids e.1
    by_contra hnot
    rw [if_neg hnot] at hmem
    cases hmem.1.1
  have hmerge : ((a ++ b).mergeSort fun left right => (comparePairs true left right).isLE).take
      (limit + 1) = rest.take (limit + 1) := by
    refine take_merge (r := Precedes true) (l := stream) ((pairwise_unread _ _ _).filter _)
      (pairwise_unread _ _ _) ((pairwise_unread _ _ _).filter _)
      (pairwise_mergeSort_comparePairs hnumeric hpairs) hperm ?_
    rw [← ha, ← hb]
    exact List.mergeSort_perm _ _
  rw [List.map_append] at hpairs
  rw [mergePendingRestStreams_eq hpairs.of_append_left hpairs.of_append_right,
    ← scoredPageResult_take, hmerge, scoredPageResult_take]
  exact firstRows_scoredPageResult hlimit rest 0

/-! ## A page of the rest -/

section Alone

variable {scan : ScanOrder} {i : ProcessId} {s : Store} (query : RetainedJobQuery)
  {filters : JobIndexFiltersData} {states : PendingStates}

/-- **The scores of a page** are those of the source. -/
theorem eval_positionsToScoreMap (hs : s.failing = false) (ids : List String) :
    (positionsToScoreMap ids).eval (exec scan i) s =
      (.returned (foundScores (s.zset (.source .pending)) ids), s) := by
  rw [positionsToScoreMap]
  split
  · rename_i hnil
    rw [hnil]
    rfl
  · exact eval_scoresForIds scan i none hs ids

/-- A page of the source without excluded ids. -/
theorem eval_pageExcluding (scan : ScanOrder) (i : ProcessId) (hs : s.failing = false)
    (hids : ∀ id ∈ s.zset (.source .pending), Php.numeric id = none) {search : Option String}
    (hsearch : Php.trim (search.getD "") = "") (excludeIds : List String)
    (hscore : ∀ p ∈ after, p.score ≠ none) (hlimit : 1 ≤ limit) :
    ∃ page, (query.pageExcluding .pending [] excludeIds after limit search false).eval (exec scan i) s =
        (.returned page, s) ∧ page.currentOffset = after.elim 0 (·.offset) ∧
      FirstRows (included excludeIds (unread (s.zset (.source .pending)) true after)) limit page := by
  have hmembers : ∀ id ∈ s.zset (.source .pending), isIntegerKey id = false :=
    fun id hid => isIntegerKey_of_numeric (hids id hid)
  rw [RetainedJobQuery.pageExcluding, if_neg (by omega), if_neg Bool.false_ne_true,
    RetainedJobIndex.pageIdsExcluding]
  split
  · rename_i hnil
    rw [RetainedJobIndex.pageIds]
    simp only [hsearch, and_self, if_true]
    rw [hnil, included_nil]
    refine ⟨_, eval_sourcePage hs hmembers hscore, rfl, ?_⟩
    rw [scoredPageResult_take]
    exact firstRows_scoredPageResult hlimit _ _
  · simp only [hsearch, Option.isNone_none, and_self, if_true]
    obtain ⟨page, heval, -, hoffset, hpage⟩ := firstRows_sourcePageExcluding scan i .pending excludeIds
      hs hmembers hscore hlimit
    exact ⟨page, heval, hoffset, hpage⟩

/-- **A page of the rest** shows the first rows of the listing behind its position that are not
excluded. -/
theorem eval_pagePendingRest (scan : ScanOrder) (hstates : query.pendingStates = some states)
    (hs : s.failing = false) (hscanned : Scanned states filters s)
    (hids : ∀ id ∈ s.zset (.source .pending), Php.numeric id = none)
    (hdelayed : delayedAt s filters = delayed)
    (hnodup : (delayed.map Prod.fst).Nodup)
    (hempty : s.zset (.temporary ⟨i, s.serial i⟩) = ∅) {search : Option String}
    (hsearch : Php.trim (search.getD "") = "") (excludeIds : List String)
    (hscore : ∀ p ∈ after, p.score ≠ none) (hlimit : 1 ≤ limit) :
    ∃ page s', (query.pagePendingRest .pending [] filters excludeIds after limit search false).eval
        (exec scan i) s = (.returned page, s') ∧ Scratches i s s' ∧
      page.currentOffset = after.elim 0 (·.offset) ∧
      FirstRows (included excludeIds (unread (restSet (s.zset (.source .pending)) delayed) true after))
        limit page := by
  rw [RetainedJobQuery.pagePendingRest, if_neg (by omega),
    Prog.eval_bind_of (eval_delayedOrderingScores hstates hs hscanned excludeIds), hdelayed]
  split
  · -- Nothing is delayed: the listing is the source.
    rename_i hnone
    obtain ⟨page, heval, hoffset, hpage⟩ := eval_pageExcluding query scan i hs hids hsearch excludeIds
      hscore hlimit
    refine ⟨page, s, heval, .refl s, hoffset, ?_⟩
    have hself : ∀ id, id ∈ excludeIds ↔
        id ∈ excludeIds ∨ id ∈ (orderingScores delayed excludeIds).map Prod.fst := by
      simp [hnone]
    have hperm : (included excludeIds
        (unread (restSet (s.zset (.source .pending)) delayed) true after)).Perm _ :=
      perm_streams hnodup hself
    rw [hnone] at hperm
    simp only [scoredSet, retained, List.filter_nil, insertAll_nil, unread_empty, List.append_nil] at hperm
    have heq := eq_of_perm hperm ((pairwise_unread _ _ _).filter _) ((pairwise_unread _ _ _).filter _)
    rwa [heq]
  · -- The delayed jobs are excluded from the one stream and make up the other.
    simp only
    have hexclude : ∀ id, id ∈ (arrayKeys (excludeIds ++
        (orderingScores delayed excludeIds).map Prod.fst)).ids ↔
          id ∈ excludeIds ∨ id ∈ (orderingScores delayed excludeIds).map Prod.fst := by
      intro id
      rw [arrayKeys, List.mem_eraseDups, List.mem_append]
    obtain ⟨nonDelayed, heval, hoffset, hnonDelayed⟩ := eval_pageExcluding query scan i hs hids hsearch
      (arrayKeys (excludeIds ++ (orderingScores delayed excludeIds).map Prod.fst)).ids hscore
      (show 1 ≤ limit + 1 by omega)
    have hordering : ((orderingScores delayed excludeIds).map Prod.fst).Nodup :=
      nodup_orderingScores hnodup
    have hscored : ∃ page s', (query.index.pageScoredIds query.lower query.trimmed query.synchronized
        .pending [] (orderingScores delayed excludeIds) excludeIds after (limit + 1) search false).eval
          (exec scan i) s = (.returned page, s') ∧ _ :=
      eval_pageScoredIds query.index query.lower query.trimmed query.synchronized false hsearch hs
        hempty hordering (fun id hid => isIntegerKey_of_numeric (hids id hid)) hscore
        (show 1 ≤ limit + 1 by omega)
    obtain ⟨page, s', hpage, hscratches, rfl⟩ := hscored
    have hsource : s'.zset (.source .pending) = s.zset (.source .pending) :=
      hscratches.zset _ (established_of_not_temporary (by simp) s)
    have hscores : (positionsToScoreMap nonDelayed.ids).eval (exec scan i) s' = _ :=
      eval_positionsToScoreMap (hscratches.failing.trans hs) nonDelayed.ids
    have hfound : ∀ l : List (String × ℚ),
        l ⊆ unread (s.zset (.source .pending)) true after →
          foundScores (s.zset (.source .pending)) (l.map Prod.fst) = l :=
      fun l hl => foundScores_map fun e he => (mem_unread.mp (hl he)).1
    -- the scores that are looked up are those of the rows
    rw [hsource, hnonDelayed.ids,
      hfound _ (List.Subset.trans (List.take_subset _ _) (included_subset _ _))] at hscores
    rw [Prog.eval_bind_of heval, Prog.eval_bind_of hpage, hnonDelayed.ids, Prog.eval_bind_of hscores]
    refine ⟨_, s', rfl, hscratches, rfl, ?_⟩
    exact firstRows_mergePendingRestStreams hlimit hnodup hids hexclude rfl rfl

end Alone

end RetainedJobQuery

end HorizonNewDawn

import HorizonNewDawn.Collections.Listing
import HorizonNewDawn.Jobs.RetainedJobIndex.Evaluation
import HorizonNewDawn.Php.Text

/-! # The retained-job index: cursor pages

A page of a sorted set starts behind a position, which is the score and the member the page before
ended with. The member need not be in the set any more: the start of the page is the number of
entries below its score plus the place it would have among the members of that score, found by
bisection (`tieBoundary`). The reverse direction counts from the other end. -/

namespace HorizonNewDawn

open Program Keyset SortedSet

/-- Where a page starts: behind the entry of this score and id. The offset counts the entries of
the pages before. -/
structure RetainedJobPosition where
  score : Option ℚ
  id : String
  offset : ℤ
  deriving DecidableEq

/-- The entry a position stands behind. -/
def RetainedJobPosition.entry (p : RetainedJobPosition) : Option (String × ℚ) :=
  p.score.map fun score => (p.id, score)

namespace RetainedJobIndex

/-- A page of a sorted set. -/
structure ScoredPage where
  ids : List String
  total : ℕ
  currentOffset : ℤ
  next : Option RetainedJobPosition
  deriving DecidableEq

/-- The page read off the entries, which are one more than the limit where there is a next page. -/
def scoredPageResult (entries : List (String × ℚ)) (total : ℕ) (after : Option RetainedJobPosition)
    (limit : ℕ) : ScoredPage :=
  let pageEntries := entries.take limit
  let ids := pageEntries.map Prod.fst
  let currentOffset := after.elim 0 (·.offset)
  { ids := ids
    total := total
    currentOffset := currentOffset
    next :=
      if limit < entries.length then
        pageEntries.getLast?.map fun last =>
          { score := some last.2, id := last.1, offset := currentOffset + ids.length }
      else none }

/-- The number of members of a score that stand before the boundary, found by bisection among the
members of that score, which are the ones from index `lowerScoreCount` on. -/
def tieBoundary (k : SortedSetKey) (lowerScoreCount : ℕ) (cursorId : String) (includeEqual : Bool)
    (low high : ℕ) : Redis ℕ :=
  if low < high then do
    let middle := (low + high) / 2
    let members ← zrange k (lowerScoreCount + middle) (lowerScoreCount + middle)
    match members.head? with
    | none => throwRuntime "The retained job cursor boundary is unavailable."
    | some member =>
        let comparison := strcmp member cursorId
        let isBeforeBoundary := if includeEqual then comparison.isLE else comparison.isLT
        if isBeforeBoundary then
          tieBoundary k lowerScoreCount cursorId includeEqual (middle + 1) high
        else tieBoundary k lowerScoreCount cursorId includeEqual low middle
  else return low
termination_by high - low
decreasing_by all_goals omega

/-- The entries of a page: at most `limit` of them, from the position on. -/
def pageEntries (k : SortedSetKey) (after : Option RetainedJobPosition) (limit : ℕ)
    (reverse : Bool) : Redis (List (String × ℚ)) :=
  match after with
  | none => sortedSetScores k 0 (limit - 1) reverse
  | some after =>
      match after.score with
      | none => throwRuntime "The retained job cursor score is unavailable."
      | some score => do
          let lowerScoreCount ← sortedSetCountBetween k .negInf (.exclusive score)
          let sameScoreCount ← sortedSetCountBetween k (.inclusive score) (.inclusive score)
          let sameScoreBoundary ←
            tieBoundary k lowerScoreCount after.id (!reverse) 0 sameScoreCount
          -- A set that has shrunk meanwhile may give a negative start, which `max` turns into 0.
          let start ←
            (if reverse then
              (· - (lowerScoreCount + sameScoreBoundary)) <$> sortedSetCount k
            else pure (lowerScoreCount + sameScoreBoundary))
          sortedSetScores k start (start + limit - 1) reverse

/-- A page of a sorted set in the direction of the type. -/
def sourcePage (t : RetainedJobType) (k : SortedSetKey) (after : Option RetainedJobPosition)
    (limit : ℕ) : Redis ScoredPage := do
  let entries ← pageEntries k after (limit + 1) (!t.newestFirst)
  let total ← sortedSetCount k
  return scoredPageResult entries total after limit

/-! ## Reading a store nobody changes -/

section Reading

variable {scan : ScanOrder} {i : ProcessId} {s : Store} {k : SortedSetKey} {reverse : Bool}

/-- The number of entries of lower scores. -/
theorem eval_lowerCount (hs : s.failing = false) (x : ℚ) :
    (sortedSetCountBetween k .negInf (.exclusive x)).eval (exec scan i) s =
      (.returned ((s.zset k).lowerCount x), s) := by
  have hcount : ((s.zset k).entries.countP fun e => true && decide (e.2 < x)) =
      (s.zset k).lowerCount x := by
    simp only [Bool.true_and, SortedSet.lowerCount]
  rw [← hcount]
  exact eval_command hs (.zcount k .negInf (.exclusive x))

/-- The number of entries of the same score. -/
theorem eval_sameCount (hs : s.failing = false) (x : ℚ) :
    (sortedSetCountBetween k (.inclusive x) (.inclusive x)).eval (exec scan i) s =
      (.returned ((s.zset k).sameCount x), s) := by
  have hcount : ((s.zset k).entries.countP fun e => decide (x ≤ e.2) && decide (e.2 ≤ x)) =
      (s.zset k).sameCount x := by
    rw [sameCount]
    refine List.countP_congr fun e _ => ?_
    simp only [Bool.and_eq_true, decide_eq_true_eq]
    exact ⟨fun he => le_antisymm he.2 he.1, fun he => ⟨he.ge, he.le⟩⟩
  rw [← hcount]
  exact eval_command hs (.zcount k (.inclusive x) (.inclusive x))

/-- Reading a range of a set without integer-like members drops nothing. -/
theorem eval_sortedSetScores (hs : s.failing = false)
    (hmembers : ∀ id ∈ s.zset k, isIntegerKey id = false) (start stop : ℕ) :
    (sortedSetScores k start stop reverse).eval (exec scan i) s =
      (.returned ((((s.zset k).listing reverse).drop start).take (stop + 1 - start)), s) := by
  have hall : ((((s.zset k).listing reverse).drop start).take (stop + 1 - start)).filter
      (fun e => !isIntegerKey e.1) =
        (((s.zset k).listing reverse).drop start).take (stop + 1 - start) := by
    rw [List.filter_eq_self]
    intro e he
    have hlisting := List.mem_of_mem_drop (List.mem_of_mem_take he)
    have hmem : e.1 ∈ s.zset k := mem_map_listing.mp (List.mem_map_of_mem hlisting)
    rw [hmembers e.1 hmem]
    rfl
  rw [← hall]
  cases reverse
  · exact Prog.eval_bind_of (eval_command hs (.zrange k start stop))
  · exact Prog.eval_bind_of (eval_command hs (.zrevrange k start stop))

/-- The member at an index, read as a range of one. -/
theorem eval_zrange_getElem (hs : s.failing = false) {n : ℕ}
    (hn : n < (s.zset k).entries.length) :
    (zrange k n n).eval (exec scan i) s = (.returned [(s.zset k).entries[n].1], s) := by
  have hone : ((s.zset k).entries.drop n).take (n + 1 - n) = [(s.zset k).entries[n]] := by
    rw [List.drop_eq_getElem_cons hn, Nat.add_sub_cancel_left]
    rfl
  have hmember : [(s.zset k).entries[n].1] =
      (((s.zset k).entries.drop n).take (n + 1 - n)).map Prod.fst := by
    rw [hone]
    rfl
  rw [hmember]
  exact Prog.eval_bind_of (eval_command hs (.zrange k n n))

end Reading

/-! ## The bisection -/

/-- The comparison of the bisection is the one of the position. -/
theorem isBeforeBoundary_eq (member cursorId : String) (reverse : Bool) :
    (if (!reverse) = true then (strcmp member cursorId).isLE else (strcmp member cursorId).isLT) =
      isBefore reverse cursorId member := by
  cases reverse
  · rw [Bool.eq_iff_iff]
    simp [strcmp, isBefore, Ordering.isLE_iff_ne_gt, compare_le_iff_le]
  · rw [Bool.eq_iff_iff]
    simp [strcmp, isBefore, compare_lt_iff_lt]

/-- **The bisection stays in range**: whatever the server answers, only members from the first to
the last index of the score are read. -/
theorem tieBoundary_reads (k : SortedSetKey) (lowerScoreCount : ℕ) (cursorId : String)
    (includeEqual : Bool) (low high : ℕ) :
    Obeys (fun _ c => ∃ m, low ≤ m ∧ m < high ∧
        c = .zrange k (lowerScoreCount + m) (lowerScoreCount + m)) (fun _ _ => True)
      (tieBoundary k lowerScoreCount cursorId includeEqual low high) fun _ => True := by
  induction hn : high - low using Nat.strongRecOn generalizing low high with
  | ind n ih =>
      subst hn
      rw [tieBoundary]
      split
      · refine Obeys.bind (R := fun _ => True) ?_ fun members _ => ?_
        · refine Obeys.bind (R := fun _ => True) ?_ fun _ _ => trivial
          refine ⟨⟨(low + high) / 2, by omega, by omega, rfl⟩, fun x _ => ?_⟩
          cases x <;> trivial
        · cases members.head? with
          | none => trivial
          | some member =>
              refine Obeys.ite (fun _ => ?_) fun _ => ?_
              · refine (ih _ (by omega) ((low + high) / 2 + 1) high rfl).mono ?_ fun _ h => h
                rintro _ c ⟨m, hm, hm', rfl⟩
                exact ⟨m, by omega, hm', rfl⟩
              · refine (ih _ (by omega) low ((low + high) / 2) rfl).mono ?_ fun _ h => h
                rintro _ c ⟨m, hm, hm', rfl⟩
                exact ⟨m, hm, by omega, rfl⟩
      · trivial

section Evaluation

variable {scan : ScanOrder} {i : ProcessId} {s : Store} {k : SortedSetKey} {reverse : Bool}
  {x : ℚ} {cursorId : String}

/-- **The bisection finds the boundary**: between two indices that enclose it, the search ends at
the number of members of the score that are not behind the position. -/
theorem eval_tieBoundary (hs : s.failing = false) {low high : ℕ}
    (hlow : low ≤ ((s.zset k).ties x).countP (isBefore reverse cursorId))
    (hhigh : ((s.zset k).ties x).countP (isBefore reverse cursorId) ≤ high)
    (hsame : high ≤ (s.zset k).sameCount x) :
    (tieBoundary k ((s.zset k).lowerCount x) cursorId (!reverse) low high).eval (exec scan i) s =
      (.returned (((s.zset k).ties x).countP (isBefore reverse cursorId)), s) := by
  induction hn : high - low using Nat.strongRecOn generalizing low high with
  | ind n ih =>
      subst hn
      rw [tieBoundary]
      split
      · have hmiddle : (low + high) / 2 < ((s.zset k).ties x).length := by
          rw [length_ties]
          omega
        have hle := lowerCount_add_sameCount_le (z := s.zset k) (x := x)
        have hindex : (s.zset k).lowerCount x + (low + high) / 2 < (s.zset k).entries.length := by
          rw [length_ties] at hmiddle
          omega
        rw [Prog.eval_bind_of (eval_zrange_getElem hs hindex), ← getElem_ties hmiddle hindex]
        simp only [List.head?_cons, isBeforeBoundary_eq]
        have hside : (low + high) / 2 <
            ((s.zset k).ties x).countP (isBefore reverse cursorId) ↔ _ :=
          lt_countP_ties_iff hmiddle
        split
        · have hlt := hside.mpr ‹_›
          exact ih _ (by omega) (by omega) hhigh hsame rfl
        · have hge := mt hside.mp ‹_›
          exact ih _ (by omega) hlow (by omega) (by omega) rfl
      · have heq : low = ((s.zset k).ties x).countP (isBefore reverse cursorId) := by omega
        rw [← heq]
        rfl

/-- **The entries of a page** are the first entries that follow the position. -/
theorem eval_pageEntries (hs : s.failing = false)
    (hmembers : ∀ id ∈ s.zset k, isIntegerKey id = false) {after : Option RetainedJobPosition}
    (hscore : ∀ p ∈ after, p.score ≠ none) {limit : ℕ} (hlimit : 1 ≤ limit) :
    (pageEntries k after limit reverse).eval (exec scan i) s =
      (.returned ((following (Precedes reverse) ((s.zset k).listing reverse)
        (after.bind RetainedJobPosition.entry)).take limit), s) := by
  cases after with
  | none =>
      rw [pageEntries, eval_sortedSetScores hs hmembers, List.drop_zero]
      have hcount : limit - 1 + 1 - 0 = limit := by omega
      rw [hcount]
      rfl
  | some p =>
      obtain ⟨x, hx⟩ := Option.ne_none_iff_exists'.mp (hscore p rfl)
      have hboundary : ((s.zset k).ties x).countP (isBefore reverse p.id) ≤
          (s.zset k).sameCount x := by
        rw [← length_ties (z := s.zset k) (x := x)]
        exact List.countP_le_length
      have hle := lowerCount_add_sameCount_le (z := s.zset k) (x := x)
      have hentry : (some p).bind RetainedJobPosition.entry = some (p.id, x) := by
        simp [RetainedJobPosition.entry, hx]
      have hfollowing : following (Precedes reverse) ((s.zset k).listing reverse)
          (some (p.id, x)) = _ := following_listing
        (show _ ≤ (s.zset k).entries.length from by omega) fun n hn => notBehind_iff hn
      simp only [pageEntries, hx]
      rw [Prog.eval_bind_of (eval_lowerCount hs x), Prog.eval_bind_of (eval_sameCount hs x),
        Prog.eval_bind_of (eval_tieBoundary hs (Nat.zero_le _) hboundary le_rfl), hentry,
        hfollowing]
      have hcount : ∀ start, start + limit - 1 + 1 - start = limit := by
        intro start
        omega
      cases reverse
      · rw [if_neg Bool.false_ne_true, if_neg Bool.false_ne_true, Prog.eval_bind_of rfl,
          eval_sortedSetScores hs hmembers, hcount]
      · rw [if_pos rfl, if_pos rfl]
        rw [Prog.eval_bind_of (Prog.eval_bind_of (eval_sortedSetCount hs)),
          eval_sortedSetScores hs hmembers, hcount]

/-! ## Pages -/

/-- The entries behind a position, in the direction of the reader. -/
def unread (z : ZSet) (reverse : Bool) (after : Option RetainedJobPosition) :
    List (String × ℚ) :=
  following (Precedes reverse) (z.listing reverse) (after.bind RetainedJobPosition.entry)

/-- What is unread behind an entry that is shown is what follows it. -/
theorem unread_next {z : ZSet} {after : Option RetainedJobPosition} {n : ℕ} (hn : 1 ≤ n)
    (h : n - 1 < (unread z reverse after).length) (offset : ℤ) :
    unread z reverse (some ⟨some (unread z reverse after)[n - 1].2,
      (unread z reverse after)[n - 1].1, offset⟩) = (unread z reverse after).drop n := by
  have hdrop := following_eq_drop (r := Precedes reverse) (pairwise_listing (z := z))
    (after.bind RetainedJobPosition.entry) (k := n - 1) h
  rw [Nat.sub_add_cancel hn] at hdrop
  exact hdrop

/-- The page of a set nobody changes is read off the entries behind the position. -/
theorem eval_sourcePage (hs : s.failing = false)
    (hmembers : ∀ id ∈ s.zset k, isIntegerKey id = false) {t : RetainedJobType}
    {after : Option RetainedJobPosition} (hscore : ∀ p ∈ after, p.score ≠ none) {limit : ℕ} :
    (sourcePage t k after limit).eval (exec scan i) s =
      (.returned (scoredPageResult ((unread (s.zset k) (!t.newestFirst) after).take (limit + 1))
        (s.zset k).card after limit), s) := by
  rw [sourcePage, Prog.eval_bind_of (eval_pageEntries hs hmembers hscore (by omega)),
    Prog.eval_bind_of (eval_sortedSetCount hs)]
  rfl

variable {rows : List (String × ℚ)} {total limit : ℕ} {after : Option RetainedJobPosition}

/-- The ids of a page are those of the first rows. -/
theorem ids_scoredPageResult :
    (scoredPageResult (rows.take (limit + 1)) total after limit).ids =
      (rows.take limit).map Prod.fst := by
  have htake : (rows.take (limit + 1)).take limit = rows.take limit := by
    rw [List.take_take, Nat.min_eq_left (Nat.le_succ limit)]
  simp only [scoredPageResult, htake]

/-- The probe for one entry more than the page holds tells whether the rows go on. -/
theorem next_scoredPageResult (hlimit : 1 ≤ limit) :
    (scoredPageResult (rows.take (limit + 1)) total after limit).next =
      if h : limit < rows.length then
        some { score := some rows[limit - 1].2, id := rows[limit - 1].1,
               offset := after.elim 0 (·.offset) + limit }
      else none := by
  have htake : (rows.take (limit + 1)).take limit = rows.take limit := by
    rw [List.take_take, Nat.min_eq_left (Nat.le_succ limit)]
  simp only [scoredPageResult, htake, List.length_take, List.length_map]
  by_cases h : limit < rows.length
  · have hlast : (rows.take limit).getLast? = some rows[limit - 1] := by
      rw [List.getLast?_eq_getElem?, List.length_take, Nat.min_eq_left h.le,
        List.getElem?_take_of_lt (by omega), List.getElem?_eq_getElem (by omega)]
    have hmin : limit < min (limit + 1) rows.length := by omega
    rw [if_pos hmin, dif_pos h, hlast, Nat.min_eq_left h.le]
    rfl
  · have hmin : ¬limit < min (limit + 1) rows.length := by omega
    rw [if_neg hmin, dif_neg h]

/-- What a reader of a set nobody changes is shown: the ids of a page and the next position. -/
def Shows (scan : ScanOrder) (i : ProcessId) (s : Store) (t : RetainedJobType) (k : SortedSetKey)
    (limit : ℕ) (after : Option RetainedJobPosition) (ids : List String)
    (next : Option RetainedJobPosition) : Prop :=
  ∃ page, (sourcePage t k after limit).eval (exec scan i) s = (.returned page, s) ∧
    page.ids = ids ∧ page.next = next

/-- Every page splits what is unread: its ids come first, and the next position stands for the
rest. -/
theorem splits_sourcePage (hs : s.failing = false)
    (hmembers : ∀ id ∈ s.zset k, isIntegerKey id = false) {t : RetainedJobType}
    (hlimit : 1 ≤ limit) (hscore : ∀ p ∈ after, p.score ≠ none) :
    ∃ ids next, Splits (Shows scan i s t k limit) (fun after => ∀ p ∈ after, p.score ≠ none)
      (fun after => (unread (s.zset k) (!t.newestFirst) after).map Prod.fst)
      (fun after => (unread (s.zset k) (!t.newestFirst) after).length) after ids next := by
  have heval : (sourcePage t k after limit).eval (exec scan i) s = _ :=
    eval_sourcePage hs hmembers hscore
  set rows := unread (s.zset k) (!t.newestFirst) after with hrows
  refine ⟨(scoredPageResult (rows.take (limit + 1)) (s.zset k).card after limit).ids,
    (scoredPageResult (rows.take (limit + 1)) (s.zset k).card after limit).next, ?_, ?_, ?_⟩
  · intro ids' next'
    constructor
    · rintro ⟨page, hpage, rfl, rfl⟩
      rw [heval, Prod.mk.injEq, Outcome.returned.injEq] at hpage
      rw [hpage.1]
      exact ⟨rfl, rfl⟩
    · rintro ⟨rfl, rfl⟩
      exact ⟨_, heval, rfl, rfl⟩
  · intro hnone
    rw [next_scoredPageResult hlimit] at hnone
    split at hnone
    · cases hnone
    · rw [ids_scoredPageResult, List.take_of_length_le (by omega)]
  · intro p hp
    rw [next_scoredPageResult hlimit] at hp
    split at hp
    · rename_i hlt
      cases hp
      have hunread : unread (s.zset k) (!t.newestFirst)
          (some { score := some rows[limit - 1].2, id := rows[limit - 1].1,
                  offset := after.elim 0 (·.offset) + limit }) = rows.drop limit :=
        unread_next hlimit (show limit - 1 < rows.length from by omega) _
      refine ⟨?_, ?_, ?_⟩
      · rw [ids_scoredPageResult, hunread, ← List.map_append, List.take_append_drop]
      · intro q hq
        cases hq
        exact Option.some_ne_none _
      · show (unread _ _ _).length < rows.length
        rw [hunread, List.length_drop]
        omega
    · cases hp

/-- **Cursor pages are exact.** Of a sorted set that nobody changes and whose members are not
integer-like, a page holds exactly the first members behind its position, in the order of the type,
and hands out the last of them as the next position if and only if more members follow; the
bisection reads only the members of the score of the position; and following the pages from the
start ends and shows every member exactly once. -/
theorem sourcePage_exact (scan : ScanOrder) (i : ProcessId) (t : RetainedJobType)
    (k : SortedSetKey) (limit : ℕ) (hlimit : 1 ≤ limit) (s : Store) (hs : s.failing = false)
    (hmembers : ∀ id ∈ s.zset k, isIntegerKey id = false) :
    (∀ after, (∀ p ∈ after, p.score ≠ none) →
      ∃ page, (sourcePage t k after limit).eval (exec scan i) s = (.returned page, s) ∧
        page.ids = ((unread (s.zset k) (!t.newestFirst) after).take limit).map Prod.fst ∧
        (page.next.isSome ↔ limit < (unread (s.zset k) (!t.newestFirst) after).length) ∧
        ∀ p ∈ page.next, ∃ last,
          ((unread (s.zset k) (!t.newestFirst) after).take limit).getLast? = some last ∧
            p = ⟨some last.2, last.1, page.currentOffset + limit⟩) ∧
    (∀ lowerScoreCount sameScoreCount cursorId includeEqual,
      Obeys (fun _ c => ∃ m, m < sameScoreCount ∧
          c = .zrange k (lowerScoreCount + m) (lowerScoreCount + m)) (fun _ _ => True)
        (tieBoundary k lowerScoreCount cursorId includeEqual 0 sameScoreCount) fun _ => True) ∧
    (∀ ids, Traversal (Shows scan i s t k limit) none ids ↔
      ids = ((s.zset k).listing (!t.newestFirst)).map Prod.fst) ∧
    (((s.zset k).listing (!t.newestFirst)).map Prod.fst).Nodup ∧
    ∀ id, id ∈ ((s.zset k).listing (!t.newestFirst)).map Prod.fst ↔ id ∈ s.zset k := by
  refine ⟨fun after hscore => ?_, ?_, ?_, nodup_listing, fun id => mem_map_listing⟩
  · refine ⟨_, eval_sourcePage hs hmembers hscore, ids_scoredPageResult, ?_, ?_⟩
    · rw [next_scoredPageResult hlimit]
      split <;> simp [*]
    · intro p hp
      rw [next_scoredPageResult hlimit] at hp
      split at hp
      · rename_i hlt
        cases hp
        refine ⟨_, ?_, rfl⟩
        rw [List.getLast?_eq_getElem?, List.length_take, Nat.min_eq_left hlt.le,
          List.getElem?_take_of_lt (by omega), List.getElem?_eq_getElem (by omega)]
      · cases hp
  · intro lowerScoreCount sameScoreCount cursorId includeEqual
    refine (tieBoundary_reads k lowerScoreCount cursorId includeEqual 0 sameScoreCount).mono ?_
      fun _ h => h
    rintro _ c ⟨m, -, hm, rfl⟩
    exact ⟨m, hm, rfl⟩
  · intro ids
    have hgood : ∀ p ∈ (none : Option RetainedJobPosition), p.score ≠ none := by
      intro p hp
      cases hp
    exact traversal_iff (fun after hscore => splits_sourcePage hs hmembers hlimit hscore) hgood

end Evaluation

/-- A store whose pending source holds three jobs of one score. -/
def tiedStore : Store :=
  Store.empty.setZset (.source .pending) (((∅ : ZSet).insertAll [("b", 1), ("c", 1), ("a", 1)]))

/-- Pages of one member each show three members of one score in their order. -/
theorem sourcePage_exact_tied :
    Traversal (Shows .single 0 tiedStore .pending (.source .pending) 1) none ["c", "b", "a"] :=
  ((sourcePage_exact .single 0 .pending (.source .pending) 1 le_rfl tiedStore rfl
    (by decide +kernel)).2.2.1 _).mpr (by decide +kernel)

end RetainedJobIndex

end HorizonNewDawn

import HorizonNewDawn.Collections.Assignments
import HorizonNewDawn.Jobs.RetainedJobIndex.FilteredPages
import Mathlib

/-! # The retained-job index: ids with scores of their own

`pageScoredIds` pages ids that are ranked by given scores, not by those of the source. The ids that are
retained are stored with their scores under a temporary key, the key is paged like a source, and it is
deleted before the call returns. -/

namespace HorizonNewDawn

open Program SortedSet Keyset

namespace RetainedJobIndex

/-! ## The programs -/

/-- A page of ids with the scores they are ranked by. -/
structure ScoredIdsPage extends ScoredPage where
  scores : List (String × ℚ)

/-- The page of nothing. -/
def emptyScoredIdsPage (after : Option RetainedJobPosition) : ScoredIdsPage :=
  { ids := []
    scores := []
    total := 0
    currentOffset := after.elim 0 (·.offset)
    next := none }

/-- `retainedScoredIds`: the ids that are not excluded and are in the source, with their scores. -/
def retainedScoredIds (t : RetainedJobType) (scores : List (String × ℚ))
    (excludeIds : List String) : Redis (List (String × ℚ)) := do
  let ids := (scores.map Prod.fst).filter (· ∉ excludeIds)
  if ids = [] then return []
  let presence ← scoresForIds none (.source t) ids
  return presence.filterMap fun e => (Assignments.get e.1 scores).map fun score => (e.1, score)

/-- A page of a key with the scores in it. -/
def scoredKeyPage (t : RetainedJobType) (k : SortedSetKey) (after : Option RetainedJobPosition)
    (limit : ℕ) : Redis ScoredIdsPage := do
  let page ← sourcePage t k after limit
  let scores ← scoresForIds none k page.ids
  return { toScoredPage := page, scores := scores }

/-- The ids with their scores, stored a thousand at a time. -/
def storeScores (k : Token) (scores : List (String × ℚ)) : Redis Unit :=
  Prog.forEach (scores.arrayChunk sourceChunkSize) fun chunk =>
    transaction none fun _ => chunk.map (fun e => .zadd (.temporary k) e.2 e.1) ++
      [expireTemporary k temporaryKeyTtlSeconds]

/-- `pageScoredIdsFromPublished` -/
def pageScoredIdsFromPublished (t : RetainedJobType) (facets : List (FacetDimension × String))
    (scoredKey : SortedSetKey) (after : Option RetainedJobPosition) (limit : ℕ) :
    ScopedRedis ScoredIdsPage := do
  match ← Scoped.lift (publishedState t) with
  | none => Scoped.lift (.fail .retainedJobIndexWarming)
  | some state => do
      let keys := scoredKey :: facets.map fun facet => .facet t state.generation facet.1 facet.2
      let candidateKey ← Scoped.lift temporaryKey
      Scoped.register candidateKey
      Scoped.lift do
        transaction none fun _ => [intersect candidateKey (firstWeighted keys),
          expireTemporary candidateKey temporaryKeyTtlSeconds]
        if (← publishedState t) ≠ some state then .fail .retainedJobIndexWarming
        else scoredKeyPage t (.temporary candidateKey) after limit

variable (index : RetainedJobIndex)

/-- `pageScoredIdsFromLive`; the key of an attempt that is not used is left to expire. -/
def pageScoredIdsFromLive (lower : String → String) (trimmed synchronized : Bool)
    (t : RetainedJobType) (facets : List (FacetDimension × String)) (scoredKey : SortedSetKey)
    (after : Option RetainedJobPosition) (limit : ℕ) (search : String) :
    ScopedRedis ScoredIdsPage := do
  let (page, filteredKey) ← Scoped.lift <|
    index.withCandidateKey lower trimmed synchronized t facets none search fun candidateKey => do
      let filteredKey ← temporaryKey
      transaction none fun _ => [intersect filteredKey [(scoredKey, 1), (candidateKey, 0)],
        expireTemporary filteredKey temporaryKeyTtlSeconds]
      let page ← scoredKeyPage t (.temporary filteredKey) after limit
      return (page, filteredKey)
  Scoped.register filteredKey
  return page

/-- `pageScoredIds` -/
def pageScoredIds (lower : String → String) (trimmed synchronized : Bool) (t : RetainedJobType)
    (facets : List (FacetDimension × String)) (scores : List (String × ℚ))
    (excludeIds : List String) (after : Option RetainedJobPosition) (limit : ℕ)
    (search : Option String) (published : Bool) : Redis ScoredIdsPage := do
  if scores = [] ∨ limit = 0 then return emptyScoredIdsPage after
  let scores ← retainedScoredIds t scores excludeIds
  if scores = [] then return emptyScoredIdsPage after
  let search := Php.trim (search.getD "")
  Scoped.scope deleteQuietly do
    let scoredKey ← Scoped.lift temporaryKey
    Scoped.register scoredKey
    Scoped.lift (storeScores scoredKey scores)
    if facets = [] ∧ search = "" then
      Scoped.lift (scoredKeyPage t (.temporary scoredKey) after limit)
    else if published then
      pageScoredIdsFromPublished t facets (.temporary scoredKey) after limit
    else
      pageScoredIdsFromLive index lower trimmed synchronized t facets (.temporary scoredKey) after
        limit search

/-! ## Running alone -/

section Alone

variable {scan : ScanOrder} {i : ProcessId} {s : Store} {k : SortedSetKey} {t : RetainedJobType}
  {scores : List (String × ℚ)} {excludeIds : List String} {limit : ℕ}
  {after : Option RetainedJobPosition}

/-- The scores of the ids of a list of assignments. -/
theorem filterMap_get {l l' : List (String × ℚ)} (hl : (l.map Prod.fst).Nodup) (hsub : l' ⊆ l) :
    (l'.map Prod.fst).filterMap (fun id => (Assignments.get id l).map fun score => (id, score)) =
      l' := by
  induction l' with
  | nil => rfl
  | cons e l' ih =>
      have hget : Assignments.get e.1 l = some e.2 :=
        Assignments.get_of_mem hl (hsub List.mem_cons_self)
      rw [List.map_cons, List.filterMap_cons_some (by rw [hget]; rfl),
        ih (List.subset_of_cons_subset hsub)]

/-- The scores of the retained ids. -/
def retained (source : ZSet) (scores : List (String × ℚ)) (excludeIds : List String) :
    List (String × ℚ) :=
  scores.filter fun e => e.1 ∉ excludeIds ∧ e.1 ∈ source

/-- The retained ids under the given scores. -/
def scoredSet (source : ZSet) (scores : List (String × ℚ)) (excludeIds : List String) : ZSet :=
  (∅ : ZSet).insertAll (retained source scores excludeIds)

/-- The ids with scores are the members among them. -/
theorem map_foundScores (z : ZSet) (ids : List String) :
    (foundScores z ids).map Prod.fst = ids.filter (· ∈ z) := by
  induction ids with
  | nil => rfl
  | cons id ids ih =>
      rw [foundScores] at ih
      rw [foundScores]
      by_cases hid : id ∈ z
      · obtain ⟨x, hx⟩ := exists_score hid
        rw [List.filterMap_cons_some (by rw [hx]; rfl), List.filter_cons_of_pos (by simpa using hid),
          List.map_cons, ih]
      · rw [List.filterMap_cons_none (by rw [score_eq_none_iff.mpr hid]; rfl),
          List.filter_cons_of_neg (by simpa using hid), ih]

/-- **The scored ids that are retained** keep their scores. -/
theorem eval_retainedScoredIds (hs : s.failing = false) (hnodup : (scores.map Prod.fst).Nodup) :
    (retainedScoredIds t scores excludeIds).eval (exec scan i) s =
      (.returned (retained (s.zset (.source t)) scores excludeIds), s) := by
  have hids : (foundScores (s.zset (.source t)) ((scores.map Prod.fst).filter (· ∉ excludeIds))).map
      Prod.fst = (retained (s.zset (.source t)) scores excludeIds).map Prod.fst := by
    rw [map_foundScores, retained, List.filter_map, List.filter_map, List.filter_filter]
    congr 1
    apply List.filter_congr
    intro e _
    simp [Bool.and_comm]
  have hfound : (foundScores (s.zset (.source t))
      ((scores.map Prod.fst).filter (· ∉ excludeIds))).filterMap (fun e =>
        (Assignments.get e.1 scores).map fun score => (e.1, score)) =
      retained (s.zset (.source t)) scores excludeIds := by
    have hretained : retained (s.zset (.source t)) scores excludeIds ⊆ scores :=
      List.filter_subset_self _
    rw [← filterMap_get hnodup hretained, ← hids, List.filterMap_map]
    rfl
  rw [retainedScoredIds]
  split
  · rename_i hnil
    rw [← hfound, hnil]
    rfl
  · rw [Prog.eval_bind_of (eval_scoresForIds scan i none hs _), hfound]
    rfl

/-- Storing scores under a key. -/
theorem writeAll_zadd (k : Token) (chunk : List (String × ℚ)) (s : Store) :
    s.writeAll (chunk.map (fun e => .zadd (.temporary k) e.2 e.1) ++
        [expireTemporary k temporaryKeyTtlSeconds]) =
      s.setZset (.temporary k) ((s.zset (.temporary k)).insertAll chunk) := by
  induction chunk generalizing s with
  | nil =>
      show s = s.setZset _ (s.zset _)
      rw [Store.setZset, Function.update_eq_self]
  | cons e chunk ih =>
      rw [List.map_cons, List.cons_append, Store.writeAll_cons, ih]
      simp [Write.effect, Store.setZset]

/-- The scores are stored under the key that was drawn for them. -/
theorem eval_storeScores (scan : ScanOrder) (hs : s.failing = false) (k : Token)
    (scores : List (String × ℚ)) :
    (storeScores k scores).eval (exec scan i) s =
      (.returned (), s.setZset (.temporary k) ((s.zset (.temporary k)).insertAll scores)) := by
  have hloop : ∀ (chunks : List (List (String × ℚ))) (s : Store), s.failing = false →
      (Prog.forEach chunks fun chunk => transaction none fun _ =>
        chunk.map (fun e => .zadd (.temporary k) e.2 e.1) ++
          [expireTemporary k temporaryKeyTtlSeconds]).eval (exec scan i) s =
        (.returned (), s.setZset (.temporary k) ((s.zset (.temporary k)).insertAll chunks.flatten)) := by
    intro chunks
    induction chunks with
    | nil =>
        intro s _
        show (Outcome.returned (), s) = (_, s.setZset _ (s.zset _))
        rw [Store.setZset, Function.update_eq_self]
    | cons chunk chunks ih =>
        intro s hs
        have hwrite : (transaction none fun _ => chunk.map (fun e => .zadd (.temporary k) e.2 e.1) ++
            [expireTemporary k temporaryKeyTtlSeconds]).eval (exec scan i) s = _ :=
          eval_transaction none hs _
        rw [writeAll_zadd] at hwrite
        rw [Prog.forEach, Prog.eval_bind_of hwrite, ih (s.setZset _ _) hs]
        simp [Store.setZset, insertAll_append]
  have hall := hloop (scores.arrayChunk sourceChunkSize) s hs
  rwa [List.flatten_arrayChunk] at hall

/-- The scores found for entries of the set. -/
theorem foundScores_map {z : ZSet} {l : List (String × ℚ)} (h : ∀ e ∈ l, z.score e.1 = some e.2) :
    foundScores z (l.map Prod.fst) = l := by
  induction l with
  | nil => rfl
  | cons e l ih =>
      rw [foundScores] at ih
      rw [foundScores, List.map_cons,
        List.filterMap_cons_some (by rw [h e List.mem_cons_self]; rfl),
        ih fun e he => h e (List.mem_cons_of_mem _ he)]

/-- The entries behind a position. -/
theorem mem_unread {z : ZSet} {reverse : Bool} {e : String × ℚ} :
    e ∈ unread z reverse after ↔ z.score e.1 = some e.2 ∧
      ∀ a ∈ after.bind RetainedJobPosition.entry, Precedes reverse a e := by
  have hlisting : e ∈ z.listing reverse ↔ e ∈ z.entries := mem_listing
  rw [unread, score_eq_some_iff, ← hlisting]
  cases after.bind RetainedJobPosition.entry with
  | none => simp
  | some a => simp

/-- The page of a sorted set with its scores. -/
def scoredIdsPage (z : ZSet) (reverse : Bool) (after : Option RetainedJobPosition) (limit : ℕ) :
    ScoredIdsPage :=
  { scoredPageResult (unread z reverse after) z.card after limit with
    scores := (unread z reverse after).take limit }

/-- **A page of scored ids** is one of the set of the key. -/
theorem eval_scoredKeyPage (hs : s.failing = false)
    (hmembers : ∀ id ∈ s.zset k, isIntegerKey id = false) (hscore : ∀ p ∈ after, p.score ≠ none) :
    (scoredKeyPage t k after limit).eval (exec scan i) s =
      (.returned (scoredIdsPage (s.zset k) (!t.newestFirst) after limit), s) := by
  rw [scoredKeyPage, Prog.eval_bind_of (eval_sourcePage hs hmembers hscore),
    Prog.eval_bind_of (eval_scoresForIds scan i none hs _), ids_scoredPageResult,
    foundScores_map fun e he => (mem_unread.mp (List.mem_of_mem_take he)).1, scoredPageResult_take]
  rfl

/-- An empty set leaves nothing to read. -/
@[simp] theorem unread_empty (reverse : Bool) (after : Option RetainedJobPosition) :
    unread ∅ reverse after = [] := by
  have hsub : (unread ∅ reverse after).Sublist ((∅ : ZSet).listing reverse) := following_sublist _
  have hnil : (∅ : ZSet).listing reverse = [] := List.length_eq_zero_iff.mp length_listing
  exact List.sublist_nil.mp (hnil ▸ hsub)

/-- Its page is empty. -/
theorem scoredIdsPage_empty (reverse : Bool) (after : Option RetainedJobPosition) (limit : ℕ) :
    scoredIdsPage ∅ reverse after limit = emptyScoredIdsPage after := by
  rw [scoredIdsPage, unread_empty, emptyScoredIdsPage]
  simp [scoredPageResult]

/-- **Ids with scores of their own**: the page shows the first of the retained ids behind the position
in the order of the given scores, and its temporary key is gone. -/
theorem eval_pageScoredIds (index : RetainedJobIndex) (lower : String → String)
    (trimmed synchronized published : Bool) {search : Option String}
    (hsearch : Php.trim (search.getD "") = "") (hs : s.failing = false)
    (hempty : s.zset (.temporary ⟨i, s.serial i⟩) = ∅) (hnodup : (scores.map Prod.fst).Nodup)
    (hmembers : ∀ id ∈ s.zset (.source t), isIntegerKey id = false)
    (hscore : ∀ p ∈ after, p.score ≠ none) (hlimit : 1 ≤ limit) :
    ∃ page s', (pageScoredIds index lower trimmed synchronized t [] scores excludeIds after limit
        search published).eval (exec scan i) s = (.returned page, s') ∧ Scratches i s s' ∧
      page = scoredIdsPage (scoredSet (s.zset (.source t)) scores excludeIds) (!t.newestFirst) after
        limit := by
  rw [pageScoredIds]
  split
  · rename_i hnone
    rcases hnone with rfl | rfl
    · exact ⟨_, s, rfl, .refl s, (scoredIdsPage_empty _ _ _).symm⟩
    · omega
  rw [Prog.eval_bind_of (eval_retainedScoredIds hs hnodup)]
  split
  · rename_i hnone
    refine ⟨_, s, rfl, .refl s, ?_⟩
    rw [scoredSet, hnone]
    exact (scoredIdsPage_empty _ _ _).symm
  simp only [hsearch, and_self, if_true]
  -- The temporary key is one the process has just drawn, so it is empty before the scores are stored.
  have hdrawn : Scratches i s (Command.effect i s .random) := .random s
  have hkey : DrawnBetween i s (Command.effect i s .random) ⟨i, s.serial i⟩ := drawnBetween_random s
  have hempty' : (Command.effect i s .random).zset (.temporary ⟨i, s.serial i⟩) = ∅ := hempty
  have hstore : (storeScores ⟨i, s.serial i⟩ (retained (s.zset (.source t)) scores excludeIds)).eval
      (exec scan i) (Command.effect i s .random) = _ :=
    eval_storeScores scan (show (Command.effect i s .random).failing = false from hs) _ _
  rw [hempty'] at hstore
  rw [← scoredSet] at hstore
  set z := scoredSet (s.zset (.source t)) scores excludeIds with hz
  set s' := (Command.effect i s .random).setZset (.temporary ⟨i, s.serial i⟩) z with hs'
  have hstored : s'.zset (.temporary ⟨i, s.serial i⟩) = z := by
    rw [hs', Store.setZset_zset, if_pos rfl]
  have hscratches : Scratches i s s' := hdrawn.setZset hkey z
  have hinteger : ∀ id ∈ s'.zset (.temporary ⟨i, s.serial i⟩), isIntegerKey id = false := by
    intro id hid
    rw [hstored, hz, scoredSet, mem_insertAll] at hid
    obtain ⟨e, he, rfl⟩ := List.mem_map.mp (hid.resolve_right not_mem_empty)
    rw [retained, List.mem_filter, decide_eq_true_eq] at he
    exact hmembers e.1 he.2.2
  have hpage : (scoredKeyPage t (.temporary ⟨i, s.serial i⟩) after limit).eval (exec scan i) s' = _ :=
    eval_scoredKeyPage (hscratches.failing.trans hs) hinteger hscore
  rw [hstored] at hpage
  have hdrawnKeys : ∀ key ∈ [(⟨i, s.serial i⟩ : Token)], DrawnBetween i s s' key := by
    intro key hmem
    rw [List.mem_singleton.mp hmem]
    exact hkey
  obtain ⟨s'', hdelete, hscratches'⟩ := eval_forEach_deleteQuietly scan hs hscratches hdrawnKeys
  refine ⟨scoredIdsPage z (!t.newestFirst) after limit, s'', Scoped.EvaluatesTo.scope ?_ hdelete,
    hscratches', rfl⟩
  exact .bind (.lift (eval_temporaryKey hs)) (.bind (.register _ _) (.bind (.lift hstore) (.lift hpage)))

end Alone

end RetainedJobIndex

end HorizonNewDawn

import Mathlib.Data.List.Sort
import Mathlib.Data.Prod.Lex
import Mathlib.Data.Finset.Card

/-! # Sorted sets

A sorted set maps finitely many members to scores and keeps its members in the order of their
scores, members of equal score in their own order. The representation is the sorted list itself,
so that positions, ranges and counts are read off it; `SortedSet.ext` recovers the map. -/

/-- A finite map from members to scores, listed in the order of (score, member). -/
structure SortedSet (ι σ : Type) [LinearOrder ι] [LinearOrder σ] where
  /-- The members with their scores. -/
  entries : List (ι × σ)
  /-- The list is sorted by score, then by member. -/
  sorted : entries.Pairwise fun a b => toLex (a.2, a.1) < toLex (b.2, b.1)
  /-- Every member is listed once. -/
  nodup : (entries.map Prod.fst).Nodup

namespace SortedSet

variable {ι σ : Type} [LinearOrder ι] [LinearOrder σ] {z z' : SortedSet ι σ} {i j : ι} {x : σ}

/-- The score of a member, `none` for anything else. -/
def score (z : SortedSet ι σ) (i : ι) : Option σ :=
  (z.entries.find? fun e => e.1 = i).map Prod.snd

/-- The members, in order. -/
def members (z : SortedSet ι σ) : List ι := z.entries.map Prod.fst

/-- The number of members. -/
def card (z : SortedSet ι σ) : ℕ := z.entries.length

instance : Membership ι (SortedSet ι σ) := ⟨fun z i => i ∈ z.members⟩

instance (i : ι) (z : SortedSet ι σ) : Decidable (i ∈ z) :=
  inferInstanceAs (Decidable (i ∈ z.members))

/-- The empty sorted set. -/
instance : EmptyCollection (SortedSet ι σ) := ⟨⟨[], List.Pairwise.nil, List.nodup_nil⟩⟩

instance : Inhabited (SortedSet ι σ) := ⟨∅⟩

/-- To be in a sorted set is to be among its members. -/
theorem mem_iff_members : i ∈ z ↔ i ∈ z.members := Iff.rfl

/-- A score is the score of an entry. -/
theorem score_eq_some_iff : z.score i = some x ↔ (i, x) ∈ z.entries := by
  obtain ⟨l, hsorted, hnodup⟩ := z
  simp only [score]
  clear hsorted
  induction l with
  | nil => simp
  | cons e l ih =>
      simp only [List.map_cons, List.nodup_cons] at hnodup
      by_cases he : e.1 = i
      · have hnot : (i, x) ∉ l := fun h =>
          hnodup.1 (he ▸ List.mem_map_of_mem (f := Prod.fst) h)
        rw [List.find?_cons_of_pos (by simpa using he)]
        simp only [Option.map_some, Option.some.injEq, List.mem_cons, hnot, or_false]
        constructor
        · intro h; exact Prod.ext he.symm h.symm
        · intro h; rw [← h]
      · rw [List.find?_cons_of_neg (by simpa using he), ih hnodup.2, List.mem_cons]
        constructor
        · exact Or.inr
        · rintro (h | h)
          · exact absurd (congrArg Prod.fst h).symm he
          · exact h

/-- A member is what has a score. -/
theorem score_isSome_iff : (z.score i).isSome ↔ i ∈ z := by
  rw [Option.isSome_iff_exists, mem_iff_members, members]
  simp only [score_eq_some_iff, List.mem_map]
  constructor
  · rintro ⟨y, hy⟩; exact ⟨(i, y), hy, rfl⟩
  · rintro ⟨⟨j, y⟩, hy, rfl⟩; exact ⟨y, hy⟩

/-- What has no score is no member. -/
theorem score_eq_none_iff : z.score i = none ↔ i ∉ z := by
  rw [← score_isSome_iff, Option.not_isSome_iff_eq_none]

/-- What has a score is a member. -/
theorem mem_of_score (h : z.score i = some x) : i ∈ z :=
  score_isSome_iff.mp (by rw [h]; rfl)

/-- A member has a score. -/
theorem exists_score (h : i ∈ z) : ∃ x, z.score i = some x :=
  Option.isSome_iff_exists.mp (score_isSome_iff.mpr h)

/-- The entries make the set. -/
theorem eq_of_entries (h : z.entries = z'.entries) : z = z' := by
  cases z
  cases z'
  cases h
  rfl

/-- **Extensionality**: a sorted set is determined by its scores. -/
@[ext] theorem ext (h : ∀ i, z.score i = z'.score i) : z = z' := by
  have hmem : ∀ e, e ∈ z.entries ↔ e ∈ z'.entries := by
    rintro ⟨i, x⟩
    rw [← score_eq_some_iff, ← score_eq_some_iff, h i]
  have hirr : Std.Irrefl fun a b : ι × σ => toLex (a.2, a.1) < toLex (b.2, b.1) :=
    ⟨fun a => lt_irrefl _⟩
  have heq : z.entries = z'.entries := z.sorted.eq_of_mem_iff z'.sorted hmem
  cases z
  cases z'
  simpa using heq

/-- Nothing has a score in the empty set. -/
@[simp] theorem score_empty : (∅ : SortedSet ι σ).score i = none := rfl

/-- Nothing is in the empty set. -/
@[simp] theorem not_mem_empty : i ∉ (∅ : SortedSet ι σ) := by
  rw [← score_eq_none_iff, score_empty]

/-- The empty set has no members. -/
@[simp] theorem card_empty : (∅ : SortedSet ι σ).card = 0 := rfl

/-- A set without members is one that nothing is in. -/
theorem card_eq_zero_iff : z.card = 0 ↔ ∀ i, i ∉ z := by
  rw [card, List.length_eq_zero_iff]
  constructor
  · intro h i hi
    rw [mem_iff_members, members, h] at hi
    cases hi
  · intro h
    refine List.eq_nil_iff_forall_not_mem.mpr fun e he => h e.1 ?_
    exact List.mem_map_of_mem (f := Prod.fst) he

/-- A set with members is one that something is in. -/
theorem card_pos_iff : 0 < z.card ↔ ∃ i, i ∈ z := by
  rw [Nat.pos_iff_ne_zero, Ne, card_eq_zero_iff]
  push Not
  rfl

/-- The size is the number of distinct members. -/
theorem card_eq_members_card : z.card = z.members.toFinset.card := by
  rw [List.toFinset_card_of_nodup (show z.members.Nodup from z.nodup), members, List.length_map]
  rfl

/-- **Counting a cover**: a list that covers a set and is as long as the set lists exactly the
members of the set, each once. -/
theorem covers_iff {l : List ι} : ((∀ i ∈ z, i ∈ l) ∧ l.length = z.card) ↔
    ((∀ i, i ∈ l ↔ i ∈ z) ∧ l.Nodup) := by
  have hcard : z.members.length = z.card := List.length_map _
  have hnodup : z.members.Nodup := z.nodup
  constructor
  · rintro ⟨hcovers, hlength⟩
    have hsub : z.members.Subperm l := List.subperm_of_subset hnodup hcovers
    have hperm : z.members.Perm l := hsub.perm_of_length_le (by omega)
    exact ⟨fun i => hperm.mem_iff.symm, hperm.nodup_iff.mp hnodup⟩
  · rintro ⟨hiff, hl⟩
    have hperm : l.Perm z.members := (List.perm_ext_iff_of_nodup hl hnodup).mpr hiff
    exact ⟨fun i => (hiff i).mpr, hperm.length_eq.trans hcard⟩

/-! ## Building sorted sets -/

/-- The order of the entries: by score, then by member. -/
def entryLE (a b : ι × σ) : Prop := toLex (a.2, a.1) ≤ toLex (b.2, b.1)

instance : DecidableRel (entryLE (ι := ι) (σ := σ)) :=
  fun a b => inferInstanceAs (Decidable (toLex (a.2, a.1) ≤ toLex (b.2, b.1)))

instance : Std.Total (entryLE (ι := ι) (σ := σ)) := ⟨fun _ _ => le_total _ _⟩

instance : IsTrans (ι × σ) entryLE := ⟨fun _ _ _ => le_trans⟩

/-- The listed candidates that `f` gives a score, with that score. -/
def scored (l : List ι) (f : ι → Option σ) : List (ι × σ) :=
  l.dedup.filterMap fun i => (f i).map fun x => (i, x)

omit [LinearOrder σ] in
/-- The entries of a list are its elements that have a score. -/
theorem mem_scored {l : List ι} {f : ι → Option σ} {e : ι × σ} :
    e ∈ scored l f ↔ e.1 ∈ l ∧ f e.1 = some e.2 := by
  obtain ⟨i, x⟩ := e
  simp only [scored, List.mem_filterMap, List.mem_dedup, Option.map_eq_some_iff, Prod.mk.injEq]
  constructor
  · rintro ⟨j, hj, y, hy, rfl, rfl⟩; exact ⟨hj, hy⟩
  · rintro ⟨hi, hx⟩; exact ⟨i, hi, x, hx, rfl, rfl⟩

omit [LinearOrder σ] in
/-- Every element is entered once. -/
theorem nodup_scored (l : List ι) (f : ι → Option σ) : ((scored l f).map Prod.fst).Nodup := by
  have hsub : ∀ l : List ι, ((l.filterMap fun i => (f i).map fun x => (i, x)).map Prod.fst).Sublist
      l := by
    intro l
    induction l with
    | nil => simp
    | cons i l ih =>
        cases hf : f i with
        | none => simpa [hf] using ih.cons i
        | some x => simpa [hf] using ih.cons_cons i
  exact (List.nodup_dedup l).sublist (hsub _)

/-- The sorted set of the listed candidates that `f` gives a score, with that score. -/
def ofFun (l : List ι) (f : ι → Option σ) : SortedSet ι σ where
  entries := (scored l f).insertionSort entryLE
  nodup := (List.perm_insertionSort entryLE (scored l f)).map Prod.fst |>.nodup_iff.mpr
    (nodup_scored l f)
  sorted := by
    have hnodup := (List.perm_insertionSort entryLE (scored l f)).map Prod.fst |>.nodup_iff.mpr
      (nodup_scored l f)
    have hsorted := List.pairwise_insertionSort (entryLE (ι := ι) (σ := σ)) (scored l f)
    refine (hsorted.and (List.pairwise_map.mp hnodup)).imp ?_
    rintro a b ⟨hle, hne⟩
    refine lt_of_le_of_ne hle fun heq => hne ?_
    exact congrArg (fun e : Lex (σ × ι) => (ofLex e).2) heq

/-- The entries of a set that is given by a function. -/
theorem mem_entries_ofFun {l : List ι} {f : ι → Option σ} {e : ι × σ} :
    e ∈ (ofFun l f).entries ↔ e.1 ∈ l ∧ f e.1 = some e.2 := by
  rw [← mem_scored]
  exact (List.perm_insertionSort entryLE (scored l f)).mem_iff

/-- The score in a set that is given by a function. -/
theorem score_ofFun {l : List ι} {f : ι → Option σ} :
    (ofFun l f).score i = if i ∈ l then f i else none := by
  refine Option.ext fun x => ?_
  rw [score_eq_some_iff, mem_entries_ofFun]
  by_cases h : i ∈ l <;> simp [h]

/-- The candidates may be any list that covers the scored ones. -/
theorem score_ofFun_of_forall {l : List ι} {f : ι → Option σ} (h : ∀ i x, f i = some x → i ∈ l) :
    (ofFun l f).score i = f i := by
  rw [score_ofFun]
  split
  · rfl
  · rename_i hi
    cases hf : f i with
    | none => rfl
    | some x => exact absurd (h i x hf) hi

/-- Keep the members whose member and score satisfy a condition. -/
def filter (p : ι → σ → Bool) (z : SortedSet ι σ) : SortedSet ι σ where
  entries := z.entries.filter fun e => p e.1 e.2
  sorted := z.sorted.filter _
  nodup := z.nodup.sublist ((List.filter_sublist).map Prod.fst)

/-- A filter keeps the score of what passes it. -/
theorem score_filter {p : ι → σ → Bool} :
    (z.filter p).score i = (z.score i).filter (p i) := by
  refine Option.ext fun x => ?_
  rw [score_eq_some_iff]
  simp only [filter, List.mem_filter, ← score_eq_some_iff, Option.filter_eq_some_iff]

/-- A filter of the members keeps those that pass it. -/
theorem mem_filter {p : ι → Bool} : i ∈ z.filter (fun i _ => p i) ↔ i ∈ z ∧ p i := by
  rw [← score_isSome_iff, score_filter, ← score_isSome_iff]
  cases z.score i with
  | none => simp
  | some x => cases p i <;> simp [Option.filter]

/-- A filter of the members keeps the scores of those that pass it. -/
theorem score_filter_members {p : ι → Bool} :
    (z.filter fun i _ => p i).score i = if p i then z.score i else none := by
  rw [score_filter]
  cases z.score i with
  | none => simp
  | some x => cases p i <;> simp [Option.filter]

/-- Remove a member. -/
def erase (z : SortedSet ι σ) (i : ι) : SortedSet ι σ := z.filter fun j _ => j ≠ i

/-- Erasing a member changes no other score. -/
@[simp] theorem score_erase : (z.erase j).score i = if i = j then none else z.score i := by
  rw [erase, score_filter_members]
  by_cases h : i = j <;> simp [h]

/-- Give a member a score, whether it was a member before or not. -/
def insert (z : SortedSet ι σ) (i : ι) (x : σ) : SortedSet ι σ :=
  ofFun (i :: z.members) (Function.update z.score i (some x))

/-- Inserting a member changes no other score. -/
@[simp] theorem score_insert : (z.insert j x).score i = if i = j then some x else z.score i := by
  rw [insert, score_ofFun_of_forall]
  · by_cases h : i = j
    · subst h; simp
    · simp [h]
  · intro k y hk
    by_cases h : k = j
    · subst h; exact List.mem_cons_self
    · rw [Function.update_of_ne h] at hk
      exact List.mem_cons_of_mem j (mem_of_score hk)

/-- Inserting adds one member. -/
theorem mem_insert : i ∈ z.insert j x ↔ i = j ∨ i ∈ z := by
  rw [← score_isSome_iff, score_insert, ← score_isSome_iff]
  by_cases h : i = j <;> simp [h]

/-- Erasing removes one member. -/
theorem mem_erase : i ∈ z.erase j ↔ i ≠ j ∧ i ∈ z := by
  rw [← score_isSome_iff, score_erase, ← score_isSome_iff]
  by_cases h : i = j <;> simp [h]

/-- Give many members a score, in the order of the list. -/
def insertAll (z : SortedSet ι σ) (l : List (ι × σ)) : SortedSet ι σ :=
  l.foldl (fun z e => z.insert e.1 e.2) z

/-- Remove many members. -/
def eraseAll (z : SortedSet ι σ) (l : List ι) : SortedSet ι σ := z.filter fun i _ => i ∉ l

/-- Erasing some members changes no other score. -/
@[simp] theorem score_eraseAll {l : List ι} :
    (z.eraseAll l).score i = if i ∈ l then none else z.score i := by
  rw [eraseAll, score_filter_members]
  by_cases h : i ∈ l <;> simp [h]

/-- Erasing some members removes just these. -/
theorem mem_eraseAll {l : List ι} : i ∈ z.eraseAll l ↔ i ∉ l ∧ i ∈ z := by
  rw [← score_isSome_iff, score_eraseAll, ← score_isSome_iff]
  by_cases h : i ∈ l <;> simp [h]

/-- Erasing nothing changes nothing. -/
@[simp] theorem eraseAll_nil : z.eraseAll [] = z := by
  refine ext fun i => ?_
  rw [score_eraseAll, if_neg List.not_mem_nil]

/-- Removing what is not there changes nothing. -/
theorem eraseAll_of_not_mem {l : List ι} (h : ∀ i ∈ l, i ∉ z) : z.eraseAll l = z := by
  refine ext fun i => ?_
  rw [score_eraseAll]
  split
  · rename_i hi
    exact (score_eq_none_iff.mpr (h i hi)).symm
  · rfl

/-- Members can be erased in two goes. -/
theorem eraseAll_append {l l' : List ι} : z.eraseAll (l ++ l') = (z.eraseAll l).eraseAll l' := by
  refine ext fun i => ?_
  by_cases h : i ∈ l <;> by_cases h' : i ∈ l' <;> simp [h, h']

omit [LinearOrder σ] in
/-- Without its first keys a list of distinct keys is what follows them. -/
theorem filter_drop_of_nodup {l : List (ι × σ)} (h : (l.map Prod.fst).Nodup) (n : ℕ) :
    (l.filter fun e => e.1 ∉ (l.map Prod.fst).take n) = l.drop n := by
  induction n generalizing l with
  | zero => simp
  | succ n ih =>
      cases l with
      | nil => rfl
      | cons e l =>
          rw [List.map_cons, List.nodup_cons] at h
          rw [List.map_cons, List.take_succ_cons, List.drop_succ_cons,
            List.filter_cons_of_neg (by simp), ← ih h.2]
          refine List.filter_congr fun e' he' => ?_
          have hne : e'.1 ≠ e.1 := fun heq => h.1 (heq ▸ List.mem_map_of_mem he')
          simp [hne]

/-- Removing the first members leaves the others. -/
theorem card_eraseAll_take (z : SortedSet ι σ) (n : ℕ) :
    (z.eraseAll (z.members.take n)).card = z.card - n := by
  rw [card, eraseAll, filter, members, card]
  simp only
  rw [filter_drop_of_nodup z.nodup n, List.length_drop]

/-- Removing a member that is there leaves fewer. -/
theorem card_eraseAll_lt {l : List ι} (hl : i ∈ l) (h : i ∈ z) : (z.eraseAll l).card < z.card := by
  obtain ⟨e, he, rfl⟩ := List.mem_map.mp (mem_iff_members.mp h)
  exact List.length_filter_lt_length_iff_exists.mpr ⟨e, he, by simpa using hl⟩

/-- Inserting nothing changes nothing. -/
@[simp] theorem insertAll_nil : z.insertAll [] = z := rfl

/-- Inserting a list inserts its first entry and then the rest. -/
@[simp] theorem insertAll_cons {e : ι × σ} {l : List (ι × σ)} :
    z.insertAll (e :: l) = (z.insert e.1 e.2).insertAll l := rfl

/-- Entries can be inserted in two goes. -/
theorem insertAll_append {l l' : List (ι × σ)} :
    z.insertAll (l ++ l') = (z.insertAll l).insertAll l' := List.foldl_append

/-- Inserting a list adds its keys. -/
theorem mem_insertAll {l : List (ι × σ)} : i ∈ z.insertAll l ↔ i ∈ l.map Prod.fst ∨ i ∈ z := by
  induction l generalizing z with
  | nil => simp
  | cons e l ih => rw [insertAll_cons, ih, mem_insert, List.map_cons, List.mem_cons]; tauto

/-- No more members are added than are listed. -/
theorem card_insertAll_le {l : List (ι × σ)} :
    ((∅ : SortedSet ι σ).insertAll l).card ≤ l.length := by
  rw [card_eq_members_card, ← List.length_map (f := Prod.fst)]
  refine (Finset.card_le_card fun i hi => ?_).trans (List.toFinset_card_le (l.map Prod.fst))
  rw [List.mem_toFinset, ← mem_iff_members, mem_insertAll] at hi
  exact List.mem_toFinset.mpr (hi.resolve_right not_mem_empty)

/-- Inserting a list changes no score of what is not in it. -/
theorem score_insertAll_of_not_mem {l : List (ι × σ)} (h : i ∉ l.map Prod.fst) :
    (z.insertAll l).score i = z.score i := by
  induction l generalizing z with
  | nil => rfl
  | cons e l ih =>
      rw [List.map_cons, List.mem_cons, not_or] at h
      rw [insertAll_cons, ih h.2, score_insert, if_neg h.1]

/-- A list that gives every member one score assigns that score. -/
theorem score_insertAll_of_mem {l : List (ι × σ)} (hl : (l.map Prod.fst).Nodup)
    (h : (i, x) ∈ l) : (z.insertAll l).score i = some x := by
  induction l generalizing z with
  | nil => cases h
  | cons e l ih =>
      rw [List.map_cons, List.nodup_cons] at hl
      rcases List.mem_cons.mp h with rfl | h
      · rw [insertAll_cons, score_insertAll_of_not_mem hl.1, score_insert, if_pos rfl]
      · exact ih hl.2 h

end SortedSet

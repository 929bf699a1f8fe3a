import HorizonNewDawn.Jobs.PendingJobStateIndex
import Mathlib

/-! # The states of the jobs of a queue

With payloads that are jobs no scan of a queue fails: no such payload looks like an integer. Each id is
listed once and tagged with the first group that has it, and `matchingIds` gives the ids of the groups of
one state, which are those tagged with it where no id is in two groups (`pendingQueueEntries_tags`). -/

namespace HorizonNewDawn

namespace PendingJobStateIndex

open Php

/-! ## Payloads of jobs -/

/-- A number is no array. -/
theorem jsonDecode_number {text rest : List Char} {v : Json} (h : Json.number text = some (v, rest))
    (entries : List (String × Php)) : jsonDecode v ≠ .array entries := by
  have hnumeral : ∃ negative digits tail, v = Json.numeral negative digits tail := by
    simp only [Json.number] at h
    generalize (if text.head? = some '-' then text.tail else text) = unsigned at h
    split at h
    · cases h
    · split at h
      · cases h
      · split at h
        · cases h
        · cases h
          exact ⟨_, _, _, rfl⟩
  obtain ⟨negative, digits, tail, rfl⟩ := hnumeral
  have hscalar : ∀ (p : Prop) [Decidable p] (n : ℤ) (literal : String),
      jsonDecode (if p then .num n else .real literal) ≠ .array entries := by
    intro p _ n literal
    split_ifs
    · exact number_ne_array n entries
    · simp [jsonDecode]
  exact hscalar _ _ _

/-- A text that starts like a number is read as one. -/
theorem read_number {c : Char} {text : List Char} {v : Json} (hc : c = '-' ∨ c.isDigit)
    (h : Json.read (c :: text) = some v) (entries : List (String × Php)) :
    jsonDecode v ≠ .array entries := by
  rw [Json.read, List.length_cons, Json.value_eq_number hc] at h
  split at h
  · rename_i w rest hnumber
    split_ifs at h with hrest
    cases h
    exact jsonDecode_number hnumber entries
  · cases h

variable {F : Type} [LinearOrder F] [Add F] [Zero F] {toFloat : Php → Option F} {isFinite : F → Bool}

/-- The payload of a job does not look like an integer. -/
theorem not_integerLike_of_jobId {payload : List UInt8} {id : String}
    (h : jobId (decodePayload payload) = some id) : ¬IntegerLike payload := by
  intro hinteger
  obtain ⟨text, htext, hkey⟩ : ∃ text, ofBytes payload = some text ∧ isIntegerKey text = true := by
    simpa [IntegerLike, Option.any_eq_true] using hinteger
  have hsign : ∃ c rest, text.toList = c :: rest ∧ (c = '-' ∨ c.isDigit) := by
    obtain ⟨digits, hne, hdigits, hlist⟩ := digits_of_isIntegerKey hkey
    rcases hlist with hlist | hlist
    · obtain ⟨c, rest, rfl⟩ := List.exists_cons_of_ne_nil hne
      exact ⟨c, rest, hlist, Or.inr (hdigits c List.mem_cons_self)⟩
    · exact ⟨'-', digits, hlist, Or.inl rfl⟩
  obtain ⟨c, rest, hlist, hc⟩ := hsign
  have hdecode : decodePayload payload = [] := by
    unfold decodePayload
    split
    · rename_i entries hparse
      rw [jsonParse, htext, Option.bind_some, hlist, Option.map_eq_some_iff] at hparse
      obtain ⟨v, hread, hv⟩ := hparse
      exact absurd hv (read_number hc hread entries)
    · rfl
  rw [hdecode] at h
  cases h

/-! ## Each id at its first place -/

section Firsts

variable {G : Type} {entries : List (Entry G)}

/-- No id is listed twice. -/
theorem nodup_firsts : ((firsts entries).map Entry.id).Nodup := by
  induction entries with
  | nil => exact List.nodup_nil
  | cons entry entries ih =>
      rw [firsts, List.map_cons, List.nodup_cons]
      constructor
      · intro hmem
        obtain ⟨e, he, hid⟩ := List.mem_map.mp hmem
        exact of_decide_eq_true (List.mem_filter.mp he).2 hid
      · exact (List.filter_sublist.map Entry.id).nodup ih

/-- An entry that is kept is the first one with its id. -/
theorem find?_of_mem_firsts {entry : Entry G} (h : entry ∈ firsts entries) :
    entries.find? (fun e => e.id = entry.id) = some entry := by
  induction entries with
  | nil => cases h
  | cons first entries ih =>
      rw [firsts] at h
      rcases List.mem_cons.mp h with rfl | h
      · simp
      · obtain ⟨hmem, hne⟩ := List.mem_filter.mp h
        rw [List.find?_cons_of_neg, ih hmem]
        simpa using Ne.symm (of_decide_eq_true hne)

/-- Every id is listed. -/
theorem mem_ids_firsts {id : String} :
    id ∈ (firsts entries).map Entry.id ↔ id ∈ entries.map Entry.id := by
  induction entries with
  | nil => rfl
  | cons entry entries ih =>
      rw [firsts, List.map_cons, List.map_cons, List.mem_cons, List.mem_cons, ← ih]
      by_cases hid : id = entry.id
      · simp [hid]
      · simp only [hid, false_or, List.mem_map, List.mem_filter, decide_eq_true_eq]
        constructor
        · rintro ⟨e, ⟨he, -⟩, rfl⟩
          exact ⟨e, he, rfl⟩
        · rintro ⟨e, he, rfl⟩
          exact ⟨e, ⟨he, hid⟩, rfl⟩

end Firsts

/-! ## The groups -/

/-- The members of the structures of a queue with their scores. -/
def Queue.members (queue : Queue F) : List (List UInt8 × Option F) :=
  queue.ready.map (fun p => (p, none)) ++ queue.reserved.entries.map (fun e => (e.1, some e.2)) ++
    queue.delayed.entries.map fun e => (e.1, some e.2)

/-- The ids of the jobs of a group. -/
def groupIds (group : PendingState × List (List UInt8 × Option F)) : List String :=
  group.2.filterMap fun member => jobId (decodePayload member.1)

section Groups

variable {target : Target} {queue : Queue F} {asOf : F} {entry : Entry F} {id : String}
  {group : PendingState × List (List UInt8 × Option F)}
  {parts : List (PendingState × List (List UInt8 × Option F))}

omit [LinearOrder F] [Add F] [Zero F] in
/-- The ids of the entries of a group. -/
theorem ids_jobs : (jobs target group).map Entry.id = groupIds group := by
  simp [jobs, groupIds, List.map_filterMap, Function.comp_def]

omit [LinearOrder F] [Add F] [Zero F] in
/-- An entry has the state of its group. -/
theorem state_of_mem_jobs (h : entry ∈ jobs target group) : entry.state = group.1 := by
  obtain ⟨member, -, hentry⟩ := List.mem_filterMap.mp h
  obtain ⟨id, -, rfl⟩ := Option.map_eq_some_iff.mp hentry
  rfl

omit [LinearOrder F] [Add F] [Zero F] in
/-- The ids of several groups are those of one of them. -/
theorem mem_ids_flatMap_jobs : id ∈ (parts.flatMap (jobs target)).map Entry.id ↔
    ∃ group ∈ parts, id ∈ groupIds group := by
  simp only [List.map_flatMap, List.mem_flatMap, ids_jobs]

/-- **The five groups are the members of the three structures.** -/
theorem perm_groups : ((groups toFloat queue asOf).flatMap Prod.snd).Perm queue.members := by
  have hready := (List.filter_append_perm (fun p => !isReleased toFloat (decodePayload p) asOf)
    queue.ready).map fun p => ((p, none) : List UInt8 × Option F)
  have hdelayed := (List.filter_append_perm (fun e => decide (asOf < e.2))
    queue.delayed.entries).map fun e => ((e.1, some e.2) : List UInt8 × Option F)
  simp only [Bool.not_not, List.map_append] at hready
  simp only [← decide_not, not_lt, List.map_append] at hdelayed
  have hparts := (hready.append_right (queue.reserved.entries.map fun e => (e.1, some e.2))).append
    hdelayed
  simpa [groups, Queue.members] using hparts

omit [LinearOrder F] [Add F] [Zero F] in
/-- The first entry with an id is in the first group that has it. -/
theorem find?_flatMap_jobs
    (h : (parts.flatMap (jobs target)).find? (fun e => e.id = id) = some entry) :
    (parts.find? fun group => id ∈ groupIds group).map Prod.fst = some entry.state := by
  induction parts with
  | nil => cases h
  | cons group parts ih =>
      rw [List.flatMap_cons, List.find?_append] at h
      cases hfirst : (jobs target group).find? fun e => e.id = id with
      | some first =>
          rw [hfirst, Option.some_or, Option.some.injEq] at h
          subst h
          have hmem := List.mem_of_find?_eq_some hfirst
          have hid : first.id = id := by simpa using List.find?_some hfirst
          have hgroup : id ∈ groupIds group := by
            rw [← @ids_jobs F target group, ← hid]
            exact List.mem_map_of_mem hmem
          rw [List.find?_cons_of_pos (by simpa using hgroup), Option.map_some,
            state_of_mem_jobs hmem]
      | none =>
          rw [hfirst, Option.none_or] at h
          have hgroup : id ∉ groupIds group := by
            rw [← @ids_jobs F target group, List.mem_map]
            rintro ⟨e, he, hid⟩
            exact List.find?_eq_none.mp hfirst e he (decide_eq_true hid)
          rw [List.find?_cons_of_neg (by simpa using hgroup)]
          exact ih h

/-- The groups have no id in common. -/
def Apart (parts : List (PendingState × List (List UInt8 × Option F))) : Prop :=
  parts.Pairwise fun group group' => (groupIds group).Disjoint (groupIds group')

/-- The entries list the ids of a queue once, each under the first group that has it. -/
structure Tagged (toFloat : Php → Option F) (queue : Queue F) (asOf : F) (entries : List (Entry F)) :
    Prop where
  nodup : (entries.map Entry.id).Nodup
  ids : ∀ id, id ∈ entries.map Entry.id ↔
    ∃ member ∈ queue.members, jobId (decodePayload member.1) = some id
  state : ∀ entry ∈ entries, ((groups toFloat queue asOf).find? fun group =>
    entry.id ∈ groupIds group).map Prod.fst = some entry.state

/-- **The first entry of every id** carries its state. -/
theorem tagged_firsts :
    Tagged toFloat queue asOf (firsts ((groups toFloat queue asOf).flatMap (jobs target))) where
  nodup := nodup_firsts
  ids id := by
    rw [mem_ids_firsts, mem_ids_flatMap_jobs]
    simp only [← (@perm_groups F _ _ _ toFloat queue asOf).mem_iff, List.mem_flatMap, groupIds,
      List.mem_filterMap]
    constructor
    · rintro ⟨group, hgroup, member, hmember, hid⟩
      exact ⟨member, ⟨group, hgroup, hmember⟩, hid⟩
    · rintro ⟨member, ⟨group, hgroup, hmember⟩, hid⟩
      exact ⟨group, hgroup, member, hmember, hid⟩
  state entry hentry := find?_flatMap_jobs (find?_of_mem_firsts hentry)

/-- With groups that have no id in common the first group that has an id is the only one. -/
theorem Tagged.state_eq {entries : List (Entry F)} (h : Tagged toFloat queue asOf entries)
    (hapart : Apart (groups toFloat queue asOf)) (hgroup : group ∈ groups toFloat queue asOf)
    (hid : id ∈ groupIds group) : ∃ entry ∈ entries, entry.id = id ∧ entry.state = group.1 := by
  have hlisted : id ∈ entries.map Entry.id := by
    rw [h.ids]
    obtain ⟨member, hmember, hjob⟩ := List.mem_filterMap.mp hid
    refine ⟨member, ?_, hjob⟩
    exact (@perm_groups F _ _ _ toFloat queue asOf).mem_iff.mp
      (List.mem_flatMap.mpr ⟨group, hgroup, hmember⟩)
  obtain ⟨entry, hentry, rfl⟩ := List.mem_map.mp hlisted
  refine ⟨entry, hentry, rfl, ?_⟩
  obtain ⟨first, hfirst, hstate⟩ := Option.map_eq_some_iff.mp (h.state entry hentry)
  have hmem : first ∈ groups toFloat queue asOf := List.mem_of_find?_eq_some hfirst
  have hin : entry.id ∈ groupIds first := by simpa using List.find?_some hfirst
  have heq : first = group := by
    by_contra hne
    have hsymm : Std.Symm fun group group' : PendingState × List (List UInt8 × Option F) =>
        (groupIds group).Disjoint (groupIds group') := ⟨fun _ _ hdisjoint => hdisjoint.symm⟩
    exact List.Pairwise.forall hapart hmem hgroup hne hin hid
  rw [← hstate, heq]

/-- The keys of `matchingIds` are the ids of the groups of the state. -/
theorem matchingIds_ok {state : PendingState} (h : queue.Scannable isFinite) :
    ∃ ids, matchingIds toFloat isFinite [(target, queue, asOf)] state = .ok ids ∧
      ∀ id, id ∈ ids.map Prod.fst ↔
        ∃ group ∈ groups toFloat queue asOf, group.1 = state ∧ id ∈ groupIds group := by
  have hentries : matchingEntries toFloat isFinite [(target, queue, asOf)] state =
      .ok (((groups toFloat queue asOf).filter fun group => group.1 = state).flatMap (jobs target)) := by
    rw [matchingEntries_ok (by simpa using h)]
    simp
  rw [matchingIds, hentries]
  refine ⟨_, rfl, fun id => ?_⟩
  rw [Assignments.mem_keys_collapse, List.map_map]
  show id ∈ List.map Entry.id _ ↔ _
  rw [mem_ids_flatMap_jobs]
  simp only [List.mem_filter, decide_eq_true_eq, and_assoc]

end Groups

/-! ## The two readings of a queue -/

omit [LinearOrder F] [Add F] [Zero F] in
/-- A queue whose payloads are jobs can be scanned. -/
theorem scannable_of_jobs {queue : Queue F}
    (hjobs : ∀ member ∈ queue.members, (jobId (decodePayload member.1)).isSome)
    (hfinite : ∀ member ∈ queue.members, ∀ score ∈ member.2, isFinite score = true) :
    queue.Scannable isFinite := by
  have hmember : ∀ e : List UInt8 × F, (e.1, some e.2) ∈ queue.members →
      ¬IntegerLike e.1 ∧ isFinite e.2 = true := by
    intro e he
    obtain ⟨id, hid⟩ := Option.isSome_iff_exists.mp (hjobs _ he)
    exact ⟨not_integerLike_of_jobId hid, hfinite _ he e.2 rfl⟩
  constructor
  · intro e he
    apply hmember e
    simp [Queue.members, he]
  · intro e he
    apply hmember e
    simp [Queue.members, he]

/-- **The scan of a whole queue lists each id once with the state of the first group that has it, and the
scan of one state finds these ids.** -/
theorem pendingQueueEntries_tags (target : Target) {queue : Queue F} (asOf : F)
    (hjobs : ∀ member ∈ queue.members, (jobId (decodePayload member.1)).isSome)
    (hfinite : ∀ member ∈ queue.members, ∀ score ∈ member.2, isFinite score = true) :
    ((groups toFloat queue asOf).flatMap Prod.snd).Perm queue.members ∧
      ∃ entries, pendingQueueEntries toFloat isFinite target queue asOf = .ok entries ∧
        Tagged toFloat queue asOf entries ∧
        ∀ state, ∃ ids, matchingIds toFloat isFinite [(target, queue, asOf)] state = .ok ids ∧
          (∀ entry ∈ entries, entry.state = state → entry.id ∈ ids.map Prod.fst) ∧
          (Apart (groups toFloat queue asOf) → ∀ id ∈ ids.map Prod.fst,
            ∃ entry ∈ entries, entry.id = id ∧ entry.state = state) := by
  have hscannable : queue.Scannable isFinite := scannable_of_jobs hjobs hfinite
  have htagged := @tagged_firsts F _ _ _ toFloat target queue asOf
  refine ⟨perm_groups, _, pendingQueueEntries_ok hscannable, htagged, fun state => ?_⟩
  obtain ⟨ids, hids, hmem⟩ := @matchingIds_ok F _ _ _ toFloat isFinite target queue asOf state hscannable
  refine ⟨ids, hids, fun entry hentry hstate => ?_, fun hapart id hid => ?_⟩
  · obtain ⟨group, hfirst, hgroup⟩ := Option.map_eq_some_iff.mp (htagged.state entry hentry)
    rw [hmem]
    refine ⟨group, List.mem_of_find?_eq_some hfirst, hgroup.trans hstate, ?_⟩
    simpa using List.find?_some hfirst
  · obtain ⟨group, hgroup, hstate, hgroupId⟩ := (hmem id).mp hid
    rw [← hstate]
    exact htagged.state_eq hapart hgroup hgroupId

/-! ## Queues where the two readings differ -/

/-- The whole numbers among the values, with a time that never comes. -/
def numberOrTop : Php → Option (WithTop ℤ)
  | .int n => some n
  | _ => none

/-- A queue without delayed and reserved jobs. -/
def readyQueue (payloads : List (List UInt8)) : Queue (WithTop ℤ) where
  ready := payloads
  reserved := .empty
  delayed := .empty

/-- A job, and one with the same id whose delay has elapsed at the time `2`. -/
def sharedQueue : Queue (WithTop ℤ) :=
  readyQueue [jsonBytes [("uuid", .str "a")],
    jsonBytes [("uuid", .str "a"), ("createdAt", .int 1), ("delay", .int 1)]]

/-- A payload that is encoded is decoded again. -/
theorem decodePayload_jsonBytes {entries : List (String × Php)} (hkeys : (keys entries).Nodup)
    (hlist : keys entries ≠ listKeys entries.length) (hscalar : ∀ e ∈ entries, Scalar e.2) :
    decodePayload (jsonBytes entries) = entries := by
  rw [decodePayload, jsonParse_jsonBytes hkeys hlist hscalar]

/-- A payload without a delay. -/
theorem decodePayload_plain :
    decodePayload (jsonBytes [("uuid", .str "a")]) = [("uuid", .str "a")] :=
  decodePayload_jsonBytes (by decide) (by decide) (by simp [Scalar])

/-- A payload whose delay is over. -/
theorem decodePayload_elapsed :
    decodePayload (jsonBytes [("uuid", .str "a"), ("createdAt", .int 1), ("delay", .int 1)]) =
      [("uuid", .str "a"), ("createdAt", .int 1), ("delay", .int 1)] :=
  decodePayload_jsonBytes (by decide) (by decide) (by simp [Scalar])

/-- The entries of the queue of the example. -/
theorem jobs_sharedQueue : (groups numberOrTop sharedQueue 2).flatMap (jobs ⟨"redis", "default"⟩) =
    [⟨"a", .ready, "redis", "default", [("uuid", .str "a")], none⟩,
      ⟨"a", .released, "redis", "default",
        [("uuid", .str "a"), ("createdAt", .int 1), ("delay", .int 1)], none⟩] := by
  have hplain : isReleased numberOrTop [("uuid", .str "a")] 2 = false := by decide
  have helapsed : isReleased numberOrTop
      [("uuid", .str "a"), ("createdAt", .int 1), ("delay", .int 1)] 2 = true := by decide
  have hid : jobId [("uuid", .str "a")] = some "a" := by decide
  have hid' : jobId [("uuid", .str "a"), ("createdAt", .int 1), ("delay", .int 1)] = some "a" := by
    decide
  simp [groups, sharedQueue, readyQueue, SortedSet.empty, jobs, decodePayload_plain,
    decodePayload_elapsed, hplain, helapsed, hid, hid']

/-- Every payload of it names a job. -/
theorem jobId_sharedQueue :
    ∀ member ∈ sharedQueue.members, (jobId (decodePayload member.1)).isSome := by
  have hid : (jobId [("uuid", .str "a")]).isSome := by decide
  have hid' : (jobId [("uuid", .str "a"), ("createdAt", .int 1), ("delay", .int 1)]).isSome := by
    decide
  simp [sharedQueue, readyQueue, SortedSet.empty, Queue.members, decodePayload_plain, decodePayload_elapsed, hid, hid']

/-- A delayed job with an infinite score. -/
def infiniteQueue : Queue (WithTop ℤ) where
  ready := []
  reserved := .empty
  delayed := ⟨[(jsonBytes [("uuid", .str "a")], ⊤)], List.nodup_singleton _⟩

/-- A job whose `uuid` is no string. -/
def numberedQueue : Queue (WithTop ℤ) :=
  readyQueue [jsonBytes [("uuid", .int 5), ("id", .str "a")]]

/-- A payload whose first id is a number. -/
theorem decodePayload_numbered : decodePayload (jsonBytes [("uuid", .int 5), ("id", .str "a")]) =
    [("uuid", .int 5), ("id", .str "a")] :=
  decodePayload_jsonBytes (by decide) (by decide) (by simp [Scalar])

/-- Two jobs of the ready list with one id, an infinite score, and a `uuid` that is no string. -/
theorem not_tagsAgree_shared :
    (∃ entries ids,
      pendingQueueEntries numberOrTop (· ≠ ⊤) ⟨"redis", "default"⟩ sharedQueue 2 = .ok entries ∧
      matchingIds numberOrTop (· ≠ ⊤) [(⟨"redis", "default"⟩, sharedQueue, 2)] .released = .ok ids ∧
      "a" ∈ ids.map Prod.fst ∧ ∀ entry ∈ entries, entry.state ≠ .released) ∧
    (∀ entries, pendingQueueEntries numberOrTop (· ≠ ⊤) ⟨"redis", "default"⟩ infiniteQueue 2 ≠
      .ok entries) ∧
    pendingQueueEntries numberOrTop (· ≠ ⊤) ⟨"redis", "default"⟩ numberedQueue 2 = .ok [] := by
  have hscannable : ∀ payloads, (readyQueue payloads).Scannable fun score => decide (score ≠ ⊤) := by
    intro payloads
    constructor <;> simp [readyQueue, SortedSet.empty, SortedSet.Scannable]
  refine ⟨?_, fun entries h => ?_, ?_⟩
  · obtain ⟨ids, hids, hmem⟩ := @matchingIds_ok (WithTop ℤ) _ _ _ numberOrTop (· ≠ ⊤)
      ⟨"redis", "default"⟩ sharedQueue 2 .released (hscannable _)
    refine ⟨_, ids, pendingQueueEntries_ok (hscannable _), hids, ?_, ?_⟩
    · have hreleased : (⟨"a", .released, "redis", "default",
          [("uuid", .str "a"), ("createdAt", .int 1), ("delay", .int 1)], none⟩ : Entry (WithTop ℤ)) ∈
            (groups numberOrTop sharedQueue 2).flatMap (jobs ⟨"redis", "default"⟩) := by
        rw [jobs_sharedQueue]
        simp
      obtain ⟨group, hgroup, hjob⟩ := List.mem_flatMap.mp hreleased
      rw [hmem]
      refine ⟨group, hgroup, (state_of_mem_jobs hjob).symm, ?_⟩
      rw [← @ids_jobs (WithTop ℤ) ⟨"redis", "default"⟩ group]
      exact List.mem_map_of_mem hjob
    · rw [jobs_sharedQueue]
      simp [firsts]
  · have hfinite := ((scannable_of_pendingQueueEntries h).2 _ (List.mem_singleton_self _)).2
    simp at hfinite
  · have hid : jobId [("uuid", .int 5), ("id", .str "a")] = none := by decide
    have hempty : (groups numberOrTop numberedQueue 2).flatMap (jobs ⟨"redis", "default"⟩) = [] := by
      have hpending : isReleased numberOrTop [("uuid", .int 5), ("id", .str "a")] 2 = false := by
        decide
      simp [groups, numberedQueue, readyQueue, SortedSet.empty, jobs, decodePayload_numbered, hid, hpending]
    have hentries := @pendingQueueEntries_ok (WithTop ℤ) _ _ _ numberOrTop (fun score => score ≠ ⊤)
      ⟨"redis", "default"⟩ 2 numberedQueue (hscannable _)
    rw [hempty] at hentries
    exact hentries

/-- An id with two payloads is listed with the state of the first. -/
theorem pendingQueueEntries_tags_shared :
    ∃ entries, pendingQueueEntries numberOrTop (· ≠ ⊤) ⟨"redis", "default"⟩ sharedQueue 2 =
      .ok entries ∧ Tagged numberOrTop sharedQueue 2 entries := by
  obtain ⟨-, entries, hentries, htagged, -⟩ :=
    @pendingQueueEntries_tags (WithTop ℤ) _ _ _ numberOrTop (· ≠ ⊤) ⟨"redis", "default"⟩ sharedQueue 2
      jobId_sharedQueue (by simp [sharedQueue, readyQueue, SortedSet.empty, Queue.members])
  exact ⟨entries, hentries, htagged⟩

end PendingJobStateIndex

end HorizonNewDawn

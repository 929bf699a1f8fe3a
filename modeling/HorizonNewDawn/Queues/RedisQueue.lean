import HorizonNewDawn.Php.Json
import Mathlib.Logic.Function.Basic

/-! # The structures of a Redis queue

A queue is a sorted set of delayed payloads, a list of ready payloads and a list of notifications.
Every script of the source and of Laravel that works on them is put together from four moves of one
payload: from the delayed to the ready ones, back, and out of either. A job is told by the
identifier in its payload, which outlives the replacement of the payload.

`Conserved floats q₀ gone q` says that `q` has come from `q₀` by such moves: a job of `q₀` that is not gone
has exactly one payload, still its original one or a replacement of it, and any other job has none.
Each move keeps it. -/

namespace HorizonNewDawn

/-! ## Payloads -/

/-- A payload text: the document `json_decode` makes of it, `none` where it is not a JSON text, and
its spelling, which tells the texts of one document apart. -/
structure Payload where
  document : Option Json
  spelling : String
  deriving DecidableEq

namespace Payload

/-- The empty text. -/
def empty : Payload := ⟨none, ""⟩

/-- What `json_decode` makes of the payload, where that is an array. -/
def decoded (payload : Payload) : Option (List (String × Php)) :=
  match payload.document.map Php.jsonDecode with
  | some (.array entries) => some entries
  | _ => none

/-- The identifier of the job: the string under `uuid`, or else under `id`. -/
def job (payload : Payload) : Option String :=
  payload.decoded.bind fun entries => (Php.getStr "uuid" entries).or (Php.getStr "id" entries)

/-- `ReleaseDelayedJobNow::withMadeAvailableMetadata`; where `json_encode` throws, it answers `null`. -/
def withMadeAvailableMetadata (floats : FloatWriter) (payload : Payload) (timestamp : ℤ) :
    Option Payload :=
  match payload.document.map Php.jsonDecode with
  | some (.array decoded) =>
      let metadata := match Php.get "horizonNewDawn" decoded with
        | some (.array metadata) => metadata
        | _ => []
      let metadata := Php.set "madeAvailableAt" (.int timestamp) metadata
      let decoded := Php.set "horizonNewDawn" (.array metadata) decoded
      (Php.jsonEncode floats (.array decoded)).map fun document => ⟨some document, ""⟩
  | _ => none

/-- The replacement belongs to the same job. -/
theorem job_withMadeAvailableMetadata {floats : FloatWriter} {payload replacement : Payload}
    {timestamp : ℤ} (h : payload.withMadeAvailableMetadata floats timestamp = some replacement) :
    replacement.job = payload.job := by
  unfold withMadeAvailableMetadata at h
  split at h
  next decoded hdecoded =>
    obtain ⟨document, _, hdocument⟩ := Option.map_eq_some_iff.mp hdecoded
    have hnodup := Php.nodup_keys_of_jsonDecode hdocument
    have hread : ∀ (value : Php) (key : String), key ≠ "horizonNewDawn" →
        Php.getStr key ((Php.set "horizonNewDawn" value decoded).map fun e =>
          (e.1, Php.jsonDecode (Php.document floats e.2))) = Php.getStr key decoded := by
      intro value key hne
      rw [Php.getStr_map_jsonDecode_document, Php.getStr_set_ne hne]
    obtain ⟨replaced, hreplaced, rfl⟩ := Option.map_eq_some_iff.mp h
    obtain ⟨-, rfl⟩ := Php.jsonEncode_eq_some.mp hreplaced
    unfold job Payload.decoded
    rw [hdecoded, Option.map_some, Php.jsonDecode_document_array (Php.nodup_keys_set hnodup)]
    show (Php.getStr "uuid" _).or (Php.getStr "id" _) =
      (Php.getStr "uuid" decoded).or (Php.getStr "id" decoded)
    rw [hread _ _ (by decide), hread _ _ (by decide)]
  next => cases h

end Payload

/-! ## Queues -/

/-- The delayed payloads with their scores, the ready payloads and the number of notifications, each
of which is the value `1`. -/
@[ext] structure Queue where
  delayed : Payload → Option ℤ
  ready : List Payload
  notify : ℕ

namespace Queue

/-- A delayed payload goes, and `replacement` becomes ready. -/
def hurry (q : Queue) (payload replacement : Payload) : Queue where
  delayed := Function.update q.delayed payload none
  ready := q.ready ++ [replacement]
  notify := q.notify + 1

/-- A ready `replacement` goes, and `payload` becomes delayed. -/
def postpone (q : Queue) (payload replacement : Payload) (score : ℤ) : Queue where
  delayed := Function.update q.delayed payload (some score)
  ready := q.ready.erase replacement
  notify := q.notify - 1

/-- A ready payload goes. -/
def dropReady (q : Queue) (payload : Payload) : Queue where
  delayed := q.delayed
  ready := q.ready.erase payload
  notify := q.notify - 1

/-- A delayed payload goes. -/
def dropDelayed (q : Queue) (payload : Payload) : Queue where
  delayed := Function.update q.delayed payload none
  ready := q.ready
  notify := q.notify

/-! ## Scripts -/

/-- The script that makes a delayed payload ready, with its score as the answer. -/
def moveNow (q : Queue) (payload replacement : Payload) : Option (ℤ × Queue) :=
  (q.delayed payload).map fun score => (score, q.hurry payload replacement)

/-- The script that takes `moveNow` back. -/
def rollback (q : Queue) (payload replacement : Payload) (score : ℤ) : Option Queue :=
  if replacement ∈ q.ready then some (q.postpone payload replacement score) else none

/-- The script of a cancellation, with the number of removed payloads as the answer. -/
def cancel (q : Queue) (payload : Payload) (includesReady includesDelayed : Bool) : ℕ × Queue :=
  let (ready, q) :=
    if includesReady ∧ payload ∈ q.ready then (1, q.dropReady payload) else (0, q)
  let (delayed, q) :=
    if includesDelayed ∧ (q.delayed payload).isSome then (1, q.dropDelayed payload) else (0, q)
  (delayed + ready, q)

/-- One due payload of Laravel's `migrate`. -/
def migrateOne (now : ℤ) (q : Queue) (payload : Payload) : Queue :=
  match q.delayed payload with
  | some score => if score ≤ now then q.hurry payload payload else q
  | none => q

/-- Laravel's `migrate`: the payloads `due`, in the order of the delayed set, become ready where
their time has come. -/
def migrate (q : Queue) (now : ℤ) (due : List Payload) : Queue := due.foldl (migrateOne now) q

/-- A worker takes the first ready payload. -/
def pop (q : Queue) : Option (Payload × Queue) :=
  q.ready.head?.map fun payload => (payload, q.dropReady payload)

/-! ## Where a job is -/

/-- How many ready payloads belong to the job. -/
def readyCount (id : String) (q : Queue) : ℕ := q.ready.countP fun p => p.job = some id

/-- A delayed payload belongs to the job. -/
def Waiting (id : String) (q : Queue) : Prop := ∃ p, p.job = some id ∧ q.delayed p ≠ none

/-- The job has exactly one payload, among the delayed and the ready ones together. -/
def Sole (id : String) (q : Queue) : Prop :=
  ((∃! p, p.job = some id ∧ q.delayed p ≠ none) ∧ q.readyCount id = 0) ∨
    (¬q.Waiting id ∧ q.readyCount id = 1)

/-- The job has no payload. -/
def Absent (id : String) (q : Queue) : Prop := ¬q.Waiting id ∧ q.readyCount id = 0

variable {floats : FloatWriter} {q q₀ : Queue} {id : String} {payload replacement : Payload} {score : ℤ}

/-- A job does not wait where none of its payloads is delayed. -/
theorem not_waiting_iff : ¬q.Waiting id ↔ ∀ p : Payload, p.job = some id → q.delayed p = none := by
  simp only [Waiting, not_exists, not_and, not_not]

/-- Whether a job waits depends on the delayed payloads of the job only. -/
theorem waiting_congr {q' : Queue}
    (h : ∀ p : Payload, p.job = some id → q'.delayed p = q.delayed p) :
    q'.Waiting id ↔ q.Waiting id := by
  unfold Waiting
  refine exists_congr fun p => and_congr_right fun hp => ?_
  rw [h p hp]

/-- A job with a delayed payload waits. -/
theorem waiting_of_delayed (hjob : payload.job = some id) (h : q.delayed payload = some score) :
    q.Waiting id := ⟨payload, hjob, by rw [h]; exact Option.some_ne_none score⟩

/-- A job with a ready payload is counted. -/
theorem readyCount_pos (hjob : payload.job = some id) (h : payload ∈ q.ready) :
    0 < q.readyCount id := List.countP_pos_iff.mpr ⟨payload, h, by simpa using hjob⟩

/-- The ready payloads of a job after the first occurrence of a payload has gone. -/
theorem countP_erase (hmem : payload ∈ q.ready) :
    (q.ready.erase payload).countP (fun p => p.job = some id) =
      q.readyCount id - if payload.job = some id then 1 else 0 := by
  have hperm := (List.perm_cons_erase hmem).countP_eq fun p => decide (p.job = some id)
  rw [List.countP_cons] at hperm
  unfold readyCount
  rw [hperm]
  by_cases hjob : payload.job = some id
  · simp [hjob]
  · simp [hjob]

/-! ## Conservation -/

/-- A payload the job of which was in `q₀`: original, or the replacement of a delayed one. -/
def Descends (floats : FloatWriter) (q₀ : Queue) (p : Payload) : Prop :=
  p ∈ q₀.ready ∨ q₀.delayed p ≠ none ∨
    ∃ original timestamp, q₀.delayed original ≠ none ∧
      original.withMadeAvailableMetadata floats timestamp = some p

/-- The queue has come from `q₀` by moves of single payloads: the jobs of `q₀` that are not gone are
where exactly one payload of theirs is. -/
structure Conserved (floats : FloatWriter) (q₀ : Queue) (gone : String → Prop) (q : Queue) : Prop
    where
  /-- Delayed payloads are original and have their original score. -/
  delayed : ∀ p score, q.delayed p = some score → q₀.delayed p = some score
  /-- Ready payloads are original, or replace an original one. -/
  ready : ∀ p ∈ q.ready, Descends floats q₀ p
  /-- A job that is not gone is either delayed or ready, once. -/
  kept : ∀ id, Sole id q₀ → ¬gone id →
    (q.Waiting id ∧ q.readyCount id = 0) ∨ (¬q.Waiting id ∧ q.readyCount id = 1)
  /-- Any other job has no payload. -/
  absent : ∀ id, Absent id q₀ ∨ gone id → Absent id q

/-- Every payload belongs to a job, and every job has one payload or none. -/
structure OnePayloadEach (q : Queue) : Prop where
  delayed : ∀ p, q.delayed p ≠ none → ∃ id, p.job = some id
  ready : ∀ p ∈ q.ready, ∃ id, p.job = some id
  sole : ∀ id, Sole id q ∨ Absent id q

/-- What is gone may be told in another way. -/
theorem Conserved.congr {gone gone' : String → Prop} (h : Conserved floats q₀ gone q)
    (hgone : ∀ id, gone id ↔ gone' id) : Conserved floats q₀ gone' q := by
  obtain rfl : gone = gone' := funext fun id => propext (hgone id)
  exact h

/-- Where nothing is gone the queue is conserved. -/
theorem Conserved.refl (q : Queue) : Conserved floats q (fun _ => False) q where
  delayed _ _ h := h
  ready _ h := Or.inl h
  kept _ hsole _ := hsole.imp (fun hs => ⟨hs.1.exists, hs.2⟩) fun hs => hs
  absent _ habsent := habsent.elim (fun h => h) False.elim

section Moves

variable {gone : String → Prop} (h₀ : OnePayloadEach q₀) (h : Conserved floats q₀ gone q)
include h₀ h

/-- A delayed payload is the only one of its job. -/
theorem Conserved.of_delayed (hjob : payload.job = some id) (hp : q.delayed payload = some score) :
    Sole id q₀ ∧ ¬gone id ∧ q.readyCount id = 0 ∧
      ∀ p : Payload, p.job = some id → q.delayed p ≠ none → p = payload := by
  have hwaiting : q.Waiting id := waiting_of_delayed hjob hp
  have hgone : ¬gone id := fun hgone => (h.absent id (Or.inr hgone)).1 hwaiting
  have hsole : Sole id q₀ := (h₀.sole id).resolve_right fun habsent =>
    (h.absent id (Or.inl habsent)).1 hwaiting
  refine ⟨hsole, hgone, ?_, ?_⟩
  · rcases h.kept id hsole hgone with ⟨_, hcount⟩ | ⟨hno, _⟩
    · exact hcount
    · exact absurd hwaiting hno
  · -- both payloads were delayed at the beginning, where the job had one
    have horiginal : ∀ p : Payload, q.delayed p ≠ none → q₀.delayed p ≠ none := by
      intro p hne
      obtain ⟨score, hscore⟩ := Option.ne_none_iff_exists'.mp hne
      rw [h.delayed p score hscore]
      exact Option.some_ne_none score
    intro p hpjob hpne
    have hpayload : q.delayed payload ≠ none := by
      rw [hp]
      exact Option.some_ne_none score
    rcases hsole with ⟨hunique, _⟩ | ⟨hno, _⟩
    · exact hunique.unique ⟨hpjob, horiginal p hpne⟩ ⟨hjob, horiginal payload hpayload⟩
    · exact absurd ⟨payload, hjob, horiginal payload hpayload⟩ hno

/-- A ready payload is the only one of its job. -/
theorem Conserved.of_ready (hjob : payload.job = some id) (hp : payload ∈ q.ready) :
    Sole id q₀ ∧ ¬gone id ∧ ¬q.Waiting id ∧ q.readyCount id = 1 := by
  have hpos : 0 < q.readyCount id := readyCount_pos hjob hp
  have hgone : ¬gone id := fun hgone => by
    have habsent := (h.absent id (Or.inr hgone)).2
    omega
  have hsole : Sole id q₀ := (h₀.sole id).resolve_right fun habsent => by
    have habsent := (h.absent id (Or.inl habsent)).2
    omega
  rcases h.kept id hsole hgone with ⟨_, hcount⟩ | hready
  · omega
  · exact ⟨hsole, hgone, hready⟩

/-- **Making a payload ready early** keeps every job. -/
theorem Conserved.hurry (hp : q.delayed payload = some score) (hjob : replacement.job = payload.job)
    (hdescends : Descends floats q₀ replacement) :
    Conserved floats q₀ gone (q.hurry payload replacement) := by
  have hpresent : q₀.delayed payload ≠ none := by
    rw [h.delayed payload score hp]
    exact Option.some_ne_none score
  obtain ⟨id, hid⟩ := h₀.delayed payload hpresent
  obtain ⟨_, _, hcount, honly⟩ := h.of_delayed h₀ hid hp
  have hready : ∀ id', (q.hurry payload replacement).readyCount id' =
      q.readyCount id' + if id = id' then 1 else 0 := by
    intro id'
    show (q.ready ++ [replacement]).countP _ = _
    rw [List.countP_append, List.countP_singleton, hjob, hid]
    simp [readyCount]
  -- The jobs of the other ids wait where they waited.
  have hother : ∀ id', id ≠ id' → ((q.hurry payload replacement).Waiting id' ↔ q.Waiting id') :=
    fun id' hne => waiting_congr fun p hpjob => Function.update_of_ne (by
      rintro rfl
      exact hne (Option.some.inj (hid.symm.trans hpjob))) _ _
  refine ⟨fun p score' hscore => ?_, fun p hmem => ?_, fun id' hsole hgone => ?_,
    fun id' habsent => ?_⟩
  · by_cases heq : p = payload
    · have hnone : (q.hurry payload replacement).delayed p = none := by
        rw [heq]
        exact Function.update_self _ _ _
      rw [hnone] at hscore
      cases hscore
    · refine h.delayed p score' ?_
      rw [← hscore]
      exact (Function.update_of_ne heq _ _).symm
  · rcases List.mem_append.mp hmem with hmem | hmem
    · exact h.ready p hmem
    · rw [List.mem_singleton.mp hmem]
      exact hdescends
  · by_cases heq : id = id'
    · subst heq
      refine Or.inr ⟨not_waiting_iff.mpr fun p hpjob => ?_, ?_⟩
      · -- only the payload that was made ready was delayed
        by_cases hp' : p = payload
        · rw [hp']
          exact Function.update_self _ _ _
        · rw [show (q.hurry payload replacement).delayed p = q.delayed p from
            Function.update_of_ne hp' _ _]
          by_contra hno
          exact hp' (honly p hpjob hno)
      · rw [hready, hcount, if_pos rfl]
    · rw [hother id' heq, hready, if_neg heq]
      exact h.kept id' hsole hgone
  · have habs : Absent id' q := h.absent id' habsent
    have heq : id ≠ id' := by
      rintro rfl
      exact habs.1 (waiting_of_delayed hid hp)
    refine ⟨(hother id' heq).not.mpr habs.1, ?_⟩
    rw [hready, if_neg heq]
    exact habs.2

/-- **Taking a ready payload back** keeps every job, when the payload put back is original. -/
theorem Conserved.postpone (hmem : replacement ∈ q.ready) (hjob : replacement.job = payload.job)
    (horiginal : q₀.delayed payload = some score) :
    Conserved floats q₀ gone (q.postpone payload replacement score) := by
  obtain ⟨id, hid⟩ := h₀.delayed payload (by rw [horiginal]; exact Option.some_ne_none score)
  rw [hid] at hjob
  obtain ⟨_, _, _, hcount⟩ := h.of_ready h₀ hjob hmem
  have hready : ∀ id', (q.postpone payload replacement score).readyCount id' =
      q.readyCount id' - if id = id' then 1 else 0 := by
    intro id'
    rw [show (q.postpone payload replacement score).readyCount id' = _ from
      countP_erase hmem, hjob]
    simp
  have hother : ∀ id', id ≠ id' →
      ((q.postpone payload replacement score).Waiting id' ↔ q.Waiting id') :=
    fun id' hne => waiting_congr fun p hpjob => Function.update_of_ne (by
      rintro rfl
      exact hne (Option.some.inj (hid.symm.trans hpjob))) _ _
  refine ⟨fun p score' hscore => ?_, fun p hp => h.ready p (List.mem_of_mem_erase hp),
    fun id' hsole hgone => ?_, fun id' habsent => ?_⟩
  · by_cases heq : p = payload
    · subst heq
      rw [show (q.postpone p replacement score).delayed p = some score from
        Function.update_self _ _ _] at hscore
      rw [horiginal, hscore]
    · refine h.delayed p score' ?_
      rw [← hscore]
      exact (Function.update_of_ne heq _ _).symm
  · by_cases heq : id = id'
    · subst heq
      refine Or.inl ⟨waiting_of_delayed hid (Function.update_self _ _ _), ?_⟩
      rw [hready, hcount, if_pos rfl]
    · rw [hother id' heq, hready, if_neg heq]
      exact h.kept id' hsole hgone
  · have habs : Absent id' q := h.absent id' habsent
    have heq : id ≠ id' := by
      rintro rfl
      have hzero := habs.2
      omega
    refine ⟨(hother id' heq).not.mpr habs.1, ?_⟩
    rw [hready, if_neg heq]
    exact habs.2

/-- **Taking a ready payload out** leaves every other job as it is. -/
theorem Conserved.dropReady (hmem : payload ∈ q.ready) :
    Conserved floats q₀ (fun id => gone id ∨ payload.job = some id) (q.dropReady payload) := by
  have hready : ∀ id', (q.dropReady payload).readyCount id' =
      q.readyCount id' - if payload.job = some id' then 1 else 0 := fun id' => countP_erase hmem
  have hwaiting : ∀ id', (q.dropReady payload).Waiting id' ↔ q.Waiting id' := fun _ => Iff.rfl
  refine ⟨h.delayed, fun p hp => h.ready p (List.mem_of_mem_erase hp), fun id' hsole hgone => ?_,
    fun id' habsent => ?_⟩
  · obtain ⟨hgone, hne⟩ := not_or.mp hgone
    rw [hwaiting, hready, if_neg hne]
    exact h.kept id' hsole hgone
  · by_cases heq : payload.job = some id'
    · obtain ⟨_, _, hno, hcount⟩ := h.of_ready h₀ heq hmem
      refine ⟨hno, ?_⟩
      rw [hready, hcount, if_pos heq]
    · have habs : Absent id' q := h.absent id' (habsent.imp_right fun hgone =>
        hgone.resolve_right heq)
      refine ⟨habs.1, ?_⟩
      rw [hready, if_neg heq]
      exact habs.2

/-- **Taking a delayed payload out** leaves every other job as it is. -/
theorem Conserved.dropDelayed (hp : q.delayed payload = some score) :
    Conserved floats q₀ (fun id => gone id ∨ payload.job = some id) (q.dropDelayed payload) := by
  have hother : ∀ id', payload.job ≠ some id' →
      ((q.dropDelayed payload).Waiting id' ↔ q.Waiting id') :=
    fun id' hne => waiting_congr fun p hpjob => Function.update_of_ne (by
      rintro rfl
      exact hne hpjob) _ _
  refine ⟨fun p score' hscore => ?_, h.ready, fun id' hsole hgone => ?_, fun id' habsent => ?_⟩
  · by_cases heq : p = payload
    · subst heq
      rw [show (q.dropDelayed p).delayed p = none from Function.update_self _ _ _] at hscore
      cases hscore
    · refine h.delayed p score' ?_
      rw [← hscore]
      exact (Function.update_of_ne heq _ _).symm
  · obtain ⟨hgone, hne⟩ := not_or.mp hgone
    rw [hother id' hne]
    exact h.kept id' hsole hgone
  · by_cases heq : payload.job = some id'
    · obtain ⟨_, _, hcount, honly⟩ := h.of_delayed h₀ heq hp
      refine ⟨not_waiting_iff.mpr fun p hpjob => ?_, hcount⟩
      by_cases hp' : p = payload
      · rw [hp']
        exact Function.update_self _ _ _
      · rw [show (q.dropDelayed payload).delayed p = q.delayed p from
          Function.update_of_ne hp' _ _]
        by_contra hno
        exact hp' (honly p hpjob hno)
    · have habs : Absent id' q := h.absent id' (habsent.imp_right fun hgone =>
        hgone.resolve_right heq)
      exact ⟨(hother id' heq).not.mpr habs.1, habs.2⟩

/-! ## What the scripts keep -/

/-- A job that is not gone has exactly one payload. -/
theorem Conserved.sole (hsole : Sole id q₀) (hgone : ¬gone id) : Sole id q := by
  rcases h.kept id hsole hgone with ⟨⟨p, hpjob, hp⟩, hcount⟩ | hready
  · obtain ⟨score, hscore⟩ := Option.ne_none_iff_exists'.mp hp
    obtain ⟨_, _, _, honly⟩ := h.of_delayed h₀ hpjob hscore
    exact Or.inl ⟨⟨p, ⟨hpjob, hp⟩, fun p' hp' => honly p' hp'.1 hp'.2⟩, hcount⟩
  · exact Or.inr hready

/-- While a payload is delayed no payload of its job is ready. -/
theorem Conserved.notMem_ready (hp : q.delayed payload = some score)
    (hjob : replacement.job = payload.job) : replacement ∉ q.ready := by
  intro hmem
  obtain ⟨id, hid⟩ := h₀.delayed payload (by
    rw [h.delayed payload score hp]
    exact Option.some_ne_none score)
  obtain ⟨_, _, hno, _⟩ := h.of_ready h₀ (hjob.trans hid) hmem
  exact hno (waiting_of_delayed hid hp)

/-- **Migration** of one payload conserves the queue. -/
theorem Conserved.migrateOne (now : ℤ) (payload : Payload) :
    Conserved floats q₀ gone (q.migrateOne now payload) := by
  unfold Queue.migrateOne
  split
  next score hp =>
    split_ifs
    · refine h.hurry h₀ hp rfl (Or.inr (Or.inl ?_))
      rw [h.delayed payload score hp]
      exact Option.some_ne_none score
    · exact h
  next => exact h

omit h in
/-- Laravel's `migrate` keeps every job. -/
theorem Conserved.migrate (now : ℤ) (due : List Payload) {q : Queue}
    (h : Conserved floats q₀ gone q) :
    Conserved floats q₀ gone (q.migrate now due) := by
  induction due generalizing q with
  | nil => exact h
  | cons payload due ih => exact ih (h.migrateOne h₀ now payload)

/-- A worker takes its job out and leaves every other one as it is. -/
theorem Conserved.pop {q' : Queue} (hpop : q.pop = some (payload, q')) :
    Conserved floats q₀ (fun id => gone id ∨ payload.job = some id) q' := by
  obtain ⟨p, hhead, hq'⟩ := Option.map_eq_some_iff.mp hpop
  obtain ⟨rfl, rfl⟩ := Prod.mk.inj hq'
  exact h.dropReady h₀ (List.mem_of_mem_head? hhead)

/-- A cancellation that removes nothing changes nothing, any other takes its job out and leaves
every other one as it is. -/
theorem Conserved.cancel (payload : Payload) (includesReady includesDelayed : Bool) :
    ((q.cancel payload includesReady includesDelayed).1 = 0 ∧
        (q.cancel payload includesReady includesDelayed).2 = q) ∨
      (0 < (q.cancel payload includesReady includesDelayed).1 ∧
        Conserved floats q₀ (fun id => gone id ∨ payload.job = some id)
          (q.cancel payload includesReady includesDelayed).2) := by
  unfold Queue.cancel
  by_cases hready : includesReady = true ∧ payload ∈ q.ready
  · rw [if_pos hready]
    have hdropped := h.dropReady h₀ hready.2
    -- the job is gone by now, so that none of its payloads is delayed
    have hdelayed : ¬(includesDelayed = true ∧
        ((q.dropReady payload).delayed payload).isSome = true) := by
      rintro ⟨_, hsome⟩
      obtain ⟨score, hscore⟩ := Option.isSome_iff_exists.mp hsome
      obtain ⟨id, hid⟩ := h₀.delayed payload (by
        rw [hdropped.delayed payload score hscore]
        exact Option.some_ne_none score)
      exact (hdropped.absent id (Or.inr (Or.inr hid))).1 (waiting_of_delayed hid hscore)
    refine Or.inr ?_
    dsimp only
    rw [if_neg hdelayed]
    exact ⟨Nat.one_pos, hdropped⟩
  · rw [if_neg hready]
    by_cases hdelayed : includesDelayed = true ∧ (q.delayed payload).isSome = true
    · obtain ⟨score, hscore⟩ := Option.isSome_iff_exists.mp hdelayed.2
      refine Or.inr ?_
      dsimp only
      rw [if_pos hdelayed]
      exact ⟨Nat.one_pos, h.dropDelayed h₀ hscore⟩
    · refine Or.inl ?_
      dsimp only
      rw [if_neg hdelayed]
      exact ⟨rfl, rfl⟩

end Moves

/-- **Rolling back at once** restores the delayed payloads with their scores, the ready payloads and
the notifications. -/
theorem rollback_hurry (hp : q.delayed payload = some score) (hmem : replacement ∉ q.ready) :
    (q.hurry payload replacement).rollback payload replacement score = some q := by
  have hlast : replacement ∈ (q.hurry payload replacement).ready :=
    List.mem_append_right _ List.mem_cons_self
  unfold rollback
  rw [if_pos hlast]
  congr 1
  ext1
  · show Function.update (Function.update q.delayed payload none) payload (some score) = q.delayed
    rw [Function.update_idem, ← hp, Function.update_eq_self]
  · show (q.ready ++ [replacement]).erase replacement = q.ready
    rw [List.erase_append_right _ hmem, List.erase_cons_head, List.append_nil]
  · show q.notify + 1 - 1 = q.notify
    omega

end Queue

end HorizonNewDawn

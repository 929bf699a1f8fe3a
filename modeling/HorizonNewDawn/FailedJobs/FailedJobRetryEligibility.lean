import HorizonNewDawn.Php.JsonText

/-! # Which failed jobs may be retried

Horizon records the retries of a failed job as a JSON text in the field `retried_by` of its hash. A
single retry is allowed where every recorded retry has failed, a bulk retry where none is
recorded. -/

namespace HorizonNewDawn

/-- A failed job as the job repository returns it. -/
structure FailedJob where
  id : Php
  payload : Php
  retriedBy : Php

namespace FailedJobRetryEligibility

/-- `json_decode` of a text; `none` is the exception. -/
def decode (text : String) : Option Php := (Json.read text.toList).map Php.jsonDecode

/-- `hasValidPayload` -/
def hasValidPayload (payload : Php) : Bool :=
  match payload with
  | .str text =>
      if text = "" then false
      else
        match decode text with
        | some (.array _) => true
        | _ => false
  | _ => false

/-- `retries` -/
def retries (retriedBy : Php) : Option (List (String × Php)) :=
  match retriedBy with
  | .null | .bool false => some []
  | .str text =>
      if text = "" then some []
      else
        match decode text with
        | some (.array retries) => some retries
        | _ => none
  | .array retries => some retries
  | _ => none

/-- `allRetriesFailed` -/
def allRetriesFailed (retries : List (String × Php)) : Bool :=
  retries.all fun retry =>
    match retry.2 with
    | .array entries => Php.getStr "status" entries = some "failed"
    | _ => false

/-- `allows` -/
def allows (job : FailedJob) : Bool :=
  if hasValidPayload job.payload then
    match retries job.retriedBy with
    | some retries => allRetriesFailed retries
    | none => false
  else false

/-- `allowsBulk` -/
def allowsBulk (job : FailedJob) : Bool :=
  if hasValidPayload job.payload then
    match retries job.retriedBy with
    | some [] => true
    | _ => false
  else false

end FailedJobRetryEligibility

/-! ## Recorded retries -/

/-- A retry that Horizon has recorded, at a time of 64 bits. -/
structure Retry where
  id : String
  status : String
  retriedAt : ℤ
  retriedAt_mem : -9223372036854775808 ≤ retriedAt ∧ retriedAt ≤ 9223372036854775807

namespace Retry

/-- A retry in the field `retried_by`. -/
def json (retry : Retry) : Json :=
  .obj [("id", .str retry.id), ("status", .str retry.status), ("retried_at", .num retry.retriedAt)]

/-- The field `retried_by` of a job with these retries; it is missing as long as there are none. -/
def retriedBy (retries : List Retry) : Php :=
  if retries = [] then .null
  else .str (String.ofList (Json.spell (.arr (retries.map json))))

/-- The entries of a decoded retry. -/
def entries (retry : Retry) : List (String × Php) :=
  [("id", .str retry.id), ("status", .str retry.status), ("retried_at", .int retry.retriedAt)]

/-- A recorded retry, decoded. -/
theorem jsonDecode_json (retry : Retry) : Php.jsonDecode retry.json = .array retry.entries := by
  have hint : IsInt retry.retriedAt := retry.retriedAt_mem
  simp [json, entries, Php.jsonDecode, Php.jsonDecodeMembers, Php.set, Php.number, hint]

end Retry

namespace FailedJobRetryEligibility

variable {recorded : List Retry}

/-- **The recorded retries are read back.** -/
theorem retries_retriedBy (recorded : List Retry) : retries (Retry.retriedBy recorded) =
    some ((Php.listKeys recorded.length).zip (recorded.map fun retry => .array retry.entries)) := by
  rw [Retry.retriedBy]
  by_cases hnil : recorded = []
  · rw [if_pos hnil, hnil]
    rfl
  · have hspellable : Json.Spellable 512 (.arr (recorded.map Retry.json)) := by
      refine .arr fun v hv => ?_
      obtain ⟨retry, -, rfl⟩ := List.mem_map.mp hv
      refine .obj fun m hm => ?_
      simp only [List.mem_cons, List.not_mem_nil, or_false] at hm
      rcases hm with rfl | rfl | rfl
      · exact .str _
      · exact .str _
      · exact .num retry.retriedAt_mem.1 retry.retriedAt_mem.2
    have hdecode : decode (String.ofList (Json.spell (.arr (recorded.map Retry.json)))) =
        some (.array ((Php.listKeys recorded.length).zip
          (recorded.map fun retry => .array retry.entries))) := by
      have hmap : recorded.map (Php.jsonDecode ∘ Retry.json) =
          recorded.map fun retry => .array retry.entries :=
        List.map_congr_left fun retry _ => retry.jsonDecode_json
      rw [decode, String.toList_ofList, Json.read_spell hspellable, Option.map_some,
        Php.jsonDecode, Php.jsonDecodeValues_eq_map, List.length_map, List.map_map, hmap]
    have hne : String.ofList (Json.spell (.arr (recorded.map Retry.json))) ≠ "" := by
      intro hempty
      rw [hempty] at hdecode
      cases hdecode
    simp only [if_neg hnil, retries, if_neg hne, hdecode]

/-- A bulk retry is allowed only where no retry is recorded. -/
theorem eq_nil_of_allowsBulk {job : FailedJob} (hjob : job.retriedBy = Retry.retriedBy recorded)
    (h : allowsBulk job) : recorded = [] := by
  rw [allowsBulk, hjob, retries_retriedBy] at h
  cases recorded with
  | nil => rfl
  | cons retry rest =>
      rw [List.length_cons, Php.listKeys, List.range_succ_eq_map, List.map_cons, List.map_cons,
        List.zip_cons_cons] at h
      split at h <;> cases h

/-- A single retry is allowed only where every recorded retry has failed. -/
theorem failed_of_allows {job : FailedJob} (hjob : job.retriedBy = Retry.retriedBy recorded)
    (h : allows job) : ∀ retry ∈ recorded, retry.status = "failed" := by
  rw [allows, hjob, retries_retriedBy] at h
  have hall : allRetriesFailed ((Php.listKeys recorded.length).zip
      (recorded.map fun retry => .array retry.entries)) := by
    split at h
    · exact h
    · cases h
  intro retry hretry
  have hmem : Php.array retry.entries ∈ ((Php.listKeys recorded.length).zip
      (recorded.map fun retry => Php.array retry.entries)).map Prod.snd := by
    rw [List.map_snd_zip (by simp [Php.listKeys])]
    exact List.mem_map.mpr ⟨retry, hretry, rfl⟩
  obtain ⟨e, he, hentries⟩ := List.mem_map.mp hmem
  have hstatus := List.all_eq_true.mp hall e he
  rw [hentries] at hstatus
  simpa [Retry.entries, Php.getStr, Php.get_cons] using hstatus

end FailedJobRetryEligibility

end HorizonNewDawn

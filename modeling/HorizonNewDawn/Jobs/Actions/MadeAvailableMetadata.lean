import HorizonNewDawn.Jobs.Actions.ReleaseDelayedJobNow
import HorizonNewDawn.Php.RoundTrip

/-! # The payload of a job that is made available

A delayed job is released with the time of the release in its payload, which is decoded into arrays
and encoded again. `handle_replaces` says what this leaves of the document: every object with the keys
of a list becomes a list, and every number that is no integer of 64 bits is written as the float it
denotes. A payload with a number beyond the floats is not replaced, and the job stays delayed. -/

namespace HorizonNewDawn

open Assignments Program

namespace Payload

/-- The members of the object a payload spells, one for each key. -/
def object (payload : Payload) : Option (List (String × Json)) :=
  match payload.document.map Json.single with
  | some (.obj members) => some members
  | _ => none

/-- What is kept as `horizonNewDawn`: the members of an object, or the values of a list under their
positions. -/
def metadata (members : List (String × Json)) : List (String × Json) :=
  match get "horizonNewDawn" members with
  | some (.obj metadata) => metadata
  | some (.arr values) => (Php.listKeys values.length).zip values
  | _ => []

/-- The members with the time at which the job was made available. -/
def madeAvailable (timestamp : ℤ) (members : List (String × Json)) : List (String × Json) :=
  put "horizonNewDawn" (.obj (put "madeAvailableAt" (.num timestamp) (metadata members))) members

/-- The same for a decoded payload. -/
def decodedMadeAvailable (timestamp : ℤ) (entries : List (String × Php)) : List (String × Php) :=
  let metadata := match get "horizonNewDawn" entries with
    | some (.array metadata) => metadata
    | _ => []
  put "horizonNewDawn" (.array (put "madeAvailableAt" (.int timestamp) metadata)) entries

/-- A value as it is written after it has been decoded. -/
def rewritten (floats : FloatWriter) (v : Json) : Json := (v.written floats).listed

/-- What becomes of a payload with the given members: its lists and objects stay what they are but
for the objects with the keys of a list, and its floats are as they are written; the document is the
same with the time if and only if there is no such object in it and no float that is spelled in another
way; decoded it is the same with the time, but that floats which are written as integers are integers;
and so it is when the time is set again. -/
structure Replaces (floats : FloatWriter) (payload : Payload) (members : List (String × Json))
    (timestamp : ℤ) (replacement : Payload) : Prop where
  document : replacement.document =
    some (.obj (madeAvailable timestamp (onValues (rewritten floats) members)))
  unchanged : replacement.document = some (.obj (madeAvailable timestamp members)) ↔
    (∀ m ∈ members, m.1 ≠ "horizonNewDawn" → m.2.Listless ∧ m.2.written floats = m.2) ∧
      ∀ m ∈ metadata members, m.1 ≠ "madeAvailableAt" → m.2.Listless ∧ m.2.written floats = m.2
  decoded : replacement.decoded = payload.decoded.map fun entries =>
    decodedMadeAvailable timestamp (onValues (Php.rewritten floats) entries)
  again : ∀ later, replacement.withMadeAvailableMetadata floats later =
    payload.withMadeAvailableMetadata floats later

variable {floats : FloatWriter} {payload replacement : Payload} {members : List (String × Json)}
  {timestamp : ℤ}

/-! ## The documents -/

/-- The document of a payload that is an object. -/
theorem exists_of_object (h : payload.object = some members) :
    ∃ document, payload.document = some document ∧ document.single = .obj members := by
  unfold object at h
  cases hdocument : payload.document with
  | none =>
      rw [hdocument] at h
      cases h
  | some document =>
      rw [hdocument, Option.map_some] at h
      refine ⟨document, rfl, ?_⟩
      cases hsingle : document.single with
      | obj members' =>
          rw [hsingle] at h
          rw [Option.some.inj h]
      | _ =>
          rw [hsingle] at h
          cases h

/-- The members of a payload have distinct keys, at every depth. -/
theorem single_of_object (h : payload.object = some members) : (Json.obj members).Single := by
  obtain ⟨document, _, hsingle⟩ := exists_of_object h
  rw [← hsingle]
  exact document.single_single

/-- Such a payload, decoded. -/
theorem decoded_of_object (h : payload.object = some members) :
    payload.document.map Php.jsonDecode = some (.array (onValues Php.jsonDecode members)) := by
  obtain ⟨document, hdocument, hsingle⟩ := exists_of_object h
  rw [hdocument, Option.map_some, ← Php.jsonDecode_single, hsingle, Php.jsonDecode_obj,
    collapse_of_nodup (single_of_object h).nodup_keys]

/-- The metadata of a decoded payload. -/
theorem metadata_onValues_jsonDecode (h : (Json.obj members).Single) :
    (match get "horizonNewDawn" (onValues Php.jsonDecode members) with
      | some (.array metadata) => metadata
      | _ => []) = onValues Php.jsonDecode (metadata members) := by
  unfold metadata
  rw [get_onValues]
  cases hget : get "horizonNewDawn" members with
  | none => rfl
  | some v =>
      have hsingle : v.Single := h.single_members _ (mem_of_get hget)
      cases hsingle with
      | arr _ =>
          rw [Option.map_some, Php.jsonDecode, Php.jsonDecodeValues_eq_map]
          exact Php.zip_onValues _ _ _
      | obj hkeys _ =>
          rw [Option.map_some, Php.jsonDecode_obj, collapse_of_nodup hkeys]
      | num n =>
          rw [Option.map_some, Php.jsonDecode, Php.number]
          split_ifs <;> rfl
      | _ => rfl

/-- The metadata of a document that has been decoded and encoded again. -/
theorem metadata_onValues_rewritten :
    metadata (onValues (rewritten floats) members) = onValues (rewritten floats) (metadata members) := by
  unfold metadata
  rw [get_onValues]
  cases get "horizonNewDawn" members with
  | none => rfl
  | some v =>
      rw [Option.map_some]
      cases v with
      | num n =>
          rw [rewritten, Json.written, Json.writtenNumber]
          split_ifs
          · rfl
          · rw [Json.listed_document]
            obtain ⟨m, hm⟩ | ⟨literal, hl⟩ := Json.exists_document (floats.write (toString n))
            · rw [hm]
              rfl
            · rw [hl]
              rfl
      | real literal =>
          rw [rewritten, Json.written, Json.listed_document]
          obtain ⟨m, hm⟩ | ⟨literal', hl⟩ := Json.exists_document (floats.write literal)
          · rw [hm]
            rfl
          · rw [hl]
            rfl
      | arr values =>
          rw [rewritten, Json.written_arr, Json.listed_arr, List.map_map]
          simp only [List.length_map]
          exact Php.zip_onValues _ _ _
      | obj inner =>
          have hlength := length_onValues (l := inner) (Json.written floats)
          have hfst := keys_onValues (l := inner) (Json.written floats)
          rw [rewritten, Json.written_obj]
          by_cases hlist : inner.map Prod.fst = Php.listKeys inner.length
          · have hzip : (Php.listKeys inner.length).zip (inner.map Prod.snd) = inner := by
              rw [← hlist, List.zip_map']
              exact List.map_id inner
            rw [Json.listed_obj_of_eq (by rw [hfst, hlength, hlist])]
            simp only [List.length_map, hlength]
            conv_rhs => rw [← hzip, ← Php.zip_onValues, List.map_map]
            rw [onValues, List.map_map]
            rfl
          · rw [Json.listed_obj_of_ne (by rwa [hfst, hlength]), onValues_onValues]
            rfl
      | _ => rfl

/-- The values of the metadata are values of the document. -/
theorem single_of_mem_metadata (h : (Json.obj members).Single) :
    (((metadata members).map Prod.fst).Nodup) ∧ ∀ m ∈ metadata members, m.2.Single := by
  unfold metadata
  cases hget : get "horizonNewDawn" members with
  | none => simp
  | some v =>
      have hsingle : v.Single := h.single_members _ (mem_of_get hget)
      cases hsingle with
      | @arr values h =>
          constructor
          · have hfst : ((Php.listKeys values.length).zip values).map Prod.fst =
                Php.listKeys values.length := by
              apply List.map_fst_zip
              simp [Php.listKeys]
            show (((Php.listKeys values.length).zip values).map Prod.fst).Nodup
            rw [hfst]
            exact List.nodup_range.map fun _ _ => Php.eq_of_toString_eq
          · intro m hm
            exact h m.2 (List.of_mem_zip hm).2
      | obj hkeys h => exact ⟨hkeys, h⟩
      | _ => simp

/-! ## Setting the time -/

/-- The payload with the time has distinct keys too. -/
theorem single_madeAvailable (h : (Json.obj members).Single) :
    (Json.obj (madeAvailable timestamp members)).Single := by
  obtain ⟨hkeys, hvalues⟩ := single_of_mem_metadata h
  have hmetadata : (Json.obj (put "madeAvailableAt" (.num timestamp) (metadata members))).Single := by
    apply Json.Single.obj (nodup_put hkeys)
    exact forall_mem_put (.num timestamp) hvalues
  apply Json.Single.obj (nodup_put h.nodup_keys)
  exact forall_mem_put hmetadata h.single_members

/-- The document with the time, decoded. -/
theorem jsonDecode_madeAvailable (h : (Json.obj members).Single) (htime : IsInt timestamp) :
    Php.jsonDecode (.obj (madeAvailable timestamp members)) =
      .array (decodedMadeAvailable timestamp (onValues Php.jsonDecode members)) := by
  obtain ⟨hkeys, -⟩ := single_of_mem_metadata h
  unfold decodedMadeAvailable madeAvailable
  simp only
  rw [metadata_onValues_jsonDecode h, Php.jsonDecode_obj, collapse_of_nodup (nodup_put h.nodup_keys),
    ← put_onValues, Php.jsonDecode_obj, collapse_of_nodup (nodup_put hkeys), ← put_onValues,
    Php.jsonDecode, Php.number, if_pos htime]

/-- The document with the time, decoded and encoded again. -/
theorem rewritten_madeAvailable (htime : IsInt timestamp) :
    rewritten floats (.obj (madeAvailable timestamp members)) =
      .obj (madeAvailable timestamp (onValues (rewritten floats) members)) := by
  have htimestamp : rewritten floats (.num timestamp) = .num timestamp := by
    rw [rewritten, Json.written, Json.writtenNumber, if_pos htime]
    rfl
  have hobject : ∀ {key : String} {c : Char} {value : Json} {l : List (String × Json)},
      c ∈ key.toList → c.isDigit = false → rewritten floats (.obj (put key value l)) =
        .obj (put key (rewritten floats value) (onValues (rewritten floats) l)) := by
    intro key c value l hc hdigit
    have hkeys : (put key value l).map Prod.fst ≠ Php.listKeys (put key value l).length := by
      intro hlist
      apply Php.notMem_listKeys hc hdigit
      rw [← hlist]
      exact mem_keys_put.mpr (Or.inl rfl)
    rw [rewritten, Json.written_obj, Json.listed_obj_of_ne
      (by rwa [keys_onValues, length_onValues]), onValues_onValues, put_onValues]
    rfl
  unfold madeAvailable
  rw [hobject (c := 'h') (by decide) (by decide), hobject (c := 'm') (by decide) (by decide),
    htimestamp, metadata_onValues_rewritten]

/-- What the method makes of an array. -/
theorem withMadeAvailableMetadata_of_decoded {entries : List (String × Php)}
    (h : payload.document.map Php.jsonDecode = some (.array entries)) :
    payload.withMadeAvailableMetadata floats timestamp =
      (Php.jsonEncode floats (.array (decodedMadeAvailable timestamp entries))).map
        fun document => ⟨some document, ""⟩ := by
  have hput : ∀ metadata : List (String × Php),
      Php.set "horizonNewDawn" (.array (Php.set "madeAvailableAt" (.int timestamp) metadata))
          entries =
        put "horizonNewDawn" (.array (put "madeAvailableAt" (.int timestamp) metadata)) entries := by
    intro metadata
    rw [Php.set_eq_put, Php.set_eq_put]
  unfold withMadeAvailableMetadata
  rw [h]
  exact congrArg (fun entries => (Php.jsonEncode floats (.array entries)).map fun document =>
    (⟨some document, ""⟩ : Payload)) (hput _)

/-- **What the method makes of a payload**: it throws at an infinite float. -/
theorem withMadeAvailableMetadata_of_object (h : payload.object = some members)
    (htime : IsInt timestamp) :
    payload.withMadeAvailableMetadata floats timestamp =
      if (Json.obj (madeAvailable timestamp members)).finite floats then
        some ⟨some (.obj (madeAvailable timestamp (onValues (rewritten floats) members))), ""⟩
      else none := by
  have hsingle := single_of_object h
  rw [withMadeAvailableMetadata_of_decoded (decoded_of_object h),
    ← jsonDecode_madeAvailable hsingle htime, Php.jsonEncode_jsonDecode,
    (single_madeAvailable hsingle).single_eq, ← rewritten_madeAvailable htime]
  split_ifs <;> rfl

/-- Rewriting the floats and setting the time do not interfere. -/
theorem onValues_decodedMadeAvailable {entries : List (String × Php)} :
    onValues (Php.rewritten floats) (decodedMadeAvailable timestamp entries) =
      decodedMadeAvailable timestamp (onValues (Php.rewritten floats) entries) := by
  have hmetadata : (match get "horizonNewDawn" (onValues (Php.rewritten floats) entries) with
      | some (.array metadata) => metadata
      | _ => []) = onValues (Php.rewritten floats) (match get "horizonNewDawn" entries with
        | some (.array metadata) => metadata
        | _ => []) := by
    rw [get_onValues]
    cases get "horizonNewDawn" entries with
    | none => rfl
    | some v =>
        rw [Option.map_some]
        cases v with
        | array metadata => rw [Php.rewritten_array]
        | float literal =>
            rw [Php.rewritten, Php.rewrittenFloat]
            split_ifs
            · cases floats.write literal <;> rfl
            · rfl
        | _ => rfl
  unfold decodedMadeAvailable
  simp only [hmetadata]
  rw [← put_onValues, Php.rewritten_array, ← put_onValues]
  rfl

/-- The later time counts. -/
theorem decodedMadeAvailable_decodedMadeAvailable {later : ℤ} {entries : List (String × Php)} :
    decodedMadeAvailable later (decodedMadeAvailable timestamp entries) =
      decodedMadeAvailable later entries := by
  unfold decodedMadeAvailable
  simp only [get_put, put_put]

/-- The floats of the payload with the time do not depend on the time. -/
theorem finite_decodedMadeAvailable {later : ℤ} {entries : List (String × Php)}
    (h : Php.finite floats (.array (decodedMadeAvailable timestamp entries)) = true) :
    Php.finite floats (.array (decodedMadeAvailable later entries)) = true := by
  unfold decodedMadeAvailable at h ⊢
  rw [Php.finite_array] at h ⊢
  have hmetadata := h _ mem_put_self
  rw [Php.finite_array] at hmetadata
  have hlater : Php.finite floats (.int later) = true := rfl
  exact forall_mem_put_of (P := fun v => Php.finite floats v = true)
    (Php.finite_array.mpr (forall_mem_put_of (P := fun v => Php.finite floats v = true) hlater
      hmetadata)) h

/-- **The replacement of a payload.** -/
theorem replaces_of_object (h : payload.object = some members) (htime : IsInt timestamp)
    (hreplacement : payload.withMadeAvailableMetadata floats timestamp = some replacement) :
    payload.Replaces floats members timestamp replacement := by
  have hsingle := single_of_object h
  have hdecoded := decoded_of_object h
  obtain ⟨hinner, -⟩ := single_of_mem_metadata hsingle
  have hmade : (Json.obj (madeAvailable timestamp members)).Single := single_madeAvailable hsingle
  rw [withMadeAvailableMetadata_of_object h htime] at hreplacement
  split_ifs at hreplacement with hfinite
  have hdocument : replacement.document =
      some (.obj (madeAvailable timestamp (onValues (rewritten floats) members))) := by
    rw [← Option.some.inj hreplacement]
  have hread : replacement.document.map Php.jsonDecode =
      some (.array (decodedMadeAvailable timestamp
        (onValues (Php.rewritten floats) (onValues Php.jsonDecode members)))) := by
    rw [hdocument, ← rewritten_madeAvailable htime, Option.map_some, rewritten,
      Php.jsonDecode_listed hmade.written, Php.jsonDecode_written hmade hfinite,
      jsonDecode_madeAvailable hsingle htime, Php.rewritten_array, onValues_decodedMadeAvailable]
  refine ⟨hdocument, ?_, ?_, ?_⟩
  · rw [hdocument, Option.some.injEq, Json.obj.injEq]
    unfold madeAvailable
    rw [put_onValues_eq_put hsingle.nodup_keys, Json.obj.injEq, metadata_onValues_rewritten,
      put_onValues_eq_put hinner, and_iff_right rfl, and_comm]
    simp only [rewritten, Json.listed_written_eq_self]
  · unfold Payload.decoded
    rw [hread, hdecoded]
    rfl
  · intro later
    have hlater : Php.finite floats
        (.array (decodedMadeAvailable later (onValues Php.jsonDecode members))) = true := by
      apply @finite_decodedMadeAvailable floats timestamp
      rw [← jsonDecode_madeAvailable hsingle htime, Php.finite_jsonDecode, hmade.single_eq]
      exact hfinite
    obtain ⟨hfinite', hsame⟩ := Php.document_rewritten hlater
    rw [withMadeAvailableMetadata_of_decoded hread, withMadeAvailableMetadata_of_decoded hdecoded,
      decodedMadeAvailable_decodedMadeAvailable, ← onValues_decodedMadeAvailable,
      ← Php.rewritten_array, Php.jsonEncode, Php.jsonEncode, if_pos hfinite', if_pos hlater, hsame]

end Payload

/-! ## The action -/

namespace ReleaseDelayedJobNow

variable {floats : FloatWriter} {payload : Payload} {members : List (String × Json)} {timestamp : ℤ}

/-- Every payload `handle` makes ready is the replacement of the one it removes. -/
theorem handle_obeys (queues : QueueManager) (id : String) (now : ℤ) :
    Obeys (fun _ o => ∀ key payload replacement, o = .moveNow key payload replacement →
        payload.withMadeAvailableMetadata floats now = some replacement)
      (fun _ _ => True) (handle floats queues id now) fun _ => True := by
  have hattempt : ∀ {o : Operation}, (∀ key payload replacement,
      o = .moveNow key payload replacement →
        payload.withMadeAvailableMetadata floats now = some replacement) →
      Obeys (fun _ o => ∀ key payload replacement, o = .moveNow key payload replacement →
          payload.withMadeAvailableMetadata floats now = some replacement)
        (fun _ _ => True) (attempt o) fun _ => True := fun ho => ⟨ho, fun _ _ => trivial⟩
  have hanswer : ∀ {o : Operation}, (∀ key payload replacement,
      o = .moveNow key payload replacement →
        payload.withMadeAvailableMetadata floats now = some replacement) →
      Obeys (fun _ o => ∀ key payload replacement, o = .moveNow key payload replacement →
          payload.withMadeAvailableMetadata floats now = some replacement)
        (fun _ _ => True) (answer o) fun _ => True := by
    intro o ho
    apply (hattempt ho).bind
    intro x _
    cases x <;> trivial
  unfold handle
  apply Obeys.bind (hanswer (by rintro _ _ _ ⟨⟩))
  intro job _
  cases job with
  | none => trivial
  | some job =>
      dsimp only
      split_ifs
      · trivial
      · split
        next connection queueName payload _ _ _ =>
          split_ifs
          · trivial
          · cases hreplacement : payload.withMadeAvailableMetadata floats now with
            | none => trivial
            | some replacement =>
                unfold release
                apply Obeys.bind
                · apply hanswer
                  intro key payload' replacement' hmove
                  cases hmove
                  exact hreplacement
                · intro score _
                  cases score with
                  | none => trivial
                  | some score =>
                      dsimp only
                      split_ifs
                      · trivial
                      · apply (hattempt (by rintro _ _ _ ⟨⟩)).bind
                        intro migrated _
                        cases migrated with
                        | some _ => trivial
                        | none =>
                            apply (hattempt (by rintro _ _ _ ⟨⟩)).bind
                            intro _ _
                            trivial
          · trivial
        next => trivial

/-- The members of a payload with an empty object in its data, a price without fraction and a list. -/
def unsentMembers : List (String × Json) :=
  [("uuid", .str "report"), ("data", .obj [("options", .obj []), ("price", .real "1.0")]),
    ("tags", .arr [.str "a", .num 3]), ("horizonNewDawn", .obj [("by", .str "user")])]

/-- A payload with these members. -/
def unsentPayload : Payload := ⟨some (.obj unsentMembers), ""⟩

/-- The literals of a few floats: `1.0` is written `1`, `1e999` is infinite, others are written as they
are spelled. -/
def fewFloats : FloatWriter where
  finite literal := literal ≠ "1e999"
  write literal := if literal = "1.0" then .num 1 else .real literal
  isInt literal n hwrite := by
    split_ifs at hwrite
    obtain rfl := Json.Number.num.inj hwrite
    decide
  again literal literal' hfinite hwrite := by
    split_ifs at hwrite with hone
    obtain rfl := Json.Number.real.inj hwrite
    exact ⟨hfinite, if_neg hone⟩

end ReleaseDelayedJobNow

end HorizonNewDawn

import HorizonNewDawn.Jobs.RetainedJobMetadata
import HorizonNewDawn.Php.Base64
import HorizonNewDawn.Php.Document
import Mathlib.Algebra.Order.Field.Rat
import Mathlib.Algebra.Order.Group.Unbundled.Abs
import Mathlib.Algebra.Order.Group.Int
import Mathlib.Data.Rat.Encodable

/-! # Cursors of retained-job pages

A cursor is a signed text that says for which retained-job type and query it was made, in which
phase the listing is and behind which entry the next page starts. Encoding and decoding a state give
the state back for the same type and query and an exception for any other; and where signatures
cannot be forged, nothing but an encoded state is ever decoded (`decodeState_encodeState`). -/

namespace HorizonNewDawn

/-- `value` of a retained-job type -/
def RetainedJobType.value : RetainedJobType → String
  | .pending => "pending"
  | .completed => "completed"
  | .silenced => "silenced"
  | .failed => "failed"

/-- Different types have different values. -/
theorem RetainedJobType.value_injective {t t' : RetainedJobType} (h : t.value = t'.value) :
    t = t' := by
  cases t <;> cases t' <;> first | rfl | exact absurd h (by decide)

/-- A number that a float of 64 bits holds: at most 53 binary digits, times a power of two. -/
def IsDouble (q : ℚ) : Prop :=
  ∃ m e : ℤ, |m| < 2 ^ 53 ∧ -1074 ≤ e ∧ e ≤ 971 ∧ q = m * (2 : ℚ) ^ e

/-- A float. -/
inductive PhpFloat
  | finite (q : ℚ) (double : IsDouble q)
  | infinite (negative : Bool)
  | nan
  deriving DecidableEq

/-- `is_finite` -/
def PhpFloat.isFinite : PhpFloat → Bool
  | .finite _ _ => true
  | _ => false

/-- The entry a page starts behind, and how many entries the pages before had. -/
structure CursorPosition where
  score : Option PhpFloat
  id : String
  offset : ℤ
  deriving DecidableEq

/-- `RetainedJobCursorState` -/
structure RetainedJobCursorState where
  position : Option CursorPosition
  phase : String
  deriving DecidableEq

namespace RetainedJobCursor

/-- `PHASE_DEFAULT` -/
def phaseDefault : String := "default"

/-- `PHASE_RESERVED` -/
def phaseReserved : String := "reserved"

/-- `PHASE_REST` -/
def phaseRest : String := "rest"

/-- Every phase. -/
def phases : List String := [phaseDefault, phaseReserved, phaseRest]

/-- What the cursors rely on: the application key, the signature of a text under a key, and the
texts of floats. -/
structure Surroundings where
  /-- `config('app.key')` -/
  appKey : Php
  /-- `hash_hmac('sha256', text, key, true)` -/
  hashHmac : List Char → String → List UInt8
  /-- `sprintf('%.17g', score)` -/
  print : PhpFloat → String
  /-- `(float) value` where `is_numeric(value)` -/
  toFloat : Php → Option PhpFloat

/-- The exception of every cursor that is not accepted. -/
def invalid : String := "The retained job cursor is invalid."

variable (env : Surroundings)

/-- `signingKey` -/
def signingKey : Except String String :=
  match env.appKey with
  | .str key =>
      if key = "" then .error "An application key is required for retained job pagination."
      else .ok key
  | _ => .error "An application key is required for retained job pagination."

/-- `base64UrlDecode`: the padding is put back. -/
def base64UrlDecode (value : List Char) : Option (List UInt8) :=
  let padding := value.length % 4
  Php.base64Decode ((if padding ≠ 0 then value ++ List.replicate (4 - padding) '=' else value).map
    Php.ofUrl)

/-- The entries of the signed document. -/
def payload (t : RetainedJobType) (querySignature : String) (state : RetainedJobCursorState) :
    List (String × Php) :=
  [("version", .int (if state.phase = phaseDefault then 4 else 5)),
    ("type", .str t.value),
    ("query", .str querySignature),
    ("score", match state.position with
      | some position => match position.score with
        | some score => .str (env.print score)
        | none => .null
      | none => .null),
    ("id", match state.position with
      | some position => .str position.id
      | none => .null),
    ("offset", .int (state.position.elim 0 (·.offset)))] ++
  if state.phase ≠ phaseDefault then [("phase", .str state.phase)] else []

/-- The part of `encodeState` that checks the state and encodes the document. -/
def encodePayload (t : RetainedJobType) (querySignature : String)
    (state : RetainedJobCursorState) : Except String (List Char) :=
  if state.phase ∉ phases then .error "The retained job cursor phase is invalid."
  else if state.phase = phaseDefault ∧ state.position = none then
    .error "The retained job cursor position is required."
  else if state.position.any fun position =>
      position.id = "" ∨ position.offset < 0 ∨ position.score = none then
    .error "The retained job cursor position is invalid."
  else .ok (Php.base64UrlEncode (Php.jsonBytes (payload env t querySignature state)))

/-- `encodeState` -/
def encodeState (t : RetainedJobType) (querySignature : String)
    (state : RetainedJobCursorState) : Except String (List Char) := do
  let encoded ← encodePayload env t querySignature state
  let key ← signingKey env
  return encoded ++ '.' :: Php.base64UrlEncode (env.hashHmac encoded key)

/-- `encode` -/
def encode (t : RetainedJobType) (querySignature : String) (position : CursorPosition) :
    Except String (List Char) :=
  encodeState env t querySignature ⟨some position, phaseDefault⟩

/-- `decodePayload` -/
def decodePayload (encoded : List Char) : Except String (List (String × Php)) :=
  match base64UrlDecode encoded with
  | none => .error invalid
  | some bytes =>
      match Php.jsonParse bytes with
      | some (.array decoded) => .ok decoded
      | _ => .error invalid

/-- The checks of `decodeState` on the decoded document, and the state it stands for. -/
def readPayload (payload : List (String × Php)) (t : RetainedJobType) (querySignature : String) :
    Except String (Option RetainedJobCursorState) :=
  let version := Php.entry "version" payload
  let phase : Php := match Php.entry "phase" payload with
    | .null => .str phaseDefault
    | phase => phase
  match Php.entry "type" payload, Php.entry "query" payload, phase, Php.entry "offset" payload with
  | .str type, .str query, .str phase, .int offset =>
      match version with
      | .int version =>
          if (version ≠ 4 ∧ version ≠ 5) ∨ type ≠ t.value ∨ query ≠ querySignature ∨
              phase ∉ phases ∨ (version = 4 ∧ phase ≠ phaseDefault) ∨
              (version = 5 ∧ phase = phaseDefault) ∨ offset < 0 then .error invalid
          else
            match Php.entry "score" payload, Php.entry "id" payload with
            | .null, .null =>
                if phase = phaseDefault then .error invalid else .ok (some ⟨none, phase⟩)
            | score, .str id =>
                match env.toFloat score with
                | some score =>
                    if id = "" then .error invalid
                    else .ok (some ⟨some ⟨some score, id, offset⟩, phase⟩)
                | none => .error invalid
            | _, _ => .error invalid
      | _ => .error invalid
  | _, _, _, _ => .error invalid

/-- `decodeState` -/
def decodeState (cursor : Php) (t : RetainedJobType) (querySignature : String) :
    Except String (Option RetainedJobCursorState) :=
  match cursor with
  | .null => .ok none
  | .int n => if n = -1 then .ok none else .error invalid
  | .str cursor =>
      if cursor = "-1" ∨ cursor = "" then .ok none
      else if '.' ∉ cursor.toList then .error invalid
      else do
        let encoded := cursor.toList.takeWhile (· ≠ '.')
        let encodedSignature := (cursor.toList.dropWhile (· ≠ '.')).tail
        let signature := base64UrlDecode encodedSignature
        let key ← signingKey env
        if signature ≠ some (env.hashHmac encoded key) then .error invalid
        else do
          let payload ← decodePayload encoded
          readPayload env payload t querySignature
  | _ => .error invalid

/-! ## What the cursors rely on -/

/-- Printing a finite float and reading it back gives the same float, and the texts of the other
floats are not numeric. -/
structure Surroundings.Lawful (env : Surroundings) : Prop where
  read_print : ∀ score, score.isFinite → env.toFloat (.str (env.print score)) = some score
  not_numeric : ∀ score, score.isFinite = false → env.toFloat (.str (env.print score)) = none

/-- The offset of the position is an integer of 64 bits. -/
def WellTyped (state : RetainedJobCursorState) : Prop :=
  ∀ position ∈ state.position, position.offset ≤ 9223372036854775807

/-- **A valid state**: a phase, with a position in the default phase, whose score is finite, whose id
is not empty and whose offset is not negative. -/
structure Valid (state : RetainedJobCursorState) : Prop where
  phase : state.phase ∈ phases
  position : state.phase = phaseDefault → state.position ≠ none
  score : ∀ position ∈ state.position, ∃ score, position.score = some score ∧ score.isFinite
  id : ∀ position ∈ state.position, position.id ≠ ""
  offset : ∀ position ∈ state.position,
    0 ≤ position.offset ∧ position.offset ≤ 9223372036854775807

/-- A cursor whose signature is right for its signed part has a signed part that was encoded from
some state: signatures are not forged. -/
def Unforged (env : Surroundings) (cursor : List Char) : Prop :=
  ∀ encoded encodedSignature key, cursor = encoded ++ '.' :: encodedSignature →
    '.' ∉ encoded → signingKey env = .ok key →
    base64UrlDecode encodedSignature = some (env.hashHmac encoded key) →
      ∃ t querySignature state, WellTyped state ∧
        encodePayload env t querySignature state = .ok encoded

/-! ## The signed document -/

variable {env} {t t' : RetainedJobType} {querySignature querySignature' : String}
  {state state' : RetainedJobCursorState}

/-- What `encodePayload` accepts. -/
structure Encodable (state : RetainedJobCursorState) : Prop where
  phase : state.phase ∈ phases
  position : state.phase = phaseDefault → state.position ≠ none
  checked : ∀ position ∈ state.position,
    position.id ≠ "" ∧ 0 ≤ position.offset ∧ position.score ≠ none

/-- A payload is encoded exactly where its state can be, and then as the JSON of the payload. -/
theorem encodePayload_eq_ok {encoded : List Char} :
    encodePayload env t querySignature state = .ok encoded ↔
      Encodable state ∧
        encoded = Php.base64UrlEncode (Php.jsonBytes (payload env t querySignature state)) := by
  rw [encodePayload]
  by_cases hphase : state.phase ∈ phases
  swap
  · rw [if_pos hphase]
    exact ⟨fun h => (by cases h), fun h => absurd h.1.phase hphase⟩
  rw [if_neg (not_not.mpr hphase)]
  by_cases hposition : state.phase = phaseDefault ∧ state.position = none
  · rw [if_pos hposition]
    exact ⟨fun h => (by cases h), fun h => absurd hposition.2 (h.1.position hposition.1)⟩
  rw [if_neg hposition]
  have hany : (state.position.any fun position =>
        decide (position.id = "" ∨ position.offset < 0 ∨ position.score = none)) = true ↔
      ¬ ∀ position ∈ state.position,
        position.id ≠ "" ∧ 0 ≤ position.offset ∧ position.score ≠ none := by
    cases state.position with
    | none => simp
    | some position =>
        simp only [Option.any_some, decide_eq_true_eq, Option.mem_some_iff, forall_eq']
        constructor
        · rintro (hempty | hneg | hnone) ⟨hid, hoffset, hscore⟩
          · exact hid hempty
          · omega
          · exact hscore hnone
        · intro h
          by_contra hnot
          push Not at hnot
          exact h hnot
  by_cases hchecked : ∀ position ∈ state.position,
      position.id ≠ "" ∧ 0 ≤ position.offset ∧ position.score ≠ none
  · rw [if_neg fun h => hany.mp h hchecked, Except.ok.injEq, eq_comm]
    have hencodable : Encodable state :=
      ⟨hphase, fun hdefault hnone => hposition ⟨hdefault, hnone⟩, hchecked⟩
    exact ⟨fun h => ⟨hencodable, h⟩, fun h => h.2⟩
  · rw [if_pos (hany.mpr hchecked)]
    exact ⟨fun h => (by cases h), fun h => absurd h.1.checked hchecked⟩

/-- The padding that was left out is put back. -/
theorem base64UrlDecode_base64UrlEncode (bytes : List UInt8) :
    base64UrlDecode (Php.base64UrlEncode bytes) = some bytes := by
  have hlength : (Php.base64UrlEncode bytes).length % 4 ≠ 1 := by
    rw [Php.base64UrlEncode_eq, List.length_map]
    exact Php.length_sextets_mod bytes
  rw [base64UrlDecode]
  split
  · exact Php.base64Decode_base64UrlEncode bytes (by omega)
  · have hnone : Php.base64Decode
        ((Php.base64UrlEncode bytes ++ List.replicate 0 '=').map Php.ofUrl) = some bytes :=
      Php.base64Decode_base64UrlEncode bytes (Or.inl rfl)
    rwa [List.replicate_zero, List.append_nil] at hnone

/-! ## The document of a state is read back -/

/-- The keys of a payload: the phase is left out where it is the default one. -/
theorem keys_payload : Php.keys (payload env t querySignature state) =
    ["version", "type", "query", "score", "id", "offset"] ++
      if state.phase ≠ phaseDefault then ["phase"] else [] := by
  by_cases hphase : state.phase = phaseDefault <;> simp [payload, Php.keys, hphase]

/-- No key is given twice. -/
theorem nodup_keys_payload : (Php.keys (payload env t querySignature state)).Nodup := by
  rw [keys_payload]
  split <;> decide

/-- The payload is encoded as an object, not as a list. -/
theorem keys_payload_ne_listKeys : Php.keys (payload env t querySignature state) ≠
    Php.listKeys (payload env t querySignature state).length := by
  rw [keys_payload]
  exact Php.keys_ne_listKeys (by decide)

/-- The values of a payload are scalars. -/
theorem scalar_payload (hencodable : Encodable state) (hwell : WellTyped state) :
    ∀ e ∈ payload env t querySignature state, Php.Scalar e.2 := by
  have hoffset : 0 ≤ state.position.elim 0 (·.offset) ∧
      state.position.elim 0 (·.offset) ≤ 9223372036854775807 := by
    cases hp : state.position with
    | none => simp
    | some position => exact ⟨(hencodable.checked position hp).2.1, hwell position hp⟩
  intro e he
  rw [payload, List.mem_append] at he
  rcases he with he | he
  · simp only [List.mem_cons, List.not_mem_nil, or_false] at he
    rcases he with rfl | rfl | rfl | rfl | rfl | rfl
    · split <;> exact ⟨by omega, by omega⟩
    · trivial
    · trivial
    · split
      · split <;> trivial
      · trivial
    · split <;> trivial
    · exact ⟨by omega, hoffset.2⟩
  · split at he
    · rw [List.mem_singleton.mp he]
      trivial
    · exact absurd he List.not_mem_nil

/-- **Round trip of the payload**: what is encoded is decoded again. -/
theorem decodePayload_encodePayload {encoded : List Char} (hwell : WellTyped state)
    (h : encodePayload env t querySignature state = .ok encoded) :
    decodePayload encoded = .ok (payload env t querySignature state) := by
  obtain ⟨hencodable, hencoded⟩ := encodePayload_eq_ok.mp h
  rw [hencoded, decodePayload, base64UrlDecode_base64UrlEncode]
  simp only [Php.jsonParse_jsonBytes nodup_keys_payload keys_payload_ne_listKeys
    (scalar_payload hencodable hwell)]

variable (env t querySignature state) in
/-- What the checks of a decoded document look at. -/
theorem entry_payload :
    Php.entry "version" (payload env t querySignature state) =
        .int (if state.phase = phaseDefault then 4 else 5) ∧
      Php.entry "type" (payload env t querySignature state) = .str t.value ∧
      Php.entry "query" (payload env t querySignature state) = .str querySignature ∧
      Php.entry "offset" (payload env t querySignature state) =
        .int (state.position.elim 0 (·.offset)) ∧
      Php.entry "phase" (payload env t querySignature state) =
        if state.phase = phaseDefault then .null else .str state.phase := by
  by_cases hphase : state.phase = phaseDefault <;>
    simp [Php.entry, payload, Php.get_cons, hphase]

variable (env t querySignature) in
/-- Without a position there is neither a score nor an id. -/
theorem entry_position_none (h : state.position = none) :
    Php.entry "score" (payload env t querySignature state) = .null ∧
      Php.entry "id" (payload env t querySignature state) = .null := by
  simp [Php.entry, payload, Php.get_cons, h]

variable (env t querySignature) in
/-- A position is spelled as the decimal of its score and its id. -/
theorem entry_position_some {score : PhpFloat} {id : String} {offset : ℤ}
    (h : state.position = some ⟨some score, id, offset⟩) :
    Php.entry "score" (payload env t querySignature state) = .str (env.print score) ∧
      Php.entry "id" (payload env t querySignature state) = .str id := by
  simp [Php.entry, payload, Php.get_cons, h]

/-- The position a decoded document stands for. -/
def readPosition (env : Surroundings) (state : RetainedJobCursorState) :
    Except String (Option RetainedJobCursorState) :=
  match state.position with
  | none => .ok (some state)
  | some ⟨none, _, _⟩ => .error invalid
  | some ⟨some score, id, offset⟩ =>
      match env.toFloat (.str (env.print score)) with
      | some score => .ok (some ⟨some ⟨some score, id, offset⟩, state.phase⟩)
      | none => .error invalid

/-- The document of a state is accepted for its own type and query only. -/
theorem readPayload_payload (h : Encodable state) :
    readPayload env (payload env t querySignature state) t' querySignature' =
      if t' = t ∧ querySignature' = querySignature then readPosition env state
      else .error invalid := by
  obtain ⟨hversion, htype, hquery, hoffset, hphase⟩ := entry_payload env t querySignature state
  have hread : (match Php.entry "phase" (payload env t querySignature state) with
      | .null => (.str phaseDefault : Php)
      | phase => phase) = .str state.phase := by
    rw [hphase]
    by_cases hdefault : state.phase = phaseDefault
    · rw [if_pos hdefault, hdefault]
    · rw [if_neg hdefault]
  simp only [readPayload, hversion, htype, hquery, hoffset, hread]
  have hoffset' : 0 ≤ state.position.elim 0 (·.offset) := by
    cases hp : state.position with
    | none => exact le_rfl
    | some position => exact (h.checked position hp).2.1
  by_cases hsame : t' = t ∧ querySignature' = querySignature
  swap
  · rw [if_neg hsame, if_pos]
    by_cases htype' : t' = t
    · exact Or.inr (Or.inr (Or.inl fun heq => hsame ⟨htype', heq.symm⟩))
    · exact Or.inr (Or.inl fun heq =>
        htype' (RetainedJobType.value_injective heq).symm)
  rw [if_pos hsame]
  obtain ⟨rfl, rfl⟩ := hsame
  rw [if_neg]
  swap
  · rintro (hnot | hnot | hnot | hnot | hnot | hnot | hnot)
    · split at hnot <;> omega
    · exact hnot rfl
    · exact hnot rfl
    · exact hnot h.phase
    · rw [if_neg hnot.2] at hnot
      omega
    · rw [if_pos hnot.2] at hnot
      omega
    · omega
  cases hp : state.position with
  | none =>
      obtain ⟨hscore, hid⟩ := entry_position_none env t' querySignature' hp
      rw [hscore, hid]
      simp only [readPosition, hp]
      rw [if_neg fun hdefault => h.position hdefault hp, ← hp]
  | some position =>
      obtain ⟨_ | score, id, offset⟩ := position
      · exact absurd rfl (h.checked _ hp).2.2
      obtain ⟨hscore, hid⟩ := entry_position_some env t' querySignature' hp
      rw [hscore, hid]
      simp only [readPosition, hp, Option.elim_some]
      split
      · rw [if_neg (h.checked _ hp).1]
      · rfl

/-! ## Decoding a cursor -/

/-- What is before the first dot of a text, and what is behind it. -/
theorem explode_append {encoded : List Char} (encodedSignature : List Char) (h : '.' ∉ encoded) :
    (encoded ++ '.' :: encodedSignature).takeWhile (· ≠ '.') = encoded ∧
      ((encoded ++ '.' :: encodedSignature).dropWhile (· ≠ '.')).tail = encodedSignature := by
  have hall : ∀ c ∈ encoded, (decide (c ≠ '.')) = true := fun c hc =>
    decide_eq_true fun heq => h (heq ▸ hc)
  constructor
  · rw [List.takeWhile_append_of_pos hall]
    simp
  · rw [List.dropWhile_append_of_pos hall]
    simp

/-- A text with a dot is split at its first dot. -/
theorem eq_append_of_mem {text : List Char} (h : '.' ∈ text) :
    text = text.takeWhile (· ≠ '.') ++ '.' :: (text.dropWhile (· ≠ '.')).tail ∧
      '.' ∉ text.takeWhile (· ≠ '.') := by
  obtain ⟨encoded, encodedSignature, rfl, hnot⟩ := List.eq_append_cons_of_mem h
  obtain ⟨htake, hdrop⟩ := explode_append encodedSignature hnot
  rw [htake, hdrop]
  exact ⟨rfl, hnot⟩

/-- A cursor whose signature is right is decoded as its signed part is read. -/
theorem decodeState_signed {encoded encodedSignature : List Char} {key : String}
    (hkey : signingKey env = .ok key) (hdot : '.' ∉ encoded)
    (hsignature : base64UrlDecode encodedSignature = some (env.hashHmac encoded key)) :
    decodeState env (.str (String.ofList (encoded ++ '.' :: encodedSignature))) t querySignature =
      decodePayload encoded >>= fun payload => readPayload env payload t querySignature := by
  have hmem : '.' ∈ (String.ofList (encoded ++ '.' :: encodedSignature)).toList := by
    rw [String.toList_ofList]
    exact List.mem_append_right _ List.mem_cons_self
  have hstart : ¬ (String.ofList (encoded ++ '.' :: encodedSignature) = "-1" ∨
      String.ofList (encoded ++ '.' :: encodedSignature) = "") := by
    rintro (h | h) <;> rw [h] at hmem <;> exact absurd hmem (by decide)
  obtain ⟨htake, hdrop⟩ := explode_append encodedSignature hdot
  simp only [decodeState]
  rw [if_neg hstart, if_neg (not_not.mpr hmem), hkey, String.toList_ofList, htake, hdrop]
  change (if base64UrlDecode encodedSignature ≠ some (env.hashHmac encoded key) then _ else _) = _
  rw [if_neg (not_not.mpr hsignature)]

/-- A cursor that is decoded to a state has a signature that is right for its signed part. -/
theorem of_decodeState {cursor : String}
    (h : decodeState env (.str cursor) t querySignature = .ok (some state)) :
    ∃ encoded encodedSignature key payload, cursor.toList = encoded ++ '.' :: encodedSignature ∧
      '.' ∉ encoded ∧ signingKey env = .ok key ∧
      base64UrlDecode encodedSignature = some (env.hashHmac encoded key) ∧
      decodePayload encoded = .ok payload ∧
      readPayload env payload t querySignature = .ok (some state) := by
  simp only [decodeState] at h
  split_ifs at h with hstart hdot
  · cases h
  obtain ⟨hcursor, hnot⟩ := eq_append_of_mem hdot
  cases hkey : signingKey env with
  | error message => rw [hkey] at h; cases h
  | ok key =>
      rw [hkey] at h
      change (if _ ≠ some (env.hashHmac _ key) then _ else _) = _ at h
      split_ifs at h with hsignature
      cases hpayload : decodePayload (cursor.toList.takeWhile (· ≠ '.')) with
      | error message => rw [hpayload] at h; cases h
      | ok payload =>
          rw [hpayload] at h
          exact ⟨_, _, key, payload, hcursor, hnot, rfl, not_not.mp hsignature, hpayload, h⟩

/-- A document stands for a valid state only, and for the one it was made of. -/
theorem readPosition_eq_ok (henv : env.Lawful) (h : Encodable state) (hwell : WellTyped state)
    (hread : readPosition env state = .ok (some state')) : state' = state ∧ Valid state := by
  cases hp : state.position with
  | none =>
      simp only [readPosition, hp, Except.ok.injEq, Option.some.injEq] at hread
      have hno : ∀ position, position ∉ state.position := fun position hmem => by
        rw [hp] at hmem
        cases hmem
      exact ⟨hread.symm, h.phase, h.position, fun _ hmem => absurd hmem (hno _),
        fun _ hmem => absurd hmem (hno _), fun _ hmem => absurd hmem (hno _)⟩
  | some position =>
      obtain ⟨score | score, id, offset⟩ := position
      · exact absurd rfl (h.checked _ hp).2.2
      simp only [readPosition, hp] at hread
      cases hfinite : score.isFinite with
      | false => rw [henv.not_numeric score hfinite] at hread; cases hread
      | true =>
          rw [henv.read_print score hfinite] at hread
          simp only [Except.ok.injEq, Option.some.injEq] at hread
          have honly : ∀ position ∈ state.position, position = ⟨some score, id, offset⟩ :=
            fun position hmem => by
              rw [hp] at hmem
              exact (Option.mem_some_iff.mp hmem).symm
          refine ⟨by rw [← hread, ← hp], h.phase, h.position, ?_, ?_, ?_⟩
          · intro position hmem
            exact ⟨score, by rw [honly position hmem], hfinite⟩
          · intro position hmem
            exact (h.checked position hmem).1
          · intro position hmem
            exact ⟨(h.checked position hmem).2.1, hwell position hmem⟩

/-- A state that passes the checks of the decoder has the types of the payload. -/
theorem Valid.wellTyped (h : Valid state) : WellTyped state :=
  fun position hmem => (h.offset position hmem).2

/-- A state that passes the checks of the decoder can be encoded. -/
theorem Valid.encodable (h : Valid state) : Encodable state := by
  refine ⟨h.phase, h.position, fun position hmem => ⟨h.id position hmem,
    (h.offset position hmem).1, ?_⟩⟩
  obtain ⟨score, hscore, _⟩ := h.score position hmem
  rw [hscore]
  exact Option.some_ne_none score

/-- The document of a valid state is read back. -/
theorem readPosition_of_valid (henv : env.Lawful) (h : Valid state) :
    readPosition env state = .ok (some state) := by
  cases hp : state.position with
  | none => simp only [readPosition, hp]
  | some position =>
      obtain ⟨score, hscore, hfinite⟩ := h.score position hp
      obtain ⟨_, id, offset⟩ := position
      cases hscore
      simp only [readPosition, hp, henv.read_print score hfinite]
      rw [← hp]

/-- An encoded payload contains no dot. -/
theorem notMem_encodePayload {encoded : List Char}
    (h : encodePayload env t querySignature state = .ok encoded) : '.' ∉ encoded := by
  rw [(encodePayload_eq_ok.mp h).2]
  exact fun hmem => Php.ne_of_mem_base64UrlEncode hmem rfl

/-- A cursor is an encoded payload and its signature, with a dot in between. -/
theorem encodeState_eq_ok {key : String} (hkey : signingKey env = .ok key) {cursor : List Char} :
    encodeState env t querySignature state = .ok cursor ↔
      ∃ encoded, encodePayload env t querySignature state = .ok encoded ∧
        cursor = encoded ++ '.' :: Php.base64UrlEncode (env.hashHmac encoded key) := by
  rw [encodeState, hkey]
  cases encodePayload env t querySignature state with
  | error message => exact ⟨fun h => (by cases h), fun ⟨_, h, _⟩ => (by cases h)⟩
  | ok encoded =>
      constructor
      · intro h
        exact ⟨encoded, rfl, (Except.ok.inj h).symm⟩
      · rintro ⟨_, h, rfl⟩
        cases h
        rfl

/-- The signature of an encoded state is its own. -/
theorem unforged_encodeState {key : String} (hkey : signingKey env = .ok key)
    (hwell : WellTyped state) {cursor : List Char}
    (h : encodeState env t querySignature state = .ok cursor) : Unforged env cursor := by
  obtain ⟨encoded, hencoded, rfl⟩ := (encodeState_eq_ok hkey).mp h
  intro encoded' encodedSignature key' heq hdot _ _
  have htake := (explode_append encodedSignature hdot).1
  rw [← heq, (explode_append _ (notMem_encodePayload hencoded)).1] at htake
  rw [← htake]
  exact ⟨t, querySignature, state, hwell, hencoded⟩

variable (env t querySignature) in
/-- **Only what was encoded is decoded.** An encoded state is decoded for its own type and query, and
an exception is thrown for every other. Where a signature is not forged, what is decoded was encoded
for the same type and query, and is a valid state. -/
theorem decodeState_encodeState (henv : env.Lawful) {key : String}
    (hkey : signingKey env = .ok key) :
    (∀ state, Valid state → ∃ cursor, encodeState env t querySignature state = .ok cursor ∧
      ∀ t' querySignature', decodeState env (.str (String.ofList cursor)) t' querySignature' =
        if t' = t ∧ querySignature' = querySignature then .ok (some state) else .error invalid) ∧
    (∀ cursor : String, Unforged env cursor.toList →
      ∀ state, decodeState env (.str cursor) t querySignature = .ok (some state) →
        Valid state ∧ ∃ encoded encodedSignature,
          cursor.toList = encoded ++ '.' :: encodedSignature ∧ '.' ∉ encoded ∧
          base64UrlDecode encodedSignature = some (env.hashHmac encoded key) ∧
          encodeState env t querySignature state =
            .ok (encoded ++ '.' :: Php.base64UrlEncode (env.hashHmac encoded key))) := by
  constructor
  · intro state hvalid
    have hencoded : encodePayload env t querySignature state = .ok _ :=
      encodePayload_eq_ok.mpr ⟨hvalid.encodable, rfl⟩
    refine ⟨_, (encodeState_eq_ok hkey).mpr ⟨_, hencoded, rfl⟩, fun t' querySignature' => ?_⟩
    rw [decodeState_signed hkey (notMem_encodePayload hencoded)
      (base64UrlDecode_base64UrlEncode _),
      decodePayload_encodePayload hvalid.wellTyped hencoded]
    change readPayload env _ t' querySignature' = _
    rw [readPayload_payload hvalid.encodable, readPosition_of_valid henv hvalid]
  · intro cursor hunforged state hdecode
    obtain ⟨encoded, encodedSignature, key', payload', hcursor, hdot, hkey', hsignature, hpayload,
      hread⟩ := of_decodeState hdecode
    rw [hkey, Except.ok.injEq] at hkey'
    subst hkey'
    obtain ⟨t₀, querySignature₀, state₀, hwell, hencoded⟩ :=
      hunforged encoded encodedSignature key hcursor hdot hkey hsignature
    have hencodable := (encodePayload_eq_ok.mp hencoded).1
    rw [decodePayload_encodePayload hwell hencoded, Except.ok.injEq] at hpayload
    subst hpayload
    rw [readPayload_payload hencodable] at hread
    split_ifs at hread with hsame
    obtain ⟨rfl, rfl⟩ := hsame
    obtain ⟨rfl, hvalid⟩ := readPosition_eq_ok henv hencodable hwell hread
    exact ⟨hvalid, encoded, encodedSignature, hcursor, hdot, hsignature,
      (encodeState_eq_ok hkey).mpr ⟨encoded, hencoded, rfl⟩⟩

/-- Texts of floats: whole numbers in decimal, other finite numbers by a code. -/
def decimalOrCode : PhpFloat → String
  | .finite q _ =>
      if q = q.num.toNat then toString q.num.toNat else "#" ++ toString (Encodable.encode q)
  | .infinite negative => if negative then "-Inf" else "Inf"
  | .nan => "NaN"

/-- A number is spelled with a digit first. -/
theorem toList_toString_eq_cons (n : ℕ) :
    ∃ c tail, (toString n).toList = c :: tail ∧ c.isDigit := by
  obtain ⟨c, tail, hdigits⟩ := List.exists_cons_of_ne_nil
    (Nat.toDigits_ne_nil (n := n) (b := 10))
  refine ⟨c, tail, (Nat.toList_repr).trans hdigits, ?_⟩
  exact Nat.isDigit_of_mem_toDigits (by decide) (by decide) (hdigits ▸ List.mem_cons_self)

/-- Only the texts of finite floats start with a digit or a hash. -/
theorem head_decimalOrCode {score : PhpFloat} :
    (∃ c ∈ (decimalOrCode score).toList.head?, c.isDigit ∨ c = '#') ↔ score.isFinite := by
  cases score with
  | finite q double =>
      refine iff_of_true ?_ rfl
      rw [decimalOrCode]
      split
      · obtain ⟨c, tail, htext, hc⟩ := toList_toString_eq_cons q.num.toNat
        rw [htext]
        exact ⟨c, rfl, Or.inl hc⟩
      · rw [String.toList_append]
        exact ⟨'#', rfl, Or.inr rfl⟩
  | infinite negative => cases negative <;> simp [decimalOrCode, PhpFloat.isFinite, Char.isDigit]
  | nan => simp [decimalOrCode, PhpFloat.isFinite, Char.isDigit]

/-- Different finite scores have different spellings. -/
theorem decimalOrCode_injective {score score' : PhpFloat} (hfinite : score.isFinite)
    (h : decimalOrCode score = decimalOrCode score') : score = score' := by
  have hfinite' : score'.isFinite := by
    rw [← head_decimalOrCode, ← h]
    exact head_decimalOrCode.mpr hfinite
  have hne : ∀ n m : ℕ, toString n ≠ "#" ++ toString m := by
    intro n m heq
    obtain ⟨c, tail, htext, hc⟩ := toList_toString_eq_cons n
    rw [heq, String.toList_append] at htext
    cases htext
    exact absurd hc (by decide)
  cases score with
  | finite q double =>
      cases score' with
      | finite q' double' =>
          simp only [decimalOrCode] at h
          split_ifs at h with hwhole hwhole' hwhole'
          · have hnum := Php.eq_of_toString_eq h
            rw [hnum] at hwhole
            cases hwhole.trans hwhole'.symm
            rfl
          · exact absurd h (hne _ _)
          · exact absurd h.symm (hne _ _)
          · have htext := congrArg String.toList h
            rw [String.toList_append, String.toList_append, List.append_cancel_left_eq,
              String.toList_inj] at htext
            cases Encodable.encode_injective (Php.eq_of_toString_eq htext)
            rfl
      | infinite negative => cases hfinite'
      | nan => cases hfinite'
  | infinite negative => cases hfinite
  | nan => cases hfinite

/-- Surroundings with the signature of one cursor. -/
noncomputable def signedOnce : Surroundings where
  appKey := .str "secret"
  hashHmac _ _ := [44, 114, 180, 34, 51, 49, 165, 229, 40, 246, 126, 191, 23, 157, 171, 171,
    176, 219, 170, 105, 43, 102, 122, 6, 244, 3, 213, 203, 180, 183, 185, 35]
  print := decimalOrCode
  toFloat v :=
    open Classical in
    if h : ∃ score : PhpFloat, score.isFinite ∧ v = .str (decimalOrCode score) then some h.choose
    else none

/-- The environment of the example meets the assumptions. -/
theorem signedOnce_lawful : signedOnce.Lawful where
  read_print score hfinite := by
    have h : ∃ score' : PhpFloat, score'.isFinite ∧
        Php.str (decimalOrCode score) = .str (decimalOrCode score') := ⟨score, hfinite, rfl⟩
    refine (dif_pos h).trans (congrArg some ?_)
    exact decimalOrCode_injective h.choose_spec.1 (Php.str.inj h.choose_spec.2).symm
  not_numeric score hfinite := by
    refine dif_neg ?_
    rintro ⟨score', hfinite', h⟩
    rw [← decimalOrCode_injective hfinite' (Php.str.inj h).symm, hfinite'] at hfinite
    exact Bool.noConfusion hfinite

/-- Five is a double. -/
theorem isDouble_five : IsDouble 5 := ⟨5, 0, by decide, by decide, by decide, by simp⟩

/-- The fiftieth completed job, which finished five seconds after the epoch. -/
def fiftieth : RetainedJobCursorState :=
  ⟨some ⟨some (.finite 5 isDouble_five), "job", 50⟩, phaseDefault⟩

/-- The state of the example passes the checks. -/
theorem fiftieth_valid : Valid fiftieth where
  phase := List.mem_cons_self
  position _ h := nomatch h
  score position h := by
    cases h
    exact ⟨_, rfl, rfl⟩
  id position h := by
    cases h
    decide
  offset position h := by
    cases h
    decide

/-- The cursor behind the fiftieth job is decoded for the completed jobs of its query, and for no
other; and it was encoded from a valid state. -/
theorem decodeState_encodeState_fiftieth :
    ∃ cursor, encodeState signedOnce .completed "q" fiftieth = .ok cursor ∧
      decodeState signedOnce (.str (String.ofList cursor)) .completed "q" = .ok (some fiftieth) ∧
      decodeState signedOnce (.str (String.ofList cursor)) .failed "q" = .error invalid ∧
      ∃ encoded encodedSignature, cursor = encoded ++ '.' :: encodedSignature ∧
        encodeState signedOnce .completed "q" fiftieth =
          .ok (encoded ++ '.' :: Php.base64UrlEncode (signedOnce.hashHmac encoded "secret")) := by
  have hkey : signingKey signedOnce = .ok "secret" := by
    have hsecret : "secret" ≠ "" := by decide
    simp only [signingKey, signedOnce]
    rw [if_neg hsecret]
  obtain ⟨hround, hsound⟩ :=
    decodeState_encodeState signedOnce .completed "q" signedOnce_lawful hkey
  obtain ⟨cursor, hcursor, hdecode⟩ := hround fiftieth fiftieth_valid
  have hsame := hdecode .completed "q"
  rw [if_pos ⟨rfl, rfl⟩] at hsame
  have hother := hdecode .failed "q"
  rw [if_neg fun h => nomatch h.1] at hother
  obtain ⟨_, encoded, encodedSignature, heq, _, _, hencoded⟩ :=
    hsound (String.ofList cursor)
      (by rw [String.toList_ofList]; exact unforged_encodeState hkey fiftieth_valid.wellTyped hcursor)
      fiftieth hsame
  rw [String.toList_ofList] at heq
  exact ⟨cursor, hcursor, hsame, hother, encoded, encodedSignature, heq, hencoded⟩

end RetainedJobCursor

end HorizonNewDawn

import HorizonNewDawn.Php.JsonText
import HorizonNewDawn.Php.Text

/-! # Arrays of scalars as JSON

`json_encode` and `json_decode` from array to bytes and back. What is encoded of an array of scalars
is decoded to the same array (`jsonParse_jsonBytes`), so no two such arrays have the same text. -/

namespace HorizonNewDawn

namespace Php

variable {entries entries' : List (String × Php)}

/-- `json_encode` of an array without floats, as bytes -/
def jsonBytes (entries : List (String × Php)) : List UInt8 :=
  bytes (String.ofList (Json.spell (document .verbatim (.array entries))))

/-- `json_decode`; `none` is the exception of a text that is not JSON. -/
def jsonParse (text : List UInt8) : Option Php :=
  ((ofBytes text).bind fun text => Json.read text.toList).map jsonDecode

/-- An entry of an array, `null` where there is none. -/
def entry (key : String) (entries : List (String × Php)) : Php := (get key entries).getD .null

/-- A string, or `null` -/
def nullable (value : Option String) : Php := (value.map Php.str).getD .null

/-- Strings and `null` are told apart. -/
theorem nullable_injective {value value' : Option String}
    (h : nullable value = nullable value') : value = value' := by
  cases value <;> cases value' <;> simp_all [nullable]

/-- A value that is neither an array nor a float, with integers of 64 bits. -/
def Scalar : Php → Prop
  | .int n => -9223372036854775808 ≤ n ∧ n ≤ 9223372036854775807
  | .array _ => False
  | .float _ => False
  | _ => True

/-- A scalar is a document for every writer of floats. -/
theorem Scalar.jsonEncode_eq {floats : FloatWriter} {v : Php} (h : Scalar v) :
    jsonEncode floats v = some (document .verbatim v) := by
  cases v with
  | array entries => exact h.elim
  | float literal => exact h.elim
  | _ => rfl

/-- Such an array is encoded without an exception, whatever becomes of floats. -/
theorem jsonEncode_array_of_scalar {floats : FloatWriter} (h : ∀ e ∈ entries, Scalar e.2) :
    jsonEncode floats (.array entries) = some (document .verbatim (.array entries)) := by
  have hvalue : ∀ e ∈ entries, finite floats e.2 = true ∧
      document floats e.2 = document .verbatim e.2 := by
    intro e he
    exact jsonEncode_eq_some.mp (h e he).jsonEncode_eq
  have hentries : documentEntries floats entries = documentEntries .verbatim entries := by
    rw [documentEntries_eq_map, documentEntries_eq_map]
    apply List.map_congr_left
    intro e he
    rw [(hvalue e he).2]
  rw [jsonEncode_eq_some, finite_array, document, document, hentries]
  exact ⟨fun e he => (hvalue e he).1, rfl⟩

/-- The document of a scalar can be spelled. -/
theorem Scalar.spellable {v : Php} {depth : ℕ} (h : Scalar v) :
    Json.Spellable depth (document .verbatim v) := by
  cases v with
  | null => exact .null
  | bool b => exact .bool b
  | int n => exact .num h.1 h.2
  | float literal => exact h.elim
  | str s => exact .str s
  | array entries => exact h.elim

/-- A scalar is decoded as it was encoded. -/
theorem Scalar.jsonDecode_document {v : Php} (h : Scalar v) :
    jsonDecode (document .verbatim v) = v := by
  cases v with
  | array entries => exact h.elim
  | float literal => exact h.elim
  | int n => exact if_pos h
  | _ => rfl

/-- A string or `null` is a scalar. -/
theorem scalar_nullable (value : Option String) : Scalar (nullable value) := by
  cases value <;> trivial

/-- An array whose keys are the first natural numbers is a list; another key at its head says that
it is not. -/
theorem keys_ne_listKeys {key : String} {keys : List String} {n : ℕ} (h : key ≠ "0") :
    key :: keys ≠ listKeys n := by
  intro heq
  cases n with
  | zero => cases heq
  | succ n =>
      rw [listKeys, List.range_succ_eq_map, List.map_cons, List.cons.injEq] at heq
      exact h heq.1

/-- **An array of scalars is decoded as it was encoded.** -/
theorem jsonParse_jsonBytes (hkeys : (keys entries).Nodup)
    (hlist : keys entries ≠ listKeys entries.length) (hscalar : ∀ e ∈ entries, Scalar e.2) :
    jsonParse (jsonBytes entries) = some (.array entries) := by
  have hdocument : document .verbatim (.array entries) =
      .obj (entries.map fun e => (e.1, document .verbatim e.2)) := by
    rw [document, if_neg hlist, documentEntries_eq_map]
  have hspellable : Json.Spellable 512 (document .verbatim (.array entries)) := by
    rw [hdocument]
    refine .obj fun m hm => ?_
    obtain ⟨e, he, rfl⟩ := List.mem_map.mp hm
    exact (hscalar e he).spellable
  have hdecoded : jsonDecode (document .verbatim (.array entries)) = .array entries := by
    rw [jsonDecode_document_array hkeys]
    congr 1
    refine (List.map_congr_left fun e he => ?_).trans (List.map_id entries)
    rw [(hscalar e he).jsonDecode_document]
    rfl
  rw [jsonParse, jsonBytes, ofBytes_bytes, Option.bind_some, String.toList_ofList,
    Json.read_spell hspellable, Option.map_some, hdecoded]

/-- No text is no JSON. -/
theorem jsonParse_nil : jsonParse [] = none := by
  have hempty : ofBytes [] = some "" := ofBytes_bytes ""
  rw [jsonParse, hempty]
  rfl

/-- No two arrays of scalars have the same text. -/
theorem eq_of_jsonBytes_eq (hkeys : (keys entries).Nodup)
    (hlist : keys entries ≠ listKeys entries.length) (hscalar : ∀ e ∈ entries, Scalar e.2)
    (hkeys' : (keys entries').Nodup) (hlist' : keys entries' ≠ listKeys entries'.length)
    (hscalar' : ∀ e ∈ entries', Scalar e.2) (h : jsonBytes entries = jsonBytes entries') :
    entries = entries' := by
  have hparse := jsonParse_jsonBytes hkeys hlist hscalar
  rw [h, jsonParse_jsonBytes hkeys' hlist' hscalar', Option.some.injEq, Php.array.injEq] at hparse
  exact hparse.symm

end Php

end HorizonNewDawn

import Mathlib.Data.List.Range
import Mathlib.Data.List.Nodup
import Mathlib.Tactic.Common

/-! # JSON documents and PHP values

The source decodes payloads (the tags of a job, the document it marks as released early) and encodes
values (the target of a job, the marked document). A text stands for the document it spells; what
`json_decode` and `json_encode` do with it is a pair of functions between documents and PHP values,
which know neither objects nor lists, only arrays with keys in order, and floats in the place of the
numbers that are no integers of 64 bits. How a float is written is a parameter, the `FloatWriter`. -/

namespace HorizonNewDawn

/-! ## Documents -/

/-- A decoded JSON document. Objects keep their members in order; a number that is not an integer
stands as it is spelled. -/
inductive Json
  | null
  | bool (b : Bool)
  | num (n : Int)
  | real (literal : String)
  | str (s : String)
  | arr (values : List Json)
  | obj (members : List (String × Json))

namespace Json

/-- The value of a member of an object. -/
def member (key : String) : Json → Option Json
  | obj members => (members.find? fun m => m.1 = key).map Prod.snd
  | _ => none

/-- The strings among the values of an array or object, which PHP both decodes to an array. -/
def strings : Json → Option (List String)
  | arr values => some (values.filterMap fun | str s => some s | _ => none)
  | obj members => some (members.filterMap fun | (_, str s) => some s | _ => none)
  | _ => none

/-- Four lower-case hexadecimal digits. -/
def hex4 (n : ℕ) : List Char :=
  [n / 4096 % 16, n / 256 % 16, n / 16 % 16, n % 16].map Nat.digitChar

/-- One character of a string as `json_encode` writes it: quotes, backslashes, slashes and control
characters are escaped, characters outside ASCII are written as UTF-16 code units. -/
def encodeChar (c : Char) : List Char :=
  if c = '"' then ['\\', '"']
  else if c = '\\' then ['\\', '\\']
  else if c = '/' then ['\\', '/']
  else if c.toNat = 8 then ['\\', 'b']
  else if c.toNat = 9 then ['\\', 't']
  else if c.toNat = 10 then ['\\', 'n']
  else if c.toNat = 12 then ['\\', 'f']
  else if c.toNat = 13 then ['\\', 'r']
  else if c.toNat < 32 ∨ 127 < c.toNat ∧ c.toNat < 65536 then '\\' :: 'u' :: hex4 c.toNat
  else if c.toNat < 128 then [c]
  else
    '\\' :: 'u' :: hex4 (55296 + (c.toNat - 65536) / 1024) ++
      '\\' :: 'u' :: hex4 (56320 + (c.toNat - 65536) % 1024)

/-- `json_encode` of a list of strings. -/
def encodeStrings (values : List String) : String :=
  "[" ++ String.intercalate "," (values.map fun s =>
    "\"" ++ String.ofList (s.toList.flatMap encodeChar) ++ "\"") ++ "]"

end Json

/-! ## Equality of documents -/

namespace Json

mutual

/-- Documents can be compared. -/
def decEq : (v w : Json) → Decidable (v = w)
  | .null, w => match w with
    | .null => isTrue rfl
    | .bool _ | .num _ | .real _ | .str _ | .arr _ | .obj _ => isFalse nofun
  | .bool b, w => match w with
    | .bool c => decidable_of_iff (b = c) (by simp)
    | .null | .num _ | .real _ | .str _ | .arr _ | .obj _ => isFalse nofun
  | .num n, w => match w with
    | .num m => decidable_of_iff (n = m) (by simp)
    | .null | .bool _ | .real _ | .str _ | .arr _ | .obj _ => isFalse nofun
  | .real l, w => match w with
    | .real m => decidable_of_iff (l = m) (by simp)
    | .null | .bool _ | .num _ | .str _ | .arr _ | .obj _ => isFalse nofun
  | .str s, w => match w with
    | .str t => decidable_of_iff (s = t) (by simp)
    | .null | .bool _ | .num _ | .real _ | .arr _ | .obj _ => isFalse nofun
  | .arr values, w => match w with
    | .arr values' => @decidable_of_iff _ (values = values') (by simp) (decEqValues values values')
    | .null | .bool _ | .num _ | .real _ | .str _ | .obj _ => isFalse nofun
  | .obj members, w => match w with
    | .obj members' =>
        @decidable_of_iff _ (members = members') (by simp) (decEqMembers members members')
    | .null | .bool _ | .num _ | .real _ | .str _ | .arr _ => isFalse nofun

/-- Lists of documents can be compared. -/
def decEqValues : (vs ws : List Json) → Decidable (vs = ws)
  | [], [] => isTrue rfl
  | [], _ :: _ | _ :: _, [] => isFalse nofun
  | v :: vs, w :: ws =>
      @decidable_of_iff _ (v = w ∧ vs = ws) (by simp)
        (@instDecidableAnd _ _ (decEq v w) (decEqValues vs ws))

/-- Lists of members can be compared. -/
def decEqMembers : (vs ws : List (String × Json)) → Decidable (vs = ws)
  | [], [] => isTrue rfl
  | [], _ :: _ | _ :: _, [] => isFalse nofun
  | (key, v) :: vs, (key', w) :: ws =>
      @decidable_of_iff _ (key = key' ∧ v = w ∧ vs = ws) (by simp [and_assoc])
        (@instDecidableAnd _ _ inferInstance
          (@instDecidableAnd _ _ (decEq v w) (decEqMembers vs ws)))

end

instance : DecidableEq Json := decEq

end Json

/-! ## Numbers -/

/-- An integer of 64 bits. -/
def IsInt (n : ℤ) : Prop := -9223372036854775808 ≤ n ∧ n ≤ 9223372036854775807

instance (n : ℤ) : Decidable (IsInt n) := inferInstanceAs (Decidable (_ ∧ _))

/-- A number as `json_encode` writes it. -/
inductive Json.Number
  | num (n : ℤ)
  | real (literal : String)

/-- The document that is such a number. -/
def Json.Number.document : Json.Number → Json
  | .num n => .num n
  | .real literal => .real literal

/-- How the floats are written that literals denote. A float without fraction loses its point, and
may become an integer. What is written denotes the same float, so that it is written the same again;
an infinite float, such as that of `1e999`, is not written at all. -/
structure FloatWriter where
  /-- Whether the float of a literal is finite. -/
  finite : String → Bool
  /-- What is written for a finite float. -/
  write : String → Json.Number
  isInt : ∀ literal n, write literal = .num n → IsInt n
  again : ∀ literal literal', finite literal = true → write literal = .real literal' →
    finite literal' = true ∧ write literal' = .real literal'

/-- The writer that takes every literal for finite and leaves it as it is. -/
def FloatWriter.verbatim : FloatWriter where
  finite _ := true
  write := .real
  isInt _ _ := by rintro ⟨⟩
  again _ _ := by
    rintro - ⟨⟩
    exact ⟨rfl, rfl⟩

/-! ## PHP values -/

/-- A PHP value. The keys of an array are distinct and stand in order; an integer key stands as its
decimal text, which PHP identifies with it; a float stands as a literal that denotes it. -/
inductive Php
  | null
  | bool (b : Bool)
  | int (n : Int)
  | float (literal : String)
  | str (s : String)
  | array (entries : List (String × Php))

namespace Php

/-- The value under a key of an array, `none` where PHP gives `null`. -/
def get (key : String) (entries : List (String × Php)) : Option Php :=
  (entries.find? fun e => e.1 = key).map Prod.snd

/-- The string under a key of an array. -/
def getStr (key : String) (entries : List (String × Php)) : Option String :=
  match get key entries with
  | some (.str s) => some s
  | _ => none

/-- Assign to a key of an array: in its place, or at the end. -/
def set (key : String) (value : Php) : List (String × Php) → List (String × Php)
  | [] => [(key, value)]
  | (k, v) :: rest => if k = key then (k, value) :: rest else (k, v) :: set key value rest

/-- The keys of an array. -/
def keys (entries : List (String × Php)) : List String := entries.map Prod.fst

/-- The keys of a list of the given length. -/
def listKeys (n : ℕ) : List String := (List.range n).map toString

/-- An integer, or the float in its place where it does not fit into 64 bits. -/
def number (n : ℤ) : Php := if IsInt n then .int n else .float (toString n)

mutual

/-- `json_decode` with associative arrays. -/
def jsonDecode : Json → Php
  | .null => .null
  | .bool b => .bool b
  | .num n => number n
  | .real l => .float l
  | .str s => .str s
  | .arr values => .array ((listKeys values.length).zip (jsonDecodeValues values))
  | .obj members => .array (jsonDecodeMembers [] members)

/-- The values of a list. -/
def jsonDecodeValues : List Json → List Php
  | [] => []
  | v :: vs => jsonDecode v :: jsonDecodeValues vs

/-- The members of an object, assigned one after the other. -/
def jsonDecodeMembers (entries : List (String × Php)) : List (String × Json) → List (String × Php)
  | [] => entries
  | (key, v) :: members => jsonDecodeMembers (set key (jsonDecode v) entries) members

end

variable (floats : FloatWriter)

mutual

/-- The document `json_encode` makes of a value whose floats are finite: an array whose keys are those
of a list becomes an array, any other an object. -/
def document : Php → Json
  | .null => .null
  | .bool b => .bool b
  | .int n => .num n
  | .float l => (floats.write l).document
  | .str s => .str s
  | .array entries =>
      if keys entries = listKeys entries.length then .arr ((documentEntries entries).map Prod.snd)
      else .obj (documentEntries entries)

/-- The entries of an array. -/
def documentEntries : List (String × Php) → List (String × Json)
  | [] => []
  | (key, v) :: entries => (key, document v) :: documentEntries entries

end

mutual

/-- Whether the floats of a value are finite. -/
def finite : Php → Bool
  | .float l => floats.finite l
  | .array entries => finiteEntries entries
  | .null | .bool _ | .int _ | .str _ => true

/-- Whether those of its entries are. -/
def finiteEntries : List (String × Php) → Bool
  | [] => true
  | (_, v) :: entries => finite v && finiteEntries entries

end

/-- `json_encode` with `JSON_THROW_ON_ERROR`; `none` is the exception, which is thrown at an infinite
float. -/
def jsonEncode (v : Php) : Option Json :=
  if finite floats v then some (document floats v) else none

/-! ## Reading after writing -/

variable {floats} {key key' : String} {value : Php} {entries : List (String × Php)}

/-- An empty array has no value under any key. -/
@[simp] theorem get_nil : get key [] = none := rfl

/-- A look-up goes through the entries in order. -/
theorem get_cons {e : String × Php} :
    get key (e :: entries) = if e.1 = key then some e.2 else get key entries := by
  unfold get
  rw [List.find?_cons]
  split_ifs with h
  · simp [h]
  · simp [h]

/-- Assigning to another key leaves a key alone. -/
theorem get_set_ne (h : key ≠ key') : get key (set key' value entries) = get key entries := by
  induction entries with
  | nil => rw [set, get_cons, if_neg (Ne.symm h)]
  | cons e rest ih =>
      rw [set]
      split_ifs with he
      · rw [get_cons, get_cons, if_neg (by rw [he]; exact Ne.symm h),
          if_neg (by rw [he]; exact Ne.symm h)]
      · rw [get_cons, get_cons, ih]

/-- What has been assigned is looked up. -/
theorem get_set : get key (set key value entries) = some value := by
  induction entries with
  | nil => rw [set, get_cons, if_pos rfl]
  | cons e rest ih =>
      rw [set]
      split_ifs with he
      · rw [get_cons, if_pos he]
      · rw [get_cons, if_neg he, ih]

/-- An assignment leaves the other strings as they are. -/
theorem getStr_set_ne (h : key ≠ key') :
    getStr key (set key' value entries) = getStr key entries := by
  unfold getStr
  rw [get_set_ne h]

/-- A new key is added at the end. -/
theorem keys_set :
    keys (set key value entries) = if key ∈ keys entries then keys entries
      else keys entries ++ [key] := by
  induction entries with
  | nil => rfl
  | cons e rest ih =>
      rw [set]
      by_cases he : e.1 = key
      · rw [if_pos he, if_pos (by rw [← he]; exact List.mem_cons_self)]
        rfl
      · rw [if_neg he]
        have hmem : key ∈ keys (e :: rest) ↔ key ∈ keys rest := by
          simp [keys, Ne.symm (Ne.intro he)]
        show e.1 :: keys (set key value rest) = _
        rw [ih]
        by_cases hk : key ∈ keys rest
        · rw [if_pos hk, if_pos (hmem.mpr hk)]
          rfl
        · rw [if_neg hk, if_neg (hk ∘ hmem.mp)]
          rfl

/-- Assigning keeps the keys distinct. -/
theorem nodup_keys_set (h : (keys entries).Nodup) : (keys (set key value entries)).Nodup := by
  rw [keys_set]
  split_ifs with hk
  · exact h
  · refine List.nodup_append.mpr ⟨h, List.nodup_singleton key, ?_⟩
    rintro k hmem k' hmem' rfl
    rw [List.mem_singleton.mp hmem'] at hmem
    exact hk hmem

/-- Assigning a new key puts it at the end. -/
theorem set_of_notMem (h : key ∉ keys entries) :
    set key value entries = entries ++ [(key, value)] := by
  induction entries with
  | nil => rfl
  | cons e rest ih =>
      have hne : e.1 ≠ key := fun he => h (by rw [← he]; exact List.mem_cons_self)
      have hrest : key ∉ keys rest := fun hk => h (List.mem_cons_of_mem e.1 hk)
      rw [set, if_neg hne, ih hrest]
      rfl

/-! ## Encoding and decoding again -/

/-- The entries of an array, one by one. -/
theorem documentEntries_eq_map (entries : List (String × Php)) :
    documentEntries floats entries = entries.map fun e => (e.1, document floats e.2) := by
  induction entries with
  | nil => rfl
  | cons e rest ih =>
      rw [documentEntries, ih]
      rfl

/-- The floats of an array are finite where those of its values are. -/
theorem finite_array : finite floats (.array entries) = true ↔
    ∀ e ∈ entries, finite floats e.2 = true := by
  rw [finite]
  induction entries with
  | nil => simp [finiteEntries]
  | cons e rest ih => rw [finiteEntries, Bool.and_eq_true, ih, List.forall_mem_cons]

/-- What is encoded. -/
theorem jsonEncode_eq_some {v : Php} {document' : Json} :
    jsonEncode floats v = some document' ↔
      finite floats v = true ∧ document floats v = document' := by
  simp [jsonEncode]

/-- The values of an array, one by one. -/
theorem jsonDecodeValues_eq_map (values : List Json) :
    jsonDecodeValues values = values.map jsonDecode := by
  induction values with
  | nil => rfl
  | cons v vs ih =>
      rw [jsonDecodeValues, ih]
      rfl

/-- Members with new and distinct keys are appended in order. -/
theorem jsonDecodeMembers_of_nodup {entries : List (String × Php)}
    {members : List (String × Json)} (h : (keys entries ++ members.map Prod.fst).Nodup) :
    jsonDecodeMembers entries members =
      entries ++ members.map fun m => (m.1, jsonDecode m.2) := by
  induction members generalizing entries with
  | nil => rw [jsonDecodeMembers, List.map_nil, List.append_nil]
  | cons m members ih =>
      have hnew : m.1 ∉ keys entries := fun hmem =>
        (List.nodup_append.mp h).2.2 m.1 hmem m.1 List.mem_cons_self rfl
      have hrest : (keys (entries ++ [(m.1, jsonDecode m.2)]) ++ members.map Prod.fst).Nodup := by
        simpa [keys] using h
      rw [jsonDecodeMembers, set_of_notMem hnew, ih hrest]
      simp

/-- What `json_decode` makes of an encoded array: the same keys, and the values encoded and decoded. -/
theorem jsonDecode_document_array (h : (keys entries).Nodup) :
    jsonDecode (document floats (.array entries)) =
      .array (entries.map fun e => (e.1, jsonDecode (document floats e.2))) := by
  rw [document, documentEntries_eq_map]
  split_ifs with hlist
  · have hkeys : keys entries = listKeys (List.map Prod.snd
        (entries.map fun e => (e.1, document floats e.2))).length := by simpa using hlist
    rw [jsonDecode, jsonDecodeValues_eq_map, ← hkeys]
    congr 1
    unfold keys
    rw [List.map_map, List.map_map, List.zip_map']
    rfl
  · rw [jsonDecode, jsonDecodeMembers_of_nodup]
    · simp
    · simpa [keys, Function.comp_def] using h

/-- A look-up among the images of the values. -/
theorem get_map (f : Php → Php) :
    get key (entries.map fun e => (e.1, f e.2)) = (get key entries).map f := by
  induction entries with
  | nil => rfl
  | cons e rest ih =>
      rw [List.map_cons, get_cons, get_cons, ih]
      split_ifs <;> rfl

/-- A number is no string. -/
theorem number_ne_str (n : ℤ) (s : String) : number n ≠ .str s := by
  unfold number
  split_ifs <;> simp

/-- A number is no array. -/
theorem number_ne_array (n : ℤ) (entries : List (String × Php)) : number n ≠ .array entries := by
  unfold number
  split_ifs <;> simp

/-- Encoding and decoding again keeps the strings of an array, and makes none. -/
theorem getStr_map_jsonDecode_document :
    getStr key (entries.map fun e => (e.1, jsonDecode (document floats e.2))) =
      getStr key entries := by
  unfold getStr
  rw [get_map fun v => jsonDecode (document floats v)]
  cases get key entries with
  | none => rfl
  | some v =>
      cases v with
      | array inner =>
          rw [Option.map_some, document]
          split_ifs <;> rfl
      | int n =>
          rw [Option.map_some, document, jsonDecode]
          have hne := number_ne_str n
          split
          next s hs => exact absurd (Option.some.inj hs) (hne s)
          next => rfl
      | float l =>
          rw [Option.map_some, document]
          cases floats.write l with
          | num n =>
              rw [Json.Number.document, jsonDecode]
              have hne := number_ne_str n
              split
              next s hs => exact absurd (Option.some.inj hs) (hne s)
              next => rfl
          | real literal => rfl
      | _ => rfl

/-- Numbers with the same decimal text are equal. -/
theorem eq_of_toString_eq {m n : ℕ} (h : toString m = toString n) : m = n := by
  have hdigits : Nat.toDigits 10 m = Nat.toDigits 10 n := by
    rw [← Nat.toList_repr, ← Nat.toList_repr]
    exact congrArg String.toList h
  rw [← Nat.ofDigitChars_ten_toDigits (n := m), hdigits, Nat.ofDigitChars_ten_toDigits]

/-- The arrays of a decoded document have distinct keys. -/
theorem nodup_keys_of_jsonDecodeMembers {members : List (String × Json)}
    (h : (keys entries).Nodup) : (keys (jsonDecodeMembers entries members)).Nodup := by
  induction members generalizing entries with
  | nil => exact h
  | cons m members ih =>
      rw [jsonDecodeMembers]
      exact ih (nodup_keys_set h)

/-- A decoded array has no key twice. -/
theorem nodup_keys_of_jsonDecode {document : Json} (h : jsonDecode document = .array entries) :
    (keys entries).Nodup := by
  cases document with
  | arr values =>
      rw [jsonDecode] at h
      obtain rfl := Php.array.inj h
      have hlength : (jsonDecodeValues values).length = values.length := by
        rw [jsonDecodeValues_eq_map, List.length_map]
      have hkeys : keys ((listKeys values.length).zip (jsonDecodeValues values)) =
          listKeys values.length := by
        unfold keys
        rw [List.map_fst_zip]
        simp [listKeys, hlength]
      rw [hkeys]
      exact List.nodup_range.map fun _ _ => eq_of_toString_eq
  | obj members =>
      rw [jsonDecode] at h
      obtain rfl := Php.array.inj h
      exact nodup_keys_of_jsonDecodeMembers List.nodup_nil
  | num n => exact absurd h (number_ne_array n entries)
  | _ => simp [jsonDecode] at h

end Php

end HorizonNewDawn

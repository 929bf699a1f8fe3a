import HorizonNewDawn.Collections.Assignments
import HorizonNewDawn.Php.Json

/-! # Documents that are decoded and encoded again

`json_decode` with associative arrays forgets whether an array was an object, and `json_encode` makes
a list of every array whose keys are those of a list; a number that is no integer of 64 bits becomes a
float and is written as such. A document therefore comes back as it was if and only if no object in it
has such keys (not the empty object, and not the one with the keys `"0"`, `"1"` and so on in order) and
its floats are finite and spelled as they are written (`jsonEncode_jsonDecode_eq_iff`). -/

namespace HorizonNewDawn

open Assignments

namespace Json

variable {v w : Json} {values : List Json} {members : List (String × Json)}

/-- Induction on a document, with a hypothesis for each value of a list or an object. -/
@[elab_as_elim]
theorem induct {motive : Json → Prop} (null : motive .null) (bool : ∀ b, motive (.bool b))
    (num : ∀ n, motive (.num n)) (real : ∀ literal, motive (.real literal))
    (str : ∀ s, motive (.str s)) (arr : ∀ values, (∀ v ∈ values, motive v) → motive (.arr values))
    (obj : ∀ members, (∀ m ∈ members, motive m.2) → motive (.obj members)) (v : Json) : motive v :=
  @Json.rec motive (fun values => ∀ v ∈ values, motive v) (fun members => ∀ m ∈ members, motive m.2)
    (fun m => motive m.2) null bool num real str arr obj (by simp)
    (fun _ _ hv hvalues => List.forall_mem_cons.mpr ⟨hv, hvalues⟩) (by simp)
    (fun _ _ hm hmembers => List.forall_mem_cons.mpr ⟨hm, hmembers⟩) (fun _ _ hv => hv) v

/-! ## One member for each key -/

mutual

/-- The document with one member for each key of an object: at its first place, with its last
value. -/
def single : Json → Json
  | .arr values => .arr (singleValues values)
  | .obj members => .obj (collapse (singleMembers members))
  | .null => .null
  | .bool b => .bool b
  | .num n => .num n
  | .real literal => .real literal
  | .str s => .str s

/-- The values of a list. -/
def singleValues : List Json → List Json
  | [] => []
  | v :: values => single v :: singleValues values

/-- The members of an object. -/
def singleMembers : List (String × Json) → List (String × Json)
  | [] => []
  | (key, v) :: members => (key, single v) :: singleMembers members

end

/-- The values of an array, one by one. -/
theorem singleValues_eq_map : singleValues values = values.map single := by
  induction values with
  | nil => rfl
  | cons v values ih =>
      rw [singleValues, ih]
      rfl

/-- The values of an object, one by one. -/
theorem singleMembers_eq_onValues : singleMembers members = onValues single members := by
  induction members with
  | nil => rfl
  | cons m members ih =>
      rw [singleMembers, ih]
      rfl

/-- An array keeps its values. -/
theorem single_arr : single (.arr values) = .arr (values.map single) := by
  rw [single, singleValues_eq_map]

/-- An object keeps the last member of every key. -/
theorem single_obj : single (.obj members) = .obj (onValues single (collapse members)) := by
  rw [single, singleMembers_eq_onValues, collapse_onValues]

/-- Every object of the document has one member for each key. -/
inductive Single : Json → Prop
  | null : Single .null
  | bool (b : Bool) : Single (.bool b)
  | num (n : ℤ) : Single (.num n)
  | real (literal : String) : Single (.real literal)
  | str (s : String) : Single (.str s)
  | arr {values : List Json} (h : ∀ v ∈ values, Single v) : Single (.arr values)
  | obj {members : List (String × Json)} (hkeys : (members.map Prod.fst).Nodup)
      (h : ∀ m ∈ members, Single m.2) : Single (.obj members)

/-- Where no key is given twice, the keys of an object are distinct. -/
theorem Single.nodup_keys (h : Single (.obj members)) : (members.map Prod.fst).Nodup := by
  cases h with
  | obj hkeys _ => exact hkeys

/-- Then none is given twice in the values either. -/
theorem Single.single_members (h : Single (.obj members)) : ∀ m ∈ members, Single m.2 := by
  cases h with
  | obj _ hvalues => exact hvalues

/-- Keeping one member of every key leaves one of every key. -/
theorem single_single (v : Json) : Single (single v) := by
  induction v using induct with
  | null => exact .null
  | bool b => exact .bool b
  | num n => exact .num n
  | real literal => exact .real literal
  | str s => exact .str s
  | arr values ih =>
      rw [single_arr]
      apply Single.arr
      intro w hw
      obtain ⟨v, hv, rfl⟩ := List.mem_map.mp hw
      exact ih v hv
  | obj members ih =>
      rw [single_obj]
      apply Single.obj
      · rw [keys_onValues]
        exact nodup_collapse
      · intro w hw
        obtain ⟨m, hm, rfl⟩ := List.mem_map.mp hw
        exact ih m (mem_of_mem_collapse hm)

/-- A document with one member for each key stays as it is. -/
theorem Single.single_eq (h : Single v) : single v = v := by
  induction h with
  | arr _ ih =>
      rw [single_arr, List.map_congr_left ih, List.map_id']
  | obj hkeys _ ih => rw [single_obj, collapse_of_nodup hkeys, onValues_eq_self.mpr ih]
  | _ => rfl

/-! ## Floats -/

section Floats

variable (floats : FloatWriter)

/-- A number as it is written after it has been decoded. -/
def writtenNumber (n : ℤ) : Json :=
  if IsInt n then .num n else (floats.write (toString n)).document

mutual

/-- The document with its floats as they are written. -/
def written : Json → Json
  | .arr values => .arr (writtenValues values)
  | .obj members => .obj (writtenMembers members)
  | .null => .null
  | .bool b => .bool b
  | .num n => writtenNumber floats n
  | .real literal => (floats.write literal).document
  | .str s => .str s

/-- The values of a list. -/
def writtenValues : List Json → List Json
  | [] => []
  | v :: values => written v :: writtenValues values

/-- The members of an object. -/
def writtenMembers : List (String × Json) → List (String × Json)
  | [] => []
  | (key, v) :: members => (key, written v) :: writtenMembers members

end

mutual

/-- Whether the floats of a document are finite. -/
def finite : Json → Bool
  | .arr values => finiteValues values
  | .obj members => finiteMembers members
  | .num n => decide (IsInt n) || floats.finite (toString n)
  | .real literal => floats.finite literal
  | .null | .bool _ | .str _ => true

/-- Whether those of the values of a list are. -/
def finiteValues : List Json → Bool
  | [] => true
  | v :: values => finite v && finiteValues values

/-- Whether those of the members of an object are. -/
def finiteMembers : List (String × Json) → Bool
  | [] => true
  | (_, v) :: members => finite v && finiteMembers members

end

end Floats

variable {floats : FloatWriter}

/-- The values of a list, one by one. -/
theorem writtenValues_eq_map : writtenValues floats values = values.map (written floats) := by
  induction values with
  | nil => rfl
  | cons v values ih =>
      rw [writtenValues, ih]
      rfl

/-- The members of an object, one by one. -/
theorem writtenMembers_eq_onValues :
    writtenMembers floats members = onValues (written floats) members := by
  induction members with
  | nil => rfl
  | cons m members ih =>
      rw [writtenMembers, ih]
      rfl

/-- A list keeps its values in order. -/
theorem written_arr : written floats (.arr values) = .arr (values.map (written floats)) := by
  rw [written, writtenValues_eq_map]

/-- An object keeps its keys. -/
theorem written_obj :
    written floats (.obj members) = .obj (onValues (written floats) members) := by
  rw [written, writtenMembers_eq_onValues]

/-- The floats of a list are finite where those of its values are. -/
theorem finite_arr : finite floats (.arr values) = true ↔ ∀ v ∈ values, finite floats v = true := by
  rw [finite]
  induction values with
  | nil => simp [finiteValues]
  | cons v values ih => rw [finiteValues, Bool.and_eq_true, ih, List.forall_mem_cons]

/-- The floats of an object are finite where those of its members are. -/
theorem finite_obj :
    finite floats (.obj members) = true ↔ ∀ m ∈ members, finite floats m.2 = true := by
  rw [finite]
  induction members with
  | nil => simp [finiteMembers]
  | cons m members ih => rw [finiteMembers, Bool.and_eq_true, ih, List.forall_mem_cons]

/-- A number is one after it has been written. -/
theorem exists_document (number : Json.Number) :
    (∃ n, number.document = .num n) ∨ ∃ literal, number.document = .real literal := by
  cases number with
  | num n => exact Or.inl ⟨n, rfl⟩
  | real literal => exact Or.inr ⟨literal, rfl⟩

/-- What is written in the place of a number is no list and no object, and has one member for each
key. -/
theorem single_document (number : Json.Number) : Single number.document := by
  cases number with
  | num n => exact .num n
  | real literal => exact .real literal

/-- Writing the floats keeps one member for each key. -/
theorem Single.written (h : Single v) : Single (written floats v) := by
  induction h with
  | null => exact .null
  | bool b => exact .bool b
  | num n =>
      rw [Json.written, writtenNumber]
      split_ifs
      · exact .num n
      · exact single_document _
  | real literal =>
      rw [Json.written]
      exact single_document _
  | str s => exact .str s
  | arr _ ih =>
      rw [written_arr]
      apply Single.arr
      intro w hw
      obtain ⟨v, hv, rfl⟩ := List.mem_map.mp hw
      exact ih v hv
  | obj hkeys _ ih =>
      rw [written_obj]
      apply Single.obj
      · rwa [keys_onValues]
      · intro w hw
        obtain ⟨m, hm, rfl⟩ := List.mem_map.mp hw
        exact ih m hm

/-! ## Objects with the keys of a list -/

mutual

/-- The document with a list in the place of every object that has the keys of a list. -/
def listed : Json → Json
  | .arr values => .arr (listedValues values)
  | .obj members =>
      if members.map Prod.fst = Php.listKeys members.length then
        .arr ((listedMembers members).map Prod.snd)
      else .obj (listedMembers members)
  | .null => .null
  | .bool b => .bool b
  | .num n => .num n
  | .real literal => .real literal
  | .str s => .str s

/-- The values of a list. -/
def listedValues : List Json → List Json
  | [] => []
  | v :: values => listed v :: listedValues values

/-- The members of an object. -/
def listedMembers : List (String × Json) → List (String × Json)
  | [] => []
  | (key, v) :: members => (key, listed v) :: listedMembers members

end

/-- The values of an array, one by one. -/
theorem listedValues_eq_map : listedValues values = values.map listed := by
  induction values with
  | nil => rfl
  | cons v values ih =>
      rw [listedValues, ih]
      rfl

/-- The values of an object, one by one. -/
theorem listedMembers_eq_onValues : listedMembers members = onValues listed members := by
  induction members with
  | nil => rfl
  | cons m members ih =>
      rw [listedMembers, ih]
      rfl

/-- An array stays one. -/
theorem listed_arr : listed (.arr values) = .arr (values.map listed) := by
  rw [listed, listedValues_eq_map]

/-- An object with the keys of a list becomes an array. -/
theorem listed_obj_of_eq (h : members.map Prod.fst = Php.listKeys members.length) :
    listed (.obj members) = .arr (members.map fun m => listed m.2) := by
  rw [listed, if_pos h, listedMembers_eq_onValues, onValues, List.map_map]
  rfl

/-- Every other object stays one. -/
theorem listed_obj_of_ne (h : members.map Prod.fst ≠ Php.listKeys members.length) :
    listed (.obj members) = .obj (onValues listed members) := by
  rw [listed, if_neg h, listedMembers_eq_onValues]

mutual

/-- No object of the document has the keys of a list. -/
def Listless : Json → Prop
  | .arr values => ListlessValues values
  | .obj members =>
      members.map Prod.fst ≠ Php.listKeys members.length ∧ ListlessMembers members
  | .null | .bool _ | .num _ | .real _ | .str _ => True

/-- The values of a list. -/
def ListlessValues : List Json → Prop
  | [] => True
  | v :: values => Listless v ∧ ListlessValues values

/-- The members of an object. -/
def ListlessMembers : List (String × Json) → Prop
  | [] => True
  | (_, v) :: members => Listless v ∧ ListlessMembers members

end

mutual

/-- Whether no object of the document has the keys of a list. -/
def decListless : (v : Json) → Decidable (Listless v)
  | .arr values => decListlessValues values
  | .obj members => @instDecidableAnd _ _ inferInstance (decListlessMembers members)
  | .null | .bool _ | .num _ | .real _ | .str _ => isTrue trivial

def decListlessValues : (values : List Json) → Decidable (ListlessValues values)
  | [] => isTrue trivial
  | v :: values => @instDecidableAnd _ _ (decListless v) (decListlessValues values)

def decListlessMembers : (members : List (String × Json)) → Decidable (ListlessMembers members)
  | [] => isTrue trivial
  | (_, v) :: members => @instDecidableAnd _ _ (decListless v) (decListlessMembers members)

end

instance : DecidablePred Listless := decListless

/-- An array is free of such objects where its values are. -/
theorem listless_arr : Listless (.arr values) ↔ ∀ v ∈ values, Listless v := by
  show ListlessValues values ↔ _
  induction values with
  | nil => simp [ListlessValues]
  | cons v values ih =>
      show Listless v ∧ ListlessValues values ↔ _
      rw [ih, List.forall_mem_cons]

/-- An object is free of them where it is none itself and its values are. -/
theorem listless_obj : Listless (.obj members) ↔
    members.map Prod.fst ≠ Php.listKeys members.length ∧ ∀ m ∈ members, Listless m.2 := by
  show _ ∧ ListlessMembers members ↔ _
  apply and_congr_right'
  induction members with
  | nil => simp [ListlessMembers]
  | cons m members ih =>
      show Listless m.2 ∧ ListlessMembers members ↔ _
      rw [ih, List.forall_mem_cons]

/-- A number stays what it is in a list's place. -/
@[simp] theorem listed_document (number : Json.Number) : listed number.document = number.document := by
  cases number <;> rfl

/-- **A document comes back exactly where no object has the keys of a list and every float is spelled as
it is written.** -/
theorem listed_written_eq_self :
    listed (written floats v) = v ↔ Listless v ∧ written floats v = v := by
  induction v using induct with
  | arr values ih =>
      rw [written_arr, listed_arr, listless_arr, Json.arr.injEq, Json.arr.injEq, List.map_map]
      conv_lhs => rhs; rw [← List.map_id values]
      conv_rhs => rhs; rhs; rw [← List.map_id values]
      rw [List.map_inj_left, List.map_inj_left]
      exact (forall₂_congr ih).trans forall₂_and
  | obj members ih =>
      rw [listless_obj, written_obj, Json.obj.injEq]
      have hlength := length_onValues (l := members) (written floats)
      have hfst := keys_onValues (l := members) (written floats)
      by_cases hkeys : members.map Prod.fst = Php.listKeys members.length
      · rw [listed_obj_of_eq (by rw [hfst, hlength, hkeys])]
        simp [hkeys]
      · rw [listed_obj_of_ne (by rwa [hfst, hlength]), Json.obj.injEq, onValues_onValues,
          onValues_eq_self, onValues_eq_self, and_iff_right hkeys]
        exact (forall₂_congr ih).trans forall₂_and
  | num n =>
      rw [written, writtenNumber]
      split_ifs
      · simp [listed, Listless]
      · simp [Listless]
  | real literal => simp [written, Listless]
  | _ => simp [written, listed, Listless]

/-- A list in the place of an object changes nothing about its members. -/
theorem Single.listed (h : Single v) : Single (listed v) := by
  induction h with
  | null => exact .null
  | bool b => exact .bool b
  | num n => exact .num n
  | real literal => exact .real literal
  | str s => exact .str s
  | arr _ ih =>
      rw [listed_arr]
      apply Single.arr
      intro w hw
      obtain ⟨v, hv, rfl⟩ := List.mem_map.mp hw
      exact ih v hv
  | @obj members hkeys _ ih =>
      by_cases hlist : members.map Prod.fst = Php.listKeys members.length
      · rw [listed_obj_of_eq hlist]
        apply Single.arr
        intro w hw
        obtain ⟨m, hm, rfl⟩ := List.mem_map.mp hw
        exact ih m hm
      · rw [listed_obj_of_ne hlist]
        apply Single.obj
        · rwa [keys_onValues]
        · intro w hw
          obtain ⟨m, hm, rfl⟩ := List.mem_map.mp hw
          exact ih m hm

end Json

/-! ## Decoding and encoding -/

namespace Php

variable {floats : FloatWriter} {key : String} {value : Php} {entries : List (String × Php)} {v : Json}
  {members : List (String × Json)}

/-- Assignments to a PHP array are those of `Assignments`. -/
theorem set_eq_put : set key value entries = put key value entries := by
  induction entries with
  | nil => rfl
  | cons e rest ih => rw [set, put, ih]

/-- So are look-ups. -/
theorem get_eq : Php.get key entries = Assignments.get key entries := rfl

/-- The members of an object are assigned one after the other. -/
theorem jsonDecodeMembers_eq (entries : List (String × Php)) :
    jsonDecodeMembers entries members =
      (onValues jsonDecode members).foldl (fun l e => put e.1 e.2 l) entries := by
  induction members generalizing entries with
  | nil => rfl
  | cons m members ih =>
      rw [jsonDecodeMembers, set_eq_put, ih]
      rfl

/-- An object is decoded to an array with the last member of every key. -/
theorem jsonDecode_obj :
    jsonDecode (.obj members) = .array (onValues jsonDecode (collapse members)) := by
  rw [jsonDecode, jsonDecodeMembers_eq, ← collapse_onValues]
  rfl

/-- What `json_decode` makes of a document knows one member for each key. -/
theorem jsonDecode_single : jsonDecode v.single = jsonDecode v := by
  induction v using Json.induct with
  | arr values ih =>
      rw [Json.single_arr, jsonDecode, jsonDecode, jsonDecodeValues_eq_map,
        jsonDecodeValues_eq_map, List.length_map, List.map_map]
      congr 2
      exact List.map_congr_left ih
  | obj members ih =>
      have hkeys : ((onValues Json.single (collapse members)).map Prod.fst).Nodup := by
        rw [keys_onValues]
        exact nodup_collapse
      rw [Json.single_obj, jsonDecode_obj, jsonDecode_obj, collapse_of_nodup hkeys,
        onValues_onValues]
      congr 1
      apply onValues_congr
      intro m hm
      exact ih m (mem_of_mem_collapse hm)
  | _ => rfl

/-- An array whose keys are not those of a list becomes an object. -/
theorem document_array_of_ne (h : keys entries ≠ listKeys entries.length) :
    document floats (.array entries) = .obj (onValues (document floats) entries) := by
  rw [document, if_neg h, documentEntries_eq_map]
  rfl

/-- The keys of a list. -/
theorem keys_zip_listKeys (values : List Php) :
    keys ((listKeys values.length).zip values) = listKeys values.length := by
  unfold keys
  apply List.map_fst_zip
  simp [listKeys]

/-- A key with a character that is not a digit is not the key of a list. -/
theorem notMem_listKeys {c : Char} {n : ℕ} (hc : c ∈ key.toList) (hdigit : c.isDigit = false) :
    key ∉ listKeys n := by
  intro hmem
  obtain ⟨i, _, rfl⟩ := List.mem_map.mp hmem
  have hi : c ∈ Nat.toDigits 10 i := by rwa [← Nat.toList_repr]
  have htrue : c.isDigit = true := Nat.isDigit_of_mem_toDigits (by decide) (by decide) hi
  rw [hdigit] at htrue
  cases htrue

/-- An array with such a key becomes an object. -/
theorem document_put {c : Char} (hc : c ∈ key.toList) (hdigit : c.isDigit = false) :
    document floats (.array (put key value entries)) =
      .obj (put key (document floats value) (onValues (document floats) entries)) := by
  rw [document_array_of_ne, put_onValues]
  intro hkeys
  apply notMem_listKeys hc hdigit
  rw [← hkeys]
  exact mem_keys_put.mpr (Or.inl rfl)

/-- The values of paired lists. -/
theorem zip_onValues {α β : Type} (f : α → β) (keys : List String) (values : List α) :
    keys.zip (values.map f) = onValues f (keys.zip values) := by
  rw [List.zip_map_right]
  rfl

/-- A list becomes a list. -/
theorem document_list (values : List Php) :
    document floats (.array ((listKeys values.length).zip values)) =
      .arr (values.map (document floats)) := by
  have hlength : ((listKeys values.length).zip values).length = values.length := by
    simp [listKeys]
  have hvalues : ((listKeys values.length).zip values).map Prod.snd = values := by
    apply List.map_snd_zip
    simp [listKeys]
  rw [document, keys_zip_listKeys, hlength, if_pos rfl, documentEntries_eq_map, List.map_map]
  congr 1
  conv_rhs => rw [← hvalues, List.map_map]
  rfl

/-- A number, decoded and encoded again. -/
theorem document_number (n : ℤ) : document floats (number n) = Json.writtenNumber floats n := by
  unfold number Json.writtenNumber
  split_ifs <;> rfl

/-- **A document that is decoded and encoded again** keeps one member for each key, has its floats as
they are written, and has a list in the place of each object with the keys of a list. -/
theorem document_jsonDecode :
    document floats (jsonDecode v) = (v.single.written floats).listed := by
  induction v using Json.induct with
  | num n =>
      rw [jsonDecode, document_number, Json.single, Json.written, Json.writtenNumber]
      split_ifs
      · rfl
      · exact (Json.listed_document _).symm
  | real literal => exact (Json.listed_document _).symm
  | arr values ih =>
      rw [Json.single_arr, Json.written_arr, Json.listed_arr, jsonDecode, jsonDecodeValues_eq_map]
      have hlist := @document_list floats (values.map jsonDecode)
      rw [List.length_map] at hlist
      rw [hlist, List.map_map, List.map_map, List.map_map]
      congr 1
      exact List.map_congr_left ih
  | obj members ih =>
      rw [jsonDecode_obj, Json.single_obj, Json.written_obj, onValues_onValues]
      by_cases hkeys : (collapse members).map Prod.fst = listKeys (collapse members).length
      · have hdecoded : keys (onValues jsonDecode (collapse members)) =
            listKeys (onValues jsonDecode (collapse members)).length := by
          rwa [keys, keys_onValues, length_onValues]
        rw [Json.listed_obj_of_eq (by rwa [keys_onValues, length_onValues]), document,
          if_pos hdecoded, documentEntries_eq_map]
        congr 1
        unfold onValues
        simp only [List.map_map]
        apply List.map_congr_left
        intro m hm
        exact ih m (mem_of_mem_collapse hm)
      · rw [Json.listed_obj_of_ne (by rwa [keys_onValues, length_onValues]),
          document_array_of_ne (by rwa [keys, keys_onValues, length_onValues]),
          onValues_onValues, onValues_onValues]
        congr 1
        apply onValues_congr
        intro m hm
        exact ih m (mem_of_mem_collapse hm)
  | _ => rfl

/-- **The floats of a decoded document** are those of the document. -/
theorem finite_jsonDecode : finite floats (jsonDecode v) = v.single.finite floats := by
  rw [Bool.eq_iff_iff]
  induction v using Json.induct with
  | num n =>
      rw [jsonDecode, Json.single, Json.finite, number]
      split_ifs with hn <;> simp [finite, hn]
  | arr values ih =>
      rw [Json.single_arr, Json.finite_arr, jsonDecode, finite_array, jsonDecodeValues_eq_map]
      have hvalues : ((listKeys values.length).zip (values.map jsonDecode)).map Prod.snd =
          values.map jsonDecode := by
        apply List.map_snd_zip
        simp [listKeys]
      rw [List.forall_mem_map, ← List.forall_mem_map (f := Prod.snd)
        (P := fun v => finite floats v = true), hvalues, List.forall_mem_map]
      exact forall₂_congr ih
  | obj members ih =>
      rw [Json.single_obj, Json.finite_obj, jsonDecode_obj, finite_array, onValues, onValues,
        List.forall_mem_map, List.forall_mem_map]
      apply forall₂_congr
      intro m hm
      exact ih m (mem_of_mem_collapse hm)
  | _ => simp [jsonDecode, Json.single, finite, Json.finite]

/-- **A document that is decoded and encoded again**, with the exception at an infinite float. -/
theorem jsonEncode_jsonDecode : jsonEncode floats (jsonDecode v) =
    if v.single.finite floats then some (v.single.written floats).listed else none := by
  rw [jsonEncode, finite_jsonDecode, document_jsonDecode]

/-- **A document comes back as it was** if and only if no object in it has the keys of a list and its
floats are finite and spelled as they are written. -/
theorem jsonEncode_jsonDecode_eq_iff : jsonEncode floats (jsonDecode v) = some v.single ↔
    v.single.finite floats = true ∧ v.single.Listless ∧ v.single.written floats = v.single := by
  rw [jsonEncode_eq_some, finite_jsonDecode, document_jsonDecode, Json.listed_written_eq_self]

/-- Decoding does not see what was an object. -/
theorem jsonDecode_listed (h : v.Single) : jsonDecode v.listed = jsonDecode v := by
  induction h with
  | @arr values _ ih =>
      rw [Json.listed_arr, jsonDecode, jsonDecode, jsonDecodeValues_eq_map,
        jsonDecodeValues_eq_map, List.length_map, List.map_map]
      congr 2
      exact List.map_congr_left ih
  | @obj members hkeys _ ih =>
      by_cases hlist : members.map Prod.fst = listKeys members.length
      · have hzip : (listKeys members.length).zip (members.map Prod.snd) = members := by
          rw [← hlist, List.zip_map']
          exact List.map_id members
        rw [Json.listed_obj_of_eq hlist, jsonDecode, jsonDecode_obj, collapse_of_nodup hkeys,
          jsonDecodeValues_eq_map, List.length_map, List.map_map]
        congr 1
        conv_rhs => rw [← hzip, ← zip_onValues, List.map_map]
        congr 1
        exact List.map_congr_left ih
      · rw [Json.listed_obj_of_ne hlist, jsonDecode_obj, jsonDecode_obj, collapse_of_nodup hkeys,
          collapse_of_nodup (by rwa [keys_onValues]), onValues_onValues]
        congr 1
        exact onValues_congr ih
  | _ => rfl

/-! ## Values that have been written -/

section Rewritten

variable (floats)

/-- A float as it is read after it has been written. -/
def rewrittenFloat (literal : String) : Php :=
  if floats.finite literal then
    match floats.write literal with
    | .num n => .int n
    | .real literal => .float literal
  else .float literal

mutual

/-- The value with its floats as they are read after they have been written: those that are written as
integers are integers. -/
def rewritten : Php → Php
  | .float literal => rewrittenFloat floats literal
  | .array entries => .array (rewrittenEntries entries)
  | .null => .null
  | .bool b => .bool b
  | .int n => .int n
  | .str s => .str s

/-- The entries of an array. -/
def rewrittenEntries : List (String × Php) → List (String × Php)
  | [] => []
  | (key, v) :: entries => (key, rewritten v) :: rewrittenEntries entries

end

end Rewritten

/-- The entries of an array, one by one. -/
theorem rewrittenEntries_eq_onValues :
    rewrittenEntries floats entries = onValues (rewritten floats) entries := by
  induction entries with
  | nil => rfl
  | cons e entries ih =>
      rw [rewrittenEntries, ih]
      rfl

/-- An array keeps its keys. -/
theorem rewritten_array :
    rewritten floats (.array entries) = .array (onValues (rewritten floats) entries) := by
  rw [rewritten, rewrittenEntries_eq_onValues]

/-- What is written for a finite float, read again. -/
theorem jsonDecode_write {literal : String} (h : floats.finite literal = true) :
    jsonDecode (floats.write literal).document = rewrittenFloat floats literal := by
  rw [rewrittenFloat, if_pos h]
  cases hwrite : floats.write literal with
  | num n => exact if_pos (floats.isInt literal n hwrite)
  | real literal' => rfl

/-- **What is written is read as the value with its floats rewritten.** -/
theorem jsonDecode_written (hsingle : v.Single) (h : v.finite floats = true) :
    jsonDecode (v.written floats) = rewritten floats (jsonDecode v) := by
  induction hsingle with
  | num n =>
      rw [Json.written, Json.writtenNumber, jsonDecode, number]
      split_ifs with hn
      · exact if_pos hn
      · have hfinite : floats.finite (toString n) = true := by simpa [Json.finite, hn] using h
        exact jsonDecode_write hfinite
  | real literal => exact jsonDecode_write h
  | @arr values _ ih =>
      rw [Json.finite_arr] at h
      rw [Json.written_arr, jsonDecode, jsonDecode, rewritten_array, jsonDecodeValues_eq_map,
        jsonDecodeValues_eq_map, List.length_map, List.map_map, ← zip_onValues, List.map_map]
      congr 2
      apply List.map_congr_left
      intro v hv
      exact ih v hv (h v hv)
  | @obj members hkeys _ ih =>
      rw [Json.finite_obj] at h
      rw [Json.written_obj, jsonDecode_obj, jsonDecode_obj, collapse_of_nodup hkeys,
        collapse_of_nodup (by rwa [keys_onValues]), rewritten_array, onValues_onValues,
        onValues_onValues]
      congr 1
      apply onValues_congr
      intro m hm
      exact ih m hm (h m hm)
  | _ => rfl

/-- Induction on a value, with a hypothesis for each entry of an array. -/
@[elab_as_elim]
theorem induct {motive : Php → Prop} (null : motive .null) (bool : ∀ b, motive (.bool b))
    (int : ∀ n, motive (.int n)) (float : ∀ literal, motive (.float literal))
    (str : ∀ s, motive (.str s))
    (array : ∀ entries, (∀ e ∈ entries, motive e.2) → motive (.array entries)) (v : Php) :
    motive v :=
  @Php.rec motive (fun entries => ∀ e ∈ entries, motive e.2) (fun e => motive e.2) null bool int float
    str array (by simp) (fun _ _ he hentries => List.forall_mem_cons.mpr ⟨he, hentries⟩)
    (fun _ _ he => he) v

/-- A rewritten float is written as before. -/
theorem document_rewrittenFloat {literal : String} (h : floats.finite literal = true) :
    finite floats (rewrittenFloat floats literal) = true ∧
      document floats (rewrittenFloat floats literal) = (floats.write literal).document := by
  rw [rewrittenFloat, if_pos h]
  cases hwrite : floats.write literal with
  | num n => exact ⟨rfl, rfl⟩
  | real literal' =>
      obtain ⟨hfinite, hagain⟩ := floats.again literal literal' h hwrite
      refine ⟨hfinite, ?_⟩
      show (floats.write literal').document = _
      rw [hagain]

/-- Rewriting finite floats changes nothing about what is encoded. -/
theorem document_rewritten {v : Php} (h : finite floats v = true) :
    finite floats (rewritten floats v) = true ∧
      document floats (rewritten floats v) = document floats v := by
  induction v using induct with
  | float literal => exact document_rewrittenFloat h
  | array entries ih =>
      rw [finite_array] at h
      have hvalues : ∀ e ∈ entries, finite floats (rewritten floats e.2) = true ∧
          document floats (rewritten floats e.2) = document floats e.2 :=
        fun e he => ih e he (h e he)
      rw [rewritten_array, finite_array]
      constructor
      · intro w hw
        obtain ⟨e, he, rfl⟩ := List.mem_map.mp hw
        exact (hvalues e he).1
      · have hentries : documentEntries floats (onValues (rewritten floats) entries) =
            documentEntries floats entries := by
          rw [documentEntries_eq_map, documentEntries_eq_map]
          unfold onValues
          rw [List.map_map]
          apply List.map_congr_left
          intro e he
          exact Prod.ext rfl (hvalues e he).2
        rw [document, document, hentries, keys, keys_onValues, length_onValues]
        rfl
  | _ => exact ⟨rfl, rfl⟩

end Php

end HorizonNewDawn

import HorizonNewDawn.Support.ComposerAssetHook
import Mathlib

/-! # The document the Composer hook writes

The edited file parses to the old document with the script behind its `post-autoload-dump` entries, and
with a list in the place of every object that has the keys of one. The numbers of the document are
integers of 64 bits here: any other is written as PHP prints its float, not as it was spelled. -/

namespace HorizonNewDawn

open Program Assignments Json

namespace Json

variable {depth : ℕ} {v : Json}

/-- One member for each key can be written where all of them can. -/
theorem Spellable.single (h : Spellable depth v) : Spellable depth v.single := by
  induction h with
  | null => exact .null
  | bool b => exact .bool b
  | num hmin hmax => exact .num hmin hmax
  | real hhead hc hread => exact .real hhead hc hread
  | str s => exact .str s
  | arr _ ih =>
      rw [single_arr]
      apply Spellable.arr
      intro w hw
      obtain ⟨v, hv, rfl⟩ := List.mem_map.mp hw
      exact ih v hv
  | obj _ ih =>
      rw [single_obj]
      apply Spellable.obj
      intro w hw
      obtain ⟨m, hm, rfl⟩ := List.mem_map.mp hw
      exact ih m (mem_of_mem_collapse hm)

/-- So can a list in the place of an object. -/
theorem Spellable.listed (h : Spellable depth v) : Spellable depth v.listed := by
  induction h with
  | null => exact .null
  | bool b => exact .bool b
  | num hmin hmax => exact .num hmin hmax
  | real hhead hc hread => exact .real hhead hc hread
  | str s => exact .str s
  | arr _ ih =>
      rw [listed_arr]
      apply Spellable.arr
      intro w hw
      obtain ⟨v, hv, rfl⟩ := List.mem_map.mp hw
      exact ih v hv
  | @obj depth members _ ih =>
      by_cases hkeys : members.map Prod.fst = Php.listKeys members.length
      · rw [listed_obj_of_eq hkeys]
        apply Spellable.arr
        intro w hw
        obtain ⟨m, hm, rfl⟩ := List.mem_map.mp hw
        exact ih m hm
      · rw [listed_obj_of_ne hkeys]
        apply Spellable.obj
        intro w hw
        obtain ⟨m, hm, rfl⟩ := List.mem_map.mp hw
        exact ih m hm

/-- The members of an object that can be written. -/
theorem Spellable.members {entries : List (String × Json)} (h : Spellable (depth + 1) (.obj entries)) :
    ∀ m ∈ entries, Spellable depth m.2 := by
  cases h with
  | obj h => exact h

/-- An object with one more member, or another value of one. -/
theorem Spellable.put {entries : List (String × Json)} {key : String}
    (h : ∀ m ∈ entries, Spellable depth m.2) (hv : Spellable depth v) :
    Spellable (depth + 1) (.obj (put key v entries)) := by
  apply Spellable.obj
  induction entries with
  | nil => simpa [Assignments.put] using hv
  | cons e rest ih =>
      obtain ⟨he, hrest⟩ := List.forall_mem_cons.mp h
      rw [Assignments.put]
      split
      · exact List.forall_mem_cons.mpr ⟨hv, hrest⟩
      · exact List.forall_mem_cons.mpr ⟨he, ih hrest⟩

/-- The numbers of a document are integers where one member is kept for each key. -/
theorem Integral.single (h : Integral v) : Integral v.single := by
  induction h with
  | null => exact .null
  | bool b => exact .bool b
  | num hn => exact .num hn
  | str s => exact .str s
  | arr _ ih =>
      rw [single_arr]
      apply Integral.arr
      intro w hw
      obtain ⟨v, hv, rfl⟩ := List.mem_map.mp hw
      exact ih v hv
  | obj _ ih =>
      rw [single_obj]
      apply Integral.obj
      intro w hw
      obtain ⟨m, hm, rfl⟩ := List.mem_map.mp hw
      exact ih m (mem_of_mem_collapse hm)

/-- **Integers are written as they are.** -/
theorem Integral.written_eq {floats : FloatWriter} (h : Integral v) : v.written floats = v := by
  induction h with
  | num hn => exact if_pos hn
  | @arr values _ ih =>
      rw [written_arr, List.map_congr_left ih, List.map_id']
  | obj _ ih =>
      rw [written_obj, onValues_eq_self.mpr ih]
  | _ => rfl

/-- A document comes back exactly where no object has the keys of a list. -/
theorem Integral.listed_eq_self_iff (h : Integral v) : v.listed = v ↔ v.Listless := by
  have hlisted := @listed_written_eq_self v FloatWriter.verbatim
  rw [h.written_eq] at hlisted
  simpa using hlisted

end Json

namespace ComposerAssetHook

/-! ## Reading the scripts of a document -/

/-- The scripts of an object. -/
def scriptMembers (members : List (String × Json)) : List (String × Json) :=
  match Assignments.get "scripts" members with
  | some (.obj scripts) => scripts
  | _ => []

/-- The `post-autoload-dump` entries among scripts. -/
def entryStrings (scripts : List (String × Json)) : List String :=
  match Assignments.get "post-autoload-dump" scripts with
  | some (.str entry) => [entry]
  | some (.arr values) => values.filterMap fun
    | .str entry => some entry
    | _ => none
  | _ => []

/-- The members of a document with the script behind the entries. -/
def withScriptMember (members : List (String × Json)) : List (String × Json) :=
  put "scripts" (.obj (put "post-autoload-dump"
    (.arr ((entryStrings (scriptMembers members) ++ [script]).map Json.str))
      (scriptMembers members))) members

variable {floats : FloatWriter} {members scripts : List (String × Php)} {entries : List String}

/-- What is under a key of an array, as a document. -/
theorem get_onValues_document (key : String) (members : List (String × Php)) :
    Assignments.get key (onValues (Php.document floats) members) =
      (Php.get key members).map (Php.document floats) :=
  get_onValues (Php.document floats)

/-- What a key is read as is under it, or nothing is. -/
theorem entry_eq {key : String} {members : List (String × Php)} {value : Php}
    (h : Php.entry key members = value) :
    (value = .null ∧ Php.get key members = none) ∨ Php.get key members = some value := by
  rw [Php.entry] at h
  cases hget : Php.get key members with
  | none =>
      rw [hget] at h
      exact Or.inl ⟨h.symm, rfl⟩
  | some found =>
      rw [hget] at h
      exact Or.inr (congrArg some h)

/-- The scripts that are read are those of the document. -/
theorem scriptMembers_of_scriptsOf (h : scriptsOf members = some scripts) :
    scriptMembers (onValues (Php.document floats) members) = onValues (Php.document floats) scripts := by
  rw [scriptMembers, get_onValues_document]
  rw [scriptsOf] at h
  cases hentry : Php.entry "scripts" members with
  | null =>
      rw [hentry] at h
      cases h
      rcases entry_eq hentry with ⟨-, hget⟩ | hget <;> rw [hget] <;> rfl
  | array found =>
      rw [hentry] at h
      simp only at h
      have hget : Php.get "scripts" members = some (.array found) :=
        (entry_eq hentry).resolve_left (by simp)
      rw [hget, Option.map_some]
      split at h
      · cases h
      · rename_i hlist
        cases h
        by_cases hnil : scripts = []
        · rw [hnil]
          rfl
        · rw [Php.document_array_of_ne fun hkeys => hlist ⟨hnil, hkeys⟩]
  | _ =>
      rw [hentry] at h
      cases h

/-- A list of strings, value by value. -/
theorem eq_str_of_mapM {values : List (String × Php)}
    (h : (values.mapM fun value => entryOf value.2) = some entries) :
    values.map Prod.snd = entries.map Php.str := by
  induction values generalizing entries with
  | nil =>
      cases h
      rfl
  | cons value values ih =>
      rw [List.mapM_cons] at h
      obtain ⟨entry, hentry, h⟩ := Option.bind_eq_some_iff.mp h
      obtain ⟨rest, hrest, h⟩ := Option.bind_eq_some_iff.mp h
      cases h
      rw [List.map_cons, List.map_cons, ih hrest]
      cases hvalue : value.2 with
      | str found =>
          rw [hvalue] at hentry
          cases hentry
          rfl
      | _ =>
          rw [hvalue] at hentry
          cases hentry

/-- The entries that are read are those of the document. -/
theorem entryStrings_of_entriesOf (h : entriesOf scripts = some entries) :
    entryStrings (onValues (Php.document floats) scripts) = entries := by
  rw [entryStrings, get_onValues_document]
  rw [entriesOf] at h
  cases hentry : Php.entry "post-autoload-dump" scripts with
  | null =>
      rw [hentry] at h
      cases h
      rcases entry_eq hentry with ⟨-, hget⟩ | hget <;> rw [hget] <;> rfl
  | str entry =>
      rw [hentry] at h
      cases h
      rw [(entry_eq hentry).resolve_left (by simp)]
      rfl
  | array values =>
      rw [hentry] at h
      simp only at h
      split at h
      · rename_i hkeys
        have hvalues := eq_str_of_mapM h
        rw [(entry_eq hentry).resolve_left (by simp), Option.map_some, Php.document, if_pos hkeys,
          Php.documentEntries_eq_map, List.map_map]
        have hencoded : values.map (Prod.snd ∘ fun e : String × Php => (e.1, Php.document floats e.2)) =
            entries.map Json.str := by
          show values.map (fun e => Php.document floats e.2) = _
          have hcomp : values.map (fun e => Php.document floats e.2) =
              (values.map Prod.snd).map (Php.document floats) := by rw [List.map_map]; rfl
          rw [hcomp, hvalues, List.map_map]
          rfl
        rw [hencoded]
        simp [List.filterMap_map]
      · cases h
  | _ =>
      rw [hentry] at h
      cases h

/-- A list of strings becomes one. -/
theorem document_listOf (entries : List String) :
    Php.document floats (listOf entries) = .arr (entries.map Json.str) := by
  have hlist := @Php.document_list floats (entries.map Php.str)
  rw [List.length_map, List.map_map] at hlist
  exact hlist

/-- **What is written** is the document with the script behind its entries, encoded again. -/
theorem withScript_ok (floats : FloatWriter) {composer : Php} {new : List (String × Php)}
    (h : withScript composer = .ok new) :
    ∃ doc, Php.document floats composer = .obj doc ∧
      Php.document floats (.array new) = .obj (withScriptMember doc) ∧
      containsAssetHook (entryStrings (scriptMembers doc)) = false := by
  cases composer with
  | array members =>
      simp only [withScript] at h
      split at h
      · cases h
      rename_i hkeys
      split at h
      · cases h
      rename_i scripts hscripts
      split at h
      · cases h
      rename_i entries hentries
      split at h
      · cases h
      rename_i hcontains
      cases h
      refine ⟨_, Php.document_array_of_ne hkeys, ?_, ?_⟩
      · rw [withScriptMember, scriptMembers_of_scriptsOf hscripts, entryStrings_of_entriesOf hentries,
          Php.set_eq_put, Php.document_put (c := 's') (by decide) (by decide), Php.set_eq_put,
          Php.document_put (c := 'p') (by decide) (by decide), document_listOf]
      · rw [scriptMembers_of_scriptsOf hscripts, entryStrings_of_entriesOf hentries]
        exact Bool.not_eq_true _ ▸ hcontains
  | _ => cases h

/-! ## Reading what is written -/

/-- A list of strings is read value by value. -/
theorem mapM_entryOf {values : List (String × Php)} (h : values.map Prod.snd = entries.map Php.str) :
    (values.mapM fun value => entryOf value.2) = some entries := by
  induction values generalizing entries with
  | nil =>
      rw [List.map_nil, eq_comm, List.map_eq_nil_iff] at h
      rw [h]
      rfl
  | cons value values ih =>
      cases entries with
      | nil => cases h
      | cons entry entries =>
          rw [List.map_cons, List.map_cons, List.cons.injEq] at h
          rw [List.mapM_cons, h.1, ih h.2]
          rfl

/-- A list of strings is read as the entries. -/
theorem entriesOf_list (entries : List String)
    (h : Php.get "post-autoload-dump" scripts = some (listOf entries)) :
    entriesOf scripts = some entries := by
  have hlength : ((Php.listKeys entries.length).zip (entries.map Php.str)).length = entries.length := by
    simp [Php.listKeys]
  have hkeys : Php.keys ((Php.listKeys entries.length).zip (entries.map Php.str)) =
      Php.listKeys entries.length := by
    have hzip := Php.keys_zip_listKeys (entries.map Php.str)
    rwa [List.length_map] at hzip
  rw [entriesOf, Php.entry, h, Option.getD_some, listOf]
  simp only [hkeys, hlength, if_true]
  apply mapM_entryOf
  apply List.map_snd_zip
  simp [Php.listKeys]

/-- A list of strings is decoded as one. -/
theorem jsonDecode_strings (entries : List String) :
    Php.jsonDecode (.arr (entries.map Json.str)) = listOf entries := by
  rw [Php.jsonDecode, Php.jsonDecodeValues_eq_map, List.length_map, List.map_map, listOf]
  rfl

/-- What is under a key of a document has one member for each key. -/
theorem single_of_get {doc : List (String × Json)} {key : String} {v : Json} (h : Single (.obj doc))
    (hget : Assignments.get key doc = some v) : Single v :=
  h.single_members _ (mem_of_get hget)

/-- The scripts of a document have one entry for each key. -/
theorem nodup_scriptMembers {doc : List (String × Json)} (h : Single (.obj doc)) :
    ((scriptMembers doc).map Prod.fst).Nodup := by
  rw [scriptMembers]
  split
  · rename_i scripts hget
    exact (single_of_get h hget).nodup_keys
  · exact List.nodup_nil

/-- **The script is found again** in a document that has it. -/
theorem withScript_withScriptMember {doc : List (String × Json)} (h : Single (.obj doc)) :
    withScript (Php.jsonDecode (.obj (withScriptMember doc))) = .error .alreadyPresent := by
  have hkeys : ((withScriptMember doc).map Prod.fst).Nodup := nodup_put h.nodup_keys
  have hscriptKeys : ((put "post-autoload-dump"
      (.arr ((entryStrings (scriptMembers doc) ++ [script]).map Json.str)) (scriptMembers doc)).map
        Prod.fst).Nodup := nodup_put (nodup_scriptMembers h)
  have hdump : Php.get "post-autoload-dump" (onValues Php.jsonDecode (put "post-autoload-dump"
      (.arr ((entryStrings (scriptMembers doc) ++ [script]).map Json.str)) (scriptMembers doc))) =
        some (listOf (entryStrings (scriptMembers doc) ++ [script])) := by
    rw [Php.get_eq, get_onValues, get_put, Option.map_some, jsonDecode_strings]
  have hscripts : Php.get "scripts" (onValues Php.jsonDecode (withScriptMember doc)) =
      some (.array (onValues Php.jsonDecode (put "post-autoload-dump"
        (.arr ((entryStrings (scriptMembers doc) ++ [script]).map Json.str)) (scriptMembers doc)))) := by
    rw [Php.get_eq, get_onValues, withScriptMember, get_put, Option.map_some, Php.jsonDecode_obj,
      collapse_of_nodup hscriptKeys]
  have hlist : ∀ {key : String} {c : Char} {entries : List (String × Php)} {value : Php},
      c ∈ key.toList → c.isDigit = false → Php.get key entries = some value →
        Php.keys entries ≠ Php.listKeys entries.length := by
    intro key c entries value hc hdigit hget hlist
    apply Php.notMem_listKeys (n := entries.length) hc hdigit
    rw [← hlist]
    exact List.mem_map_of_mem (mem_of_get hget)
  have hcontains : containsAssetHook (entryStrings (scriptMembers doc) ++ [script]) = true := by
    rw [containsAssetHook, List.any_append]
    have hscript : [script].any (fun entry =>
        decide ("horizon-new-dawn:assets".toList <:+: entry.toList)) = true := by decide
    rw [hscript, Bool.or_true]
  rw [Php.jsonDecode_obj, collapse_of_nodup hkeys, withScript,
    if_neg (hlist (c := 's') (by decide) (by decide) hscripts), scriptsOf, Php.entry, hscripts]
  simp only [Option.getD_some]
  rw [if_neg fun hall => hlist (c := 'p') (by decide) (by decide) hdump hall.2]
  simp only [entriesOf_list _ hdump, hcontains, if_true]

/-- The document of the contents of a file. -/
def documentOf (contents : List UInt8) : Option Json :=
  (Php.ofBytes contents).bind fun text => Json.read text.toList

/-- Parsing reads the document and decodes it. -/
theorem jsonParse_eq (contents : List UInt8) :
    Php.jsonParse contents = (documentOf contents).map Php.jsonDecode := rfl

/-- The document with the script can be written where the old one can. -/
theorem spellable_withScriptMember {doc : List (String × Json)} (h : Spellable 512 (.obj doc)) :
    Spellable 512 (.obj (withScriptMember doc)) := by
  have hscripts : ∀ m ∈ scriptMembers doc, Spellable 510 m.2 := by
    rw [scriptMembers]
    split
    · rename_i scripts hget
      exact Spellable.members (h.members _ (mem_of_get hget))
    · simp
  apply Spellable.put h.members
  apply Spellable.put hscripts
  apply Spellable.arr
  intro v hv
  obtain ⟨entry, -, rfl⟩ := List.mem_map.mp hv
  exact .str entry

variable {contents new : List UInt8} {v : Json}

/-- What the edited contents say. -/
theorem documentOf_edited (hv : documentOf contents = some v) (hintegral : Integral v)
    (h : edited floats contents = .ok new) :
    ∃ doc, v.single.listed = .obj doc ∧ documentOf new = some (.obj (withScriptMember doc)) ∧
      edited floats new = .error .alreadyPresent := by
  rw [edited, jsonParse_eq, hv, Option.map_some] at h
  simp only at h
  cases hscript : withScript (Php.jsonDecode v) with
  | error result => simp [hscript] at h
  | ok members =>
      simp only [hscript] at h
      cases hpretty : prettyBytes floats members with
      | none => simp [hpretty] at h
      | some encoded =>
          simp only [hpretty, Except.ok.injEq] at h
          subst h
          obtain ⟨doc, hdoc, hnew, -⟩ := withScript_ok floats hscript
          rw [Php.document_jsonDecode, hintegral.single.written_eq] at hdoc
          obtain ⟨document, hdocument, rfl⟩ := Option.map_eq_some_iff.mp hpretty
          rw [Php.jsonEncode_eq_some, hnew] at hdocument
          obtain ⟨-, rfl⟩ := hdocument
          have hspellable : Spellable 512 (.obj doc) := by
            obtain ⟨text, -, hread⟩ := Option.bind_eq_some_iff.mp hv
            rw [← hdoc]
            exact (spellable_of_read hread hintegral).single.listed
          have hsingle : Single (.obj doc) := by
            rw [← hdoc]
            exact (single_single v).listed
          -- what is written is read again, although it stands over several lines
          have hread : documentOf (Php.bytes (String.ofList
              (pretty 0 (.obj (withScriptMember doc)) ++ ['\n']))) = some (.obj (withScriptMember doc)) := by
            rw [documentOf, Php.ofBytes_bytes, Option.bind_some, String.toList_ofList]
            exact read_pretty (spellable_withScriptMember hspellable)
          refine ⟨doc, hdoc, hread, ?_⟩
          rw [edited, jsonParse_eq, hread, Option.map_some]
          simp only [withScript_withScriptMember hsingle]

variable {s : Store} {path : String}

/-- **What adding the script does to the document.** Where the call says that it was added, the file
parses to the old document with a list in the place of every object that has the keys of one, and with
the script behind its `post-autoload-dump` entries. This is the old document apart from the entries
exactly where no object has the keys of a list. A further call leaves the file alone: it finds the
script, unless its read of the file has failed. -/
theorem ensure_document (hfresh : Fresh path s) (hcontents : s.files path = some contents)
    (hv : documentOf contents = some v) (hintegral : Integral v) :
    Prog.Ends traced (ensure floats path) (s, [])
      (fun result y => result = .added →
        ∃ doc new, v.single.listed = .obj doc ∧ (v.single.listed = v.single ↔ v.single.Listless) ∧
          y.1.files path = some new ∧ documentOf new = some (.obj (withScriptMember doc)) ∧
          ∀ s' : Store, s'.files path = some new →
            Prog.Ends traced (ensure floats path) (s', [])
              (fun result' z => (result' = .alreadyPresent ∨ result' = .failed ∧ ReadFailed z path) ∧
                z.1.files = s'.files) (fun _ _ => False))
      (fun _ _ => False) := by
  apply Prog.Ends.mono (ends_ensure hfresh) _ fun _ _ h => h
  rintro result y hends rfl
  rcases hends with ⟨-, contents', new, hcontents', hedited, hleaves⟩ | ⟨-, hresult⟩
  · rw [hcontents, Option.some.injEq] at hcontents'
    subst hcontents'
    obtain ⟨doc, hdoc, hdocument, hagain⟩ := documentOf_edited hv hintegral hedited
    refine ⟨doc, new, hdoc, hintegral.single.listed_eq_self_iff, hleaves.target_eq, hdocument, ?_⟩
    intro s' hs'
    exact ends_ensure_of_error hs' hagain
  · rcases hresult with hfailed | ⟨hmissing, -⟩ | ⟨contents', -, hedited⟩
    · cases hfailed
    · cases hmissing
    · exact absurd hedited (edited_ne_added floats contents')

/-! ## The document with a name -/

/-- Its numbers are integers: it has none. -/
theorem integral_bareDocument : Integral bareDocument := by
  refine .obj fun m hm => ?_
  simp only [List.mem_cons, List.not_mem_nil, or_false] at hm
  rcases hm with rfl | rfl
  · exact .str _
  · exact .obj (by simp)

/-- The empty object becomes a list. -/
theorem listed_bareDocument :
    bareDocument.single.listed = .obj [("name", .str "acme/app"), ("extra", .arr [])] := by
  rw [bareDocument, single_obj, collapse_of_nodup (by decide)]
  rw [listed_obj_of_ne (by decide)]
  rfl

/-- The document with the script. -/
theorem withScriptMember_bareDocument :
    withScriptMember [("name", .str "acme/app"), ("extra", .arr [])] =
      [("name", .str "acme/app"), ("extra", .arr []),
        ("scripts", .obj [("post-autoload-dump", .arr [.str script])])] := by
  simp [withScriptMember, scriptMembers, entryStrings, Assignments.get, Assignments.put]

/-- What the contents of the file say. -/
theorem documentOf_bareContents : documentOf bareContents = some bareDocument := by
  rw [documentOf, bareContents, Php.ofBytes_bytes, Option.bind_some, String.toList_ofList]
  exact read_spell spellable_bareDocument

/-- Where nothing fails, the script is added to this document, and a second call finds it. -/
theorem ensure_document_bare :
    Prog.Ends traced (ensure .verbatim "composer.json")
      (storeOf bareContents none (fun _ => .succeeds) 0, [])
      (fun result y => result = .added ∧ ∃ new, y.1.files "composer.json" = some new ∧
        documentOf new = some (.obj [("name", .str "acme/app"), ("extra", .arr []),
          ("scripts", .obj [("post-autoload-dump", .arr [.str script])])]) ∧
        Prog.Ends traced (ensure .verbatim "composer.json") (y.1, [])
          (fun result' z => (result' = .alreadyPresent ∨
            result' = .failed ∧ ReadFailed z "composer.json") ∧ z.1.files = y.1.files)
          (fun _ _ => False))
      (fun _ _ => False) := by
  obtain ⟨new, hnew⟩ := edited_bareContents
  apply Prog.Ends.mono ((ends_ensure_succeeds hnew).and (ensure_document fresh_storeOf storeOf_files
    documentOf_bareContents integral_bareDocument)) _ fun _ _ h => h.1
  rintro result y ⟨⟨rfl, -⟩, h⟩
  obtain ⟨doc, new, hdoc, -, hfile, hdocument, hagain⟩ := h rfl
  rw [listed_bareDocument] at hdoc
  rw [← Json.obj.inj hdoc, withScriptMember_bareDocument] at hdocument
  exact ⟨rfl, new, hfile, hdocument, hagain y.1 hfile⟩

end ComposerAssetHook

end HorizonNewDawn

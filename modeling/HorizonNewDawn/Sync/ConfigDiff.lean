import HorizonNewDawn.Collections.Absorption
import HorizonNewDawn.Collections.Assignments
import Mathlib.Data.List.Sort

/-! # The changes of a config map

`diffConfig` compares two versions of a config file, given as the texts under their dotted paths. A
path whose text has changed gives way to the changes below it, and what is below an added or deleted
path is not reported again. `diffConfig_reports` says that no change gets lost this way. -/

namespace HorizonNewDawn

namespace HorizonSync

open Assignments

/-! ## The function -/

/-- The texts of a config file under their paths. No path is an integer-like array key. -/
structure ConfigMap where
  entries : List (String × String)
  distinct : (entries.map Prod.fst).Nodup

inductive Change
  | add
  | modify
  | delete
  deriving DecidableEq

/-- A reported change. -/
structure Item where
  change : Change
  id : String
  deriving DecidableEq

/-- `str_starts_with` -/
def strStartsWith (text start : String) : Bool := start.toList.isPrefixOf text.toList

/-- The loop over the new paths. -/
def recordAfter (before : ConfigMap) (changes : List (String × Change))
    (entry : String × String) : List (String × Change) :=
  match get entry.1 before.entries with
  | none => put entry.1 .add changes
  | some text => if text ≠ entry.2 then put entry.1 .modify changes else changes

/-- The loop over the old paths. -/
def recordBefore (after : ConfigMap) (changes : List (String × Change))
    (entry : String × String) : List (String × Change) :=
  match get entry.1 after.entries with
  | none => put entry.1 .delete changes
  | some _ => changes

/-- `$changes` -/
def changes (before after : ConfigMap) : List (String × Change) :=
  before.entries.foldl (recordBefore after) (after.entries.foldl (recordAfter before) [])

/-- `$drop` -/
def drop (changes : List (String × Change)) (path : String) (change : Change) : Bool :=
  changes.any fun other =>
    (other.1 ≠ path && strStartsWith other.1 (path ++ ".") && change = .modify) ||
      (other.1 ≠ path && strStartsWith path (other.1 ++ ".") &&
        other.2 ∈ [Change.add, Change.delete])

/-- `diffConfig`, where `spaceship` is the comparison of two ids. -/
def diffConfig (spaceship : String → String → Ordering) (before after : ConfigMap) : List Item :=
  let keep := (changes before after).filterMap fun entry =>
    if drop (changes before after) entry.1 entry.2 then none else some ⟨entry.2, entry.1⟩
  keep.mergeSort fun a b => (spaceship a.id b.id).isLE

/-! ## The changes -/

/-- What has become of a path. -/
def changeOf (before after : ConfigMap) (path : String) : Option Change :=
  match get path before.entries, get path after.entries with
  | none, none => none
  | none, some _ => some .add
  | some _, none => some .delete
  | some old, some new => if old = new then none else some .modify

variable {before after : ConfigMap} {path : String} {change : Change}

/-- One step of the loop over the new paths. -/
theorem get_recordAfter {changes : List (String × Change)} {entry : String × String} :
    get path (recordAfter before changes entry) =
      if path = entry.1 then
        match get path before.entries with
        | none => some .add
        | some text => if text ≠ entry.2 then some .modify else get path changes
      else get path changes := by
  unfold recordAfter
  by_cases hpath : path = entry.1
  · subst hpath
    rw [if_pos rfl]
    cases get entry.1 before.entries with
    | none => exact get_put
    | some text =>
        dsimp only
        split_ifs
        · exact get_put
        · rfl
  · rw [if_neg hpath]
    cases get entry.1 before.entries with
    | none => exact get_put_ne hpath
    | some text =>
        dsimp only
        split_ifs
        · exact get_put_ne hpath
        · rfl

/-- The loop over the new paths, of which none has been recorded before. -/
theorem get_foldl_recordAfter {entries : List (String × String)}
    (hentries : (entries.map Prod.fst).Nodup) {changes : List (String × Change)} :
    get path (entries.foldl (recordAfter before) changes) =
      match get path entries with
      | none => get path changes
      | some new => match get path before.entries with
        | none => some .add
        | some old => if old ≠ new then some .modify else get path changes := by
  induction entries generalizing changes with
  | nil => rfl
  | cons entry rest ih =>
      rw [List.map_cons, List.nodup_cons] at hentries
      rw [List.foldl_cons, ih hentries.2, get_recordAfter, get_cons]
      by_cases hpath : entry.1 = path
      · have hnone : get path rest = none := by
          rw [get_eq_none, ← hpath]
          exact hentries.1
        rw [if_pos hpath.symm, if_pos hpath, hnone]
      · rw [if_neg (Ne.symm hpath), if_neg hpath]

/-- The loop over the old paths. -/
theorem get_foldl_recordBefore {entries : List (String × String)}
    {changes : List (String × Change)} :
    get path (entries.foldl (recordBefore after) changes) =
      match get path entries, get path after.entries with
      | some _, none => some .delete
      | _, _ => get path changes := by
  induction entries generalizing changes with
  | nil => rfl
  | cons entry rest ih =>
      have hstep : get path (recordBefore after changes entry) =
          if entry.1 = path ∧ get path after.entries = none then some .delete
          else get path changes := by
        unfold recordBefore
        by_cases hpath : entry.1 = path
        · subst hpath
          cases hafter : get entry.1 after.entries with
          | none => rw [if_pos ⟨rfl, rfl⟩, get_put]
          | some text => rw [if_neg (by simp)]
        · rw [if_neg (fun h => hpath h.1)]
          cases get entry.1 after.entries with
          | none => exact get_put_ne (Ne.symm hpath)
          | some text => rfl
      rw [List.foldl_cons, ih, hstep, get_cons]
      by_cases hpath : entry.1 = path
      · rw [if_pos hpath]
        cases hafter : get path after.entries with
        | none =>
            rw [if_pos ⟨hpath, rfl⟩]
            cases get path rest <;> rfl
        | some text =>
            rw [if_neg (by simp)]
            cases get path rest <;> rfl
      · rw [if_neg hpath, if_neg (fun h => hpath h.1)]

/-- **The recorded changes** are those there are. -/
theorem get_changes : get path (changes before after) = changeOf before after path := by
  unfold changes changeOf
  rw [get_foldl_recordBefore, get_foldl_recordAfter after.distinct]
  cases get path before.entries with
  | none => cases get path after.entries <;> rfl
  | some old =>
      cases get path after.entries with
      | none => rfl
      | some new =>
          dsimp only
          by_cases heq : old = new
          · rw [if_neg (not_not.mpr heq), if_pos heq]
            rfl
          · rw [if_pos heq, if_neg heq]

/-- An entry of the second document is recorded once. -/
theorem nodup_recordAfter {changes : List (String × Change)} {entry : String × String}
    (h : (changes.map Prod.fst).Nodup) :
    ((recordAfter before changes entry).map Prod.fst).Nodup := by
  unfold recordAfter
  split
  · exact nodup_put h
  · split_ifs
    · exact nodup_put h
    · exact h

/-- An entry of the first document is recorded once. -/
theorem nodup_recordBefore {changes : List (String × Change)} {entry : String × String}
    (h : (changes.map Prod.fst).Nodup) :
    ((recordBefore after changes entry).map Prod.fst).Nodup := by
  unfold recordBefore
  split
  · exact nodup_put h
  · exact h

/-- Each path is recorded once. -/
theorem nodup_changes : ((changes before after).map Prod.fst).Nodup := by
  have hkeep : ∀ {f : List (String × Change) → String × String → List (String × Change)},
      (∀ l e, (l.map Prod.fst).Nodup → ((f l e).map Prod.fst).Nodup) →
      ∀ (entries : List (String × String)) l, (l.map Prod.fst).Nodup →
        ((entries.foldl f l).map Prod.fst).Nodup := by
    intro f hf entries
    induction entries with
    | nil => exact fun l hl => hl
    | cons entry rest ih => exact fun l hl => ih _ (hf l entry hl)
  apply hkeep fun _ _ => nodup_recordBefore
  apply hkeep fun _ _ => nodup_recordAfter
  exact List.nodup_nil

/-- The changes are those of the paths. -/
theorem mem_changes : (path, change) ∈ changes before after ↔
    changeOf before after path = some change := by
  rw [← get_changes]
  exact ⟨get_of_mem nodup_changes, mem_of_get⟩

/-! ## The order of the paths -/

/-- A path stands above another one if that goes on with a dot behind it. -/
def Above (a b : String) : Prop := strStartsWith b (a ++ ".") = true

/-- A path stands above another that goes on behind it with a dot. -/
theorem above_iff {a b : String} : Above a b ↔ ∃ rest, b.toList = a.toList ++ '.' :: rest := by
  unfold Above strStartsWith
  rw [List.isPrefixOf_iff_prefix, String.toList_append]
  constructor
  · rintro ⟨rest, hrest⟩
    refine ⟨rest, ?_⟩
    rw [← hrest, List.append_assoc]
    rfl
  · rintro ⟨rest, hrest⟩
    refine ⟨rest, ?_⟩
    rw [hrest, List.append_assoc]
    rfl

/-- Of two initial pieces that a dot follows, one is the other or goes on with a dot behind it. -/
theorem chain_of_append {a b rest rest' : List Char}
    (h : a ++ '.' :: rest = b ++ '.' :: rest') (hle : a.length ≤ b.length) :
    a = b ∨ ∃ tail, b = a ++ '.' :: tail := by
  obtain ⟨tail, rfl⟩ : ∃ tail, b = a ++ tail := by
    have hprefix : a <+: b ++ '.' :: rest' := ⟨'.' :: rest, h⟩
    obtain ⟨tail, htail⟩ := List.prefix_of_prefix_length_le hprefix ⟨_, rfl⟩ hle
    exact ⟨tail, htail.symm⟩
  cases tail with
  | nil => exact Or.inl (List.append_nil a).symm
  | cons c tail =>
      rw [List.append_assoc, List.append_right_inj, List.cons_append, List.cons.injEq] at h
      exact Or.inr ⟨tail, by rw [h.1]⟩

/-- **The paths are a forest.** -/
theorem forest_above : Absorption.Forest Above fun path => path.toList.length where
  trans := by
    intro a b c hab hbc
    obtain ⟨rest, hrest⟩ := above_iff.mp hab
    obtain ⟨rest', hrest'⟩ := above_iff.mp hbc
    apply above_iff.mpr
    refine ⟨rest ++ '.' :: rest', ?_⟩
    rw [hrest', hrest, List.append_assoc]
    rfl
  chain := by
    intro a b c hac hbc
    obtain ⟨rest, hrest⟩ := above_iff.mp hac
    obtain ⟨rest', hrest'⟩ := above_iff.mp hbc
    rcases le_total a.toList.length b.toList.length with hle | hle
    · rcases chain_of_append (hrest.symm.trans hrest') hle with heq | htail
      · exact Or.inl (String.toList_injective heq)
      · exact Or.inr (Or.inl (above_iff.mpr htail))
    · rcases chain_of_append (hrest'.symm.trans hrest) hle with heq | htail
      · exact Or.inl (String.toList_injective heq.symm)
      · exact Or.inr (Or.inr (above_iff.mpr htail))
  deeper := by
    intro a b hab
    obtain ⟨rest, hrest⟩ := above_iff.mp hab
    rw [hrest, List.length_append, List.length_cons]
    omega

/-- No path stands above itself. -/
theorem ne_of_above {a b : String} (h : Above a b) : a ≠ b := by
  rintro rfl
  exact (forest_above.deeper h).false

/-! ## What is reported -/

/-- A path that has changed. -/
def Changed (before after : ConfigMap) (path : String) : Prop :=
  (changeOf before after path).isSome

/-- A path that was added or deleted. -/
def AddedOrDeleted (before after : ConfigMap) (path : String) : Prop :=
  changeOf before after path = some .add ∨ changeOf before after path = some .delete

/-- A path that has changed has a change. -/
theorem exists_of_changed (h : Changed before after path) :
    ∃ change, changeOf before after path = some change := Option.isSome_iff_exists.mp h

/-- A change that is not dropped is kept. -/
theorem kept_iff (h : changeOf before after path = some change) :
    drop (changes before after) path change = false ↔
      Absorption.Kept Above (Changed before after) (AddedOrDeleted before after) path := by
  have hmodify : change = .modify ↔ ¬AddedOrDeleted before after path := by
    unfold AddedOrDeleted
    rw [h]
    cases change <;> simp
  unfold drop
  rw [List.any_eq_false]
  constructor
  · intro hall
    constructor
    · exact Option.isSome_iff_exists.mpr ⟨change, h⟩
    · intro hmodified b hb hab
      obtain ⟨change', hb⟩ := exists_of_changed hb
      apply hall (b, change') (mem_changes.mpr hb)
      have hstart : strStartsWith b (path ++ ".") = true := hab
      simp [Ne.symm (ne_of_above hab), hmodify.mpr hmodified, hstart]
    · intro b _ hb hab
      have hchange : ∃ change', changeOf before after b = some change' ∧
          change' ∈ [Change.add, Change.delete] := by
        rcases hb with hb | hb <;> exact ⟨_, hb, by simp⟩
      obtain ⟨change', hb, hmem⟩ := hchange
      apply hall (b, change') (mem_changes.mpr hb)
      simp only [hmem, decide_true, Bool.and_true, Bool.or_eq_true]
      have hstart : strStartsWith path (b ++ ".") = true := hab
      right
      simp [ne_of_above hab, hstart]
  · rintro ⟨-, hstanding, hexposed⟩ ⟨b, change'⟩ hb
    rw [mem_changes] at hb
    have hchanged : Changed before after b := Option.isSome_iff_exists.mpr ⟨change', hb⟩
    intro hdrop
    rw [Bool.or_eq_true] at hdrop
    rcases hdrop with hdrop | hdrop
    · simp only [Bool.and_eq_true, decide_eq_true_eq] at hdrop
      exact hstanding (hmodify.mp hdrop.2) b hchanged hdrop.1.2
    · simp only [Bool.and_eq_true, decide_eq_true_eq] at hdrop
      apply hexposed b hchanged _ hdrop.1.2
      unfold AddedOrDeleted
      rw [hb]
      simpa using hdrop.2

/-- **The diff** lists the changes that none above absorbs. -/
theorem mem_diffConfig {spaceship : String → String → Ordering} :
    ⟨change, path⟩ ∈ diffConfig spaceship before after ↔
      changeOf before after path = some change ∧
        Absorption.Kept Above (Changed before after) (AddedOrDeleted before after) path := by
  unfold diffConfig
  rw [List.mem_mergeSort, List.mem_filterMap]
  constructor
  · rintro ⟨⟨path', change'⟩, hmem, hitem⟩
    rw [mem_changes] at hmem
    split_ifs at hitem with hdrop
    rw [Option.some.injEq, Item.mk.injEq] at hitem
    obtain ⟨rfl, rfl⟩ := hitem
    exact ⟨hmem, (kept_iff hmem).mp (by simpa using hdrop)⟩
  · rintro ⟨hchange, hkept⟩
    refine ⟨(path, change), mem_changes.mpr hchange, ?_⟩
    rw [if_neg (by simp [(kept_iff hchange).mpr hkept])]

/-- What a report says: changes there are, none above another; each added or deleted path at or below
a reported one of this kind, and each modified path comparable to a reported one. -/
structure Reports (before after : ConfigMap) (items : List Item) : Prop where
  sound : ∀ item ∈ items, changeOf before after item.id = some item.change
  antichain : ∀ item ∈ items, ∀ item' ∈ items, ¬Above item.id item'.id
  structural : ∀ path, AddedOrDeleted before after path →
    ∃ item ∈ items, (item.id = path ∨ Above item.id path) ∧ item.change ≠ .modify
  modified : ∀ path, changeOf before after path = some .modify →
    ∃ item ∈ items, item.id = path ∨ Above item.id path ∨ Above path item.id

/-- No changed path is longer than the longest. -/
theorem exists_bound : ∃ bound, ∀ path, Changed before after path → path.toList.length ≤ bound := by
  obtain ⟨bound, hbound⟩ : ∃ bound, ∀ entry ∈ changes before after,
      entry.1.toList.length ≤ bound := by
    induction changes before after with
    | nil => exact ⟨0, by simp⟩
    | cons entry rest ih =>
        obtain ⟨bound, hbound⟩ := ih
        refine ⟨max entry.1.toList.length bound, ?_⟩
        intro entry' hentry'
        rcases List.mem_cons.mp hentry' with rfl | hentry'
        · exact le_max_left _ _
        · exact (hbound entry' hentry').trans (le_max_right _ _)
  refine ⟨bound, ?_⟩
  intro path hpath
  obtain ⟨change, hchange⟩ := exists_of_changed hpath
  exact hbound (path, change) (mem_changes.mpr hchange)

/-- **No change is hidden**, in whatever order the reported ones are listed. -/
theorem diffConfig_reports (spaceship : String → String → Ordering) (before after : ConfigMap) :
    Reports before after (diffConfig spaceship before after) := by
  have hchanged : ∀ {path}, AddedOrDeleted before after path → Changed before after path := by
    intro path hpath
    rcases hpath with h | h <;> exact Option.isSome_iff_exists.mpr ⟨_, h⟩
  constructor
  · rintro ⟨change, path⟩ hitem
    exact (mem_diffConfig.mp hitem).1
  · rintro ⟨change, path⟩ hitem ⟨change', path'⟩ hitem'
    exact Absorption.not_above_of_kept (mem_diffConfig.mp hitem).2 (mem_diffConfig.mp hitem').2
  · intro path hpath
    obtain ⟨r, hkept, hr, hle⟩ :=
      Absorption.exists_kept_of_absorbing forest_above (hchanged hpath) hpath
    rcases hr with hr | hr
    · exact ⟨⟨.add, r⟩, mem_diffConfig.mpr ⟨hr, hkept⟩, hle, by simp⟩
    · exact ⟨⟨.delete, r⟩, mem_diffConfig.mpr ⟨hr, hkept⟩, hle, by simp⟩
  · intro path hpath
    obtain ⟨bound, hbound⟩ := @exists_bound before after
    have hmarked : Changed before after path := Option.isSome_iff_exists.mpr ⟨_, hpath⟩
    obtain ⟨r, hkept, hr⟩ := @Absorption.exists_kept_of_marked _ _ _
      (AddedOrDeleted before after) _ _ forest_above bound hbound hmarked
    obtain ⟨change, hchange⟩ := exists_of_changed hkept.isMarked
    exact ⟨⟨change, r⟩, mem_diffConfig.mpr ⟨hchange, hkept⟩, hr⟩

end HorizonSync

end HorizonNewDawn

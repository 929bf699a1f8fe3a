import Mathlib.Data.List.Nodup
import Mathlib.Tactic.Common

/-! # Entries assigned by key

A list of entries in which an assignment takes the place of the entry with the same key, and a new
key goes to the end. Assigning all the entries of a list one after the other keeps each key at its
first place with its last value (`collapse`), and it commutes with a function of the values
(`collapse_map`). -/

namespace Assignments

variable {κ α β : Type} [DecidableEq κ] {key key' : κ} {value value' : α} {l new : List (κ × α)}

/-- Assign to a key: in its place, or at the end. -/
def put (key : κ) (value : α) : List (κ × α) → List (κ × α)
  | [] => [(key, value)]
  | (k, v) :: rest => if k = key then (k, value) :: rest else (k, v) :: put key value rest

/-- The value under a key. -/
def get (key : κ) (l : List (κ × α)) : Option α := (l.find? fun e => e.1 = key).map Prod.snd

/-- The entries assigned one after the other. -/
def collapse (new : List (κ × α)) : List (κ × α) := new.foldl (fun l e => put e.1 e.2 l) []

/-- Apply a function to the values. -/
def onValues (f : α → β) (l : List (κ × α)) : List (κ × β) := l.map fun e => (e.1, f e.2)

/-! ## One assignment -/

/-- Nothing is assigned in an empty list. -/
@[simp] theorem get_nil : get key ([] : List (κ × α)) = none := rfl

/-- The first assignment to a key counts. -/
theorem get_cons {e : κ × α} : get key (e :: l) = if e.1 = key then some e.2 else get key l := by
  unfold get
  rw [List.find?_cons]
  split_ifs with h
  · simp [h]
  · simp [h]

/-- What is assigned is found. -/
theorem get_put : get key (put key value l) = some value := by
  induction l with
  | nil => rw [put, get_cons, if_pos rfl]
  | cons e rest ih =>
      rw [put]
      split_ifs with he
      · rw [get_cons, if_pos he]
      · rw [get_cons, if_neg he, ih]

/-- An assignment changes no other key. -/
theorem get_put_ne (h : key ≠ key') : get key (put key' value l) = get key l := by
  induction l with
  | nil => rw [put, get_cons, if_neg (Ne.symm h)]
  | cons e rest ih =>
      rw [put]
      split_ifs with he
      · have hne : e.1 ≠ key := by
          rw [he]
          exact Ne.symm h
        rw [get_cons, get_cons, if_neg hne, if_neg hne]
      · rw [get_cons, get_cons, ih]

/-- An entry that is found is there. -/
theorem mem_of_get (h : get key l = some value) : (key, value) ∈ l := by
  obtain ⟨e, he, rfl⟩ := Option.map_eq_some_iff.mp h
  have hkey : e.1 = key := by simpa using List.find?_some he
  rw [← hkey]
  exact List.mem_of_find?_eq_some he

/-- Nothing is found under a key that is not there. -/
theorem get_eq_none : get key l = none ↔ key ∉ l.map Prod.fst := by
  unfold get
  rw [Option.map_eq_none_iff, List.find?_eq_none]
  constructor
  · intro h hmem
    obtain ⟨e, he, hkey⟩ := List.mem_map.mp hmem
    exact h e he (decide_eq_true hkey)
  · intro h e he hkey
    exact h (List.mem_map.mpr ⟨e, he, of_decide_eq_true hkey⟩)

/-- Where the keys are distinct, an entry is found under its key. -/
theorem get_of_mem (hl : (l.map Prod.fst).Nodup) (h : (key, value) ∈ l) :
    get key l = some value := by
  induction l with
  | nil => cases h
  | cons e rest ih =>
      rw [List.map_cons, List.nodup_cons] at hl
      rw [get_cons]
      rcases List.mem_cons.mp h with rfl | h
      · rw [if_pos rfl]
      · rw [if_neg, ih hl.2 h]
        rintro rfl
        exact hl.1 (List.mem_map.mpr ⟨_, h, rfl⟩)

/-- An assignment adds its key at the end, or leaves the keys as they are. -/
theorem keys_put : (put key value l).map Prod.fst =
    if key ∈ l.map Prod.fst then l.map Prod.fst else l.map Prod.fst ++ [key] := by
  induction l with
  | nil => rfl
  | cons e rest ih =>
      rw [put, List.map_cons]
      by_cases he : e.1 = key
      · rw [if_pos he, if_pos (by rw [← he]; exact List.mem_cons_self)]
        rfl
      · have hmem : key ∈ e.1 :: rest.map Prod.fst ↔ key ∈ rest.map Prod.fst := by
          simp [Ne.symm (Ne.intro he)]
        rw [if_neg he, List.map_cons, ih]
        by_cases hk : key ∈ rest.map Prod.fst
        · rw [if_pos hk, if_pos (hmem.mpr hk)]
        · rw [if_neg hk, if_neg (hk ∘ hmem.mp)]
          rfl

/-- An assignment adds its key. -/
theorem mem_keys_put {k : κ} :
    k ∈ (put key value l).map Prod.fst ↔ k = key ∨ k ∈ l.map Prod.fst := by
  rw [keys_put]
  split_ifs with hk
  · constructor
    · exact Or.inr
    · rintro (rfl | h)
      · exact hk
      · exact h
  · rw [List.mem_append, List.mem_singleton, or_comm]

/-- Assigning keeps the keys distinct. -/
theorem nodup_put (h : (l.map Prod.fst).Nodup) : ((put key value l).map Prod.fst).Nodup := by
  rw [keys_put]
  split_ifs with hk
  · exact h
  · apply List.nodup_append.mpr
    refine ⟨h, List.nodup_singleton key, ?_⟩
    rintro k hmem k' hmem' rfl
    rw [List.mem_singleton.mp hmem'] at hmem
    exact hk hmem

/-- An entry after an assignment is the assigned one or one that was there, under another key. -/
theorem mem_put (hl : (l.map Prod.fst).Nodup) {e : κ × α} :
    e ∈ put key value l ↔ e = (key, value) ∨ e ∈ l ∧ e.1 ≠ key := by
  obtain ⟨k, v⟩ := e
  have hiff : ∀ {l' : List (κ × α)}, (l'.map Prod.fst).Nodup →
      ((k, v) ∈ l' ↔ get k l' = some v) := fun hl' => ⟨get_of_mem hl', mem_of_get⟩
  rw [hiff (nodup_put hl), hiff hl]
  by_cases hk : k = key
  · subst hk
    rw [get_put]
    constructor
    · intro h
      left
      rw [Option.some.inj h]
    · rintro (h | h)
      · rw [(Prod.mk.inj h).2]
      · exact absurd rfl h.2
  · rw [get_put_ne hk]
    constructor
    · intro h
      exact Or.inr ⟨h, hk⟩
    · rintro (h | h)
      · exact absurd (Prod.mk.inj h).1 hk
      · exact h.1

/-- The later of two assignments to a key counts. -/
theorem put_put : put key value (put key value' l) = put key value l := by
  induction l with
  | nil => rw [put, put, put, if_pos rfl]
  | cons e rest ih =>
      rw [put, put]
      split_ifs with he
      · rw [put, if_pos he]
      · rw [put, if_neg he, ih]

/-- The assigned value is there. -/
theorem mem_put_self : (key, value) ∈ put key value l := mem_of_get get_put

/-- What holds of the assigned value and of the others holds of all. -/
theorem forall_mem_put {P : α → Prop} (hvalue : P value) (h : ∀ e ∈ l, P e.2) :
    ∀ e ∈ put key value l, P e.2 := by
  induction l with
  | nil => simpa [put] using hvalue
  | cons e rest ih =>
      obtain ⟨he, hrest⟩ := List.forall_mem_cons.mp h
      rw [put]
      split_ifs
      · exact List.forall_mem_cons.mpr ⟨hvalue, hrest⟩
      · exact List.forall_mem_cons.mpr ⟨he, ih hrest⟩

/-- What holds of all the values after an assignment holds after the assignment of another value. -/
theorem forall_mem_put_of {P : α → Prop} (hvalue : P value')
    (h : ∀ e ∈ put key value l, P e.2) : ∀ e ∈ put key value' l, P e.2 := by
  have hput : put key value' l = put key value' (put key value l) := put_put.symm
  rw [hput]
  exact forall_mem_put hvalue h

/-- A new key goes to the end. -/
theorem put_of_notMem (h : key ∉ l.map Prod.fst) : put key value l = l ++ [(key, value)] := by
  induction l with
  | nil => rfl
  | cons e rest ih =>
      rw [List.map_cons, List.mem_cons, not_or] at h
      rw [put, if_neg (Ne.symm h.1), ih h.2]
      rfl

/-! ## A function of the values -/

omit [DecidableEq κ] in
/-- A map of the values leaves the keys as they are. -/
@[simp] theorem keys_onValues (f : α → β) : (onValues f l).map Prod.fst = l.map Prod.fst := by
  unfold onValues
  rw [List.map_map]
  rfl

omit [DecidableEq κ] in
/-- A map of the values leaves the length as it is. -/
@[simp] theorem length_onValues (f : α → β) : (onValues f l).length = l.length := List.length_map _

/-- What is found after a map is the image of what was found. -/
theorem get_onValues (f : α → β) : get key (onValues f l) = (get key l).map f := by
  induction l with
  | nil => rfl
  | cons e rest ih =>
      show get key ((e.1, f e.2) :: onValues f rest) = _
      rw [get_cons, get_cons, ih]
      split_ifs <;> rfl

/-- An assignment may be mapped before or after. -/
theorem put_onValues (f : α → β) :
    put key (f value) (onValues f l) = onValues f (put key value l) := by
  induction l with
  | nil => rfl
  | cons e rest ih =>
      show put key (f value) ((e.1, f e.2) :: onValues f rest) = _
      rw [put, put]
      split_ifs with he
      · rfl
      · rw [ih]
        rfl

omit [DecidableEq κ] in
/-- Two maps are one. -/
theorem onValues_onValues {γ : Type} (f : β → γ) (g : α → β) :
    onValues f (onValues g l) = onValues (f ∘ g) l := List.map_map

omit [DecidableEq κ] in
/-- Maps that agree on the values have the same result. -/
theorem onValues_congr {f g : α → β} (h : ∀ e ∈ l, f e.2 = g e.2) :
    onValues f l = onValues g l := by
  apply List.map_congr_left
  intro e he
  rw [h e he]

omit [DecidableEq κ] in
/-- A map changes nothing just where it fixes every value. -/
theorem onValues_eq_self {f : α → α} : onValues f l = l ↔ ∀ e ∈ l, f e.2 = e.2 := by
  unfold onValues
  conv_lhs => rhs; rw [← List.map_id l]
  rw [List.map_inj_left]
  simp only [id_eq, Prod.ext_iff, true_and]

/-- **A function of the values is seen only outside the assigned key.** -/
theorem put_onValues_eq_put {f : α → α} (hl : (l.map Prod.fst).Nodup) :
    put key value (onValues f l) = put key value' l ↔
      value = value' ∧ ∀ e ∈ l, e.1 ≠ key → f e.2 = e.2 := by
  constructor
  · intro h
    constructor
    · have hget : get key (put key value (onValues f l)) = get key (put key value' l) := by rw [h]
      rw [get_put, get_put] at hget
      exact Option.some.inj hget
    · intro e he hkey
      have hget : get e.1 (onValues f l) = get e.1 l := by
        rw [← get_put_ne hkey, h, get_put_ne hkey]
      rw [get_onValues, get_of_mem hl (show (e.1, e.2) ∈ l from he), Option.map_some] at hget
      exact Option.some.inj hget
  · rintro ⟨rfl, h⟩
    induction l with
    | nil => rfl
    | cons e rest ih =>
        rw [List.map_cons, List.nodup_cons] at hl
        show put key value ((e.1, f e.2) :: onValues f rest) = _
        rw [put, put]
        split_ifs with he
        · congr 1
          apply onValues_eq_self.mpr
          intro e' he'
          apply h e' (List.mem_cons_of_mem e he')
          intro hkey
          rw [he, ← hkey] at hl
          exact hl.1 (List.mem_map.mpr ⟨e', he', rfl⟩)
        · rw [h e List.mem_cons_self he,
            ih hl.2 fun e' he' => h e' (List.mem_cons_of_mem e he')]

/-! ## Many assignments -/

/-- Assignments enter no key twice. -/
theorem nodup_foldl_put (hl : (l.map Prod.fst).Nodup) :
    ((new.foldl (fun l e => put e.1 e.2 l) l).map Prod.fst).Nodup := by
  induction new generalizing l with
  | nil => exact hl
  | cons e new ih => exact ih (nodup_put hl)

/-- The keys are distinct. -/
theorem nodup_collapse : ((collapse new).map Prod.fst).Nodup := nodup_foldl_put List.nodup_nil

/-- Assignments may be mapped before or after. -/
theorem foldl_put_onValues (f : α → β) :
    (onValues f new).foldl (fun l e => put e.1 e.2 l) (onValues f l) =
      onValues f (new.foldl (fun l e => put e.1 e.2 l) l) := by
  induction new generalizing l with
  | nil => rfl
  | cons e new ih =>
      show (onValues f new).foldl _ (put e.1 (f e.2) (onValues f l)) = _
      rw [put_onValues, ih]
      rfl

/-- Collapsing may be mapped before or after. -/
theorem collapse_onValues (f : α → β) : collapse (onValues f new) = onValues f (collapse new) :=
  foldl_put_onValues (l := []) f

/-- Assignments to new keys are appended. -/
theorem foldl_put_of_nodup (h : (l.map Prod.fst ++ new.map Prod.fst).Nodup) :
    new.foldl (fun l e => put e.1 e.2 l) l = l ++ new := by
  induction new generalizing l with
  | nil => exact (List.append_nil l).symm
  | cons e new ih =>
      have hnew : e.1 ∉ l.map Prod.fst := fun hmem =>
        (List.nodup_append.mp h).2.2 e.1 hmem e.1 List.mem_cons_self rfl
      rw [List.foldl_cons, put_of_notMem hnew, ih (by simpa using h), List.append_assoc]
      rfl

/-- Entries with distinct keys stay as they are. -/
theorem collapse_of_nodup (h : (new.map Prod.fst).Nodup) : collapse new = new :=
  foldl_put_of_nodup (by simpa using h)

/-- Only entries that are assigned come out. -/
theorem mem_of_mem_foldl_put {e : κ × α} (hl : (l.map Prod.fst).Nodup)
    (h : e ∈ new.foldl (fun l e => put e.1 e.2 l) l) : e ∈ l ∨ e ∈ new := by
  induction new generalizing l with
  | nil => exact Or.inl h
  | cons a new ih =>
      rcases ih (nodup_put hl) h with h | h
      · rcases (mem_put hl).mp h with rfl | h
        · exact Or.inr List.mem_cons_self
        · exact Or.inl h.1
      · exact Or.inr (List.mem_cons_of_mem a h)

/-- Assignments add their keys. -/
theorem mem_keys_foldl_put {k : κ} :
    k ∈ (new.foldl (fun l e => put e.1 e.2 l) l).map Prod.fst ↔
      k ∈ l.map Prod.fst ∨ k ∈ new.map Prod.fst := by
  induction new generalizing l with
  | nil => simp
  | cons e new ih =>
      rw [List.foldl_cons, ih, mem_keys_put, List.map_cons, List.mem_cons]
      tauto

/-- The keys are those that are assigned. -/
theorem mem_keys_collapse {k : κ} : k ∈ (collapse new).map Prod.fst ↔ k ∈ new.map Prod.fst := by
  rw [collapse, mem_keys_foldl_put]
  simp

/-- What is left after collapsing was there. -/
theorem mem_of_mem_collapse {e : κ × α} (h : e ∈ collapse new) : e ∈ new := by
  have hnil : (([] : List (κ × α)).map Prod.fst).Nodup := List.nodup_nil
  rcases mem_of_mem_foldl_put hnil h with h | h
  · cases h
  · exact h

end Assignments

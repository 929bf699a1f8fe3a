import HorizonNewDawn.Collections.Keyset
import HorizonNewDawn.Collections.Leading
import Mathlib

/-! # Rows by their keys

Rows with distinct keys, sorted by these and read in pieces: a piece holds the first rows behind a
key, and the next one is asked for with the last key of the piece before. What is behind a row is
less than what is behind a key before it (`length_behind_lt`), and behind the last row of a piece
stands what the piece has left (`behind_last`). -/

namespace Keys

variable {α κ : Type} [LinearOrder κ] {key : α → κ} {l : List α} {c : Option κ}

/-- The rows behind a key; all of them without one. -/
def behind (key : α → κ) (l : List α) (c : Option κ) : List α :=
  l.filter fun a => c.all fun c => decide (c < key a)

/-- Everything is behind no key. -/
@[simp] theorem behind_none : behind key l none = l := List.filter_eq_self.mpr fun _ _ => rfl

/-- What is behind a key has a greater one. -/
theorem mem_behind {a : α} : a ∈ behind key l c ↔ a ∈ l ∧ ∀ x, c = some x → x < key a := by
  cases c <;> simp [behind]

/-- What is behind keeps its order. -/
theorem behind_sublist : (behind key l c).Sublist l := List.filter_sublist

/-- Behind a row that is behind a key there is what is behind the key and the row. -/
theorem behind_of_mem {a : α} (ha : a ∈ behind key l c) :
    behind key l (some (key a)) = (behind key l c).filter fun b => decide (key a < key b) := by
  rw [behind, behind, List.filter_filter]
  apply List.filter_congr
  intro b _
  rw [Option.all_some, Bool.eq_iff_iff, Bool.and_eq_true]
  constructor
  · intro hlt
    refine ⟨hlt, ?_⟩
    cases c with
    | none => rfl
    | some x =>
        exact decide_eq_true (((mem_behind.mp ha).2 x rfl).trans (of_decide_eq_true hlt))
  · exact And.left

variable (key) in
/-- Fewer rows stand behind a row than behind a key before it. -/
theorem length_behind_lt {a : α} (ha : a ∈ l) (hc : ∀ x, c = some x → x < key a) :
    (behind key l (some (key a))).length < (behind key l c).length := by
  have hmem : a ∈ behind key l c := mem_behind.mpr ⟨ha, hc⟩
  rw [behind_of_mem hmem]
  apply List.length_filter_lt_length_iff_exists.mpr
  exact ⟨a, hmem, by simp⟩

/-- The rows in the order of their keys. -/
def byKey (key : α → κ) (l : List α) : List α := l.mergeSort fun a b => decide (key a ≤ key b)

/-- Sorting keeps the elements. -/
@[simp] theorem mem_byKey {a : α} : a ∈ byKey key l ↔ a ∈ l := List.mem_mergeSort

/-- Sorting changes the order only. -/
theorem perm_byKey : (byKey key l).Perm l := List.mergeSort_perm _ _

/-- The order of the keys is transitive. -/
theorem key_trans (a b c : α) (hab : decide (key a ≤ key b)) (hbc : decide (key b ≤ key c)) :
    decide (key a ≤ key c) := by
  simp only [decide_eq_true_eq] at *
  exact le_trans hab hbc

/-- Any two keys are ordered. -/
theorem key_total (a b : α) : decide (key a ≤ key b) || decide (key b ≤ key a) := by
  simp only [Bool.or_eq_true, decide_eq_true_eq]
  exact le_total _ _

/-- Rows with distinct keys stand in strict order. -/
theorem pairwise_byKey (hl : (l.map key).Nodup) :
    (byKey key l).Pairwise fun a b => key a < key b := by
  have hsorted : (byKey key l).Pairwise fun a b => decide (key a ≤ key b) :=
    List.pairwise_mergeSort key_trans key_total l
  have hnodup : ((byKey key l).map key).Nodup := by
    rw [(perm_byKey.map key).nodup_iff]
    exact hl
  rw [List.Nodup, List.pairwise_map] at hnodup
  apply (List.pairwise_and_iff.mpr ⟨hsorted, hnodup⟩).imp
  rintro a b ⟨hle, hne⟩
  exact lt_of_le_of_ne (of_decide_eq_true hle) hne

/-- Sorting repeats no key. -/
theorem nodup_map_byKey (hl : (l.map key).Nodup) : ((byKey key l).map key).Nodup := by
  rw [(perm_byKey.map key).nodup_iff]
  exact hl

/-- Picking rows before or after they are sorted. -/
theorem byKey_filter (hl : (l.map key).Nodup) (p : α → Bool) :
    byKey key (l.filter p) = (byKey key l).filter p := by
  apply Leading.mergeSort_eq key_trans key_total
  · intro a ha b hb hab hba
    have hkey := le_antisymm (of_decide_eq_true hab) (of_decide_eq_true hba)
    exact List.inj_on_of_nodup_map hl (List.mem_filter.mp ha).1 (List.mem_filter.mp hb).1 hkey
  · exact perm_byKey.filter p
  · exact (List.pairwise_mergeSort key_trans key_total l).sublist List.filter_sublist

/-- The last row of a piece: behind it stands what the piece has left, and no row of the piece
does. -/
theorem behind_last (hl : l.Pairwise fun a b => key a < key b) {n : ℕ} {last : α}
    (hlast : ((behind key l c).take n).getLast? = some last) :
    behind key l (some (key last)) = (behind key l c).drop n ∧
      ∀ a ∈ (behind key l c).take n, key a ≤ key last := by
  have hsorted : (behind key l c).Pairwise fun a b => key a < key b := hl.sublist behind_sublist
  have : Std.Irrefl fun a b : α => key a < key b := ⟨fun a => lt_irrefl (key a)⟩
  have : IsTrans α fun a b => key a < key b := ⟨fun a b c hab hbc => hab.trans hbc⟩
  have hmem : last ∈ behind key l c := List.mem_of_mem_take (List.mem_of_getLast? hlast)
  rw [behind_of_mem hmem]
  generalize behind key l c = rows at hsorted hlast hmem ⊢
  rw [List.getLast?_eq_getElem?, List.length_take] at hlast
  obtain ⟨hlength, hlast⟩ := List.getElem?_eq_some_iff.mp hlast
  rw [List.length_take] at hlength
  have hk : min n rows.length - 1 < rows.length := by omega
  rw [List.getElem_take] at hlast
  have hbehind := Keyset.filter_eq_drop hsorted hk
  rw [hlast] at hbehind
  constructor
  · rw [hbehind]
    rcases Nat.le_total n rows.length with hle | hle
    · congr 1
      omega
    · rw [List.drop_of_length_le hle, List.drop_of_length_le (by omega)]
  · intro a ha
    obtain ⟨m, hm, rfl⟩ := List.mem_iff_getElem.mp ha
    rw [List.length_take] at hm
    rw [List.getElem_take, ← hlast]
    rcases Nat.lt_or_ge m (min n rows.length - 1) with hlt | hge
    · exact (List.pairwise_iff_getElem.mp hsorted m _ _ hk hlt).le
    · have heq : m = min n rows.length - 1 := by omega
      simp only [heq, le_refl]

/-! ## Keys without repetitions -/

/-- Of two lists without repetitions, one of which holds the other, the longer one holds an element
more. -/
theorem length_lt_iff {l l' : List κ} (hl : l.Nodup) (hl' : l'.Nodup) (hsub : l ⊆ l') :
    l.length < l'.length ↔ ∃ a ∈ l', a ∉ l := by
  constructor
  · intro hlt
    by_contra hall
    push Not at hall
    have hle := (List.subperm_of_subset hl' hall).length_le
    omega
  · rintro ⟨a, ha, hnew⟩
    have hcons : (a :: l).Nodup := List.nodup_cons.mpr ⟨hnew, hl⟩
    have hle := (List.subperm_of_subset hcons (List.cons_subset.mpr ⟨ha, hsub⟩)).length_le
    rw [List.length_cons] at hle
    omega

end Keys

import HorizonNewDawn.Collections.Keyset
import Mathlib

/-! # Merging pages

Two sorted lists may be merged page by page: the first elements of the merge are found among the first
elements of the two lists (`take_merge`). What makes it work is that a place in a sorted list is a
rank, the number of elements that stand before it. -/

namespace Keyset

variable {α : Type} {r : α → α → Prop} [DecidableRel r] [Std.Irrefl r] [IsTrans α r]
  {l l' m m' : List α} {a : α} {k : ℕ}

/-- An element is among the first ones of a sorted list if fewer elements precede it. -/
theorem mem_take_iff (hl : l.Pairwise r) :
    a ∈ l.take k ↔ a ∈ l ∧ l.countP (fun b => r b a) < k := by
  have hrank : ∀ n (hn : n < l.length), l.countP (fun b => r b l[n]) = n := by
    intro n hn
    apply countP_eq_of_forall hn.le
    intro j hj
    rw [decide_eq_true_eq]
    constructor
    · intro hr
      by_contra hge
      rcases Nat.lt_or_eq_of_le (Nat.le_of_not_lt hge) with hlt | rfl
      · exact irrefl_of r l[n] (trans_of r (List.pairwise_iff_getElem.mp hl n j hn hj hlt) hr)
      · exact irrefl_of r _ hr
    · exact List.pairwise_iff_getElem.mp hl j n hj hn
  constructor
  · intro ha
    obtain ⟨n, hn, rfl⟩ := List.mem_iff_getElem.mp ha
    rw [List.length_take] at hn
    rw [List.getElem_take]
    exact ⟨List.getElem_mem _, (hrank n (by omega)).trans_lt (by omega)⟩
  · rintro ⟨ha, hcount⟩
    obtain ⟨n, hn, rfl⟩ := List.mem_iff_getElem.mp ha
    rw [hrank n hn] at hcount
    exact List.mem_take_iff_getElem.mpr ⟨n, by omega, rfl⟩

omit [DecidableRel r] in
/-- A sorted list of some elements of another one, the first ones among them, starts with these. -/
theorem take_of_covers (hl : l.Pairwise r) (hl' : l'.Pairwise r) (hsub : l' ⊆ l)
    (hcovers : l.take k ⊆ l') : l'.take k = l.take k := by
  classical
  have hnodup : l.Nodup := nodup_of_pairwise hl
  have hfewer : l'.Subperm l := List.subperm_of_subset (nodup_of_pairwise hl') hsub
  have hfirst : l.take k ⊆ l'.take k := by
    intro a ha
    obtain ⟨-, hcount⟩ := (mem_take_iff hl).mp ha
    exact (mem_take_iff hl').mpr ⟨hcovers ha, (hfewer.countP_le _).trans_lt hcount⟩
  have hsubperm : (l.take k).Subperm (l'.take k) :=
    List.subperm_of_subset (hnodup.sublist (List.take_sublist k l)) hfirst
  have hperm : (l.take k).Perm (l'.take k) := by
    apply hsubperm.perm_of_length_le
    have hlength := hfewer.length_le
    simp only [List.length_take]
    omega
  exact (eq_of_perm hperm (hl.sublist (List.take_sublist k l))
    (hl'.sublist (List.take_sublist k l'))).symm

/-- **Merging pages**: the first elements of a merge are the first ones of the merge of the first
elements. -/
theorem take_merge (hl : l.Pairwise r) (hl' : l'.Pairwise r) (hm : m.Pairwise r)
    (hm' : m'.Pairwise r) (hperm : m.Perm (l ++ l')) (hperm' : m'.Perm (l.take k ++ l'.take k)) :
    m'.take k = m.take k := by
  apply take_of_covers hm hm'
  · intro a ha
    rw [hperm.mem_iff, List.mem_append]
    exact (List.mem_append.mp (hperm'.mem_iff.mp ha)).imp List.mem_of_mem_take List.mem_of_mem_take
  · intro a ha
    obtain ⟨hmem, hcount⟩ := (mem_take_iff hm).mp ha
    rw [hperm.countP_eq, List.countP_append] at hcount
    rw [hperm'.mem_iff, List.mem_append]
    -- Fewer elements precede it in either list than in the merge.
    rcases List.mem_append.mp (hperm.mem_iff.mp hmem) with hleft | hright
    · exact Or.inl ((mem_take_iff hl).mpr ⟨hleft, by omega⟩)
    · exact Or.inr ((mem_take_iff hl').mpr ⟨hright, by omega⟩)

end Keyset

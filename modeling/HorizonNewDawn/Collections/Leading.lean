import Mathlib.Data.List.Induction

/-! # The leading elements of a list

The first `k` elements of a list in order, and the same found in one pass: a short list of the best
elements so far, which is sorted and cut each time another element comes. Where elements that stand
at the same place of the order are equal, a step of the pass finds the leading elements (`keep_leading`),
and the order in which the elements come does not matter (`leading_perm`). -/

namespace Leading

variable {α : Type} {le : α → α → Bool} {k : ℕ} {l l' : List α}

/-- The first `k` elements of a list in order. -/
def leading (le : α → α → Bool) (k : ℕ) (l : List α) : List α := (l.mergeSort le).take k

/-- The leading elements of those so far and another one. -/
def keep (le : α → α → Bool) (k : ℕ) (best : List α) (a : α) : List α := leading le k (best ++ [a])

/-- Different elements of a list do not stand at the same place of the order. -/
def Distinguishes (le : α → α → Bool) (l : List α) : Prop :=
  ∀ a ∈ l, ∀ b ∈ l, le a b → le b a → a = b

/-- There are no more leading elements than places. -/
theorem length_leading_le : (leading le k l).length ≤ k := by
  rw [leading, List.length_take]
  exact Nat.min_le_left _ _

/-- The leading elements are among the others. -/
theorem leading_subset : leading le k l ⊆ l := by
  intro a ha
  exact List.mem_mergeSort.mp (List.mem_of_mem_take ha)

/-- Orders that agree on the elements of a list lead by the same elements. -/
theorem leading_congr {le' : α → α → Bool} (h : ∀ a ∈ l, ∀ b ∈ l, le a b = le' a b) :
    leading le k l = leading le' k l := by
  have hsort := List.map_mergeSort (r := le) (s := le') (f := id) (l := l) h
  rw [List.map_id, List.map_id] at hsort
  rw [leading, leading, hsort]

/-- Elements that are mapped in order are led by the images of the leading ones. -/
theorem leading_map {β : Type} {le' : β → β → Bool} {f : α → β}
    (h : ∀ a ∈ l, ∀ b ∈ l, le a b = le' (f a) (f b)) :
    (leading le k l).map f = leading le' k (l.map f) := by
  rw [leading, leading, ← List.map_mergeSort h, List.map_take]

variable (htrans : ∀ a b c, le a b → le b c → le a c) (htotal : ∀ a b, le a b || le b a)
include htrans htotal

/-- A list in order is the sorted one. -/
theorem mergeSort_eq (hl : Distinguishes le l) (hperm : l'.Perm l) (hsorted : l'.Pairwise (le · ·)) :
    l.mergeSort le = l' := by
  have hperm' := (List.mergeSort_perm l le).trans hperm.symm
  apply hperm'.eq_of_pairwise _ (List.pairwise_mergeSort htrans htotal l) hsorted
  intro a b ha hb
  exact hl a (List.mem_mergeSort.mp ha) b (hperm.mem_iff.mp hb)

/-- The order in which elements come does not matter. -/
theorem leading_perm (hl : Distinguishes le l) (hperm : l.Perm l') :
    leading le k l = leading le k l' := by
  rw [leading, leading, mergeSort_eq htrans htotal hl ((List.mergeSort_perm l' le).trans hperm.symm)
    (List.pairwise_mergeSort htrans htotal l')]

/-- What has been cut off is not missed when another element comes. -/
theorem keep_leading {a : α} (hl : Distinguishes le (l ++ [a])) :
    keep le k (leading le k l) a = leading le k (l ++ [a]) := by
  have hsorted : (l.mergeSort le).Pairwise (le · ·) := List.pairwise_mergeSort htrans htotal l
  have hperm : (l.mergeSort le).Perm l := List.mergeSort_perm l le
  rw [keep]
  rcases Nat.le_total (l.mergeSort le).length k with hshort | hlong
  · have hall : leading le k l = l.mergeSort le := List.take_of_length_le hshort
    rw [hall]
    apply (leading_perm htrans htotal hl _).symm
    exact hperm.symm.append_right [a]
  · -- What is kept is sorted into `best` and the element `worst` behind them.
    generalize hs : l.mergeSort le = s at hsorted hperm hlong
    have hkept : leading le k l = s.take k := by rw [leading, hs]
    have hlength : (s.take k ++ [a]).length = k + 1 := by
      rw [List.length_append, List.length_take_of_le hlong, List.length_singleton]
    obtain ⟨best, worst, hsplit⟩ : ∃ best worst,
        (s.take k ++ [a]).mergeSort le = best ++ [worst] := by
      rcases List.eq_nil_or_concat ((s.take k ++ [a]).mergeSort le) with hnil | ⟨best, worst, h⟩
      · have hzero := congrArg List.length hnil
        rw [List.length_mergeSort, hlength, List.length_nil] at hzero
        omega
      · exact ⟨best, worst, by rw [h, List.concat_eq_append]⟩
    have hbest : best.length = k := by
      have hsum := congrArg List.length hsplit
      rw [List.length_mergeSort, hlength, List.length_append, List.length_singleton] at hsum
      omega
    have hkeptsorted : (best ++ [worst]).Pairwise (le · ·) := by
      rw [← hsplit]
      exact List.pairwise_mergeSort htrans htotal _
    have hkeptperm : (best ++ [worst]).Perm (s.take k ++ [a]) := by
      rw [← hsplit]
      exact List.mergeSort_perm _ _
    rw [List.pairwise_append] at hkeptsorted
    -- Nothing that was cut off stands before one of the best.
    have hcut : ∀ b ∈ best, ∀ c ∈ s.drop k, le b c := by
      intro b hb c hc
      have hbefore : ∀ e ∈ s.take k, le e c := by
        intro e he
        rw [← List.take_append_drop k s, List.pairwise_append] at hsorted
        exact hsorted.2.2 e he c hc
      rcases List.mem_append.mp (hkeptperm.mem_iff.mp (List.mem_append_left _ hb)) with h | h
      · exact hbefore b h
      · obtain rfl := List.mem_singleton.mp h
        have hworst := hkeptsorted.2.2 b hb worst (List.mem_singleton_self _)
        rcases List.mem_append.mp (hkeptperm.mem_iff.mp
          (List.mem_append_right _ (List.mem_singleton_self worst))) with h' | h'
        · exact htrans b worst c hworst (hbefore worst h')
        · obtain rfl := List.mem_singleton.mp h'
          have hsame : best.Perm (s.take k) := (List.perm_append_right_iff _).mp hkeptperm
          exact hbefore worst (hsame.mem_iff.mp hb)
    have hwhole : (l ++ [a]).mergeSort le = best ++ (worst :: s.drop k).mergeSort le := by
      apply mergeSort_eq htrans htotal hl
      · calc List.Perm (best ++ (worst :: s.drop k).mergeSort le) (best ++ (worst :: s.drop k)) :=
              (List.mergeSort_perm _ _).append_left best
          List.Perm _ (best ++ [worst] ++ s.drop k) := by
              rw [List.append_assoc, List.singleton_append]
          List.Perm _ (s.take k ++ [a] ++ s.drop k) := hkeptperm.append_right _
          List.Perm _ (s.take k ++ s.drop k ++ [a]) := by
              rw [List.append_assoc, List.append_assoc]
              exact List.perm_append_comm.append_left _
          List.Perm _ (l ++ [a]) := by
              rw [List.take_append_drop]
              exact hperm.append_right [a]
      · rw [List.pairwise_append]
        refine ⟨hkeptsorted.1, List.pairwise_mergeSort htrans htotal _, fun b hb c hc => ?_⟩
        rcases List.mem_cons.mp (List.mem_mergeSort.mp hc) with rfl | hc
        · exact hkeptsorted.2.2 b hb c (List.mem_singleton_self _)
        · exact hcut b hb c hc
    have hroom : k ≤ best.length := Nat.le_of_eq hbest.symm
    rw [hkept, leading, leading, hsplit, hwhole, List.take_append_of_le_length hroom,
      List.take_append_of_le_length hroom]

end Leading

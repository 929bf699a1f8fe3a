import HorizonNewDawn.Collections.SortedSet
import Mathlib

/-! # Partitions, recognised by counting

Parts that cover a whole split it exactly when they have as many members together as the whole has:
an overlap would make the sum of the sizes too large. -/

/-- The parts of the listed keys split a whole: none of them is empty, no two of them overlap, and
together they are the whole. -/
structure Partitions {κ ι : Type} (parts : κ → Set ι) (keys : Set κ) (whole : Set ι) : Prop where
  nonempty : ∀ k ∈ keys, (parts k).Nonempty
  disjoint : keys.PairwiseDisjoint parts
  union : ⋃ k ∈ keys, parts k = whole

namespace SortedSet

variable {κ ι σ : Type} [LinearOrder ι] [LinearOrder σ] {z x y : SortedSet ι σ}

/-- The set of the members. -/
def toSet (z : SortedSet ι σ) : Set ι := {i | i ∈ z}

/-- The set has the members. -/
@[simp] theorem mem_toSet {i : ι} : i ∈ z.toSet ↔ i ∈ z := Iff.rfl

/-- It is empty where there are none. -/
theorem toSet_nonempty : z.toSet.Nonempty ↔ z.card ≠ 0 := by
  rw [← Nat.pos_iff_ne_zero, card_pos_iff]
  rfl

/-- **Two parts**: two sets split a third one exactly when they cover it and their sizes add up to
its size. -/
theorem disjoint_union_iff : (∀ i ∈ z, i ∈ x ∨ i ∈ y) ∧ x.card + y.card = z.card ↔
    Disjoint x.toSet y.toSet ∧ x.toSet ∪ y.toSet = z.toSet := by
  have hlength : (x.members ++ y.members).length = x.card + y.card := by
    rw [List.length_append, members, members, List.length_map, List.length_map]
    rfl
  have hcovers := covers_iff (z := z) (l := x.members ++ y.members)
  simp only [List.mem_append, ← mem_iff_members, hlength] at hcovers
  rw [hcovers, List.nodup_append']
  constructor
  · rintro ⟨hiff, -, -, hdisjoint⟩
    exact ⟨Set.disjoint_left.mpr fun i hx hy => hdisjoint hx hy, Set.ext hiff⟩
  · rintro ⟨hdisjoint, hunion⟩
    refine ⟨Set.ext_iff.mp hunion, x.nodup, y.nodup, fun i hx hy => ?_⟩
    exact Set.disjoint_left.mp hdisjoint hx hy

/-- **Many parts**: sets that are not empty split a whole exactly when they cover it and their sizes
add up to its size. -/
theorem partitions_iff {f : κ → SortedSet ι σ} {keys : List κ} (hkeys : keys.Nodup) :
    (∀ k ∈ keys, (f k).card ≠ 0) ∧ (∀ i ∈ z, ∃ k ∈ keys, i ∈ f k) ∧
        (keys.map fun k => (f k).card).sum = z.card ↔
      Partitions (fun k => (f k).toSet) {k | k ∈ keys} z.toSet := by
  have hlength : (keys.flatMap fun k => (f k).members).length =
      (keys.map fun k => (f k).card).sum := by
    rw [List.length_flatMap]
    refine congrArg List.sum (List.map_congr_left fun k _ => ?_)
    rw [members, List.length_map]
    rfl
  have hcovers := covers_iff (z := z) (l := keys.flatMap fun k => (f k).members)
  simp only [List.mem_flatMap, ← mem_iff_members, hlength] at hcovers
  have hnodup : (keys.flatMap fun k => (f k).members).Nodup ↔
      ({k | k ∈ keys} : Set κ).PairwiseDisjoint fun k => (f k).toSet := by
    rw [List.nodup_flatMap]
    constructor
    · rintro ⟨-, hpairwise⟩ k hk k' hk' hne
      have hsymm : Std.Symm (Function.onFun List.Disjoint fun k => (f k).members) :=
        ⟨fun _ _ h => h.symm⟩
      exact Set.disjoint_left.mpr fun i hi hi' =>
        hpairwise.forall hk hk' hne hi hi'
    · intro hdisjoint
      refine ⟨fun k _ => (f k).nodup, ?_⟩
      refine hkeys.imp_of_mem fun hk hk' hne i hi hi' => ?_
      exact Set.disjoint_left.mp (hdisjoint hk hk' hne) hi hi'
  have hunion : (⋃ k ∈ ({k | k ∈ keys} : Set κ), (f k).toSet) = z.toSet ↔
      ∀ i, (∃ k ∈ keys, i ∈ f k) ↔ i ∈ z := by
    rw [Set.ext_iff]
    refine forall_congr' fun i => ?_
    simp only [Set.mem_iUnion, Set.mem_ofPred_eq, mem_toSet, exists_prop]
  rw [hcovers, hnodup, ← hunion]
  constructor
  · rintro ⟨hne, hwhole, hdisjoint⟩
    exact ⟨fun k hk => toSet_nonempty.mpr (hne k hk), hdisjoint, hwhole⟩
  · rintro ⟨hne, hdisjoint, hwhole⟩
    exact ⟨fun k hk => toSet_nonempty.mp (hne k hk), hwhole, hdisjoint⟩

/-- **Counting what is outside**: two disjoint sets and what a third one has besides them are more than
the third one exactly where one of the two sticks out of it. -/
theorem card_lt_iff {m : SortedSet ι σ} (hdisjoint : ∀ i ∈ x, i ∉ y)
    (hm : ∀ i, i ∈ m ↔ i ∈ z ∧ i ∉ x ∧ i ∉ y) :
    z.card < x.card + y.card + m.card ↔ ∃ i, (i ∈ x ∨ i ∈ y) ∧ i ∉ z := by
  have hlength : (x.members ++ y.members ++ m.members).length = x.card + y.card + m.card := by
    rw [List.length_append, List.length_append, members, members, members, List.length_map,
      List.length_map, List.length_map]
    rfl
  have hmem : ∀ i, i ∈ x.members ++ y.members ++ m.members ↔ i ∈ x ∨ i ∈ y ∨ i ∈ z := by
    intro i
    rw [List.mem_append, List.mem_append, ← mem_iff_members, ← mem_iff_members, ← mem_iff_members, hm]
    tauto
  have hnodup : (x.members ++ y.members ++ m.members).Nodup := by
    refine (x.nodup.append y.nodup fun i hi hi' => hdisjoint i hi hi').append m.nodup ?_
    intro i hi hi'
    have hout := (hm i).mp hi'
    rcases List.mem_append.mp hi with hi | hi
    · exact hout.2.1 hi
    · exact hout.2.2 hi
  have hcovers := covers_iff (z := z) (l := x.members ++ y.members ++ m.members)
  rw [hlength, and_iff_right fun i hi => (hmem i).mpr (Or.inr (Or.inr hi)), and_iff_left hnodup]
    at hcovers
  have hle : z.card ≤ x.card + y.card + m.card := by
    rw [← hlength]
    have hcovered : z.members ⊆ x.members ++ y.members ++ m.members :=
      fun i hi => (hmem i).mpr (Or.inr (Or.inr hi))
    have hsub := (List.subperm_of_subset z.nodup hcovered).length_le
    rwa [List.length_map] at hsub
  rw [lt_iff_le_and_ne, and_iff_right hle, ne_comm, Ne, hcovers]
  push Not
  constructor
  · rintro ⟨i, hi⟩
    rw [hmem] at hi
    exact ⟨i, by tauto⟩
  · rintro ⟨i, hi, hout⟩
    exact ⟨i, Or.inl ⟨(hmem i).mpr (by tauto), hout⟩⟩

end SortedSet

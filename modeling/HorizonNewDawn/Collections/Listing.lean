import HorizonNewDawn.Collections.Keyset
import HorizonNewDawn.Collections.SortedSet

/-! # Listing a sorted set

A sorted set lists its entries in the order of (score, member) or in the reverse of that order.
Reading on from a position needs the index of the position in the list; `following_listing` says
that any index that splits the entries at the position will do, and `ties` are the entries of one
score, among which such an index is found by comparing members only. -/

namespace SortedSet

open Keyset

variable {ι σ : Type} [LinearOrder ι] [LinearOrder σ] {z : SortedSet ι σ} {i : ι} {x : σ}
  {reverse : Bool}

/-- The order of the entries, or the reverse of it. -/
def Precedes (reverse : Bool) (a b : ι × σ) : Prop :=
  if reverse then toLex (b.2, b.1) < toLex (a.2, a.1) else toLex (a.2, a.1) < toLex (b.2, b.1)

instance : DecidableRel (Precedes (ι := ι) (σ := σ) reverse) := fun a b =>
  inferInstanceAs (Decidable (if reverse then toLex (b.2, b.1) < toLex (a.2, a.1)
    else toLex (a.2, a.1) < toLex (b.2, b.1)))

instance : Std.Irrefl (Precedes (ι := ι) (σ := σ) reverse) := by
  constructor
  intro a h
  cases reverse <;> exact lt_irrefl _ h

instance : IsTrans (ι × σ) (Precedes reverse) := by
  constructor
  intro a b c hab hbc
  cases reverse
  · exact lt_trans (α := Lex (σ × ι)) hab hbc
  · exact lt_trans (α := Lex (σ × ι)) hbc hab

/-- The entries in their order, or in the reverse of it. -/
def listing (z : SortedSet ι σ) (reverse : Bool) : List (ι × σ) :=
  if reverse then z.entries.reverse else z.entries

/-- The listing has every entry. -/
@[simp] theorem length_listing : (z.listing reverse).length = z.card := by
  cases reverse <;> simp [listing, card]

/-- The listing is in order. -/
theorem pairwise_listing : (z.listing reverse).Pairwise (Precedes reverse) := by
  cases reverse
  · exact z.sorted
  · exact List.pairwise_reverse.mpr z.sorted

/-- Every member is listed once. -/
theorem nodup_listing : ((z.listing reverse).map Prod.fst).Nodup := by
  cases reverse
  · exact z.nodup
  · show (z.entries.reverse.map Prod.fst).Nodup
    rw [List.map_reverse]
    exact List.nodup_reverse.mpr z.nodup

/-- The listing has the entries and nothing else. -/
theorem mem_listing {e : ι × σ} : e ∈ z.listing reverse ↔ e ∈ z.entries := by
  cases reverse <;> simp [listing]

/-- The members are listed. -/
theorem mem_map_listing : i ∈ (z.listing reverse).map Prod.fst ↔ i ∈ z := by
  rw [mem_iff_members, members]
  simp only [List.mem_map, mem_listing]

/-- Whether an entry is left out when reading on from a position: it is not behind the position. -/
def NotBehind (reverse : Bool) (pos e : ι × σ) : Prop :=
  if reverse then toLex (e.2, e.1) < toLex (pos.2, pos.1)
  else toLex (e.2, e.1) ≤ toLex (pos.2, pos.1)

/-- **Reading on from a position**: an index that splits the entries at the position says where the
rest of the listing starts. -/
theorem following_listing {pos : ι × σ} {n : ℕ} (hn : n ≤ z.card)
    (h : ∀ k (hk : k < z.entries.length), NotBehind reverse pos z.entries[k] ↔ k < n) :
    following (Precedes reverse) (z.listing reverse) (some pos) =
      (z.listing reverse).drop (if reverse then z.card - n else n) := by
  cases reverse
  · show (z.entries.filter fun b => Precedes false pos b) = z.entries.drop n
    refine filter_eq_drop_of_forall fun k hk => ?_
    have hkn : toLex (z.entries[k].2, z.entries[k].1) ≤ toLex (pos.2, pos.1) ↔ k < n := h k hk
    rw [decide_eq_true_eq, ← not_lt, ← hkn]
    exact not_le.symm
  · show (z.entries.reverse.filter fun b => Precedes true pos b) =
      z.entries.reverse.drop (z.card - n)
    refine filter_eq_drop_of_forall fun k hk => ?_
    have hlen : k < z.entries.length := by simpa using hk
    have hkn : NotBehind true pos z.entries[z.entries.length - 1 - k] ↔
        z.entries.length - 1 - k < n := h _ (by omega)
    rw [decide_eq_true_eq, List.getElem_reverse]
    refine Iff.trans hkn ?_
    rw [card] at hn ⊢
    omega

/-! ## The entries of one score -/

/-- The number of entries below a score. -/
def lowerCount (z : SortedSet ι σ) (x : σ) : ℕ := z.entries.countP fun e => e.2 < x

/-- The number of entries of a score. -/
def sameCount (z : SortedSet ι σ) (x : σ) : ℕ := z.entries.countP fun e => e.2 = x

/-- The entries are sorted by their scores. -/
theorem pairwise_score : z.entries.Pairwise fun a b => a.2 ≤ b.2 := by
  refine z.sorted.imp fun {a b} h => ?_
  rcases (Prod.Lex.toLex_lt_toLex).mp h with hlt | ⟨heq, -⟩
  · exact le_of_lt hlt
  · exact le_of_eq heq

/-- The first places have lower scores. -/
theorem lt_lowerCount_iff {k : ℕ} (hk : k < z.entries.length) :
    k < z.lowerCount x ↔ z.entries[k].2 < x := by
  rw [lowerCount, lt_countP_iff (pairwise_score.imp ?_) hk, decide_eq_true_eq]
  intro a b hab hb
  rw [decide_eq_true_eq] at hb ⊢
  exact lt_of_le_of_lt hab hb

/-- The entries up to a score are those below it and those of it. -/
theorem lowerCount_add_sameCount (z : SortedSet ι σ) (x : σ) :
    z.lowerCount x + z.sameCount x = z.entries.countP fun e => e.2 ≤ x := by
  rw [lowerCount, sameCount]
  induction z.entries with
  | nil => rfl
  | cons e l ih =>
      simp only [List.countP_cons, decide_eq_true_eq]
      rcases lt_trichotomy e.2 x with h | h | h
      · rw [if_pos h, if_neg h.ne, if_pos h.le]
        omega
      · rw [if_neg h.not_lt, if_pos h, if_pos h.le]
        omega
      · rw [if_neg h.not_gt, if_neg h.ne', if_neg h.not_ge]
        omega

/-- The places up to there have no higher scores. -/
theorem lt_lowerCount_add_sameCount_iff {k : ℕ} (hk : k < z.entries.length) :
    k < z.lowerCount x + z.sameCount x ↔ z.entries[k].2 ≤ x := by
  rw [lowerCount_add_sameCount, lt_countP_iff (pairwise_score.imp ?_) hk, decide_eq_true_eq]
  intro a b hab hb
  rw [decide_eq_true_eq] at hb ⊢
  exact le_trans hab hb

/-- There are no more of them than entries. -/
theorem lowerCount_add_sameCount_le : z.lowerCount x + z.sameCount x ≤ z.entries.length := by
  rw [lowerCount_add_sameCount]
  exact List.countP_le_length

/-- The members of a score, in order. -/
def ties (z : SortedSet ι σ) (x : σ) : List ι :=
  ((z.entries.drop (z.lowerCount x)).take (z.sameCount x)).map Prod.fst

/-- As many members are tied as have the score. -/
@[simp] theorem length_ties : (z.ties x).length = z.sameCount x := by
  have hle := lowerCount_add_sameCount_le (z := z) (x := x)
  rw [ties, List.length_map, List.length_take, List.length_drop]
  omega

/-- The tied members stand behind those of lower scores. -/
theorem getElem_ties {m : ℕ} (hm : m < (z.ties x).length)
    (hk : z.lowerCount x + m < z.entries.length) :
    (z.ties x)[m] = z.entries[z.lowerCount x + m].1 := by
  simp only [ties, List.getElem_map, List.getElem_take, List.getElem_drop]

/-- The tied members are sorted. -/
theorem pairwise_ties : (z.ties x).Pairwise (· < ·) := by
  rw [List.pairwise_iff_getElem]
  intro m n hm hn hmn
  have hle := lowerCount_add_sameCount_le (z := z) (x := x)
  rw [length_ties] at hm hn
  have hm' : z.lowerCount x + m < z.entries.length := by omega
  have hn' : z.lowerCount x + n < z.entries.length := by omega
  rw [getElem_ties _ hm', getElem_ties _ hn']
  have hscore : ∀ j (hj : z.lowerCount x + j < z.entries.length), j < z.sameCount x →
      z.entries[z.lowerCount x + j].2 = x := by
    intro j hj hjs
    apply le_antisymm
    · rw [← lt_lowerCount_add_sameCount_iff hj]
      omega
    · rw [← not_lt, ← lt_lowerCount_iff hj]
      omega
  have hsorted := List.pairwise_iff_getElem.mp z.sorted _ _ hm' hn' (by omega)
  rw [Prod.Lex.toLex_lt_toLex, hscore m hm' hm, hscore n hn' hn] at hsorted
  rcases hsorted with h | ⟨-, h⟩
  · exact absurd h (lt_irrefl x)
  · exact h

/-- Whether a member of the score of a position is not behind the position. -/
def isBefore (reverse : Bool) (i member : ι) : Bool :=
  if reverse then member < i else member ≤ i

/-- The first of the tied members are those before a member. -/
theorem lt_countP_ties_iff {m : ℕ} (hm : m < (z.ties x).length) :
    m < (z.ties x).countP (isBefore reverse i) ↔ isBefore reverse i (z.ties x)[m] := by
  refine lt_countP_iff (pairwise_ties.imp fun {a b} hab => ?_) hm
  cases reverse
  · simp only [isBefore, Bool.false_eq_true, if_false, decide_eq_true_eq]
    exact fun hb => le_trans hab.le hb
  · simp only [isBefore, if_true, decide_eq_true_eq]
    exact fun hb => lt_trans hab hb

/-- **The index of a position**: the entries below its score, and those of its score that are not
behind it. -/
theorem notBehind_iff {k : ℕ} (hk : k < z.entries.length) :
    NotBehind reverse (i, x) z.entries[k] ↔
      k < z.lowerCount x + (z.ties x).countP (isBefore reverse i) := by
  have hcount : (z.ties x).countP (isBefore reverse i) ≤ z.sameCount x := by
    rw [← length_ties (z := z) (x := x)]
    exact List.countP_le_length
  have hlower := lt_lowerCount_iff (x := x) hk
  have hsame := lt_lowerCount_add_sameCount_iff (x := x) hk
  rcases lt_trichotomy z.entries[k].2 x with h | h | h
  · have hin : NotBehind reverse (i, x) z.entries[k] := by
      have hlex : toLex (z.entries[k].2, z.entries[k].1) < toLex (x, i) :=
        Prod.Lex.toLex_lt_toLex.mpr (Or.inl h)
      cases reverse
      · exact hlex.le
      · exact hlex
    have hk' := hlower.mpr h
    exact ⟨fun _ => by omega, fun _ => hin⟩
  · -- Among the entries of the score of the position the members decide.
    have hk₁ : ¬k < z.lowerCount x := fun hc => (hlower.mp hc).ne h
    have hk₂ := hsame.mpr h.le
    have hm : k - z.lowerCount x < (z.ties x).length := by
      rw [length_ties]
      omega
    have hidx : z.lowerCount x + (k - z.lowerCount x) = k := by omega
    have hget : (z.ties x)[k - z.lowerCount x] = z.entries[k].1 := by
      rw [getElem_ties hm (by omega)]
      simp only [hidx]
    have hties : k - z.lowerCount x < (z.ties x).countP (isBefore reverse i) ↔ _ :=
      lt_countP_ties_iff hm
    rw [hget] at hties
    have hbefore : NotBehind reverse (i, x) z.entries[k] ↔ isBefore reverse i z.entries[k].1 := by
      cases reverse
      · simp [NotBehind, isBefore, Prod.Lex.toLex_le_toLex, h]
      · simp [NotBehind, isBefore, Prod.Lex.toLex_lt_toLex, h]
    rw [hbefore, ← hties]
    omega
  · have hout : ¬NotBehind reverse (i, x) z.entries[k] := by
      have hlex : toLex (x, i) < toLex (z.entries[k].2, z.entries[k].1) :=
        Prod.Lex.toLex_lt_toLex.mpr (Or.inl h)
      cases reverse
      · exact not_le.mpr hlex
      · exact not_lt.mpr hlex.le
    have hk' : ¬k < z.lowerCount x + z.sameCount x := fun hc => absurd (hsame.mp hc) (not_le.mpr h)
    exact ⟨fun hc => absurd hc hout, fun hc => by omega⟩

end SortedSet

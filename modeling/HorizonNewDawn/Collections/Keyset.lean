import Mathlib.Data.List.Basic
import Mathlib.Data.List.Pairwise
import Mathlib.Data.List.Count
import Mathlib.Order.Defs.Unbundled

/-! # Keyset pagination

A strictly sorted list read in pages: a page holds the first elements that follow a position, and
the position of the next page is the last element of the page before. `following_eq_drop` says that
positions and indices are two views of one thing, `Traversal` is the sequence of pages a reader gets
who asks for the next page until there is none, and `traversal_iff` is the rule for showing that
such a reader sees a given content. -/

namespace Keyset

variable {α κ : Type} {r : α → α → Prop} [DecidableRel r] {l : List α} {a : α} {k : ℕ}

/-! ## Positions and indices -/

/-- The elements of a list that follow a position; all of them without a position. -/
def following (r : α → α → Prop) [DecidableRel r] (l : List α) : Option α → List α
  | none => l
  | some a => l.filter fun b => r a b

/-- Everything follows where there is no position. -/
@[simp] theorem following_none : following r l none = l := rfl

/-- What follows a position stands behind it. -/
@[simp] theorem mem_following_some {b : α} : b ∈ following r l (some a) ↔ b ∈ l ∧ r a b := by
  simp [following]

/-- What follows keeps its order. -/
theorem following_sublist (c : Option α) : (following r l c).Sublist l := by
  cases c with
  | none => exact List.Sublist.refl l
  | some a => exact List.filter_sublist

/-- What follows is in order. -/
theorem pairwise_following (hl : l.Pairwise r) (c : Option α) : (following r l c).Pairwise r :=
  hl.sublist (following_sublist c)

/-- In a sorted list, what follows an element is what stands behind it. -/
theorem filter_eq_drop [Std.Irrefl r] [IsTrans α r] (hl : l.Pairwise r) (hk : k < l.length) :
    l.filter (fun b => r l[k] b) = l.drop (k + 1) := by
  have hbehind : (l.drop (k + 1)).filter (fun b => r l[k] b) = l.drop (k + 1) := by
    rw [List.filter_eq_self]
    intro b hb
    obtain ⟨m, hm, rfl⟩ := List.mem_iff_getElem.mp hb
    rw [List.getElem_drop]
    have hlt : k < k + 1 + m := by omega
    exact decide_eq_true (List.pairwise_iff_getElem.mp hl k (k + 1 + m) hk _ hlt)
  have hbefore : (l.take (k + 1)).filter (fun b => r l[k] b) = [] := by
    rw [List.filter_eq_nil_iff]
    intro b hb
    obtain ⟨m, hm, rfl⟩ := List.mem_iff_getElem.mp hb
    rw [List.length_take] at hm
    rw [List.getElem_take, decide_eq_true_eq]
    intro hr
    rcases Nat.lt_or_ge m k with hmk | hmk
    · -- The element stands before the `k`-th one, so it cannot follow it.
      have hr' : r l[m] l[k] := List.pairwise_iff_getElem.mp hl m k _ hk hmk
      exact irrefl_of r l[k] (trans_of r hr hr')
    · obtain rfl : m = k := by omega
      exact irrefl_of r l[m] hr
  have hsplit : l.filter (fun b => r l[k] b) =
      (l.take (k + 1)).filter (fun b => r l[k] b) ++
        (l.drop (k + 1)).filter (fun b => r l[k] b) := by
    rw [← List.filter_append, List.take_append_drop]
  rw [hsplit, hbefore, hbehind, List.nil_append]

/-- What follows a row of a page is found among the rows of the page. -/
theorem following_of_mem [IsTrans α r] {c : Option α} (ha : a ∈ following r l c) :
    following r l (some a) = (following r l c).filter fun b => r a b := by
  cases c with
  | none => rfl
  | some c =>
      have hca : r c a := (mem_following_some.mp ha).2
      simp only [following, List.filter_filter]
      refine List.filter_congr fun e _ => ?_
      rw [Bool.eq_iff_iff]
      simp only [Bool.and_eq_true, decide_eq_true_eq]
      constructor
      · intro h
        exact ⟨h, trans_of r hca h⟩
      · exact And.left

/-- **Positions and indices agree**: what follows the `k`-th element of a page's rows is what is
left of the rows. -/
theorem following_eq_drop [Std.Irrefl r] [IsTrans α r] (hl : l.Pairwise r) (c : Option α)
    (hk : k < (following r l c).length) :
    following r l (some (following r l c)[k]) = (following r l c).drop (k + 1) := by
  rw [← filter_eq_drop (pairwise_following hl c) hk]
  exact following_of_mem (List.getElem_mem hk)

/-! ## Ranks -/

omit [DecidableRel r] in
/-- Where a condition holds up to some index of a list and no further, the index is the number of
elements that satisfy it. -/
theorem countP_eq_of_forall {p : α → Bool} {n : ℕ} (hn : n ≤ l.length)
    (h : ∀ k (hk : k < l.length), p l[k] ↔ k < n) : l.countP p = n := by
  have hbefore : ∀ b ∈ l.take n, p b := by
    intro b hb
    obtain ⟨m, hm, rfl⟩ := List.mem_iff_getElem.mp hb
    rw [List.length_take] at hm
    rw [List.getElem_take]
    exact (h m (by omega)).mpr (by omega)
  have hbehind : ∀ b ∈ l.drop n, ¬p b := by
    intro b hb
    obtain ⟨m, hm, rfl⟩ := List.mem_iff_getElem.mp hb
    rw [List.length_drop] at hm
    rw [List.getElem_drop, h (n + m) (by omega)]
    omega
  rw [← List.take_append_drop n l, List.countP_append, List.countP_eq_length.mpr hbefore,
    List.countP_eq_zero.mpr hbehind, List.length_take]
  omega

omit [DecidableRel r] in
/-- A condition that passes from every element of a list to the ones before it holds up to the
number of elements that satisfy it. -/
theorem lt_countP_iff {p : α → Bool} (hl : l.Pairwise fun a b => p b → p a) {k : ℕ}
    (hk : k < l.length) : k < l.countP p ↔ p l[k] := by
  induction l generalizing k with
  | nil => simp at hk
  | cons b l ih =>
      rw [List.pairwise_cons] at hl
      by_cases hb : p b
      · rw [List.countP_cons_of_pos hb]
        cases k with
        | zero => simp [hb]
        | succ k =>
            rw [List.length_cons] at hk
            rw [List.getElem_cons_succ, Nat.succ_lt_succ_iff]
            exact ih hl.2 (by omega)
      · -- The first element fails, so every element does.
        have hnone : ∀ e ∈ l, ¬p e := fun e he hp => hb (hl.1 e he hp)
        rw [List.countP_cons_of_neg hb, List.countP_eq_zero.mpr hnone]
        have hmem : (b :: l)[k] ∈ b :: l := List.getElem_mem hk
        constructor
        · intro h
          omega
        · intro hp
          rcases List.mem_cons.mp hmem with heq | he
          · rw [heq] at hp
            exact absurd hp hb
          · exact absurd hp (hnone _ he)

/-- In a list that satisfies a condition up to some index and no further, the elements that do not
satisfy it are the ones from that index on. -/
theorem filter_eq_drop_of_forall {p : α → Bool} {n : ℕ}
    (h : ∀ k (hk : k < l.length), p l[k] ↔ n ≤ k) : l.filter p = l.drop n := by
  have hbefore : (l.take n).filter p = [] := by
    rw [List.filter_eq_nil_iff]
    intro b hb
    obtain ⟨m, hm, rfl⟩ := List.mem_iff_getElem.mp hb
    rw [List.length_take] at hm
    rw [List.getElem_take, h m (by omega)]
    omega
  have hbehind : (l.drop n).filter p = l.drop n := by
    rw [List.filter_eq_self]
    intro b hb
    obtain ⟨m, hm, rfl⟩ := List.mem_iff_getElem.mp hb
    rw [List.length_drop] at hm
    rw [List.getElem_drop]
    exact (h (n + m) (by omega)).mpr (by omega)
  rw [← List.take_append_drop n l, List.filter_append, hbefore, hbehind, List.take_append_drop,
    List.nil_append]

/-! ## Searching for a number of elements -/

/-- Where a search for `n` elements that satisfy a condition ends: the number of elements up to and
with the `n`-th one. -/
def behind (p : α → Bool) : ℕ → List α → ℕ
  | 0, _ => 0
  | _ + 1, [] => 0
  | n + 1, a :: l => behind p (if p a then n else n + 1) l + 1

section Behind

variable {p : α → Bool} {n : ℕ}

omit [DecidableRel r]

/-- Without a row nothing has been passed. -/
@[simp] theorem behind_zero : behind p 0 l = 0 := by rw [behind]

/-- A row that is picked takes a place. -/
theorem behind_cons_of_pos (ha : p a) : behind p (n + 1) (a :: l) = behind p n l + 1 := by
  rw [behind, if_pos ha]

/-- A row that is not picked is passed. -/
theorem behind_cons_of_neg (ha : ¬p a) (hn : 0 < n) :
    behind p n (a :: l) = behind p n l + 1 := by
  cases n with
  | zero => omega
  | succ n => rw [behind, if_neg ha]

/-- No more is passed than there is. -/
theorem behind_le_length : behind p n l ≤ l.length := by
  induction l generalizing n with
  | nil =>
      cases n with
      | zero => exact Nat.le_refl 0
      | succ n => exact Nat.le_refl 0
  | cons b l ih =>
      cases n with
      | zero =>
          rw [behind_zero]
          exact Nat.zero_le _
      | succ n =>
          rw [behind, List.length_cons]
          exact Nat.succ_le_succ ih

/-- Something is passed where there is something. -/
theorem behind_pos (hn : 0 < n) (hl : l ≠ []) : 0 < behind p n l := by
  cases n with
  | zero => omega
  | succ n =>
      cases l with
      | nil => exact absurd rfl hl
      | cons b l =>
          rw [behind]
          exact Nat.succ_pos _

/-- The search finds what it searches for. -/
theorem length_filter_take_behind (h : n ≤ l.countP p) :
    ((l.take (behind p n l)).filter p).length = n := by
  induction l generalizing n with
  | nil =>
      rw [List.countP_nil] at h
      obtain rfl : n = 0 := by omega
      rfl
  | cons b l ih =>
      cases n with
      | zero => rw [behind_zero, List.take_zero, List.filter_nil, List.length_nil]
      | succ n =>
          by_cases hb : p b
          · rw [List.countP_cons_of_pos hb] at h
            rw [behind_cons_of_pos hb, List.take_succ_cons, List.filter_cons_of_pos hb,
              List.length_cons, ih (by omega)]
          · rw [List.countP_cons_of_neg hb] at h
            rw [behind_cons_of_neg hb (by omega), List.take_succ_cons, List.filter_cons_of_neg hb,
              ih h]

/-- A search that ends in the first part of a list does not depend on the rest. -/
theorem behind_append_left {l' : List α} (h : n ≤ l.countP p) :
    behind p n (l ++ l') = behind p n l := by
  induction l generalizing n with
  | nil =>
      rw [List.countP_nil] at h
      obtain rfl : n = 0 := by omega
      rw [behind_zero, behind_zero]
  | cons b l ih =>
      cases n with
      | zero => rw [behind_zero, behind_zero]
      | succ n =>
          by_cases hb : p b
          · rw [List.countP_cons_of_pos hb] at h
            rw [List.cons_append, behind_cons_of_pos hb, behind_cons_of_pos hb, ih (by omega)]
          · rw [List.countP_cons_of_neg hb] at h
            rw [List.cons_append, behind_cons_of_neg hb (by omega),
              behind_cons_of_neg hb (by omega), ih h]

/-- A search that does not end in the first part of a list goes on in the rest. -/
theorem behind_append_right {l' : List α} (h : l.countP p < n) :
    behind p n (l ++ l') = l.length + behind p (n - l.countP p) l' := by
  induction l generalizing n with
  | nil => rw [List.nil_append, List.countP_nil, List.length_nil, Nat.zero_add, Nat.sub_zero]
  | cons b l ih =>
      cases n with
      | zero => omega
      | succ n =>
          by_cases hb : p b
          · rw [List.countP_cons_of_pos hb] at h ⊢
            rw [List.cons_append, behind_cons_of_pos hb, ih (by omega), List.length_cons,
              Nat.succ_sub_succ]
            omega
          · rw [List.countP_cons_of_neg hb] at h ⊢
            rw [List.cons_append, behind_cons_of_neg hb (by omega), ih h, List.length_cons]
            omega

end Behind

/-! ## Following pages -/

/-- The rows a reader gets who reads a page and then follows the positions until there is none;
`page c rows next` says that the page asked for with `c` holds `rows` and hands out `next`. -/
inductive Traversal (page : Option κ → List α → Option κ → Prop) : Option κ → List α → Prop
  /-- The page hands out no further position. -/
  | last {c : Option κ} {rows : List α} (h : page c rows none) : Traversal page c rows
  /-- The page hands out a position, and the reader goes on with it. -/
  | more {c : Option κ} {c' : κ} {rows rest : List α} (h : page c rows (some c'))
      (ht : Traversal page (some c') rest) : Traversal page c (rows ++ rest)

/-- One page of a content: its rows come first, and the position it hands out, if any, stands for
the rest, which is smaller. -/
structure Splits (page : Option κ → List α → Option κ → Prop) (Good : Option κ → Prop)
    (content : Option κ → List α) (size : Option κ → ℕ) (c : Option κ) (rows : List α)
    (next : Option κ) : Prop where
  page_iff : ∀ rows' next', page c rows' next' ↔ rows' = rows ∧ next' = next
  last : next = none → content c = rows
  more : ∀ c', next = some c' →
    content c = rows ++ content (some c') ∧ Good (some c') ∧ size (some c') < size c

omit [DecidableRel r] in
/-- **Following pages**: where every page splits the content of its position, following the pages
ends and shows exactly the content. -/
theorem traversal_iff {page : Option κ → List α → Option κ → Prop} {Good : Option κ → Prop}
    {content : Option κ → List α} {size : Option κ → ℕ}
    (hsplit : ∀ c, Good c → ∃ rows next, Splits page Good content size c rows next)
    {c : Option κ} (hc : Good c) {ids : List α} : Traversal page c ids ↔ ids = content c := by
  constructor
  · intro ht
    induction ht with
    | last h =>
        obtain ⟨rows, next, hs⟩ := hsplit _ hc
        obtain ⟨rfl, hnext⟩ := (hs.page_iff _ _).mp h
        exact (hs.last hnext.symm).symm
    | more h _ ih =>
        obtain ⟨rows, next, hs⟩ := hsplit _ hc
        obtain ⟨rfl, hnext⟩ := (hs.page_iff _ _).mp h
        obtain ⟨hcontent, hgood, -⟩ := hs.more _ hnext.symm
        rw [ih hgood, hcontent]
  · rintro rfl
    -- Induction on the size of what is left to read.
    induction hn : size c using Nat.strongRecOn generalizing c with
    | ind n ih =>
        subst hn
        obtain ⟨rows, next, hs⟩ := hsplit c hc
        have hpage : page c rows next := (hs.page_iff rows next).mpr ⟨rfl, rfl⟩
        cases next with
        | none =>
            rw [hs.last rfl]
            exact .last hpage
        | some c' =>
            obtain ⟨hcontent, hgood, hsize⟩ := hs.more c' rfl
            rw [hcontent]
            exact .more hpage (ih _ hsize hgood rfl)

/-! ## A selection that changes between the pages -/

/-- The rows a reader gets who reads page after page of `size` rows, where the `n`-th page shows
what `select n` picks of the rows behind its position; `none` where pages are left when the fuel is
used up. -/
def follow (r : α → α → Prop) [DecidableRel r] (l : List α) (size : ℕ) (select : ℕ → α → Bool) :
    ℕ → ℕ → Option α → Option (List α)
  | 0, _, _ => none
  | fuel + 1, n, c =>
      let rows := (following r l c).filter (select n)
      if size < rows.length then
        (follow r l size select fuel (n + 1) (rows.take size).getLast?).map (rows.take size ++ ·)
      else some rows

section Follow

variable {size : ℕ} {select : ℕ → α → Bool}

/-- The rows of a page up to its last one, and what follows that one. -/
theorem exists_getLast?_take [Std.Irrefl r] [IsTrans α r] (hl : l.Pairwise r) (hsize : 0 < size)
    (hmore : size < l.length) : ∃ a ∈ l, (l.take size).getLast? = some a ∧
      (∀ b ∈ l.take size, b = a ∨ r b a) ∧ l.filter (fun b => r a b) = l.drop size := by
  have hk : size - 1 < l.length := by omega
  refine ⟨l[size - 1], List.getElem_mem hk, ?_, ?_, ?_⟩
  · rw [List.getLast?_eq_getElem?, List.length_take, Nat.min_eq_left (by omega),
      List.getElem?_take_of_lt (by omega), List.getElem?_eq_getElem hk]
  · intro b hb
    obtain ⟨m, hm, rfl⟩ := List.mem_iff_getElem.mp hb
    rw [List.length_take] at hm
    rw [List.getElem_take]
    rcases Nat.lt_or_ge m (size - 1) with hlt | hge
    · exact Or.inr (List.pairwise_iff_getElem.mp hl m (size - 1) _ hk hlt)
    · obtain rfl : m = size - 1 := by omega
      exact Or.inl rfl
  · rw [filter_eq_drop hl hk, Nat.sub_add_cancel hsize]

/-- **A changing selection**: the rows a reader gets are in order, each of them was selected when its
page was read, and what is selected all the time is among them. -/
theorem exists_follow [Std.Irrefl r] [IsTrans α r] (hl : l.Pairwise r) (hsize : 0 < size)
    {fuel : ℕ} {n : ℕ} {c : Option α} (hfuel : (following r l c).length < fuel) :
    ∃ ids, follow r l size select fuel n c = some ids ∧ ids.Pairwise r ∧
      (∀ a ∈ ids, a ∈ following r l c ∧ ∃ m ≥ n, select m a) ∧
      (∀ a ∈ following r l c, (∀ m ≥ n, select m a) → a ∈ ids) := by
  induction fuel generalizing n c with
  | zero => omega
  | succ fuel ih =>
      rw [follow]
      have hrows : ((following r l c).filter (select n)).Pairwise r :=
        (pairwise_following hl c).sublist List.filter_sublist
      by_cases hmore : size < ((following r l c).filter (select n)).length
      · obtain ⟨a, ha, hlast, hbefore, hdrop⟩ := exists_getLast?_take hrows hsize hmore
        obtain ⟨hac, -⟩ := List.mem_filter.mp ha
        have hfollowing := following_of_mem hac
        have hless : (following r l (some a)).length < fuel := by
          refine Nat.lt_of_lt_of_le ?_ (Nat.le_of_lt_succ hfuel)
          rw [hfollowing, List.length_filter_lt_length_iff_exists]
          exact ⟨a, hac, by simp [irrefl_of r a]⟩
        obtain ⟨ids, hids, hsorted, hsound, hcomplete⟩ := ih (n := n + 1) hless
        refine ⟨((following r l c).filter (select n)).take size ++ ids, ?_, ?_, ?_, ?_⟩
        · simp only [if_pos hmore, hlast, hids, Option.map_some]
        · rw [List.pairwise_append]
          refine ⟨hrows.sublist (List.take_sublist _ _), hsorted, fun b hb e he => ?_⟩
          have hae : r a e := (mem_following_some.mp (hsound e he).1).2
          rcases hbefore b hb with rfl | hba
          · exact hae
          · exact trans_of r hba hae
        · intro e he
          rcases List.mem_append.mp he with he | he
          · obtain ⟨hmem, hselect⟩ := List.mem_filter.mp (List.mem_of_mem_take he)
            exact ⟨hmem, n, Nat.le_refl _, hselect⟩
          · obtain ⟨hmem, m, hm, hselect⟩ := hsound e he
            rw [hfollowing] at hmem
            exact ⟨(List.mem_filter.mp hmem).1, m, by omega, hselect⟩
        · intro e he hselect
          have hrow := List.mem_filter.mpr ⟨he, hselect n (Nat.le_refl n)⟩
          rw [← List.take_append_drop size ((following r l c).filter (select n)),
            List.mem_append] at hrow
          rcases hrow with hrow | hrow
          · exact List.mem_append_left _ hrow
          · rw [← hdrop] at hrow
            refine List.mem_append_right _ (hcomplete e ?_ fun m hm => hselect m (by omega))
            rw [hfollowing]
            exact List.mem_filter.mpr ⟨he, (List.mem_filter.mp hrow).2⟩
      · refine ⟨_, by rw [if_neg hmore], hrows, fun e he => ?_, fun e he hselect => ?_⟩
        · obtain ⟨hmem, hselect⟩ := List.mem_filter.mp he
          exact ⟨hmem, n, Nat.le_refl _, hselect⟩
        · exact List.mem_filter.mpr ⟨he, hselect n (Nat.le_refl n)⟩

omit [DecidableRel r] in
/-- Strict order leaves no room for repetitions. -/
theorem nodup_of_pairwise [Std.Irrefl r] (hl : l.Pairwise r) : l.Nodup := by
  rw [List.nodup_iff_pairwise_ne]
  refine hl.imp ?_
  rintro a _ h rfl
  exact irrefl_of r a h

omit [DecidableRel r] in
/-- There is one way to put elements into strict order. -/
theorem eq_of_perm [Std.Irrefl r] [IsTrans α r] {l' : List α} (hperm : l.Perm l')
    (hl : l.Pairwise r) (hl' : l'.Pairwise r) : l = l' :=
  List.Perm.eq_of_pairwise
    (fun a _ _ _ hab hba => absurd (trans_of r hab hba) (irrefl_of r a)) hl hl' hperm

/-- Where the selection does not change, a reader gets what is selected. -/
theorem follow_eq_filter [Std.Irrefl r] [IsTrans α r] (hl : l.Pairwise r) (hsize : 0 < size)
    {p : α → Bool} {fuel : ℕ} (hfuel : l.length < fuel) :
    follow r l size (fun _ => p) fuel 0 none = some (l.filter p) := by
  have hfollow : ∃ ids, follow r l size (fun _ => p) fuel 0 none = some ids ∧ _ :=
    exists_follow hl hsize hfuel
  obtain ⟨ids, hids, hsorted, hsound, hcomplete⟩ := hfollow
  rw [hids, Option.some.injEq]
  refine eq_of_perm ?_ hsorted (hl.sublist List.filter_sublist)
  rw [List.perm_ext_iff_of_nodup (nodup_of_pairwise hsorted)
    (nodup_of_pairwise (hl.sublist List.filter_sublist))]
  intro a
  rw [List.mem_filter]
  constructor
  · intro ha
    obtain ⟨hmem, _, _, hp⟩ := hsound a ha
    exact ⟨hmem, hp⟩
  · rintro ⟨hmem, hp⟩
    exact hcomplete a hmem fun _ _ => hp

end Follow

end Keyset

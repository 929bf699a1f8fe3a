import HorizonNewDawn.Collections.Keyset
import Mathlib

/-! # Pages of a lead and a rest

A list of which a selection is shown first: a page shows the next selected rows in one order, and where
these run out it goes on with the rows of another order that are not selected. `Traverses` is what a
reader gets who follows the pages. While neither the rows nor the selection change, that is the selected
rows and then the others; and whatever changes from page to page, a row that stays among the others is
shown exactly once. -/

namespace Keyset

variable {α β κ : Type}

/-! ## Following pages that change -/

/-- The rows a reader gets who reads the `n`-th page at `c` and then follows the places until there is
none, with the places that were asked for. -/
inductive Traverses (page : ℕ → κ → List β → Option κ → Prop) : ℕ → κ → List κ → List β → Prop
  /-- The page hands out no further place. -/
  | last {n : ℕ} {c : κ} {rows : List β} (h : page n c rows none) : Traverses page n c [c] rows
  /-- The page hands out a place, and the reader goes on with it. -/
  | more {n : ℕ} {c c' : κ} {visited : List κ} {rows rest : List β} (h : page n c rows (some c'))
      (ht : Traverses page (n + 1) c' visited rest) : Traverses page n c (c :: visited) (rows ++ rest)

namespace Traverses

variable {page : ℕ → κ → List β → Option κ → Prop} {n : ℕ} {c : κ} {visited : List κ} {rows : List β}

/-- Where every page splits the content of its place, following the pages shows the content. -/
theorem eq_content {f : κ → List β} {P : κ → Prop}
    (hsplit : ∀ n c rows next, P c → page n c rows next →
      f c = rows ++ next.elim [] f ∧ ∀ c' ∈ next, P c')
    (hc : P c) (h : Traverses page n c visited rows) : rows = f c := by
  induction h with
  | last h => rw [(hsplit _ _ _ _ hc h).1, Option.elim_none, List.append_nil]
  | more h _ ih =>
      obtain ⟨hcontent, hgood⟩ := hsplit _ _ _ _ hc h
      rw [hcontent, Option.elim_some, ih (hgood _ rfl)]

/-- Pages that from the `k`-th one on lead to smaller and smaller places come to an end. -/
theorem exists_of_decreasing {f : κ → ℕ} {P : κ → Prop} (k : ℕ)
    (h : ∀ n c, P c → ∃ rows next, page n c rows next ∧ ∀ c' ∈ next, P c' ∧ (k ≤ n → f c' < f c))
    (n : ℕ) (hc : P c) : ∃ visited rows, Traverses page n c visited rows := by
  -- First the pages before the `k`-th one are gone through, then the places get smaller.
  induction hmeasure : (k - n, f c) using WellFounded.induction
    (Prod.Lex.instIsWellFounded (r := (· < ·)) (s := (· < ·)) : IsWellFounded (ℕ × ℕ) _).wf
    generalizing n c with
  | _ m ih =>
      subst hmeasure
      obtain ⟨rows, next, hpage, hnext⟩ := h n c hc
      cases next with
      | none => exact ⟨_, _, .last hpage⟩
      | some c' =>
          obtain ⟨hgood, hlt⟩ := hnext c' rfl
          have hsmaller : Prod.Lex (· < ·) (· < ·) (k - (n + 1), f c') (k - n, f c) := by
            rcases Nat.lt_or_ge n k with hn | hn
            · exact .left _ _ (by omega)
            · have hzero : k - (n + 1) = k - n := by omega
              rw [hzero]
              exact .right _ (hlt hn)
          obtain ⟨visited, rest, ht⟩ := ih _ hsmaller (n + 1) hgood rfl
          exact ⟨_, _, .more hpage ht⟩

/-- A reader of pages with at most `b` rows needs this many of them. -/
theorem length_le {b : ℕ} {P : κ → Prop}
    (hpage : ∀ n c rows next, P c → page n c rows next → rows.length ≤ b ∧ ∀ c' ∈ next, P c')
    (hc : P c) (h : Traverses page n c visited rows) : rows.length ≤ b * visited.length := by
  induction h with
  | last h => simpa using (hpage _ _ _ _ hc h).1
  | more h _ ih =>
      obtain ⟨hrows, hnext⟩ := hpage _ _ _ _ hc h
      have hrest := ih (hnext _ rfl)
      rw [List.length_append, List.length_cons, Nat.mul_succ]
      omega

/-- Pages that are pages of another reader, as long as the places that are asked for are fit. -/
theorem imp {κ' : Type} {page' : ℕ → κ' → List β → Option κ' → Prop} {f : κ → κ'}
    {P : κ → Prop} {Q : ℕ → κ → Prop}
    (h : ∀ n c rows next, P c → Q n c → page n c rows next →
      page' n (f c) rows (next.map f) ∧ ∀ c' ∈ next, P c')
    (hc : P c) (ht : Traverses page n c visited rows)
    (hfit : ∀ k c, visited[k]? = some c → Q (n + k) c) :
    Traverses page' n (f c) (visited.map f) rows := by
  induction ht with
  | last hpage => exact .last (h _ _ _ _ hc (hfit 0 _ rfl) hpage).1
  | more hpage _ ih =>
      obtain ⟨hfirst, hnext⟩ := h _ _ _ _ hc (hfit 0 _ rfl) hpage
      apply Traverses.more hfirst
      apply ih (hnext _ rfl)
      intro k c hk
      have hlater := hfit (k + 1) c hk
      rwa [← Nat.add_assoc, Nat.add_right_comm] at hlater

/-- Pages that are also pages of another kind. -/
theorem mono {page' : ℕ → κ → List β → Option κ → Prop}
    (h : ∀ n c rows next, page n c rows next → page' n c rows next)
    (ht : Traverses page n c visited rows) : Traverses page' n c visited rows := by
  induction ht with
  | last hpage => exact .last (h _ _ _ _ hpage)
  | more hpage _ ih => exact .more (h _ _ _ _ hpage) ih

/-- Rows of which a part is shown. -/
theorem exists_rows {γ : Type} {f : β → γ} {ids : List γ}
    (h : Traverses (fun n c ids next => ∃ rows, ids = rows.map f ∧ page n c rows next) n c visited ids) :
    ∃ rows, ids = rows.map f ∧ Traverses page n c visited rows := by
  induction h with
  | last h =>
      obtain ⟨rows, rfl, hpage⟩ := h
      exact ⟨rows, rfl, .last hpage⟩
  | more h _ ih =>
      obtain ⟨rows, rfl, hpage⟩ := h
      obtain ⟨rest, rfl, ht⟩ := ih
      exact ⟨rows ++ rest, List.map_append.symm, .more hpage ht⟩

end Traverses

/-! ## Positions behind rows that are shown -/

variable {r s : α → α → Prop} [DecidableRel r] [DecidableRel s] {l m : List α} {size j n : ℕ}
  {p : α → Bool} {c : Option α} {a : α} {rows : List α}

/-- A position behind the first `j` selected rows that follow `c`. -/
structure Behind (r : α → α → Prop) [DecidableRel r] (l : List α) (p : α → Bool) (j : ℕ)
    (c : Option α) (a : α) : Prop where
  content : (following r l (some a)).filter p = ((following r l c).filter p).drop j
  fewer : (following r l (some a)).length < (following r l c).length

variable [Std.Irrefl r] [IsTrans α r] [Std.Irrefl s] [IsTrans α s]

/-- The last row that is shown is a position behind the rows that are. -/
theorem Behind.of_getLast (hl : l.Pairwise r)
    (h : (((following r l c).filter p).take j).getLast? = some a) : Behind r l p j c a := by
  have hrows : ((following r l c).filter p).Pairwise r :=
    (pairwise_following hl c).sublist List.filter_sublist
  rw [List.getLast?_eq_getElem?, List.length_take] at h
  obtain ⟨hk, ha⟩ := List.getElem?_eq_some_iff.mp h
  rw [List.length_take] at hk
  have hk' : min j ((following r l c).filter p).length - 1 < ((following r l c).filter p).length := by
    omega
  rw [List.getElem_take] at ha
  have hac : a ∈ following r l c := by
    rw [← ha]
    exact List.mem_of_mem_filter (List.getElem_mem hk')
  have hfollowing := following_of_mem hac
  constructor
  · have hdrop := filter_eq_drop hrows hk'
    rw [ha] at hdrop
    rw [hfollowing, List.filter_comm, hdrop]
    rcases Nat.le_total j ((following r l c).filter p).length with hle | hle
    · rw [Nat.min_eq_left hle, Nat.sub_add_cancel (by omega)]
    · rw [List.drop_of_length_le (by omega), List.drop_of_length_le hle]
  · rw [hfollowing, List.length_filter_lt_length_iff_exists]
    exact ⟨a, hac, by simp [irrefl_of r a]⟩

/-! ## A lead and a rest -/

/-- Where a reader is: among the leading rows or among the rest, behind a row or at the start. -/
inductive Place (α : Type)
  | lead (c : Option α)
  | rest (c : Option α)

/-- A page of the rest: the next rows that are not selected, and a place behind them if there are
more. -/
structure RestPage (s : α → α → Prop) [DecidableRel s] (m : List α) (p : α → Bool) (j : ℕ)
    (c : Option α) (rows : List α) (next : Option (Place α)) : Prop where
  rows_eq : rows = ((following s m c).filter fun a => !p a).take j
  last : next = none → ((following s m c).filter fun a => !p a).length ≤ j
  more : ∀ place, next = some place → (place = .rest c ∧ j = 0) ∨
    ∃ a, place = .rest (some a) ∧ Behind s m (fun a => !p a) j c a

/-- A page of `size` rows at a place: leading rows, which end on the page or go on behind it, or
rest. -/
inductive LeadAndRest (r s : α → α → Prop) [DecidableRel r] [DecidableRel s] (l m : List α)
    (size : ℕ) (p : α → Bool) : Place α → List α → Option (Place α) → Prop
  | lead {c : Option α} {a : α} (h : Behind r l p size c a) :
      LeadAndRest r s l m size p (.lead c) (((following r l c).filter p).take size)
        (some (.lead (some a)))
  | fill {c : Option α} {rows : List α} {next : Option (Place α)}
      (hend : ((following r l c).filter p).length ≤ size)
      (h : RestPage s m p (size - ((following r l c).filter p).length) none rows next) :
      LeadAndRest r s l m size p (.lead c) ((following r l c).filter p ++ rows) next
  | rest {c : Option α} {rows : List α} {next : Option (Place α)} (hsize : 0 < size)
      (h : RestPage s m p size c rows next) :
      LeadAndRest r s l m size p (.rest c) rows next

omit [Std.Irrefl s] [IsTrans α s] [Std.Irrefl r] [IsTrans α r] in
/-- Without leading rows a page of the rest is a page of the lead. -/
theorem LeadAndRest.lead_of_rest (hp : ∀ a, p a = false) {next : Option (Place α)}
    (h : RestPage s m p size none rows next) :
    LeadAndRest r s l m size p (.lead none) rows next := by
  have hnone : (following r l none).filter p = [] :=
    List.filter_eq_nil_iff.mpr fun a _ => by simp [hp a]
  have hfill : LeadAndRest r s l m size p (.lead none) ((following r l none).filter p ++ rows) next :=
    .fill (by rw [hnone]; exact Nat.zero_le _) (by rwa [hnone])
  rwa [hnone] at hfill

/-- How much may be left to read at a place. -/
def Place.remaining (r s : α → α → Prop) [DecidableRel r] [DecidableRel s] (l m : List α) :
    Place α → ℕ
  | .lead c => (following r l c).length + m.length + 1
  | .rest c => (following s m c).length

omit [Std.Irrefl s] [IsTrans α s] [Std.Irrefl r] [IsTrans α r] in
/-- Less is left behind a page of the rest. -/
theorem RestPage.remaining_le {next : Option (Place α)} (h : RestPage s m p j c rows next)
    (r : α → α → Prop) [DecidableRel r] (l : List α) :
    ∀ place ∈ next, place.remaining r s l m ≤ (following s m c).length ∧
      (0 < j → place.remaining r s l m < (following s m c).length) := by
  intro place hplace
  rcases h.more place hplace with ⟨rfl, rfl⟩ | ⟨a, rfl, hbehind⟩
  · exact ⟨le_rfl, fun h => absurd h (lt_irrefl 0)⟩
  · exact ⟨hbehind.fewer.le, fun _ => hbehind.fewer⟩

omit [Std.Irrefl s] [IsTrans α s] [Std.Irrefl r] [IsTrans α r] in
/-- Less is left behind every page. -/
theorem LeadAndRest.remaining_lt {place : Place α} {next : Option (Place α)}
    (h : LeadAndRest r s l m size p place rows next) :
    ∀ place' ∈ next, place'.remaining r s l m < place.remaining r s l m := by
  intro place' hplace'
  cases h with
  | @lead c a h =>
      cases hplace'
      have hfewer := h.fewer
      simp only [Place.remaining]
      omega
  | @fill c _ _ hend h =>
      have hle := (h.remaining_le r l place' hplace').1
      rw [following_none] at hle
      simp only [Place.remaining] at hle ⊢
      omega
  | rest hsize h => exact (h.remaining_le r l place' hplace').2 hsize

omit [Std.Irrefl s] [IsTrans α s] [Std.Irrefl r] [IsTrans α r] in
/-- A page has its size at most. -/
theorem LeadAndRest.length_le {place : Place α} {next : Option (Place α)}
    (h : LeadAndRest r s l m size p place rows next) : rows.length ≤ size := by
  cases h with
  | lead => exact List.length_take_le _ _
  | fill hend h =>
      have hrest : _ ≤ size - _ := h.rows_eq ▸ List.length_take_le _ _
      rw [List.length_append]
      omega
  | rest _ h => exact h.rows_eq ▸ List.length_take_le _ _

/-! ## A selection that stays -/

/-- What a reader at a place has yet to be shown. -/
def Place.content (r s : α → α → Prop) [DecidableRel r] [DecidableRel s] (l m : List α)
    (p : α → Bool) : Place α → List α
  | .lead c => (following r l c).filter p ++ m.filter fun a => !p a
  | .rest c => (following s m c).filter fun a => !p a

omit [Std.Irrefl s] [IsTrans α s] in
/-- A page of the rest takes its rows from what is left. -/
theorem RestPage.splits {next : Option (Place α)} (h : RestPage s m p j c rows next)
    (r : α → α → Prop) [DecidableRel r] (l : List α) :
    (following s m c).filter (fun a => !p a) =
      rows ++ next.elim [] (Place.content r s l m p) := by
  cases next with
  | none => rw [h.rows_eq, List.take_of_length_le (h.last rfl), Option.elim_none, List.append_nil]
  | some place =>
      rw [Option.elim_some, h.rows_eq]
      rcases h.more place rfl with ⟨rfl, rfl⟩ | ⟨a, rfl, hbehind⟩
      · rw [List.take_zero, List.nil_append]
        rfl
      · rw [Place.content, hbehind.content, List.take_append_drop]

omit [Std.Irrefl s] [IsTrans α s] [Std.Irrefl r] [IsTrans α r] in
/-- A page splits what is yet to be shown. -/
theorem LeadAndRest.splits {place : Place α} {next : Option (Place α)}
    (h : LeadAndRest r s l m size p place rows next) :
    place.content r s l m p = rows ++ next.elim [] (Place.content r s l m p) := by
  cases h with
  | lead h =>
      rw [Option.elim_some, Place.content, Place.content, h.content, ← List.append_assoc,
        List.take_append_drop]
  | fill hend h =>
      have hrest := h.splits r l
      rw [following_none] at hrest
      rw [Place.content, hrest, List.append_assoc]
  | rest _ h => exact h.splits r l

omit [Std.Irrefl s] [IsTrans α s] [Std.Irrefl r] [IsTrans α r] in
/-- **A selection that stays**: a reader is shown the selected rows in the order of the lead, and then
the others in the order of the rest. -/
theorem Traverses.eq_of_constant {visited : List (Place α)} {place : Place α}
    (h : Traverses (fun _ => LeadAndRest r s l m size p) n place visited rows) :
    rows = place.content r s l m p := by
  apply h.eq_content (P := fun _ => True) _ trivial
  exact fun _ _ _ _ _ hpage => ⟨hpage.splits, fun _ _ => trivial⟩

/-! ## Rows that change -/

/-- Whether a row stands behind a position. -/
def Follows (s : α → α → Prop) (b : α) : Option α → Prop
  | none => True
  | some a => s a b

instance (b : α) (c : Option α) : Decidable (Follows s b c) := by
  cases c <;> unfold Follows <;> infer_instance

/-- How often a row of the rest is still shown to a reader at a place. -/
def Place.due (s : α → α → Prop) [DecidableRel s] (b : α) : Place α → ℕ
  | .lead _ => 1
  | .rest c => if Follows s b c then 1 else 0

variable {b : α} {q : α → Bool}

omit [IsTrans α s] in
/-- The one row of the rest that a condition holds of is counted where it stands behind the position. -/
theorem countP_rest (hm : m.Pairwise s) (hb : b ∈ m) (hp : p b = false)
    (hq : ∀ a ∈ m, q a = true ↔ a = b) (c : Option α) :
    ((following s m c).filter fun a => !p a).countP q = if Follows s b c then 1 else 0 := by
  have hrow : b ∈ (following s m c).filter (fun a => !p a) ↔ Follows s b c := by
    cases c <;> simp [Follows, hb, hp]
  split
  · rename_i hfollows
    obtain ⟨before, behind, heq⟩ := List.append_of_mem (hrow.mpr hfollows)
    have hnodup : ((following s m c).filter fun a => !p a).Nodup :=
      ((nodup_of_pairwise hm).sublist (following_sublist c)).filter _
    have hothers : ∀ l : List α, l ⊆ m → b ∉ l → l.countP q = 0 := by
      intro l hl hnot
      rw [List.countP_eq_zero]
      intro a ha hqa
      exact hnot ((hq a (hl ha)).mp hqa ▸ ha)
    have hsub : before ++ b :: behind ⊆ m := by
      rw [← heq]
      exact List.Subset.trans (List.filter_subset_self _) (following_sublist c).subset
    rw [heq, List.nodup_middle, List.nodup_cons, List.mem_append, not_or] at hnodup
    rw [heq, List.countP_append, List.countP_cons_of_pos ((hq b hb).mpr rfl),
      hothers before (fun a ha => hsub (List.mem_append_left _ ha)) hnodup.1.1,
      hothers behind (fun a ha => hsub (List.mem_append_right _ (List.mem_cons_of_mem _ ha)))
        hnodup.1.2]
  · rename_i hfollows
    rw [List.countP_eq_zero]
    intro a ha hqa
    have hmem : a ∈ m := (following_sublist c).subset (List.mem_of_mem_filter ha)
    exact hfollows (hrow.mp ((hq a hmem).mp hqa ▸ ha))

omit [IsTrans α s] in
/-- A page of the rest shows the row, or the row is still due behind the page. -/
theorem RestPage.countP_add (hm : m.Pairwise s) (hb : b ∈ m) (hp : p b = false)
    (hq : ∀ a ∈ m, q a = true ↔ a = b) {next : Option (Place α)}
    (h : RestPage s m p j c rows next) :
    rows.countP q + next.elim 0 (Place.due s b) = if Follows s b c then 1 else 0 := by
  rw [h.rows_eq, ← countP_rest hm hb hp hq c]
  cases next with
  | none => rw [Option.elim_none, Nat.add_zero, List.take_of_length_le (h.last rfl)]
  | some place =>
      rw [Option.elim_some]
      rcases h.more place rfl with ⟨rfl, rfl⟩ | ⟨a, rfl, hbehind⟩
      · rw [List.take_zero, List.countP_nil, Nat.zero_add, Place.due, countP_rest hm hb hp hq]
      · conv_rhs => rw [← List.take_append_drop j ((following s m c).filter fun a => !p a),
          List.countP_append, ← hbehind.content, countP_rest hm hb hp hq]
        rfl

omit [Std.Irrefl r] [IsTrans α r] [IsTrans α s] in
/-- A page shows the row, or the row is still due behind the page. -/
theorem LeadAndRest.countP_add (hm : m.Pairwise s) (hb : b ∈ m) (hp : p b = false)
    (hq : ∀ a ∈ m, q a = true ↔ a = b) (hlead : ∀ a ∈ l, q a = true → p a = false)
    {place : Place α} {next : Option (Place α)}
    (h : LeadAndRest r s l m size p place rows next) :
    rows.countP q + next.elim 0 (Place.due s b) = place.due s b := by
  have hnone : ∀ c, ((following r l c).filter p).countP q = 0 := by
    intro c
    rw [List.countP_eq_zero]
    intro a ha hqa
    obtain ⟨hmem, hpa⟩ := List.mem_filter.mp ha
    rw [hlead a ((following_sublist c).subset hmem) hqa] at hpa
    cases hpa
  cases h with
  | @lead c a h =>
      have hzero : (((following r l c).filter p).take size).countP q = 0 :=
        Nat.le_zero.mp (((List.take_sublist _ _).countP_le).trans (hnone c).le)
      rw [hzero, Nat.zero_add]
      rfl
  | @fill c rows _ hend h =>
      rw [List.countP_append, hnone c, Nat.zero_add, h.countP_add hm hb hp hq]
      rfl
  | rest _ h => exact h.countP_add hm hb hp hq

omit [Std.Irrefl r] [IsTrans α r] [IsTrans α s] in
/-- **Rows that change**: a row that stays among the rest is shown exactly once to a reader who starts
with the lead, whatever rows come and go and whatever is selected from page to page. -/
theorem Traverses.countP_eq_due {l m : ℕ → List α} {select : ℕ → α → Bool}
    (hm : ∀ k, (m k).Pairwise s) (hb : ∀ k, b ∈ m k) (hselect : ∀ k, select k b = false)
    (hq : ∀ k, ∀ a ∈ m k, q a = true ↔ a = b)
    (hlead : ∀ k, ∀ a ∈ l k, q a = true → select k a = false)
    {visited : List (Place α)} {place : Place α}
    (h : Traverses (fun n => LeadAndRest r s (l n) (m n) size (select n)) n place visited rows) :
    rows.countP q = place.due s b := by
  induction h with
  | @last n _ _ hpage =>
      rw [← hpage.countP_add (hm n) (hb n) (hselect n) (hq n) (hlead n)]
      rfl
  | @more n _ _ _ _ _ hpage _ ih =>
      rw [List.countP_append, ih, ← hpage.countP_add (hm n) (hb n) (hselect n) (hq n) (hlead n)]
      rfl

end Keyset

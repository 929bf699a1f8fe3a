import HorizonNewDawn.Batches.BatchesData
import HorizonNewDawn.Collections.Keyset

/-! # The batches of a queue

`QueueBatchesData::page` without database support: the batches of a queue are searched for in the
batch repository, which is read in source pages. A call ends at the fiftieth batch it has found, at
the scan limit or at the end of the repository, and hands out the position for the next call. At the
scan limit that position is the end of the source page before the last one, so the last source page
is inspected again by the next call, and what was found in it is listed twice (`page_seamless`). -/

namespace HorizonNewDawn

open Keyset

/-- The batch repository; `get` answers at most a number of batches with ids below a given one. -/
structure BatchRepository where
  get : ℕ → Option String → List Batch

/-- A page of the activity of a queue. -/
structure QueueActivityPageData where
  available : Bool
  rows : List BatchRowData
  total : ℕ
  complete : Bool
  pageName : String
  current : Option String
  next : Option String
  message : Option String
  deriving DecidableEq

namespace QueueBatchesData

/-- `SOURCE_PAGE_SIZE` -/
def sourcePageSize : ℕ := 50

/-- `RESULT_PAGE_SIZE` -/
def resultPageSize : ℕ := 50

/-- `SCAN_LIMIT` -/
def scanLimit : ℕ := 250

/-- What is said where batches may be left. -/
def moreEntries : String := "More retained entries may exist for this queue."

/-! ## The program -/

/-- `advanceCursor` -/
def advanceCursor (batches : List Batch) (current : Option String) : Option String :=
  match batches.getLast? with
  | none => none
  | some batch =>
      let cursor := batch.id
      if cursor = "" ∨ current.any fun current => (strcmp cursor current).isGE then none
      else some cursor

/-- What the loop over a source page comes to: how many batches have been inspected, the rows, and
the id of the batch that filled the page, if one did. -/
structure Inspection where
  inspected : ℕ
  rows : List BatchRowData
  full : Option String

variable (config : QueueConfig) (repository : BatchRepository) (queue : String)

/-- The loop over the batches of a source page. -/
def inspectSource : List Batch → ℕ → List BatchRowData → Inspection
  | [], inspected, rows => ⟨inspected, rows, none⟩
  | batch :: source, inspected, rows =>
      if scanLimit ≤ inspected then ⟨inspected, rows, none⟩
      else if BatchesData.queue config batch ≠ queue then
        inspectSource source (inspected + 1) rows
      else if (rows ++ [BatchesData.row config batch]).length = resultPageSize then
        ⟨inspected + 1, rows ++ [BatchesData.row config batch], some batch.id⟩
      else inspectSource source (inspected + 1) (rows ++ [BatchesData.row config batch])

/-- Inspecting batches never lowers the number of inspected ones. -/
theorem le_inspected_inspectSource (source : List Batch) (inspected : ℕ)
    (rows : List BatchRowData) :
    inspected ≤ (inspectSource config queue source inspected rows).inspected := by
  induction source generalizing inspected rows with
  | nil => exact le_rfl
  | cons batch source ih =>
      rw [inspectSource]
      split
      · exact le_rfl
      · split
        · exact (Nat.le_succ _).trans (ih _ _)
        · split
          · exact Nat.le_succ _
          · exact (Nat.le_succ _).trans (ih _ _)

/-- Below the scan limit, a source page that is not empty is inspected in part at least. -/
theorem lt_inspected_inspectSource {batch : Batch} {source : List Batch} {inspected : ℕ}
    {rows : List BatchRowData} (h : inspected < scanLimit) :
    inspected < (inspectSource config queue (batch :: source) inspected rows).inspected := by
  rw [inspectSource, if_neg (by omega)]
  split
  · exact le_inspected_inspectSource config queue source _ _
  · split
    · exact Nat.lt_succ_self _
    · exact le_inspected_inspectSource config queue source _ _

/-- The variables of the loop of `page`. -/
structure Scan where
  cursor : Option String
  inspected : ℕ
  rows : List BatchRowData
  next : Option String
  complete : Bool
  message : Option String

/-- The loop of `page` over the source pages. -/
def scan (state : Scan) : Scan :=
  if _ : state.inspected < scanLimit ∧ state.rows.length < resultPageSize then
    match repository.get sourcePageSize state.cursor with
    | [] => { state with complete := true }
    | batch :: source =>
        match advanceCursor (batch :: source) state.cursor with
        | none => { state with message := some moreEntries }
        | some nextCursor =>
            let inspection := inspectSource config queue (batch :: source) state.inspected state.rows
            match inspection.full with
            | some id =>
                { state with inspected := inspection.inspected, rows := inspection.rows, next := id }
            | none =>
                if scanLimit ≤ inspection.inspected then
                  { state with inspected := inspection.inspected, rows := inspection.rows }
                else
                  scan { state with
                    cursor := nextCursor, inspected := inspection.inspected,
                    rows := inspection.rows, next := nextCursor }
  else state
termination_by scanLimit - state.inspected
decreasing_by
  have hlt : state.inspected <
      (inspectSource config queue (batch :: source) state.inspected state.rows).inspected :=
    lt_inspected_inspectSource config queue (by omega)
  omega

/-- `page` -/
def page (beforeId : Option String) : QueueActivityPageData :=
  let final := scan config repository queue
    { cursor := beforeId, inspected := 0, rows := [], next := none, complete := false,
      message := none }
  { available := true
    rows := final.rows
    total := final.rows.length
    complete := final.complete
    pageName := "before_id"
    current := beforeId
    next := final.next
    message := if scanLimit ≤ final.inspected then some moreEntries else final.message }

/-! ## One source page -/

variable {config repository queue} {history l source : List Batch} {inspected : ℕ}
  {rows : List BatchRowData} {state : Scan} {cursor : Option String}

variable (config queue) in
/-- Whether a batch is listed under the queue. -/
def wanted (batch : Batch) : Bool := BatchesData.queue config batch = queue

variable (config queue) in
/-- The rows of the batches of a list that are listed under the queue. -/
def matching (l : List Batch) : List BatchRowData :=
  (l.filter (wanted config queue)).map (BatchesData.row config)

/-- The rows of two lists of batches, one after the other. -/
theorem matching_append {l' : List Batch} :
    matching config queue (l ++ l') = matching config queue l ++ matching config queue l' := by
  rw [matching, List.filter_append, List.map_append]
  rfl

/-- There are as many rows as batches that are wanted. -/
theorem length_matching : (matching config queue l).length = l.countP (wanted config queue) := by
  rw [matching, List.length_map, List.countP_eq_length_filter]

/-- A source page within the scan limit is inspected up to the batch that fills the result page, or
as a whole. -/
theorem inspectSource_eq (hlimit : inspected + source.length ≤ scanLimit)
    (hrows : rows.length < resultPageSize) :
    inspectSource config queue source inspected rows =
      let n := resultPageSize - rows.length
      if n ≤ source.countP (wanted config queue) then
        let k := behind (wanted config queue) n source
        ⟨inspected + k, rows ++ matching config queue (source.take k), (source[k - 1]?).map (·.id)⟩
      else ⟨inspected + source.length, rows ++ matching config queue source, none⟩ := by
  -- by induction on the source, with the rows so far general
  induction source generalizing inspected rows with
  | nil =>
      have hn : ¬resultPageSize - rows.length ≤ 0 := by omega
      simp [inspectSource, matching, hn]
  | cons batch source ih =>
      rw [List.length_cons] at hlimit
      obtain ⟨n, hn⟩ : ∃ n, resultPageSize - rows.length = n + 1 :=
        ⟨resultPageSize - rows.length - 1, by omega⟩
      rw [inspectSource, if_neg (by omega)]
      by_cases hbatch : wanted config queue batch
      · rw [if_neg (not_not.mpr (of_decide_eq_true hbatch)), List.length_append,
          List.length_singleton]
        simp only [hn, List.countP_cons_of_pos hbatch, behind_cons_of_pos hbatch,
          Nat.add_le_add_iff_right]
        have hmatching : ∀ l, matching config queue (batch :: l) =
            BatchesData.row config batch :: matching config queue l := by
          intro l
          rw [matching, List.filter_cons_of_pos hbatch, List.map_cons]
          rfl
        by_cases hfull : rows.length + 1 = resultPageSize
        · -- The batch fills the page.
          obtain rfl : n = 0 := by omega
          rw [if_pos hfull, if_pos (Nat.zero_le _), behind_zero, List.take_succ_cons, hmatching]
          rfl
        · have hlength : resultPageSize - (rows ++ [BatchesData.row config batch]).length = n := by
            rw [List.length_append, List.length_singleton]
            omega
          rw [if_neg hfull, ih (by omega) (by rw [List.length_append, List.length_singleton]; omega)]
          simp only [hlength]
          split
          · have hpos : 0 < behind (wanted config queue) n source := by
              refine behind_pos (by omega) ?_
              rintro rfl
              rw [List.countP_nil] at *
              omega
            obtain ⟨k, hk⟩ : ∃ k, behind (wanted config queue) n source = k + 1 :=
              ⟨behind (wanted config queue) n source - 1, by omega⟩
            rw [hk, List.take_succ_cons, hmatching, List.append_assoc, List.singleton_append]
            congr 1
            omega
          · rw [hmatching, List.append_assoc, List.singleton_append, List.length_cons]
            congr 1
            omega
      · -- a batch of another queue is inspected and passed over
        rw [if_pos (fun h => hbatch (decide_eq_true h)), ih (by omega) hrows]
        simp only [hn, List.countP_cons_of_neg hbatch, behind_cons_of_neg hbatch (Nat.succ_pos n)]
        have hmatching : ∀ l, matching config queue (batch :: l) = matching config queue l := by
          intro l
          rw [matching, List.filter_cons_of_neg hbatch]
          rfl
        split
        · have hpos : 0 < behind (wanted config queue) (n + 1) source := by
            refine behind_pos (Nat.succ_pos n) ?_
            rintro rfl
            rw [List.countP_nil] at *
            omega
          obtain ⟨k, hk⟩ : ∃ k, behind (wanted config queue) (n + 1) source = k + 1 :=
            ⟨behind (wanted config queue) (n + 1) source - 1, by omega⟩
          rw [hk, List.take_succ_cons, hmatching]
          congr 1
          omega
        · rw [hmatching, List.length_cons]
          congr 1
          omega

/-! ## The history of the repository -/

/-- The batches of a history with ids below a position; all of them without one. -/
def below (history : List Batch) (before : Option String) : List Batch :=
  history.filter fun batch => before.all fun before => batch.id < before

/-- The repository answers from a history. -/
def Serves (repository : BatchRepository) (history : List Batch) : Prop :=
  ∀ limit before, repository.get limit before = (below history before).take limit

/-- A history in descending order of the ids. -/
def Descending (history : List Batch) : Prop := history.Pairwise fun a b => b.id < a.id

/-- What is left below a cursor is in descending order. -/
theorem Descending.below (h : Descending history) : Descending (below history cursor) :=
  h.sublist List.filter_sublist

/-- What is below a batch that is below a position stands behind it. -/
theorem below_getElem {k : ℕ} (h : Descending history) (hk : k < (below history cursor).length) :
    below history (some (below history cursor)[k].id) = (below history cursor).drop (k + 1) := by
  have hbelow : (below history cursor).filter (fun b => b.id < (below history cursor)[k].id) =
      (below history cursor).drop (k + 1) := by
    have : Std.Irrefl fun a b : Batch => b.id < a.id := ⟨fun a => lt_irrefl a.id⟩
    have : IsTrans Batch fun a b => b.id < a.id := ⟨fun a b c hab hbc => hbc.trans hab⟩
    exact filter_eq_drop h.below hk
  rw [← hbelow]
  have hmem : (below history cursor)[k] ∈ below history cursor := List.getElem_mem hk
  generalize (below history cursor)[k] = batch at hmem
  have hcursor : cursor.all fun c => batch.id < c := (List.mem_filter.mp hmem).2
  rw [below, below, List.filter_filter]
  refine List.filter_congr fun b _ => ?_
  rw [Option.all_some, Bool.eq_iff_iff, Bool.and_eq_true, decide_eq_true_eq]
  refine ⟨fun hb => ⟨hb, ?_⟩, fun hb => hb.1⟩
  cases cursor with
  | none => rfl
  | some c => exact decide_eq_true (hb.trans (of_decide_eq_true hcursor))

/-- How many batches of a history the source pages reach: a source page that ends with an empty id
is not inspected. -/
def reachable (l : List Batch) : ℕ :=
  if l.getLast?.any fun batch => batch.id = "" then
    sourcePageSize * ((l.length - 1) / sourcePageSize)
  else l.length

/-- No more batches can be reached than there are. -/
theorem reachable_le_length : reachable l ≤ l.length := by
  rw [reachable]
  split
  · have hdiv := Nat.mul_div_le (l.length - 1) sourcePageSize
    omega
  · exact le_rfl

/-- A first source page that ends with an empty id is the last one. -/
theorem reachable_eq_zero (h : Descending l)
    (hempty : (l.take sourcePageSize).getLast?.any fun batch => batch.id = "") :
    reachable l = 0 := by
  have hshort : l.length ≤ sourcePageSize := by
    by_contra hlong
    rw [not_le] at hlong
    have hlt : sourcePageSize - 1 < l.length := by omega
    rw [List.getLast?_eq_getElem?, List.length_take_of_le hlong.le,
      List.getElem?_take_of_lt (by decide), List.getElem?_eq_getElem hlt, Option.any_some,
      decide_eq_true_eq] at hempty
    have hless : l[sourcePageSize].id < l[sourcePageSize - 1].id :=
      List.pairwise_iff_getElem.mp h (sourcePageSize - 1) sourcePageSize hlt hlong (by decide)
    rw [hempty] at hless
    exact not_lt_empty hless
  rw [List.take_of_length_le hshort] at hempty
  rw [reachable, if_pos hempty, Nat.div_eq_of_lt (by rw [sourcePageSize] at *; omega),
    Nat.mul_zero]

/-- The batches behind a source page are reached as before. -/
theorem reachable_eq_add
    (hid : ¬(l.take sourcePageSize).getLast?.any fun batch => batch.id = "") :
    reachable l = (l.take sourcePageSize).length + reachable (l.drop sourcePageSize) := by
  rcases Nat.lt_or_ge sourcePageSize l.length with hlong | hshort
  · have hlast : (l.drop sourcePageSize).getLast? = l.getLast? := by
      rw [List.getLast?_drop, if_neg (by omega)]
    rw [List.length_take_of_le hlong.le, reachable, reachable, hlast, List.length_drop]
    split
    · rw [sourcePageSize] at *
      omega
    · omega
  · rw [List.take_of_length_le hshort] at hid ⊢
    rw [List.drop_of_length_le hshort, reachable, if_neg hid]
    rfl

/-! ## One call -/

variable {budget n : ℕ} {next : Option String}

variable (config queue) in
/-- How many batches a call inspects that may inspect `budget` batches and find `n` of them. -/
def inspectedBy (budget n : ℕ) (l : List Batch) : ℕ :=
  if n ≤ (l.take (min budget (reachable l))).countP (wanted config queue) then
    behind (wanted config queue) n l
  else min budget (reachable l)

variable (config queue) in
/-- Behind how many batches the next call goes on: behind the batch that filled the page, or behind
the last source page before the one in which the scan limit was reached. -/
def resume (budget n : ℕ) (l : List Batch) : ℕ :=
  if n ≤ (l.take (min budget (reachable l))).countP (wanted config queue) then
    behind (wanted config queue) n l
  else if budget ≤ reachable l then budget - sourcePageSize
  else reachable l

variable (config queue) in
/-- Whether a call reads the repository to its end. -/
def completes (budget n : ℕ) (l : List Batch) : Bool :=
  (l.take (min budget (reachable l))).countP (wanted config queue) < n ∧
    reachable l < budget ∧ reachable l = l.length

/-- The position behind the first `k` batches. -/
def position (l : List Batch) (next : Option String) (k : ℕ) : Option String :=
  if k = 0 then next else (l[k - 1]?).map (·.id)

/-- A cursor is resumed within the list. -/
theorem resume_le_length : resume config queue budget n l ≤ l.length := by
  rw [resume]
  split
  · exact behind_le_length
  · split
    · exact (Nat.sub_le _ _).trans (‹budget ≤ reachable l›.trans reachable_le_length)
    · exact reachable_le_length

/-- A cursor is resumed no further than has been inspected. -/
theorem resume_le_inspectedBy :
    resume config queue budget n l ≤ inspectedBy config queue budget n l := by
  rw [resume, inspectedBy]
  split
  · exact le_rfl
  · split
    · omega
    · omega

variable (config queue) in
/-- A call that inspects a first source page goes on with the others. -/
theorem call_append {s : List Batch} (hreachable : reachable (s ++ l) = s.length + reachable l)
    (hn : s.countP (wanted config queue) < n) (hbudget : s.length < budget)
    (hrest : l = [] ∨ sourcePageSize ≤ budget - s.length) :
    let m := n - s.countP (wanted config queue)
    inspectedBy config queue budget n (s ++ l) =
        s.length + inspectedBy config queue (budget - s.length) m l ∧
      resume config queue budget n (s ++ l) =
        s.length + resume config queue (budget - s.length) m l ∧
      completes config queue budget n (s ++ l) =
        completes config queue (budget - s.length) m l := by
  intro m
  have hwindow : (s ++ l).take (min budget (reachable (s ++ l))) =
      s ++ l.take (min (budget - s.length) (reachable l)) := by
    rw [hreachable, List.take_append, List.take_of_length_le (by omega)]
    congr 2
    omega
  have hcount : n ≤ ((s ++ l).take (min budget (reachable (s ++ l)))).countP
      (wanted config queue) ↔
        m ≤ (l.take (min (budget - s.length) (reachable l))).countP (wanted config queue) := by
    rw [hwindow, List.countP_append]
    omega
  refine ⟨?_, ?_, ?_⟩
  · simp only [inspectedBy, hcount]
    split
    · rw [behind_append_right hn]
    · omega
  · simp only [resume, hcount]
    split
    · rw [behind_append_right hn]
    · rcases hrest with rfl | hrest
      · have hnil : reachable [] = 0 := rfl
        rw [hreachable, hnil, if_neg (by omega), if_neg (by omega)]
      · rw [hreachable]
        split
        · rw [if_pos (by omega)]
          omega
        · rw [if_neg (by omega)]
  · have hlt : ((s ++ l).take (min budget (reachable (s ++ l)))).countP (wanted config queue) < n ↔
        (l.take (min (budget - s.length) (reachable l))).countP (wanted config queue) < m := by
      rw [← not_le, ← not_le, hcount]
    rw [completes, completes, decide_eq_decide, hlt, hreachable, List.length_append]
    refine and_congr_right fun _ => ?_
    omega

variable (config queue) in
/-- A call that can inspect nothing. -/
theorem call_of_unreachable (hreachable : reachable l = 0) (hn : 0 < n) (hbudget : 0 < budget) :
    inspectedBy config queue budget n l = 0 ∧ resume config queue budget n l = 0 ∧
      completes config queue budget n l = decide (l = []) := by
  have hcount : (l.take (min budget (reachable l))).countP (wanted config queue) = 0 := by
    rw [hreachable, Nat.min_zero, List.take_zero, List.countP_nil]
  refine ⟨?_, ?_, ?_⟩
  · rw [inspectedBy, hcount, if_neg (by omega), hreachable, Nat.min_zero]
  · rw [resume, hcount, if_neg (by omega), hreachable, if_neg (by omega)]
  · rw [completes, decide_eq_decide, hcount, hreachable, eq_comm (a := 0), List.length_eq_zero_iff]
    exact ⟨fun h => h.2.2, fun h => ⟨hn, hbudget, h⟩⟩

variable (config queue) in
/-- A call that finds all it needs in the first batches. -/
theorem call_of_found {s : List Batch} (hreachable : s.length ≤ reachable (s ++ l))
    (hbudget : s.length ≤ budget) (hn : n ≤ s.countP (wanted config queue)) :
    inspectedBy config queue budget n (s ++ l) = behind (wanted config queue) n s ∧
      resume config queue budget n (s ++ l) = behind (wanted config queue) n s ∧
      completes config queue budget n (s ++ l) = false := by
  have hcount : n ≤ ((s ++ l).take (min budget (reachable (s ++ l)))).countP
      (wanted config queue) := by
    rw [List.take_append, List.take_of_length_le (by omega), List.countP_append]
    omega
  refine ⟨?_, ?_, ?_⟩
  · rw [inspectedBy, if_pos hcount, behind_append_left hn]
  · rw [resume, if_pos hcount, behind_append_left hn]
  · rw [completes, decide_eq_false_iff_not]
    omega

variable (config queue) in
/-- A call that reaches the scan limit at the end of a source page. -/
theorem call_of_limit {s : List Batch} (hreachable : s.length ≤ reachable (s ++ l))
    (hn : s.countP (wanted config queue) < n) :
    inspectedBy config queue s.length n (s ++ l) = s.length ∧
      resume config queue s.length n (s ++ l) = s.length - sourcePageSize ∧
      completes config queue s.length n (s ++ l) = false := by
  have hmin : min s.length (reachable (s ++ l)) = s.length := Nat.min_eq_left hreachable
  have hcount : ¬n ≤ ((s ++ l).take (min s.length (reachable (s ++ l)))).countP
      (wanted config queue) := by
    rw [hmin, List.take_left]
    omega
  refine ⟨?_, ?_, ?_⟩
  · rw [inspectedBy, if_neg hcount, hmin]
  · rw [resume, if_neg hcount, if_pos hreachable]
  · rw [completes, decide_eq_false_iff_not]
    omega

/-- The position behind a page that is not empty. -/
theorem position_append {s : List Batch} {k : ℕ} (hs : s ≠ []) :
    position (s ++ l) next (s.length + k) = position l (position (s ++ l) next s.length) k := by
  have hlength : 0 < s.length := List.length_pos_iff.mpr hs
  cases k with
  | zero => rfl
  | succ k =>
      rw [position, if_neg (by omega), position, if_neg (by omega),
        List.getElem?_append_right (by omega)]
      congr 2
      omega

/-- A source page whose last id is not empty advances the cursor to it. -/
theorem advanceCursor_eq {k : ℕ} (hk : k < (below history cursor).length)
    (hid : ((below history cursor).take (k + 1)).getLast?.any (fun batch => batch.id = "") = false) :
    advanceCursor ((below history cursor).take (k + 1)) cursor =
      some (below history cursor)[k].id := by
  have hlast : ((below history cursor).take (k + 1)).getLast? = some (below history cursor)[k] := by
    rw [List.getLast?_eq_getElem?, List.length_take_of_le (show k + 1 ≤ _ from hk), Nat.add_sub_cancel,
      List.getElem?_take_of_lt (Nat.lt_succ_self k), List.getElem?_eq_getElem hk]
  have hmem : (below history cursor)[k] ∈ below history cursor := List.getElem_mem hk
  rw [hlast, Option.any_some, decide_eq_false_iff_not] at hid
  rw [advanceCursor, hlast]
  have hadvances : ¬(cursor.any fun current =>
      (strcmp (below history cursor)[k].id current).isGE) := by
    have hcursor := (List.mem_filter.mp hmem).2
    generalize (below history cursor)[k] = batch at hcursor
    cases cursor with
    | none => exact Bool.false_ne_true
    | some c =>
        rw [Option.all_some, decide_eq_true_eq] at hcursor
        rw [Option.any_some, strcmp_eq_lt.mpr hcursor]
        exact Bool.false_ne_true
  exact if_neg (not_or.mpr ⟨hid, hadvances⟩)

/-- A last batch with an empty id gives no cursor. -/
theorem advanceCursor_eq_none
    (hid : source.getLast?.any fun batch => batch.id = "") : advanceCursor source cursor = none := by
  rw [advanceCursor]
  cases hlast : source.getLast? with
  | none => rfl
  | some batch =>
      rw [hlast, Option.any_some, decide_eq_true_eq] at hid
      exact if_pos (Or.inl hid)

/-- A scan that finds no more batches is complete. -/
theorem scan_of_nil (hinspected : state.inspected < scanLimit)
    (hrows : state.rows.length < resultPageSize)
    (hsource : repository.get sourcePageSize state.cursor = []) :
    scan config repository queue state = { state with complete := true } := by
  rw [scan, dif_pos ⟨hinspected, hrows⟩, hsource]

/-- A scan whose cursor cannot advance stops with a message. -/
theorem scan_of_stuck {batch : Batch} (hinspected : state.inspected < scanLimit)
    (hrows : state.rows.length < resultPageSize)
    (hsource : repository.get sourcePageSize state.cursor = batch :: source)
    (hstuck : advanceCursor (batch :: source) state.cursor = none) :
    scan config repository queue state = { state with message := some moreEntries } := by
  rw [scan, dif_pos ⟨hinspected, hrows⟩, hsource]
  dsimp only
  rw [hstuck]

/-- A scan whose cursor advances goes on behind it. -/
theorem scan_of_advance {batch : Batch} {nextCursor : String}
    (hinspected : state.inspected < scanLimit) (hrows : state.rows.length < resultPageSize)
    (hsource : repository.get sourcePageSize state.cursor = batch :: source)
    (hadvance : advanceCursor (batch :: source) state.cursor = some nextCursor) :
    scan config repository queue state =
      let inspection := inspectSource config queue (batch :: source) state.inspected state.rows
      match inspection.full with
      | some id =>
          { state with inspected := inspection.inspected, rows := inspection.rows, next := id }
      | none =>
          if scanLimit ≤ inspection.inspected then
            { state with inspected := inspection.inspected, rows := inspection.rows }
          else
            scan config repository queue { state with
              cursor := nextCursor, inspected := inspection.inspected,
              rows := inspection.rows, next := nextCursor } := by
  rw [scan, dif_pos ⟨hinspected, hrows⟩, hsource]
  dsimp only
  rw [hadvance]

/-- A source page that does not end with an empty id: it fits in what may still be inspected, the
cursor advances to its end, and the rest of the history is reached as before. -/
theorem source_page {batch : Batch} (hsorted : Descending history)
    (hs : (below history cursor).take sourcePageSize = batch :: source)
    (hid : (batch :: source).getLast?.any (fun batch => batch.id = "") = false) :
    ∃ nextCursor, advanceCursor (batch :: source) cursor = some nextCursor ∧
      ((below history cursor)[source.length]?).map (·.id) = some nextCursor ∧
      below history (some nextCursor) = (below history cursor).drop sourcePageSize ∧
      reachable (below history cursor) = (batch :: source).length +
        reachable ((below history cursor).drop sourcePageSize) ∧
      (batch :: source).length ≤ sourcePageSize ∧
      ((below history cursor).drop sourcePageSize = [] ∨
        (batch :: source).length = sourcePageSize) := by
  have hlength := congrArg List.length hs
  rw [List.length_take, List.length_cons] at hlength
  have hk : source.length < (below history cursor).length := by omega
  have htake : (below history cursor).take (source.length + 1) = batch :: source := by
    rw [← hs]
    rcases Nat.le_total sourcePageSize (below history cursor).length with hle | hle
    · rw [← hlength, Nat.min_eq_left hle]
    · rw [List.take_of_length_le hle, List.take_of_length_le (by omega)]
  have hdrop : (below history cursor).drop (source.length + 1) =
      (below history cursor).drop sourcePageSize := by
    rcases Nat.le_total sourcePageSize (below history cursor).length with hle | hle
    · rw [← hlength, Nat.min_eq_left hle]
    · rw [List.drop_of_length_le hle, List.drop_of_length_le (by omega)]
  refine ⟨(below history cursor)[source.length].id, ?_, ?_, ?_, ?_, ?_, ?_⟩
  · rw [← htake] at hid ⊢
    exact advanceCursor_eq hk hid
  · rw [List.getElem?_eq_getElem hk, Option.map_some]
  · rw [below_getElem hsorted hk, hdrop]
  · rw [← hs]
    exact reachable_eq_add (by rw [hs, hid]; exact Bool.false_ne_true)
  · rw [List.length_cons]
    omega
  · rw [List.drop_eq_nil_iff, List.length_cons]
    omega

/-- The variables of the loop before a source page is read: there is something left to inspect and
to find, and the scan limit will be reached at the end of a source page. -/
structure Scan.Ready (history : List Batch) (state : Scan) : Prop where
  inspected : state.inspected < scanLimit
  rows : state.rows.length < resultPageSize
  complete : state.complete = false
  aligned : below history state.cursor = [] ∨ sourcePageSize ∣ scanLimit - state.inspected

variable (config queue) in
/-- What the loop comes to from a state on. -/
structure Scan.Reaches (history : List Batch) (state final : Scan) : Prop where
  rows : final.rows = state.rows ++ matching config queue
    ((below history state.cursor).take (inspectedBy config queue (scanLimit - state.inspected)
      (resultPageSize - state.rows.length) (below history state.cursor)))
  next : final.next = position (below history state.cursor) state.next
    (resume config queue (scanLimit - state.inspected) (resultPageSize - state.rows.length)
      (below history state.cursor))
  complete : final.complete = completes config queue (scanLimit - state.inspected)
    (resultPageSize - state.rows.length) (below history state.cursor)

variable (config queue) in
/-- **The loop**: it inspects, resumes and completes as the history below its cursor says. -/
theorem scan_reaches (hserves : Serves repository history) (hsorted : Descending history)
    (hready : state.Ready history) :
    state.Reaches config queue history (scan config repository queue state) := by
  -- Induction on what may still be inspected.
  induction hbudget : scanLimit - state.inspected using Nat.strongRecOn generalizing state with
  | ind budget ih =>
      obtain ⟨hinspected, hrows, hcomplete, haligned⟩ := hready
      have hsource : repository.get sourcePageSize state.cursor =
          (below history state.cursor).take sourcePageSize := hserves _ _
      have hn : 0 < resultPageSize - state.rows.length := by omega
      cases hs : (below history state.cursor).take sourcePageSize with
      | nil =>
          have hnil : below history state.cursor = [] := by
            rcases List.take_eq_nil_iff.mp hs with h | h
            · cases h
            · exact h
          obtain ⟨hby, hresume, hcompletes⟩ := call_of_unreachable config queue
            (l := below history state.cursor) (by rw [hnil]; rfl) hn (Nat.sub_pos_of_lt hinspected)
          rw [scan_of_nil hinspected hrows (hsource.trans hs)]
          refine ⟨?_, ?_, ?_⟩
          · rw [hby, List.take_zero]
            exact (List.append_nil _).symm
          · rw [hresume]
            rfl
          · rw [hcompletes, hnil]
            rfl
      | cons batch source =>
          have hne : below history state.cursor ≠ [] := by
            intro hnil
            rw [hnil, List.take_nil] at hs
            cases hs
          by_cases hid : (batch :: source).getLast?.any fun batch => batch.id = ""
          · -- The source page ends with an empty id: nothing of it is inspected.
            have hzero : reachable (below history state.cursor) = 0 :=
              reachable_eq_zero hsorted.below (by rw [hs]; exact hid)
            obtain ⟨hby, hresume, hcompletes⟩ := call_of_unreachable config queue hzero hn
              (Nat.sub_pos_of_lt hinspected)
            rw [scan_of_stuck hinspected hrows (hsource.trans hs) (advanceCursor_eq_none hid)]
            refine ⟨?_, ?_, ?_⟩
            · rw [hby, List.take_zero]
              exact (List.append_nil _).symm
            · rw [hresume]
              rfl
            · rw [hcompletes, decide_eq_false hne]
              exact hcomplete
          · rw [Bool.not_eq_true] at hid
            obtain ⟨nextCursor, hadvance, hnext, hbelow, hreachable, hfits, hrest⟩ :=
              source_page hsorted hs hid
            have hbudget' : sourcePageSize ≤ scanLimit - state.inspected := by
              obtain ⟨q, hq⟩ := haligned.resolve_left hne
              rw [sourcePageSize] at hq ⊢
              omega
            have hsplit : (batch :: source) ++ (below history state.cursor).drop sourcePageSize =
                below history state.cursor := by rw [← hs, List.take_append_drop]
            rw [scan_of_advance hinspected hrows (hsource.trans hs) hadvance,
              inspectSource_eq (by omega) hrows]
            have hreach : (batch :: source).length ≤ reachable
                ((batch :: source) ++ (below history state.cursor).drop sourcePageSize) := by
              rw [hsplit, hreachable]
              omega
            dsimp only
            by_cases hfound : resultPageSize - state.rows.length ≤
                (batch :: source).countP (wanted config queue)
            · -- The result page is filled within the source page.
              obtain ⟨hby, hresume, hcompletes⟩ :=
                call_of_found config queue hreach (hfits.trans hbudget') hfound
              have hpos : 0 < behind (wanted config queue) (resultPageSize - state.rows.length)
                  (batch :: source) := behind_pos hn (List.cons_ne_nil _ _)
              have hle : behind (wanted config queue) (resultPageSize - state.rows.length)
                  (batch :: source) ≤ (batch :: source).length := behind_le_length
              rw [hsplit] at hby hresume hcompletes
              rw [if_pos hfound]
              generalize behind (wanted config queue) (resultPageSize - state.rows.length)
                (batch :: source) = k at hby hresume hpos hle ⊢
              have hbatch : (batch :: source)[k - 1]? = (below history state.cursor)[k - 1]? := by
                rw [← hsplit, List.getElem?_append_left (by omega)]
              have hsome : k - 1 < (batch :: source).length := by omega
              rw [List.getElem?_eq_getElem hsome] at hbatch ⊢
              simp only [Option.map_some]
              refine ⟨?_, ?_, ?_⟩
              · rw [hby, ← hsplit, List.take_append_of_le_length hle]
              · rw [hresume, position, if_neg (by omega), ← hbatch, Option.map_some]
              · rw [hcompletes]
                exact hcomplete
            · rw [if_neg hfound]
              dsimp only
              rw [not_le] at hfound
              split
              · -- The scan limit is reached at the end of the source page.
                rename_i hlimit
                have heq : scanLimit - state.inspected = (batch :: source).length := by omega
                have heq' : (batch :: source).length = sourcePageSize := by omega
                obtain ⟨hby, hresume, hcompletes⟩ := call_of_limit config queue hreach hfound
                rw [hsplit, ← heq] at hby hresume hcompletes
                refine ⟨?_, ?_, ?_⟩
                · rw [hby, heq, ← hsplit, List.take_left]
                · rw [hresume, heq, heq', Nat.sub_self]
                  rfl
                · rw [hcompletes]
                  exact hcomplete
              · rename_i hlimit
                rw [not_le] at hlimit
                have hcount : (matching config queue (batch :: source)).length =
                    (batch :: source).countP (wanted config queue) := length_matching
                have haligned' : (below history state.cursor).drop sourcePageSize = [] ∨
                    sourcePageSize ∣ scanLimit - (state.inspected + (batch :: source).length) := by
                  rcases hrest with hrest | hrest
                  · exact Or.inl hrest
                  · right
                    obtain ⟨q, hq⟩ := haligned.resolve_left hne
                    refine ⟨q - 1, ?_⟩
                    rw [Nat.mul_sub_one, ← hq, hrest]
                    omega
                have hroom : (below history state.cursor).drop sourcePageSize = [] ∨
                    sourcePageSize ≤ scanLimit - state.inspected - (batch :: source).length := by
                  refine haligned'.imp_right fun hdvd => ?_
                  have hle := Nat.le_of_dvd (by omega) hdvd
                  omega
                have htake : ∀ j, (below history state.cursor).take ((batch :: source).length + j) =
                    (batch :: source) ++ ((below history state.cursor).drop sourcePageSize).take j := by
                  intro j
                  conv_lhs => rw [← hsplit]
                  rw [List.take_length_add_append]
                have hready' : Scan.Ready history { state with
                    cursor := nextCursor
                    inspected := state.inspected + (batch :: source).length
                    rows := state.rows ++ matching config queue (batch :: source)
                    next := nextCursor } := by
                  refine ⟨hlimit, ?_, hcomplete, ?_⟩
                  · rw [List.length_append, hcount]
                    omega
                  · show below history (some nextCursor) = [] ∨ _
                    rw [hbelow]
                    exact haligned'
                obtain ⟨hrows', hnext', hcomplete'⟩ := ih _
                  (show scanLimit - (state.inspected + (batch :: source).length) < budget by
                    have hpos : 0 < (batch :: source).length := Nat.succ_pos _
                    omega) hready' rfl
                have hsub : resultPageSize -
                    (state.rows ++ matching config queue (batch :: source)).length =
                      resultPageSize - state.rows.length -
                        (batch :: source).countP (wanted config queue) := by
                  rw [List.length_append, hcount]
                  omega
                rw [hbelow, hsub, Nat.sub_add_eq] at hrows' hnext' hcomplete'
                have hbudget'' : (batch :: source).length < scanLimit - state.inspected := by omega
                obtain ⟨hby, hresume, hcompletes⟩ := call_append config queue
                  (l := (below history state.cursor).drop sourcePageSize)
                  (by rw [hsplit]; exact hreachable) hfound hbudget'' hroom
                rw [hsplit] at hby hresume hcompletes
                refine ⟨?_, ?_, ?_⟩
                · rw [hrows', hby, htake, matching_append, List.append_assoc]
                · have hposition : position (below history state.cursor) state.next
                      (batch :: source).length = some nextCursor := by
                    rw [List.length_cons, position, if_neg (Nat.succ_ne_zero _),
                      Nat.add_sub_cancel, hnext]
                  have happend : ∀ j, position (below history state.cursor) state.next
                      ((batch :: source).length + j) = position
                        ((below history state.cursor).drop sourcePageSize) nextCursor j := by
                    intro j
                    rw [← hposition, ← hsplit, position_append (List.cons_ne_nil _ _), hsplit]
                  rw [hnext', hresume, happend]
                · rw [hcomplete', hcompletes]

/-! ## Following the pages -/

/-- What a reader sees of a page: a page that is complete is the last one. -/
def Shows (config : QueueConfig) (repository : BatchRepository) (queue : String)
    (c : Option String) (rows : List BatchRowData) (next : Option String) : Prop :=
  rows = (page config repository queue c).rows ∧
    next = if (page config repository queue c).complete then none
      else (page config repository queue c).next

variable (config queue) in
/-- What following the pages shows of a history. -/
def delivered (l : List Batch) : List BatchRowData :=
  matching config queue (l.take (inspectedBy config queue scanLimit resultPageSize l)) ++
    if 0 < resume config queue scanLimit resultPageSize l then
      delivered (l.drop (resume config queue scanLimit resultPageSize l))
    else []
termination_by l.length
decreasing_by
  have hle : resume config queue scanLimit resultPageSize l ≤ l.length := resume_le_length
  rw [List.length_drop]
  omega

variable (config queue) in
/-- The condition on a history: no call ends at the scan limit with a batch of the queue in its last
source page, and no batch of the queue stands in a source page that ends with an empty id. -/
def Seamless (l : List Batch) : Prop :=
  (∀ batch ∈ (l.take (inspectedBy config queue scanLimit resultPageSize l)).drop
      (resume config queue scanLimit resultPageSize l), ¬wanted config queue batch) ∧
    if 0 < resume config queue scanLimit resultPageSize l then
      Seamless (l.drop (resume config queue scanLimit resultPageSize l))
    else ∀ batch ∈ l, ¬wanted config queue batch
termination_by l.length
decreasing_by
  have hle : resume config queue scanLimit resultPageSize l ≤ l.length := resume_le_length
  rw [List.length_drop]
  omega

variable (config queue) in
/-- How a call ends: it fills the result page, it reaches the scan limit, or it has inspected all
it can reach. -/
theorem call_cases (l : List Batch) :
    let k := inspectedBy config queue scanLimit resultPageSize l
    let j := resume config queue scanLimit resultPageSize l
    j = k ∧ 0 < k ∧ (matching config queue (l.take k)).length = resultPageSize ∨
      j + sourcePageSize = k ∧ k = scanLimit ∧ scanLimit ≤ reachable l ∨
      j = k ∧ k = reachable l ∧ reachable l < scanLimit := by
  intro k j
  by_cases hfound : resultPageSize ≤
      (l.take (min scanLimit (reachable l))).countP (wanted config queue)
  · left
    have hcount : resultPageSize ≤ l.countP (wanted config queue) :=
      hfound.trans (List.Sublist.countP_le (List.take_sublist _ _))
    have hne : l ≠ [] := by
      rintro rfl
      rw [List.countP_nil] at hcount
      exact absurd hcount (by decide)
    refine ⟨?_, ?_, ?_⟩
    · simp only [j, k, resume, inspectedBy, if_pos hfound]
    · simp only [k, inspectedBy, if_pos hfound]
      exact behind_pos (by decide) hne
    · simp only [k, inspectedBy, if_pos hfound]
      rw [matching, List.length_map, length_filter_take_behind hcount]
  · right
    by_cases hlimit : scanLimit ≤ reachable l
    · left
      simp only [j, k, resume, inspectedBy, if_neg hfound, if_pos hlimit]
      refine ⟨?_, Nat.min_eq_left hlimit, hlimit⟩
      rw [Nat.min_eq_left hlimit]
      rfl
    · right
      simp only [j, k, resume, inspectedBy, if_neg hfound, if_neg hlimit]
      omega

/-- A call that reads the repository to its end resumes at the end. -/
theorem resume_of_completes (h : completes config queue scanLimit resultPageSize l) :
    resume config queue scanLimit resultPageSize l = l.length := by
  obtain ⟨hfound, hlimit, hend⟩ := of_decide_eq_true h
  rw [resume, if_neg (by omega), if_neg (by omega), hend]

/-- No page delivers no row. -/
theorem delivered_nil : delivered config queue [] = [] := by
  rw [delivered]
  rfl

variable (config queue) in
/-- What a page holds, and where it hands on. -/
theorem page_reaches (hserves : Serves repository history) (hsorted : Descending history)
    (c : Option String) :
    let l := below history c
    let p := page config repository queue c
    p.rows = matching config queue
        (l.take (inspectedBy config queue scanLimit resultPageSize l)) ∧
      p.next = position l none (resume config queue scanLimit resultPageSize l) ∧
      p.complete = completes config queue scanLimit resultPageSize l := by
  intro l p
  have hready : Scan.Ready history ⟨c, 0, [], none, false, none⟩ :=
    ⟨show 0 < scanLimit by decide, show 0 < resultPageSize by decide, rfl,
      Or.inr (show sourcePageSize ∣ scanLimit by decide)⟩
  obtain ⟨hrows, hnext, hcomplete⟩ := scan_reaches config queue hserves hsorted hready
  exact ⟨hrows, hnext, hcomplete⟩

variable (config queue) in
/-- Every page splits what is delivered from its position on. -/
theorem splits_page (hserves : Serves repository history) (hsorted : Descending history)
    (c : Option String) : ∃ rows next,
      Splits (Shows config repository queue) (fun _ => True)
        (fun c => delivered config queue (below history c)) (fun c => (below history c).length)
        c rows next := by
  obtain ⟨hrows, hnext, hcomplete⟩ := page_reaches config queue hserves hsorted c
  refine ⟨_, _, ⟨fun rows' next' => Iff.rfl, ?_, ?_⟩⟩
  · intro hlast
    have hrest : (if 0 < resume config queue scanLimit resultPageSize (below history c) then
        delivered config queue ((below history c).drop
          (resume config queue scanLimit resultPageSize (below history c)))
        else []) = [] := by
      split
      · rename_i hpos
        split at hlast
        · rename_i hcompletes
          rw [hcomplete] at hcompletes
          rw [resume_of_completes hcompletes, List.drop_length, delivered_nil]
        · have hle : resume config queue scanLimit resultPageSize (below history c) ≤
              (below history c).length := resume_le_length
          rw [hnext, position, if_neg (by omega), Option.map_eq_none_iff,
            List.getElem?_eq_none_iff] at hlast
          omega
      · rfl
    rw [delivered, hrest, List.append_nil, hrows]
  · intro c' hc'
    split at hc'
    · cases hc'
    · rw [hnext, position] at hc'
      split at hc'
      · cases hc'
      · rename_i hpos
        rw [Option.map_eq_some_iff] at hc'
        obtain ⟨batch, hbatch, rfl⟩ := hc'
        obtain ⟨hk, rfl⟩ := List.getElem?_eq_some_iff.mp hbatch
        have hbelow := below_getElem hsorted hk
        rw [Nat.sub_add_cancel (by omega)] at hbelow
        refine ⟨?_, trivial, ?_⟩
        · rw [hbelow, delivered, if_pos (by omega), hrows]
        · rw [hbelow, List.length_drop]
          omega

/-! ## Every batch once -/

/-- A call leaves out what stands behind the position it hands on. -/
theorem take_inspectedBy {k j : ℕ} (h : j ≤ k) :
    matching config queue (l.take k) =
      matching config queue (l.take j) ++ matching config queue ((l.take k).drop j) := by
  rw [← matching_append, ← Nat.min_eq_left h, ← List.take_take, Nat.min_eq_left h,
    List.take_append_drop]

/-- There is no row where no batch is wanted. -/
theorem matching_eq_nil : matching config queue l = [] ↔
    ∀ batch ∈ l, ¬wanted config queue batch := by
  rw [matching, List.map_eq_nil_iff, List.filter_eq_nil_iff]

/-- Under the condition every batch of the queue is delivered once, in order. -/
theorem delivered_of_seamless (h : Seamless config queue l) :
    delivered config queue l = matching config queue l := by
  induction hn : l.length using Nat.strongRecOn generalizing l with
  | ind n ih =>
      subst hn
      rw [Seamless] at h
      obtain ⟨hbehind, hrest⟩ := h
      have hle : resume config queue scanLimit resultPageSize l ≤ l.length := resume_le_length
      rw [delivered, take_inspectedBy resume_le_inspectedBy, matching_eq_nil.mpr hbehind,
        List.append_nil]
      split at hrest
      · rename_i hpos
        rw [if_pos hpos, ih _ (by rw [List.length_drop]; omega) hrest rfl, ← matching_append,
          List.take_append_drop]
      · rename_i hpos
        rw [if_neg hpos, List.append_nil, matching_eq_nil.mpr hrest, matching_eq_nil]
        exact fun batch hbatch => hrest batch (List.mem_of_mem_take hbatch)

/-- What is found in the first source page is delivered in part at least. -/
theorem exists_mem_delivered (hreachable : sourcePageSize ≤ reachable l)
    (hfirst : matching config queue (l.take sourcePageSize) ≠ []) :
    ∃ row ∈ delivered config queue l, row ∈ matching config queue (l.take sourcePageSize) := by
  have hdelivered : ∀ row, row ∈ matching config queue
      (l.take (inspectedBy config queue scanLimit resultPageSize l)) →
        row ∈ delivered config queue l := by
    intro row hrow
    rw [delivered]
    exact List.mem_append_left _ hrow
  have hmono : ∀ {i j : ℕ}, i ≤ j → ∀ row, row ∈ matching config queue (l.take i) →
      row ∈ matching config queue (l.take j) := by
    intro i j hij row hrow
    rw [take_inspectedBy hij]
    exact List.mem_append_left _ hrow
  rcases Nat.le_total (inspectedBy config queue scanLimit resultPageSize l) sourcePageSize
    with hle | hle
  · -- The result page was filled within the first source page.
    have hne : matching config queue
        (l.take (inspectedBy config queue scanLimit resultPageSize l)) ≠ [] := by
      rcases call_cases config queue l with ⟨-, -, hfull⟩ | ⟨-, hlimit, -⟩ |
        ⟨-, hall, -⟩
      · rw [← List.length_pos_iff, hfull]
        decide
      · rw [hlimit] at hle
        exact absurd hle (by decide)
      · rwa [show inspectedBy config queue scanLimit resultPageSize l = sourcePageSize by omega]
    obtain ⟨row, hrow⟩ := List.exists_mem_of_ne_nil _ hne
    exact ⟨row, hdelivered row hrow, hmono hle row hrow⟩
  · obtain ⟨row, hrow⟩ := List.exists_mem_of_ne_nil _ hfirst
    exact ⟨row, hdelivered row (hmono hle row hrow), hrow⟩

/-- Where the scan limit is reached, another source page follows the position that is handed on. -/
theorem reachable_drop (h : scanLimit ≤ reachable l) :
    sourcePageSize ≤ reachable (l.drop (scanLimit - sourcePageSize)) := by
  have hlength : scanLimit ≤ l.length := h.trans reachable_le_length
  have hlast : (l.drop (scanLimit - sourcePageSize)).getLast? = l.getLast? := by
    rw [List.getLast?_drop, if_neg (by rw [scanLimit, sourcePageSize] at *; omega)]
  rw [reachable] at h ⊢
  rw [hlast, List.length_drop]
  split at h
  · rw [if_pos ‹_›]
    rw [scanLimit, sourcePageSize] at *
    omega
  · rw [if_neg ‹_›]
    rw [scanLimit, sourcePageSize] at *
    omega

/-- The rows of the first batches of a history have other ids than those of the rest. -/
theorem matching_disjoint (hsorted : Descending l) {k : ℕ} {row row' : BatchRowData}
    (hrow : row ∈ matching config queue (l.take k))
    (hrow' : row' ∈ matching config queue (l.drop k)) : row.id ≠ row'.id := by
  obtain ⟨batch, hbatch, rfl⟩ := List.mem_map.mp hrow
  obtain ⟨batch', hbatch', rfl⟩ := List.mem_map.mp hrow'
  rw [Descending, ← List.take_append_drop k l, List.pairwise_append] at hsorted
  have hlt : batch'.id < batch.id :=
    hsorted.2.2 batch (List.mem_filter.mp hbatch).1 batch' (List.mem_filter.mp hbatch').1
  exact hlt.ne'

/-- Where every batch of the queue is delivered once, the condition holds. -/
theorem seamless_of_delivered (hsorted : Descending l)
    (h : (delivered config queue l).map (·.id) = (matching config queue l).map (·.id)) :
    Seamless config queue l := by
  induction hn : l.length using Nat.strongRecOn generalizing l with
  | ind n ih =>
      subst hn
      rw [Seamless]
      rw [delivered] at h
      have hle : resume config queue scanLimit resultPageSize l ≤ l.length := resume_le_length
      have hle' : resume config queue scanLimit resultPageSize l ≤
        inspectedBy config queue scanLimit resultPageSize l := resume_le_inspectedBy
      have hcases := call_cases config queue l
      generalize inspectedBy config queue scanLimit resultPageSize l = k at h hle' hcases ⊢
      generalize resume config queue scanLimit resultPageSize l = j at h hle hle' hcases ⊢
      rcases Nat.eq_zero_or_pos j with rfl | hpos
      · -- Nothing is inspected, so nothing may be left.
        have hzero : k = 0 := by
          rcases hcases with ⟨hjk, -, -⟩ | ⟨hjk, hlimit, -⟩ | ⟨hjk, -, -⟩
          · exact hjk.symm
          · rw [scanLimit] at hlimit
            rw [sourcePageSize] at hjk
            omega
          · exact hjk.symm
        subst hzero
        rw [if_neg (lt_irrefl 0), List.append_nil, List.take_zero] at h
        have hnone : ∀ batch ∈ l, ¬wanted config queue batch := by
          rw [← matching_eq_nil, ← List.map_eq_nil_iff, ← h]
          rfl
        rw [if_neg (lt_irrefl 0)]
        exact ⟨fun batch hbatch => absurd hbatch List.not_mem_nil, hnone⟩
      · rw [if_pos hpos] at h ⊢
        have hrest : (matching config queue ((l.take k).drop j)).map (·.id) ++
            (delivered config queue (l.drop j)).map (·.id) =
              (matching config queue (l.drop j)).map (·.id) := by
          have hsplit : matching config queue l =
              matching config queue (l.take j) ++ matching config queue (l.drop j) := by
            rw [← matching_append, List.take_append_drop]
          rw [take_inspectedBy hle', hsplit, List.append_assoc, List.map_append, List.map_append,
            List.map_append] at h
          exact List.append_cancel_left h
        have hnone : matching config queue ((l.take k).drop j) = [] := by
          by_contra hne
          rcases hcases with ⟨rfl, -, -⟩ | ⟨hjk, rfl, hreachable⟩ | ⟨rfl, -, -⟩
          · rw [List.drop_take_self] at hne
            exact hne rfl
          · have hj : j = scanLimit - sourcePageSize := by omega
            have hpage : (l.take scanLimit).drop j = (l.drop j).take sourcePageSize := by
              rw [List.drop_take, hj]
              rfl
            rw [hpage] at hne hrest
            have hreachable' := reachable_drop hreachable
            rw [← hj] at hreachable'
            obtain ⟨row, hdelivered, hrow⟩ := exists_mem_delivered hreachable' hne
            have hsplit : matching config queue (l.drop j) =
                matching config queue ((l.drop j).take sourcePageSize) ++
                  matching config queue ((l.drop j).drop sourcePageSize) := by
              rw [← matching_append, List.take_append_drop]
            rw [hsplit, List.map_append] at hrest
            have hagain := List.append_cancel_left hrest
            -- The row comes again, but its batch does not stand in the rest of the history.
            have hmem : row.id ∈ (matching config queue
                ((l.drop j).drop sourcePageSize)).map (·.id) := by
              rw [← hagain]
              exact List.mem_map_of_mem hdelivered
            obtain ⟨row', hrow', hid⟩ := List.mem_map.mp hmem
            have hsorted' : Descending (l.drop j) := hsorted.sublist (List.drop_sublist j l)
            exact matching_disjoint hsorted' hrow hrow' hid.symm
          · rw [List.drop_take_self] at hne
            exact hne rfl
        rw [hnone, List.map_nil, List.nil_append] at hrest
        refine ⟨matching_eq_nil.mp hnone, ih _ ?_ ?_ hrest rfl⟩
        · rw [List.length_drop]
          omega
        · exact hsorted.sublist (List.drop_sublist j l)

/-- **Following the pages**: the pages of a queue end, and they deliver every batch of the queue
exactly once and in order if and only if no call ends at the scan limit with a batch of the queue in
its last source page (and no batch of the queue stands in a source page that ends with an empty
id). -/
theorem page_seamless (config : QueueConfig) (repository : BatchRepository) (queue : String)
    (history : List Batch) (hserves : Serves repository history)
    (hsorted : Descending history) :
    ∃ rows, (∀ rows', Traversal (Shows config repository queue) none rows' ↔ rows' = rows) ∧
      (rows.map (·.id) = (history.filter (wanted config queue)).map (·.id) ↔
        Seamless config queue history) ∧
      (Seamless config queue history →
        rows = (history.filter (wanted config queue)).map (BatchesData.row config)) := by
  have hbelow : below history none = history := List.filter_eq_self.mpr fun _ _ => rfl
  have hids : (history.filter (wanted config queue)).map (·.id) =
      (matching config queue history).map (·.id) := by
    rw [matching, List.map_map]
    rfl
  refine ⟨delivered config queue history, fun rows => ?_, ⟨fun h => ?_, fun h => ?_⟩, fun h => ?_⟩
  · have htraversal : Traversal (Shows config repository queue) none rows ↔
        rows = delivered config queue (below history none) :=
      traversal_iff (fun c _ => splits_page config queue hserves hsorted c) trivial
    rw [htraversal, hbelow]
  · exact seamless_of_delivered hsorted (h.trans hids)
  · rw [hids, delivered_of_seamless h]
  · exact delivered_of_seamless h

/-- A finished batch of a queue. -/
def retainedQueueBatch (id queue : String) : Batch where
  id := id
  name := ""
  totalJobs := 1
  pendingJobs := 0
  failedJobs := 0
  processedJobs := 1
  progress := 100
  cancelled := false
  options := [("queue", .str queue)]
  createdAt := 0
  cancelledAt := none
  finishedAt := none

/-- The repository that answers from a history. -/
def serving (history : List Batch) : BatchRepository :=
  ⟨fun limit before => (below history before).take limit⟩

/-- An application without queue configuration. -/
def noConfig : QueueConfig := ⟨.null, .null⟩

/-- An id of one letter. -/
def letterId (n : ℕ) : String := String.singleton (Char.ofNat (n + 65))

/-- The ids of the example are in the order of their numbers. -/
theorem letterId_lt {m n : ℕ} (h : m < n) (hn : n < 1000) : letterId m < letterId n := by
  have hval : ∀ k, k < 1000 → (Char.ofNat (k + 65)).toNat = k + 65 := by
    intro k hk
    have hvalid : (k + 65).isValidChar := Or.inl (by omega)
    rw [Char.ofNat, dif_pos hvalid]
    rfl
  rw [String.lt_iff_toList_lt, letterId, letterId, String.toList_singleton, String.toList_singleton,
    List.cons_lt_cons_iff]
  left
  rw [Char.lt_def, UInt32.lt_iff_toNat_lt]
  show (Char.ofNat (m + 65)).toNat < (Char.ofNat (n + 65)).toNat
  rw [hval m (by omega), hval n hn]
  omega

/-- Batches, two of three of which are of the queue `reports`. -/
def mixedHistory : List Batch :=
  (List.range 120).map fun n =>
    retainedQueueBatch (letterId (120 - n)) (if n % 3 = 0 then "other" else "reports")

/-- The history is in descending order. -/
theorem descending_mixedHistory : Descending mixedHistory := by
  rw [Descending, mixedHistory, List.pairwise_map]
  refine (List.pairwise_lt_range (n := 120)).imp_of_mem fun {m n} hm hn hlt => ?_
  rw [List.mem_range] at hm hn
  exact letterId_lt (by omega) (by omega)

/-- A call that goes on behind the last batch it has inspected leaves the condition to the next call. -/
theorem seamless_of_resume {n : ℕ} (hby : inspectedBy config queue scanLimit resultPageSize l = n)
    (hresume : resume config queue scanLimit resultPageSize l = n) (hn : 0 < n)
    (h : Seamless config queue (l.drop n)) : Seamless config queue l := by
  rw [Seamless, hby, hresume, if_pos hn]
  refine ⟨fun batch hbatch => ?_, h⟩
  rw [List.drop_take_self] at hbatch
  cases hbatch

/-- The condition holds where there is no batch. -/
theorem seamless_nil : Seamless config queue [] := by
  have hresume : resume config queue scanLimit resultPageSize ([] : List Batch) = 0 :=
    Nat.le_zero.mp resume_le_length
  rw [Seamless, hresume, if_neg (lt_irrefl 0)]
  exact ⟨by simp, by simp⟩

/-- The eighty batches of the queue are delivered on two pages, each of them once. -/
theorem page_seamless_mixed : ∃ rows,
    (∀ rows', Traversal (Shows noConfig (serving mixedHistory) "reports") none rows' ↔ rows' = rows) ∧
      rows = (mixedHistory.filter (wanted noConfig "reports")).map (BatchesData.row noConfig) ∧
      resultPageSize < rows.length := by
  have hseamless : Seamless noConfig "reports" mixedHistory := by
    apply seamless_of_resume (n := 75) (by decide +kernel) (by decide +kernel) (by decide)
    apply seamless_of_resume (n := 45) (by decide +kernel) (by decide +kernel) (by decide)
    have hrest : (mixedHistory.drop 75).drop 45 = [] := rfl
    rw [hrest]
    exact seamless_nil
  obtain ⟨rows, htraversal, -, hrows⟩ := page_seamless noConfig (serving mixedHistory) "reports"
    mixedHistory (fun _ _ => rfl) descending_mixedHistory
  refine ⟨rows, htraversal, hrows hseamless, ?_⟩
  rw [hrows hseamless, List.length_map]
  decide +kernel

/-! ## A scan that stops at the limit -/

section Limit

variable {batch : Batch} (hothers : ∀ b ∈ l, ¬wanted config queue b)
  (hbatch : wanted config queue batch) (hid : batch.id ≠ "")
include hothers hbatch hid

omit hid in
/-- A batch that is wanted adds its row at the end. -/
theorem matching_concat : matching config queue (l ++ [batch]) = [BatchesData.row config batch] := by
  rw [matching_append, matching_eq_nil.mpr hothers, List.nil_append, matching,
    List.filter_cons_of_pos hbatch, List.filter_nil, List.map_singleton]

/-- A single batch of the queue at the end of a history is found in the end. -/
theorem call_concat :
    let m := min scanLimit (l.length + 1)
    inspectedBy config queue scanLimit resultPageSize (l ++ [batch]) = m ∧
      resume config queue scanLimit resultPageSize (l ++ [batch]) =
        if scanLimit ≤ l.length + 1 then scanLimit - sourcePageSize else l.length + 1 := by
  have hreachable : reachable (l ++ [batch]) = l.length + 1 := by
    rw [reachable, List.getLast?_concat, Option.any_some, if_neg (by simpa using hid),
      List.length_append, List.length_singleton]
  have hcount : ¬resultPageSize ≤ ((l ++ [batch]).take
      (min scanLimit (reachable (l ++ [batch])))).countP (wanted config queue) := by
    have hle := List.Sublist.countP_le (p := wanted config queue)
      (List.take_sublist (min scanLimit (reachable (l ++ [batch]))) (l ++ [batch]))
    rw [← length_matching (l := l ++ [batch]), matching_concat hothers hbatch,
      List.length_singleton] at hle
    rw [resultPageSize]
    omega
  rw [inspectedBy, resume, if_neg hcount, if_neg hcount, hreachable]
  exact ⟨rfl, rfl⟩

/-- A scan that reaches the end of the repository delivers the batch once. -/
theorem delivered_concat_short (hlength : l.length + 1 < scanLimit) :
    delivered config queue (l ++ [batch]) = [BatchesData.row config batch] := by
  obtain ⟨hby, hresume⟩ := call_concat hothers hbatch hid
  have hall : (l ++ [batch]).length = l.length + 1 := by
    rw [List.length_append, List.length_singleton]
  rw [if_neg (by omega), ← hall] at hresume
  rw [Nat.min_eq_right (by omega), ← hall] at hby
  rw [delivered, hby, hresume, if_pos (by omega), List.take_length, List.drop_length,
    delivered_nil, matching_concat hothers hbatch]
  rfl

/-- A scan that reaches the limit with the batch delivers it, and so does the next one. -/
theorem delivered_concat_limit (hlength : l.length + 1 = scanLimit) :
    delivered config queue (l ++ [batch]) =
      [BatchesData.row config batch, BatchesData.row config batch] := by
  obtain ⟨hby, hresume⟩ := call_concat hothers hbatch hid
  have hall : (l ++ [batch]).length = scanLimit := by
    rw [List.length_append, List.length_singleton, hlength]
  have hdrop : (l ++ [batch]).drop (scanLimit - sourcePageSize) =
      l.drop (scanLimit - sourcePageSize) ++ [batch] := by
    rw [List.drop_append_of_le_length (by rw [scanLimit, sourcePageSize] at *; omega)]
  have hrest : delivered config queue (l.drop (scanLimit - sourcePageSize) ++ [batch]) =
      [BatchesData.row config batch] := by
    refine delivered_concat_short (fun b hb => hothers b (List.mem_of_mem_drop hb)) hbatch hid ?_
    rw [List.length_drop, scanLimit, sourcePageSize] at *
    omega
  rw [if_pos hlength.ge] at hresume
  have htake : (l ++ [batch]).take scanLimit = l ++ [batch] := by rw [← hall, List.take_length]
  rw [Nat.min_eq_left hlength.ge] at hby
  rw [delivered, hby, hresume, if_pos (by decide), htake, hdrop, hrest,
    matching_concat hothers hbatch]
  rfl

end Limit

/-- Batches of another queue. -/
def otherHistory : List Batch :=
  (List.range 249).map fun n => retainedQueueBatch (letterId (249 - n)) "other"

/-- A batch of the queue `reports`. -/
def reportsBatch : Batch := retainedQueueBatch (letterId 0) "reports"

/-- The history of the example is in descending order. -/
theorem descending_otherHistory : Descending (otherHistory ++ [reportsBatch]) := by
  have hlt : ∀ n < 249, letterId 0 < letterId (249 - n) := fun n hn =>
    letterId_lt (by omega) (by omega)
  rw [Descending, List.pairwise_append]
  refine ⟨?_, List.pairwise_singleton _ _, ?_⟩
  · rw [otherHistory, List.pairwise_map]
    refine (List.pairwise_lt_range (n := 249)).imp_of_mem fun {m n} hm hn hlt => ?_
    rw [List.mem_range] at hm hn
    exact letterId_lt (by omega) (by omega)
  · intro batch hbatch batch' hbatch'
    obtain ⟨n, hn, rfl⟩ := List.mem_map.mp hbatch
    rw [List.mem_singleton.mp hbatch']
    exact hlt n (List.mem_range.mp hn)

/-- The batch in the last source page of a scan that stops at the limit is listed twice. -/
theorem page_repeats : Descending (otherHistory ++ [reportsBatch]) ∧
    ∃ rows, Traversal (Shows noConfig (serving (otherHistory ++ [reportsBatch])) "reports") none
        rows ∧ rows.map (·.id) = ["A", "A"] ∧
      ((otherHistory ++ [reportsBatch]).filter (wanted noConfig "reports")).map (·.id) = ["A"] := by
  have hqueue : ∀ id queue, BatchesData.queue noConfig (retainedQueueBatch id queue) =
      if queue = "" then "default" else queue := by
    intro id queue
    by_cases hempty : queue = ""
    · rw [if_pos hempty, hempty]
      rfl
    · simp [BatchesData.queue, BatchesData.attribution, DatabaseBatchMetadata.fromOptions,
        DatabaseBatchMetadata.explicitString, retainedQueueBatch, Php.getStr, Php.get,
        Php.nonEmpty, Option.filter, hempty]
  have hothers : ∀ b ∈ otherHistory, ¬wanted noConfig "reports" b := by
    intro b hb
    obtain ⟨n, -, rfl⟩ := List.mem_map.mp hb
    rw [wanted, hqueue]
    decide
  have hbatch : wanted noConfig "reports" reportsBatch := by
    rw [wanted, reportsBatch, hqueue]
    decide
  have hid : reportsBatch.id ≠ "" := by decide +kernel
  have hlength : otherHistory.length + 1 = scanLimit := by
    rw [otherHistory, List.length_map, List.length_range]
    rfl
  have hserves : Serves (serving (otherHistory ++ [reportsBatch]))
    (otherHistory ++ [reportsBatch]) := fun _ _ => rfl
  have htraversal : Traversal (Shows noConfig (serving (otherHistory ++ [reportsBatch])) "reports")
      none (delivered noConfig "reports" (below (otherHistory ++ [reportsBatch]) none)) :=
    (traversal_iff (fun c _ => splits_page noConfig "reports" hserves descending_otherHistory c)
      trivial).mpr rfl
  have hbelow : below (otherHistory ++ [reportsBatch]) none = otherHistory ++ [reportsBatch] :=
    List.filter_eq_self.mpr fun _ _ => rfl
  rw [hbelow, delivered_concat_limit hothers hbatch hid hlength] at htraversal
  have hids : ((otherHistory ++ [reportsBatch]).filter (wanted noConfig "reports")).map (·.id) =
      (matching noConfig "reports" (otherHistory ++ [reportsBatch])).map (·.id) := by
    rw [matching, List.map_map]
    rfl
  refine ⟨descending_otherHistory, _, htraversal, by decide +kernel, ?_⟩
  rw [hids, matching_concat hothers hbatch]
  decide +kernel


end QueueBatchesData

end HorizonNewDawn

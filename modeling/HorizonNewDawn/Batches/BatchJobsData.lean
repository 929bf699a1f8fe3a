import HorizonNewDawn.Batches.BatchFailedJobLineages
import Mathlib.Data.List.ReduceOption

/-! # The retained jobs of a batch

`scanRetained` goes through the retained history of a repository in pages of fifty references and
collects the jobs of a batch. The repository leaves references out whose job has no hash any more, and
the scan takes a page that is short for this reason for the last one: it finds the jobs of the batch
exactly when they do not stand behind such a page (`displays_scanRetained_iff`). -/

namespace HorizonNewDawn

namespace BatchJobsData

open BatchFailedJobLineages

variable {F : Type} (numbers : Numbers F)

/-! ## The repository -/

/-- The references of a page. -/
def pageSize : ℕ := 50

/-- The jobs behind some references, without those that are gone, numbered on from an index. -/
def indexJobs (references : List (Option RetainedJob)) (indexFrom : ℕ) : List RetainedJob :=
  references.reduceOption.mapIdx fun i job => { job with index := .int ↑(indexFrom + i) }

/-- `getPending` and `getCompleted`: a page of the references after the cursor. -/
def getJobsByType (history : List (Option RetainedJob)) (cursor : Option ℕ) : List RetainedJob :=
  let indexFrom := (cursor.map (· + 1)).getD 0
  indexJobs ((history.drop indexFrom).take pageSize) indexFrom

/-! ## The scan -/

/-- `JobsData::batchId` -/
def batchId (job : RetainedJob) : Option String :=
  match Php.get "data" (decode job.payload) with
  | some (.array data) => (Php.get "batchId" data).bind nonEmpty
  | _ => none

/-- `JobsData::row`, with the attempts of the payload. -/
def row (job : RetainedJob) : Option (JobRowData F) :=
  BatchFailedJobLineages.row numbers job
    (((Php.get "attempts" (decode job.payload)).bind numbers.toInt).getD 0) true

/-- The loop over a page. -/
def addRows (id : String) (total : ℕ) :
    List (JobRowData F) → List RetainedJob → List (JobRowData F)
  | rows, [] => rows
  | rows, job :: page =>
      if total ≤ rows.length then rows
      else if batchId job ≠ some id then addRows id total rows page
      else
        match row numbers job with
        | none => addRows id total rows page
        | some row => addRows id total (rows ++ [row]) page

/-- `lastIndex`: the repository numbers its jobs with integers. -/
def lastIndex (page : List RetainedJob) : Option ℕ :=
  match page.getLast?.map RetainedJob.index with
  | some (.int n) => some n.toNat
  | _ => none

/-- The loop of `scanRetained`. -/
def scan (history : List (Option RetainedJob)) (id : String) (total : ℕ) :
    ℕ → List (JobRowData F) → Option ℕ → List ℕ → Option (List (JobRowData F))
  | 0, _, _, _ => none
  | fuel + 1, rows, cursor, visitedCursors =>
      if total ≤ rows.length then some rows
      else
        let page := getJobsByType history cursor
        let rows := addRows numbers id total rows page
        if total ≤ rows.length ∨ page.length < pageSize then some rows
        else
          match lastIndex page with
          | none => some rows
          | some next =>
              if some next = cursor ∨ next ∈ visitedCursors then some rows
              else scan history id total fuel rows (some next) (visitedCursors ++ [next])

/-- `scanRetained`; `none` would be a scan that goes on longer than the history does. -/
def scanRetained (history : List (Option RetainedJob)) (id : String) (total : ℕ) :
    Option (List (JobRowData F)) :=
  scan numbers history id total (history.length + 1) [] none []

/-! ## The jobs of the batch -/

/-- The row of a job of the batch. -/
def shown (id : String) (job : RetainedJob) : Option (JobRowData F) :=
  if batchId job = some id then row numbers job else none

/-- The displayable jobs of the batch among some references, in their order. -/
def displayed (references : List (Option RetainedJob)) (id : String) : List (JobRowData F) :=
  references.reduceOption.filterMap (shown numbers id)

/-- The references up to the end of the first page that has lost a job, or is the last one. -/
def inspected (history : List (Option RetainedJob)) : ℕ :=
  ((history.takeWhile Option.isSome).length / pageSize + 1) * pageSize

variable {history references : List (Option RetainedJob)} {id : String} {total : ℕ}

/-- The jobs of two lists of references, one after the other. -/
theorem displayed_append (references' : List (Option RetainedJob)) :
    displayed numbers (references ++ references') id =
      displayed numbers references id ++ displayed numbers references' id := by
  rw [displayed, List.reduceOption_append, List.filterMap_append, displayed, displayed]

/-- The index of a job does not show. -/
theorem filterMap_indexJobs (n : ℕ) :
    (indexJobs references n).filterMap (shown numbers id) = displayed numbers references id := by
  have hshown (job : RetainedJob) (index : Php) :
      shown numbers id { job with index := index } = shown numbers id job := rfl
  rw [indexJobs, displayed]
  generalize references.reduceOption = jobs
  induction jobs generalizing n with
  | nil => rfl
  | cons job jobs ih =>
      have hrest := ih (n + 1)
      simp only [List.mapIdx_cons, List.filterMap_cons, hshown]
      simp only [Nat.add_assoc, Nat.add_comm 1] at hrest ⊢
      rw [hrest]

/-- A page adds its jobs of the batch, as long as there is room for them. -/
theorem addRows_eq {rows : List (JobRowData F)} (page : List RetainedJob) (hrows : rows.length ≤ total) :
    addRows numbers id total rows page = (rows ++ page.filterMap (shown numbers id)).take total := by
  induction page generalizing rows with
  | nil => rw [addRows, List.filterMap_nil, List.append_nil, List.take_of_length_le hrows]
  | cons job page ih =>
      rw [addRows]
      by_cases hfull : total ≤ rows.length
      · rw [if_pos hfull, List.take_append_of_le_length hfull, List.take_of_length_le hrows]
      rw [if_neg hfull]
      by_cases hid : batchId job = some id
      · rw [if_neg (not_not.mpr hid)]
        cases hrow : row numbers job with
        | none =>
            have hshown : shown numbers id job = none := by rw [shown, if_pos hid, hrow]
            rw [List.filterMap_cons_none hshown]
            exact ih hrows
        | some shownRow =>
            have hshown : shown numbers id job = some shownRow := by rw [shown, if_pos hid, hrow]
            rw [List.filterMap_cons_some hshown, ← List.singleton_append, ← List.append_assoc]
            exact ih (by rw [List.length_append, List.length_singleton]; omega)
      · have hshown : shown numbers id job = none := by rw [shown, if_neg hid]
        rw [if_pos hid, List.filterMap_cons_none hshown]
        exact ih hrows

/-- A page is full when none of its references has lost its job. -/
theorem length_indexJobs_eq_iff {n : ℕ} : (indexJobs references n).length = references.length ↔
    ∀ reference ∈ references, reference.isSome := by
  rw [indexJobs, List.length_mapIdx, List.reduceOption_length_eq_iff]

/-- No more jobs are indexed than there are references. -/
theorem length_indexJobs_le {n : ℕ} : (indexJobs references n).length ≤ references.length := by
  rw [indexJobs, List.length_mapIdx]
  exact List.reduceOption_length_le _

/-- The last job of a full page has the index of the last reference. -/
theorem lastIndex_indexJobs {n : ℕ} (h : (indexJobs references n).length = pageSize) :
    lastIndex (indexJobs references n) = some (n + pageSize - 1) := by
  rw [indexJobs, List.length_mapIdx] at h
  have hlast : (indexJobs references n).getLast?.map RetainedJob.index =
      some (.int ((n + (pageSize - 1) : ℕ) : ℤ)) := by
    rw [indexJobs, List.getLast?_eq_getElem?, List.length_mapIdx, h, List.getElem?_mapIdx,
      List.getElem?_eq_getElem (by rw [h]; decide)]
    rfl
  rw [lastIndex, hlast]
  rfl

/-- A prefix reaches as far as its condition holds. -/
theorem le_length_takeWhile {α : Type} {p : α → Bool} {l : List α} {n : ℕ} :
    n ≤ (l.takeWhile p).length ↔ n ≤ l.length ∧ ∀ a ∈ l.take n, p a := by
  induction l generalizing n with
  | nil => simp
  | cons a l ih =>
      cases n with
      | zero => simp
      | succ n =>
          rw [List.take_succ_cons, List.forall_mem_cons]
          by_cases ha : p a
          · rw [List.takeWhile_cons_of_pos ha, List.length_cons, List.length_cons,
              Nat.succ_le_succ_iff, Nat.succ_le_succ_iff, ih]
            simp [ha]
          · rw [List.takeWhile_cons_of_neg ha]
            simp [ha]

/-- What has been read so far: `pages` full pages, and the jobs of the batch on these. -/
structure Reading (history : List (Option RetainedJob)) (id : String) (total pages : ℕ)
    (rows : List (JobRowData F)) (cursor : Option ℕ) (visitedCursors : List ℕ) : Prop where
  full : pages * pageSize ≤ (history.takeWhile Option.isSome).length
  rows : rows = (displayed numbers (history.take (pages * pageSize)) id).take total
  cursor : (cursor.map (· + 1)).getD 0 = pages * pageSize
  visited : ∀ n ∈ visitedCursors, n < pages * pageSize

/-- Looking further does not change a page that is full. -/
theorem displayed_take_mono {m n : ℕ} (hmn : m ≤ n)
    (htotal : total ≤ ((displayed numbers (history.take m) id).take total).length) :
    (displayed numbers (history.take m) id).take total =
      (displayed numbers (history.take n) id).take total := by
  have hsplit : history.take n = history.take m ++ (history.drop m).take (n - m) := by
    rw [← List.take_add, Nat.add_sub_cancel' hmn]
  rw [List.length_take] at htotal
  rw [hsplit, displayed_append, List.take_append_of_le_length (by omega)]

/-- **The scan** returns the jobs of the batch up to the end of the first page that is not full. -/
theorem scan_eq {fuel pages : ℕ} {rows : List (JobRowData F)} {cursor : Option ℕ}
    {visitedCursors : List ℕ} (h : Reading numbers history id total pages rows cursor visitedCursors)
    (hfuel : history.length + 1 ≤ fuel + pages * pageSize) (hpages : pages * pageSize ≤ history.length) :
    scan numbers history id total fuel rows cursor visitedCursors =
      some ((displayed numbers (history.take (inspected history)) id).take total) := by
  induction fuel generalizing pages rows cursor visitedCursors with
  | zero => omega
  | succ fuel ih =>
      have hinspected : pages * pageSize ≤ inspected history := by
        have hle : pages ≤ (history.takeWhile Option.isSome).length / pageSize :=
          (Nat.le_div_iff_mul_le (by decide)).mpr h.full
        exact Nat.mul_le_mul_right _ (hle.trans (Nat.le_succ _))
      rw [scan]
      by_cases htotal : total ≤ rows.length
      · rw [if_pos htotal, h.rows]
        rw [h.rows] at htotal
        rw [displayed_take_mono numbers hinspected htotal]
      rw [if_neg htotal]
      -- The page behind the cursor, and the rows with it.
      set references := (history.drop (pages * pageSize)).take pageSize with hreferences
      have hpage : getJobsByType history cursor = indexJobs references (pages * pageSize) := by
        rw [getJobsByType, h.cursor]
      have hsplit : history.take ((pages + 1) * pageSize) =
          history.take (pages * pageSize) ++ references := by
        rw [hreferences, Nat.succ_mul, List.take_add]
      have hrows : addRows numbers id total rows (getJobsByType history cursor) =
          (displayed numbers (history.take ((pages + 1) * pageSize)) id).take total := by
        have hwhole : rows = displayed numbers (history.take (pages * pageSize)) id := by
          have hlength := congrArg List.length h.rows
          rw [List.length_take] at hlength
          rw [h.rows, List.take_of_length_le (by omega)]
        rw [addRows_eq numbers _ (by omega), hpage, filterMap_indexJobs, hsplit, displayed_append,
          hwhole]
      have hlength : references.length ≤ pageSize := List.length_take_le _ _
      have hsucc : (pages + 1) * pageSize = pages * pageSize + pageSize := Nat.succ_mul _ _
      have hpos : 0 < pageSize := by decide
      dsimp only
      rw [hrows, hpage]
      by_cases hnext : (pages + 1) * pageSize ≤ (history.takeWhile Option.isSome).length
      · obtain ⟨hbound, hsome⟩ := le_length_takeWhile.mp hnext
        have hread : (pages + 1) * pageSize ≤ inspected history := by
          have hle : pages + 1 ≤ (history.takeWhile Option.isSome).length / pageSize :=
            (Nat.le_div_iff_mul_le (by decide)).mpr hnext
          exact Nat.mul_le_mul_right _ (hle.trans (Nat.le_succ _))
        have hfull : (indexJobs references (pages * pageSize)).length = pageSize := by
          rw [length_indexJobs_eq_iff.mpr, hreferences, List.length_take, List.length_drop]
          · rw [Nat.succ_mul] at hbound
            omega
          · intro reference hmem
            apply hsome
            rw [hsplit]
            exact List.mem_append_right _ hmem
        split_ifs with hdone
        · rcases hdone with hdone | hdone
          · rw [displayed_take_mono numbers hread hdone]
          · omega
        rw [lastIndex_indexJobs hfull]
        dsimp only
        rw [if_neg]
        · refine ih ⟨hnext, rfl, ?_, fun n hn => ?_⟩ (by omega) hbound
          · rw [Option.map_some, Option.getD_some]
            omega
          · rcases List.mem_append.mp hn with hn | hn
            · have hlt := h.visited n hn
              omega
            · rw [List.mem_singleton.mp hn]
              omega
        · -- The cursor goes on by a page each time.
          rintro (hcursor | hvisited)
          · have hcur := h.cursor
            rw [← hcursor, Option.map_some, Option.getD_some] at hcur
            omega
          · have hlt := h.visited _ hvisited
            omega
      · have hlast : inspected history = (pages + 1) * pageSize := by
          have hlt : (history.takeWhile Option.isSome).length / pageSize < pages + 1 :=
            (Nat.div_lt_iff_lt_mul (by decide)).mpr (by omega)
          have hge : pages ≤ (history.takeWhile Option.isSome).length / pageSize :=
            (Nat.le_div_iff_mul_le (by decide)).mpr h.full
          rw [inspected, Nat.le_antisymm (Nat.le_of_lt_succ hlt) hge]
        have hshort : (indexJobs references (pages * pageSize)).length < pageSize := by
          refine Nat.lt_of_le_of_ne (length_indexJobs_le.trans hlength) fun hfull => ?_
          have hwhole : references.length = pageSize :=
            Nat.le_antisymm hlength (hfull ▸ length_indexJobs_le)
          have hsome := length_indexJobs_eq_iff.mp (hfull.trans hwhole.symm)
          refine hnext (le_length_takeWhile.mpr ⟨?_, ?_⟩)
          · rw [hreferences, List.length_take, List.length_drop] at hwhole
            omega
          · rw [hsplit]
            intro reference hmem
            rcases List.mem_append.mp hmem with hmem | hmem
            · exact (le_length_takeWhile.mp h.full).2 reference hmem
            · exact hsome reference hmem
        rw [if_pos (Or.inr hshort), hlast]

/-- The jobs of the batch that are read: those up to the end of the first page that is not full. -/
theorem scanRetained_eq : scanRetained numbers history id total =
    some ((displayed numbers (history.take (inspected history)) id).take total) := by
  have hstart : Reading numbers history id total 0 [] none [] :=
    ⟨by simp, by simp [displayed], rfl, by simp⟩
  exact scan_eq numbers hstart (by omega) (by omega)

/-- **The retained jobs of a batch.** The scan ends, and it returns the first `total` jobs of the batch
exactly when there are that many of them up to the end of the first page that has lost a job, or none
behind it. -/
theorem displays_scanRetained_iff (history : List (Option RetainedJob)) (id : String) (total : ℕ) :
    scanRetained numbers history id total = some ((displayed numbers history id).take total) ↔
      total ≤ (displayed numbers (history.take (inspected history)) id).length ∨
        displayed numbers (history.drop (inspected history)) id = [] := by
  have hsplit : displayed numbers history id =
      displayed numbers (history.take (inspected history)) id ++
        displayed numbers (history.drop (inspected history)) id := by
    rw [← displayed_append, List.take_append_drop]
  rw [scanRetained_eq, Option.some.injEq, hsplit, List.take_append, eq_comm, List.append_right_eq_self,
    List.take_eq_nil_iff, Nat.sub_eq_zero_iff_le]

/-- The payload of a job of a batch. -/
def batchPayload : Json := .obj [("data", .obj [("batchId", .str "5d0e")])]

/-- A completed job of the batch. -/
def completedJob : RetainedJob where
  id := .str "3f2a"
  name := .str "SendInvoice"
  status := .str "completed"
  payload := .str (String.ofList batchPayload.spell)
  failedAt := .null
  index := .null
  retriedBy := .null

/-- The payload of the example. -/
theorem decode_completedJob :
    decode completedJob.payload = [("data", .array [("batchId", .str "5d0e")])] := by
  have hspellable : Json.Spellable 512 batchPayload := by
    refine .obj fun m hm => ?_
    rw [List.mem_singleton.mp hm]
    refine .obj fun m hm => ?_
    rw [List.mem_singleton.mp hm]
    exact .str _
  have hne : String.ofList batchPayload.spell ≠ "" := by
    rw [Ne, String.ofList_eq_empty_iff]
    simp [batchPayload, Json.spell]
  rw [completedJob, decode, if_neg hne, FailedJobRetryEligibility.decode, String.toList_ofList,
    Json.read_spell hspellable]
  rfl

/-- A history that has lost the jobs of its first page. -/
def lostPage : List (Option RetainedJob) := List.replicate pageSize none ++ [some completedJob]

/-- The job behind the lost page is not found. -/
theorem scanRetained_lostPage :
    scanRetained integers lostPage "5d0e" 1 ≠ some ((displayed integers lostPage "5d0e").take 1) := by
  have hshown : shown integers "5d0e" completedJob =
      some ⟨"3f2a", "SendInvoice", 0, none, true⟩ := by
    rw [shown, batchId, row, decode_completedJob]
    rfl
  have hread : scanRetained integers lostPage "5d0e" 1 = some [] := by
    rw [scanRetained_eq]
    rfl
  have hdisplayed : displayed integers lostPage "5d0e" = [⟨"3f2a", "SendInvoice", 0, none, true⟩] := by
    show [completedJob].filterMap (shown integers "5d0e") = _
    rw [List.filterMap_cons_some hshown, List.filterMap_nil]
  rw [hread, hdisplayed]
  simp

end BatchJobsData

end HorizonNewDawn

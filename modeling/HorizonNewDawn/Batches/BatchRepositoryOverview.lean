import HorizonNewDawn.Batches.DatabaseBatchQuery
import HorizonNewDawn.Batches.RetainedBatchScanner
import HorizonNewDawn.Collections.Leading
import Mathlib.Data.Prod.Lex

/-! # The overview of the retained batches

How many batches are retained, how many of them are active, and the three active batches that are
farthest: over the whole batch repository, over the batches of a queue and over the batch table. The
first two keep the best three of the batches as these come in; the third sorts the table. All three
say the same (`overviews_agree`). -/

namespace HorizonNewDawn

open Leading

/-- `DashboardBatchPreviewData` -/
structure DashboardBatchPreviewData where
  id : String
  name : String
  progress : ℤ
  deriving DecidableEq

/-- What an overview says. -/
structure BatchOverview where
  total : ℕ
  active : ℕ
  complete : Bool
  message : Option String
  previews : List DashboardBatchPreviewData
  deriving DecidableEq

/-- `QueueRetainedBatchesData` -/
structure QueueRetainedBatchesData where
  total : ℕ
  active : ℕ
  previews : List DashboardBatchPreviewData
  complete : Bool
  message : Option String
  deriving DecidableEq

/-- The numbers and the previews of the batches so far. -/
structure Tally where
  total : ℕ
  active : ℕ
  previews : List DashboardBatchPreviewData
  deriving DecidableEq

/-- `usort` -/
def Php.usort {α : Type} (callback : α → α → Ordering) (l : List α) : List α :=
  l.mergeSort fun a b => (callback a b).isLE

/-- The callback that both `considerPreview` functions sort with. -/
def comparePreviews (left right : DashboardBatchPreviewData) : Ordering :=
  let progress := compare right.progress left.progress
  if progress ≠ .eq then progress else Php.spaceship right.id left.id

/-- The common body of the two `considerPreview` functions. -/
def insertPreview (previews : List DashboardBatchPreviewData)
    (preview : DashboardBatchPreviewData) : List DashboardBatchPreviewData :=
  let previews := Php.usort comparePreviews (previews ++ [preview])
  if 3 < previews.length then previews.dropLast else previews

namespace DatabaseBatchQuery

variable (dialect : Dialect)

/-- The condition on the rows that `overview` counts as active and shows previews of. -/
def overviewActive (row : BatchRow) : Bool :=
  row.cancelledAt.isNone && decide (row.failedJobs < row.pendingJobs)

/-- `ORDER BY progress DESC, id DESC` -/
def overviewLe (a b : BatchRow) : Bool :=
  lexLe dialect (.number b.progress, b.id) (.number a.progress, a.id)

/-- The preview of a row. -/
def overviewPreview (previewRow : BatchRow) : DashboardBatchPreviewData :=
  let data := row (DatabaseBatchQueryRow.ofRow dialect previewRow)
  { id := data.id, name := data.displayName, progress := data.progress }

/-- `overview` -/
def overview (capability : DatabaseBatchCapability) (tables : BatchTables) :
    Except String BatchOverview := do
  ensureSupported capability
  let rows := rowsQuery dialect tables false
  let previewRows := ((rows.filter overviewActive).mergeSort (overviewLe dialect)).take 3
  return {
    total := rows.length
    active := rows.countP overviewActive
    complete := true
    message := none
    previews := previewRows.map (overviewPreview dialect) }

end DatabaseBatchQuery

namespace BatchRepositoryOverview

/-- `PAGE_SIZE` -/
def pageSize : ℤ := 100

/-- `isActive` -/
def isActive (batch : Batch) : Bool :=
  !batch.cancelled && decide (0 < max 0 (batch.pendingJobs - batch.failedJobs))

/-- The preview of a batch. -/
def preview (batch : Batch) : DashboardBatchPreviewData :=
  let name := Php.trim batch.name
  { id := batch.id
    name := if name = "" then batch.id else name
    progress := batch.progress }

/-- `considerPreview` -/
def considerPreview (previews : List DashboardBatchPreviewData) (batch : Batch) :
    List DashboardBatchPreviewData :=
  insertPreview previews (preview batch)

/-- The loop of `build` over the batches of a page. -/
def countBatch (tally : Tally) (batch : Batch) : Tally :=
  let tally := { tally with total := tally.total + 1 }
  if !isActive batch then tally
  else { tally with
    active := tally.active + 1
    previews := considerPreview tally.previews batch }

/-- The loop of `build` over the pages. -/
def countPages (pages : List (List Batch)) : Tally :=
  pages.foldl (fun tally page => page.foldl countBatch tally) ⟨0, 0, []⟩

/-- `build`, with the batch table where its queries are in use; `none` where the repository has not
been read to its end when the fuel is used up. -/
def build (dialect : Dialect) (databaseQuery : Option (DatabaseBatchCapability × BatchTables))
    (repository : AnyBatchRepository) (fuel : ℕ) : Option (Except String BatchOverview) :=
  let reading := RetainedBatchScanner.pages repository pageSize fuel
  let fromRepository := reading.ending.map fun ending => match ending with
    | .thrown message => .error message
    | .returned =>
        let tally := countPages reading.pages
        .ok {
          total := tally.total
          active := tally.active
          complete := true
          message := none
          previews := tally.previews }
  match databaseQuery with
  | some (capability, tables) =>
      if capability.supported then some (DatabaseBatchQuery.overview dialect capability tables)
      else fromRepository
  | none => fromRepository

end BatchRepositoryOverview

namespace QueueBatchesData

variable (config : QueueConfig) (repository : BatchRepository) (queue : String)

/-- `active` -/
def active (batch : Batch) : Bool :=
  !batch.cancelled && decide (0 < max 0 (batch.pendingJobs - batch.failedJobs))

/-- `considerPreview` -/
def considerPreview (previews : List DashboardBatchPreviewData) (batch : Batch) :
    List DashboardBatchPreviewData :=
  let row := BatchesData.row config batch
  insertPreview previews { id := row.id, name := row.displayName, progress := row.progress }

/-- The variables of the loop of `buildSummary`. -/
structure Summary where
  inspected : ℕ
  tally : Tally
  complete : Bool

/-- What the loop of `buildSummary` does with a batch it inspects. -/
def countBatch (tally : Tally) (batch : Batch) : Tally :=
  if BatchesData.queue config batch ≠ queue then tally
  else
    let tally := { tally with total := tally.total + 1 }
    if !active batch then tally
    else { tally with
      active := tally.active + 1
      previews := considerPreview config tally.previews batch }

/-- The loop of `buildSummary` over the batches of a source page. -/
def summarizeSource : List Batch → Summary → Summary
  | [], summary => summary
  | batch :: source, summary =>
      if scanLimit ≤ summary.inspected then summary
      else summarizeSource source { summary with
        inspected := summary.inspected + 1
        tally := countBatch config queue summary.tally batch }

/-- Summarizing batches never lowers the number of inspected ones. -/
theorem le_inspected_summarizeSource (source : List Batch) (summary : Summary) :
    summary.inspected ≤ (summarizeSource config queue source summary).inspected := by
  induction source generalizing summary with
  | nil => exact le_rfl
  | cons batch source ih =>
      rw [summarizeSource]
      split
      · exact le_rfl
      · exact Nat.le_of_succ_le (ih { summary with
          inspected := summary.inspected + 1
          tally := countBatch config queue summary.tally batch })

/-- The loop of `buildSummary` over the source pages. -/
def summarize (cursor : Option String) (summary : Summary) : Summary :=
  if _ : summary.inspected < scanLimit then
    match repository.get sourcePageSize cursor with
    | [] => { summary with complete := true }
    | batch :: source =>
        match advanceCursor (batch :: source) cursor with
        | none => summary
        | some nextCursor =>
            summarize (some nextCursor) (summarizeSource config queue (batch :: source) summary)
  else summary
termination_by scanLimit - summary.inspected
decreasing_by
  have hlt : summary.inspected <
      (summarizeSource config queue (batch :: source) summary).inspected := by
    rw [summarizeSource, if_neg (by omega)]
    exact le_inspected_summarizeSource config queue source { summary with
      inspected := summary.inspected + 1
      tally := countBatch config queue summary.tally batch }
  omega

/-- `buildSummary`, without database support -/
def buildSummary : QueueRetainedBatchesData :=
  let summary := summarize config repository queue none ⟨0, ⟨0, 0, []⟩, false⟩
  { total := summary.tally.total
    active := summary.tally.active
    previews := summary.tally.previews
    complete := summary.complete
    message := none }

end QueueBatchesData

/-! ## The best three -/

/-- The order of the previews: the farthest batch first, and of batches that are equally far the one
with the greatest id. -/
def bestFirst (a b : DashboardBatchPreviewData) : Bool :=
  toLex (b.progress, b.id) ≤ toLex (a.progress, a.id)

/-- The order of the previews is transitive. -/
theorem bestFirst_trans (a b c : DashboardBatchPreviewData) (hab : bestFirst a b)
    (hbc : bestFirst b c) : bestFirst a c := by
  simp only [bestFirst, decide_eq_true_eq] at *
  exact le_trans hbc hab

/-- Any two previews are ordered. -/
theorem bestFirst_total (a b : DashboardBatchPreviewData) : bestFirst a b || bestFirst b a := by
  simp only [bestFirst, Bool.or_eq_true, decide_eq_true_eq]
  exact le_total _ _

/-- Ids that are no numbers are compared by their bytes. -/
theorem isLE_comparePreviews {a b : DashboardBatchPreviewData} (hb : Php.numeric b.id = none) :
    (comparePreviews a b).isLE = bestFirst a b := by
  rw [comparePreviews, Php.spaceship_eq_strcmp hb, bestFirst, Bool.eq_iff_iff, decide_eq_true_eq,
    Prod.Lex.toLex_le_toLex]
  rcases lt_trichotomy b.progress a.progress with hlt | heq | hgt
  · simp [compare_lt_iff_lt.mpr hlt, hlt]
  · simp [heq, strcmp, Ordering.isLE_iff_ne_gt, compare_le_iff_le]
  · simp [compare_gt_iff_gt.mpr hgt, hgt.not_gt, hgt.ne']

/-- A preview is inserted by keeping the best three. -/
theorem insertPreview_eq_keep {previews : List DashboardBatchPreviewData}
    {preview : DashboardBatchPreviewData} (hlength : previews.length ≤ 3)
    (hids : ∀ p ∈ previews ++ [preview], Php.numeric p.id = none) :
    insertPreview previews preview = keep bestFirst 3 previews preview := by
  have hcongr : leading (fun a b => (comparePreviews a b).isLE) 3 (previews ++ [preview]) =
      leading bestFirst 3 (previews ++ [preview]) :=
    leading_congr fun a _ b hb => isLE_comparePreviews (hids b hb)
  rw [keep, ← hcongr, leading, insertPreview, Php.usort]
  have hsorted : ((previews ++ [preview]).mergeSort fun a b =>
      (comparePreviews a b).isLE).length ≤ 4 := by
    rw [List.length_mergeSort, List.length_append, List.length_singleton]
    omega
  generalize (previews ++ [preview]).mergeSort (fun a b => (comparePreviews a b).isLE) = sorted
    at hsorted
  split
  · rw [List.dropLast_eq_take]
    congr 1
    omega
  · exact (List.take_of_length_le (by omega)).symm

/-- Batches with different ids that are no numbers. -/
structure Listed (l : List Batch) : Prop where
  nodup : (l.map (·.id)).Nodup
  nonNumeric : ∀ batch ∈ l, Php.numeric batch.id = none

variable {l l' : List Batch}

/-- A selection of listed batches is listed. -/
theorem Listed.sublist (h : Listed l) (hsub : l'.Sublist l) : Listed l' where
  nodup := h.nodup.sublist (hsub.map _)
  nonNumeric batch hbatch := h.nonNumeric batch (hsub.subset hbatch)

/-- The order of listed batches does not matter. -/
theorem Listed.perm (h : Listed l) (hperm : l.Perm l') : Listed l' where
  nodup := (hperm.map _).nodup_iff.mp h.nodup
  nonNumeric batch hbatch := h.nonNumeric batch (hperm.mem_iff.mpr hbatch)

/-- The previews of batches with different ids stand at different places. -/
theorem Listed.distinguishes (h : Listed l) :
    Distinguishes bestFirst (l.map BatchRepositoryOverview.preview) := by
  intro a ha b hb hab hba
  obtain ⟨batch, hbatch, rfl⟩ := List.mem_map.mp ha
  obtain ⟨batch', hbatch', rfl⟩ := List.mem_map.mp hb
  simp only [bestFirst, decide_eq_true_eq] at hab hba
  have hplace := congrArg (fun x => (ofLex x).2) (le_antisymm hab hba)
  have hid : batch'.id = batch.id := hplace
  rw [List.inj_on_of_nodup_map h.nodup hbatch' hbatch hid]

/-! ## The numbers and the previews of a collection -/

namespace BatchRepositoryOverview

/-- What is to be said of a collection of batches: how many there are, how many of them are active,
and the first three of the active ones. -/
def tallyOf (l : List Batch) : Tally where
  total := l.length
  active := l.countP isActive
  previews := leading bestFirst 3 ((l.filter isActive).map preview)

/-- The order of the batches does not matter. -/
theorem tallyOf_perm (hl : Listed l) (hperm : l.Perm l') : tallyOf l = tallyOf l' := by
  have hactive := hperm.filter isActive
  rw [tallyOf, tallyOf, hperm.length_eq, hperm.countP_eq,
    leading_perm bestFirst_trans bestFirst_total (hl.sublist List.filter_sublist).distinguishes
      (hactive.map preview)]

/-- One more batch. -/
theorem countBatch_tallyOf {batch : Batch} (hl : Listed (l ++ [batch])) :
    countBatch (tallyOf l) batch = tallyOf (l ++ [batch]) := by
  rw [countBatch]
  cases hactive : isActive batch with
  | false => simp [tallyOf, hactive]
  | true =>
      have hfilter : (l ++ [batch]).filter isActive = l.filter isActive ++ [batch] := by
        rw [List.filter_append, List.filter_cons_of_pos hactive, List.filter_nil]
      have hsub : (l.filter isActive ++ [batch]).Sublist (l ++ [batch]) := by
        rw [← hfilter]
        exact List.filter_sublist
      have hlisted := hl.sublist hsub
      have hids : ∀ p ∈ leading bestFirst 3 ((l.filter isActive).map preview) ++ [preview batch],
          Php.numeric p.id = none := by
        intro p hp
        have hmem : p ∈ (l.filter isActive ++ [batch]).map preview := by
          rw [List.map_append, List.mem_append]
          exact (List.mem_append.mp hp).imp_left fun h => leading_subset h
        obtain ⟨batch', hbatch', rfl⟩ := List.mem_map.mp hmem
        exact hlisted.nonNumeric batch' hbatch'
      have hdistinguishes := hlisted.distinguishes
      rw [List.map_append] at hdistinguishes
      have hpreviews : considerPreview (leading bestFirst 3 ((l.filter isActive).map preview))
          batch = leading bestFirst 3 ((l.filter isActive).map preview ++ [preview batch]) := by
        rw [considerPreview, insertPreview_eq_keep length_leading_le hids]
        exact keep_leading bestFirst_trans bestFirst_total hdistinguishes
      simp [tallyOf, hactive, hpreviews]

/-- Counting batch by batch comes to what is to be said of them all. -/
theorem foldl_countBatch (hl : Listed l) : l.foldl countBatch ⟨0, 0, []⟩ = tallyOf l := by
  -- Induction from the end of the list, where the next batch comes in.
  induction l using List.reverseRecOn with
  | nil => simp [tallyOf, leading]
  | append_singleton l batch ih =>
      rw [List.foldl_append, ih (hl.sublist (List.sublist_append_left _ _)), List.foldl_cons,
        List.foldl_nil]
      exact countBatch_tallyOf hl

/-- The count of the pages is that of the batches. -/
theorem countPages_eq (pages : List (List Batch)) (hl : Listed pages.flatten) :
    countPages pages = tallyOf pages.flatten := by
  rw [countPages, ← foldl_countBatch hl, List.foldl_flatten]

/-- The overview of a collection of batches. -/
def overviewOf (l : List Batch) : BatchOverview where
  total := (tallyOf l).total
  active := (tallyOf l).active
  complete := true
  message := none
  previews := (tallyOf l).previews

end BatchRepositoryOverview

/-! ## The batches of a queue -/

namespace QueueBatchesData

variable {config : QueueConfig} {repository : BatchRepository} {queue : String}
  {cursor : Option String}

/-- The source pages that come in from a cursor on, up to the empty one. -/
inductive Arrives (repository : BatchRepository) : Option String → List (List Batch) → Prop
  | last {cursor : Option String} (h : repository.get sourcePageSize cursor = []) :
      Arrives repository cursor []
  | more {cursor : Option String} {nextCursor : String} {batch : Batch} {source : List Batch}
      {pages : List (List Batch)} (h : repository.get sourcePageSize cursor = batch :: source)
      (hadvance : advanceCursor (batch :: source) cursor = some nextCursor)
      (hrest : Arrives repository (some nextCursor) pages) :
      Arrives repository cursor ((batch :: source) :: pages)

/-- A source page within the scan limit is counted as a whole. -/
theorem summarizeSource_eq {source : List Batch} {summary : Summary}
    (hlimit : summary.inspected + source.length ≤ scanLimit) :
    summarizeSource config queue source summary = { summary with
      inspected := summary.inspected + source.length
      tally := source.foldl (countBatch config queue) summary.tally } := by
  induction source generalizing summary with
  | nil => rfl
  | cons batch source ih =>
      rw [List.length_cons] at hlimit
      rw [summarizeSource, if_neg (by omega), ih (by dsimp only; omega), List.length_cons,
        List.foldl_cons]
      dsimp only
      congr 1
      omega

/-- What comes in within the scan limit is counted as a whole. -/
theorem summarize_eq {pages : List (List Batch)} {summary : Summary}
    (harrives : Arrives repository cursor pages)
    (hlimit : summary.inspected + pages.flatten.length < scanLimit) :
    summarize config repository queue cursor summary =
      { inspected := summary.inspected + pages.flatten.length
        tally := pages.flatten.foldl (countBatch config queue) summary.tally
        complete := true } := by
  induction harrives generalizing summary with
  | last h =>
      rw [summarize, dif_pos (by omega), h]
      rfl
  | more h hadvance hrest ih =>
      rw [List.flatten_cons, List.length_append] at hlimit
      rw [summarize, dif_pos (by omega), h]
      dsimp only
      rw [hadvance, summarizeSource_eq (by omega)]
      dsimp only
      rw [ih (by dsimp only; omega), List.flatten_cons, List.foldl_append, List.length_append]
      dsimp only
      rw [Nat.add_assoc]

/-- Counting the batches of a queue is counting the batches that are listed under it. -/
theorem foldl_countBatch (l : List Batch) (tally : Tally) :
    l.foldl (countBatch config queue) tally =
      (l.filter (wanted config queue)).foldl BatchRepositoryOverview.countBatch tally := by
  rw [List.foldl_filter]
  congr 1
  funext tally batch
  by_cases hwanted : BatchesData.queue config batch = queue
  · rw [countBatch, if_neg (not_not.mpr hwanted), wanted, decide_eq_true hwanted]
    rfl
  · rw [countBatch, if_pos hwanted, wanted, decide_eq_false hwanted]
    rfl

end QueueBatchesData

/-! ## The batch table -/

/-- What the framework makes of a row of the batch table. -/
structure Reads (source : BatchSource) (batch : Batch) : Prop where
  id : batch.id = source.id
  name : batch.name = source.name
  totalJobs : batch.totalJobs = source.totalJobs
  pendingJobs : batch.pendingJobs = source.pendingJobs
  failedJobs : batch.failedJobs = source.failedJobs
  cancelledAt : batch.cancelledAt = source.cancelledAt
  finishedAt : batch.finishedAt = source.finishedAt
  processedJobs : batch.processedJobs = batch.totalJobs - batch.pendingJobs
  cancelled : batch.cancelled = batch.cancelledAt.isSome

/-- A database that orders numbers by their values and ids by their bytes. -/
structure Bytewise (dialect : Dialect) : Prop where
  number : ∀ q q', dialect.le (.number q) (.number q') = decide (q ≤ q')
  id : ∀ s s', dialect.idLe s s' = decide (s ≤ s')

/-- A row and its batch have the same progress, a number that the database returns as it is. -/
structure SameProgress (dialect : Dialect) (source : BatchSource) (batch : Batch) : Prop where
  progress : (DatabaseBatchQuery.selectRow dialect false none source).progress = batch.progress
  toInt : dialect.toInt batch.progress = batch.progress

namespace DatabaseBatchQuery

variable {dialect : Dialect} {source : BatchSource} {batch : Batch}

/-- The database and the framework agree on which batches are active. -/
theorem overviewActive_selectRow (hreads : Reads source batch) {withAttribution : Bool}
    {metadata : Option DatabaseBatchMetadata} :
    overviewActive (selectRow dialect withAttribution metadata source) =
      BatchRepositoryOverview.isActive batch := by
  have hcancelled := hreads.cancelled
  rw [hreads.cancelledAt] at hcancelled
  rw [BatchRepositoryOverview.isActive, hreads.pendingJobs, hreads.failedJobs, hcancelled,
    Option.not_isSome]
  show (source.cancelledAt.isNone && decide (source.failedJobs < source.pendingJobs)) = _
  congr 1
  rw [decide_eq_decide]
  omega

/-- A preview of a row of the query is that of the batch. -/
theorem overviewPreview_selectRow (hreads : Reads source batch)
    (hprogress : SameProgress dialect source batch) {metadata : Option DatabaseBatchMetadata} :
    overviewPreview dialect (selectRow dialect false metadata source) =
      BatchRepositoryOverview.preview batch := by
  have htoInt := hprogress.toInt
  rw [← hprogress.progress] at htoInt
  rw [BatchRepositoryOverview.preview, hreads.id, hreads.name]
  show DashboardBatchPreviewData.mk _ _ _ = _
  congr 1

/-- The database sorts the previews as `bestFirst` does. -/
theorem overviewLe_eq_bestFirst (hbytewise : Bytewise dialect) {source' : BatchSource}
    {batch' : Batch} (hreads : Reads source batch) (hreads' : Reads source' batch')
    (hprogress : SameProgress dialect source batch)
    (hprogress' : SameProgress dialect source' batch')
    {metadata metadata' : Option DatabaseBatchMetadata} :
    overviewLe dialect (selectRow dialect false metadata source)
        (selectRow dialect false metadata' source') =
      bestFirst (BatchRepositoryOverview.preview batch)
        (BatchRepositoryOverview.preview batch') := by
  have hvalue : (selectRow dialect false metadata source).progress = batch.progress :=
    hprogress.progress
  have hvalue' : (selectRow dialect false metadata' source').progress = batch'.progress :=
    hprogress'.progress
  rw [overviewLe, lexLe, hvalue, hvalue', hbytewise.number, hbytewise.number, hbytewise.id,
    bestFirst, Bool.eq_iff_iff, decide_eq_true_eq, Prod.Lex.toLex_le_toLex]
  simp only [BatchRepositoryOverview.preview, hreads.id, hreads'.id]
  show _ ↔ batch'.progress < batch.progress ∨
    batch'.progress = batch.progress ∧ source'.id ≤ source.id
  rw [Bool.and_eq_true, Bool.or_eq_true, Bool.not_eq_true', decide_eq_true_eq,
    decide_eq_false_iff_not, decide_eq_true_eq, Rat.intCast_le_intCast, Rat.intCast_le_intCast]
  constructor
  · rintro ⟨hle, hlt | hid⟩
    · exact Or.inl (not_le.mp hlt)
    · rcases hle.lt_or_eq with hlt | heq
      · exact Or.inl hlt
      · exact Or.inr ⟨heq, hid⟩
  · rintro (hlt | ⟨heq, hid⟩)
    · exact ⟨hlt.le, Or.inl (not_le.mpr hlt)⟩
    · exact ⟨heq.le, Or.inr hid⟩

/-- The database says of its batches what is to be said of them. -/
theorem overview_eq (hbytewise : Bytewise dialect) {capability : DatabaseBatchCapability}
    (hsupported : capability.supported) {tables : BatchTables} {batches : List Batch}
    (hreads : List.Forall₂ (fun source batch => Reads source batch ∧
      SameProgress dialect source batch) tables.source batches) :
    overview dialect capability tables = .ok (BatchRepositoryOverview.overviewOf batches) := by
  obtain ⟨hlength, hpairs⟩ := List.forall₂_iff_zip.mp hreads
  -- The rows and the batches are two views of the list of their pairs.
  have hsource : (tables.source.zip batches).map Prod.fst = tables.source :=
    List.map_fst_zip hlength.le
  have hbatches : (tables.source.zip batches).map Prod.snd = batches :=
    List.map_snd_zip hlength.ge
  generalize hp : tables.source.zip batches = pairs at hpairs hsource hbatches
  have hrow : ∀ p ∈ pairs, Reads p.1 p.2 ∧ SameProgress dialect p.1 p.2 :=
    fun p hmem => hpairs hmem
  let ofPair (p : BatchSource × Batch) := selectRow dialect false (tables.metadata p.1.id) p.1
  have hrows : rowsQuery dialect tables false = pairs.map ofPair := by
    rw [rowsQuery, ← hsource, List.map_map]
    rfl
  have hactive : ∀ p ∈ pairs,
      overviewActive (ofPair p) = BatchRepositoryOverview.isActive p.2 :=
    fun p hmem => overviewActive_selectRow (hrow p hmem).1
  have hpreview : ∀ p ∈ pairs,
      overviewPreview dialect (ofPair p) = BatchRepositoryOverview.preview p.2 :=
    fun p hmem => overviewPreview_selectRow (hrow p hmem).1 (hrow p hmem).2
  have hle : ∀ a ∈ (pairs.map ofPair).filter overviewActive,
      ∀ b ∈ (pairs.map ofPair).filter overviewActive, overviewLe dialect a b =
        bestFirst (overviewPreview dialect a) (overviewPreview dialect b) := by
    intro a ha b hb
    obtain ⟨p, hmem, rfl⟩ := List.mem_map.mp (List.mem_filter.mp ha).1
    obtain ⟨p', hmem', rfl⟩ := List.mem_map.mp (List.mem_filter.mp hb).1
    rw [hpreview p hmem, hpreview p' hmem']
    exact overviewLe_eq_bestFirst hbytewise (hrow p hmem).1 (hrow p' hmem').1 (hrow p hmem).2
      (hrow p' hmem').2
  have hshown : ((pairs.map ofPair).filter overviewActive).map (overviewPreview dialect) =
      (batches.filter BatchRepositoryOverview.isActive).map BatchRepositoryOverview.preview := by
    rw [← hbatches, List.filter_map, List.filter_map, List.map_map, List.map_map,
      List.filter_congr (p := overviewActive ∘ ofPair)
        (q := BatchRepositoryOverview.isActive ∘ Prod.snd) hactive]
    apply List.map_congr_left
    intro p hmem
    exact hpreview p (List.mem_filter.mp hmem).1
  have hpreviews := leading_map (k := 3) hle
  rw [hshown, leading] at hpreviews
  have hcount : (pairs.map ofPair).countP overviewActive =
      batches.countP BatchRepositoryOverview.isActive := by
    rw [← hbatches, List.countP_map, List.countP_map]
    apply List.countP_congr
    intro p hmem
    rw [Function.comp_apply, Function.comp_apply, hactive p hmem]
  have htotal : (pairs.map ofPair).length = batches.length := by
    rw [← hbatches, List.length_map, List.length_map]
  simp only [overview, ensureSupported, hsupported, hrows, hcount, htotal, hpreviews]
  rfl

end DatabaseBatchQuery

namespace BatchRepositoryOverview

variable {dialect : Dialect}

/-- Where no query is supported the overview is that of the pages. -/
theorem build_eq {databaseQuery : Option (DatabaseBatchCapability × BatchTables)}
    (hunsupported : ∀ query ∈ databaseQuery, ¬query.1.supported)
    {repository : AnyBatchRepository} {fuel : ℕ}
    (hreturned : (RetainedBatchScanner.pages repository pageSize fuel).ending = some .returned)
    (hl : Listed (RetainedBatchScanner.pages repository pageSize fuel).pages.flatten) :
    build dialect databaseQuery repository fuel = some (.ok (overviewOf
      (RetainedBatchScanner.pages repository pageSize fuel).pages.flatten)) := by
  have hrepository : build dialect none repository fuel = some (.ok (overviewOf
      (RetainedBatchScanner.pages repository pageSize fuel).pages.flatten)) := by
    simp only [build, hreturned, countPages_eq _ hl]
    rfl
  cases databaseQuery with
  | none => exact hrepository
  | some query =>
      rw [← hrepository]
      exact if_neg (hunsupported query rfl)

/-- **The overviews agree.** Batches with different ids that are no numbers: however they come in and
on however many pages, the overview of the repository counts them and shows the first three of the
active ones, the farthest first and then by descending ids; a queue's summary does so with the
batches that are listed under the queue, where the scan limit is not reached; the order in which they
come in does not matter; and the query of the batch table orders them in the same way. -/
theorem overviews_agree :
    (∀ pages : List (List Batch), Listed pages.flatten →
      countPages pages = tallyOf pages.flatten) ∧
    (∀ dialect databaseQuery repository fuel,
      (∀ query : DatabaseBatchCapability × BatchTables, query ∈ databaseQuery →
        ¬query.1.supported) →
      (RetainedBatchScanner.pages repository pageSize fuel).ending = some .returned →
      Listed (RetainedBatchScanner.pages repository pageSize fuel).pages.flatten →
      build dialect databaseQuery repository fuel = some (.ok (overviewOf
        (RetainedBatchScanner.pages repository pageSize fuel).pages.flatten))) ∧
    (∀ config repository queue pages, QueueBatchesData.Arrives repository none pages →
      Listed pages.flatten → pages.flatten.length < QueueBatchesData.scanLimit →
      QueueBatchesData.buildSummary config repository queue =
        let tally := tallyOf (pages.flatten.filter (QueueBatchesData.wanted config queue))
        ⟨tally.total, tally.active, tally.previews, true, none⟩) ∧
    (∀ l l' : List Batch, Listed l → l.Perm l' → tallyOf l = tallyOf l') ∧
    (∀ dialect capability tables batches, Bytewise dialect → capability.supported →
      List.Forall₂ (fun source batch => Reads source batch ∧ SameProgress dialect source batch)
        tables.source batches →
      DatabaseBatchQuery.overview dialect capability tables = .ok (overviewOf batches)) := by
  refine ⟨countPages_eq, fun dialect databaseQuery repository fuel hunsupported hreturned hl =>
    build_eq hunsupported hreturned hl, fun config repository queue pages harrives hl hlimit => ?_,
    fun l l' hl hperm => tallyOf_perm hl hperm,
    fun dialect capability tables batches hbytewise hsupported hreads =>
      DatabaseBatchQuery.overview_eq hbytewise hsupported hreads⟩
  have hsummary : QueueBatchesData.summarize config repository queue none
      ⟨0, ⟨0, 0, []⟩, false⟩ = _ := QueueBatchesData.summarize_eq harrives (by dsimp only; omega)
  rw [QueueBatchesData.buildSummary, hsummary, QueueBatchesData.foldl_countBatch,
    foldl_countBatch (hl.sublist List.filter_sublist)]

/-- A batch of the queue `reports` that is half done. -/
def halfDone (id : String) : Batch :=
  { QueueBatchesData.retainedQueueBatch id "reports" with
    totalJobs := 2, pendingJobs := 1, progress := 50 }

/-- A batch table of two batches that are half done. -/
def halfDoneTable : BatchTables where
  source := ["b", "a"].map fun id =>
    { id := id, name := "", totalJobs := 2, pendingJobs := 1, failedJobs := 0, createdAt := 0
      cancelledAt := none, finishedAt := none }
  metadata _ := none

/-- Two batches that are equally far, in one and in two pages, in either order, and in the table. -/
theorem overviews_agree_halfDone :
    countPages [[halfDone "b"], [halfDone "a"]] = tallyOf [halfDone "b", halfDone "a"] ∧
    build DatabaseBatchQuery.sqlite none
        (RetainedBatchScanner.oneByOne [halfDone "b", halfDone "a"]) 3 =
      some (.ok (overviewOf [halfDone "b", halfDone "a"])) ∧
    QueueBatchesData.buildSummary QueueBatchesData.noConfig
        (QueueBatchesData.serving [halfDone "b", halfDone "a"]) "reports" =
      (let tally := tallyOf ([halfDone "b", halfDone "a"].filter
        (QueueBatchesData.wanted QueueBatchesData.noConfig "reports"))
      ⟨tally.total, tally.active, tally.previews, true, none⟩) ∧
    tallyOf [halfDone "b", halfDone "a"] = tallyOf [halfDone "a", halfDone "b"] ∧
    DatabaseBatchQuery.overview DatabaseBatchQuery.sqlite ⟨true, .supported⟩ halfDoneTable =
      .ok (overviewOf [halfDone "b", halfDone "a"]) := by
  have hlt : ("a" : String) < "b" := by decide
  have hlisted : Listed [halfDone "b", halfDone "a"] := by
    constructor
    · show ["b", "a"].Nodup
      decide
    · simp only [List.forall_mem_cons, List.not_mem_nil, false_implies, implies_true, and_true]
      constructor
      · show Php.numeric "b" = none
        decide +kernel
      · show Php.numeric "a" = none
        decide +kernel
  obtain ⟨hpages, hbuild, hqueue, hperm, hdatabase⟩ := overviews_agree
  refine ⟨hpages [[halfDone "b"], [halfDone "a"]] hlisted, ?_, ?_, ?_, ?_⟩
  · have hread : RetainedBatchScanner.pages
        (RetainedBatchScanner.oneByOne [halfDone "b", halfDone "a"]) pageSize 3 =
          ⟨[[halfDone "b"], [halfDone "a"]], ["b", "a"], some .returned⟩ := by rfl
    have heq := hbuild DatabaseBatchQuery.sqlite none
      (RetainedBatchScanner.oneByOne [halfDone "b", halfDone "a"]) 3 (by simp)
    rw [hread] at heq
    exact heq rfl hlisted
  · apply hqueue QueueBatchesData.noConfig _ "reports" [[halfDone "b", halfDone "a"]] _ hlisted
    · show 2 < 250
      decide
    · apply QueueBatchesData.Arrives.more rfl rfl
      exact QueueBatchesData.Arrives.last rfl
  · exact hperm _ _ hlisted (List.Perm.swap _ _ _)
  · apply hdatabase DatabaseBatchQuery.sqlite ⟨true, .supported⟩ halfDoneTable
    · exact ⟨fun _ _ => rfl, fun _ _ => rfl⟩
    · rfl
    · have hreads : ∀ id, Reads ⟨id, "", 2, 1, 0, 0, none, none⟩ (halfDone id) :=
        fun id => ⟨rfl, rfl, rfl, rfl, rfl, rfl, rfl, rfl, rfl⟩
      have hprogress : ∀ id, SameProgress DatabaseBatchQuery.sqlite
          ⟨id, "", 2, 1, 0, 0, none, none⟩ (halfDone id) := by
        intro id
        constructor
        · show DatabaseBatchQuery.sqlite.percentage 2 1 = ((50 : ℤ) : ℚ)
          decide +kernel
        · show DatabaseBatchQuery.integerPart 50 = 50
          decide +kernel
      exact .cons ⟨hreads "b", hprogress "b"⟩ (.cons ⟨hreads "a", hprogress "a"⟩ .nil)

end BatchRepositoryOverview

end HorizonNewDawn

import HorizonNewDawn.Batches.BatchRepositoryOverview
import HorizonNewDawn.Collections.Chunks
import HorizonNewDawn.Collections.Keys

/-! # Candidates for clearing

The rows of the batch table whose state lets them be cleared, read in chunks by their ids: every such
row is read once, in strict order (`clearCandidateChunksFrom_eq`). A candidate carries the ids of its
failed jobs where the row's column is well formed (`clearCandidateFailedJobIds_eq_some`). -/

namespace HorizonNewDawn

/-- `BatchClearScope` -/
inductive BatchClearScope
  | incomplete
  | complete
  | finished
  | cancelled
  deriving DecidableEq

/-- A row of the batch table with its column `failed_job_ids`. -/
structure BatchRecord extends BatchSource where
  failedJobIds : Option String

/-- `DatabaseBatchClearCandidate` -/
structure DatabaseBatchClearCandidate where
  id : String
  scope : BatchClearScope
  failedJobIds : Option (List String)

/-- What a generator yields, and the exception it ends with, if it does. -/
structure Generated (α : Type) where
  yielded : List α
  thrown : Option String

/-! ## The candidates -/

namespace DatabaseBatchQuery

/-- `CLEAR_CANDIDATE_CHUNK_SIZE` -/
def clearCandidateChunkSize : ℕ := 500

/-- The condition of `clearCandidateChunks` on the state of a batch. -/
def clearCandidate (source : BatchSource) : Bool :=
  source.cancelledAt.isSome && decide (source.pendingJobs = 0) ||
    source.cancelledAt.isNone && source.finishedAt.isSome ||
    source.cancelledAt.isNone && source.finishedAt.isNone && decide (0 < source.failedJobs) &&
      decide (source.pendingJobs ≤ source.failedJobs)

/-- The scope of a candidate. -/
def clearScope (source : BatchSource) : BatchClearScope :=
  if source.cancelledAt.isSome then .cancelled
  else if source.finishedAt.isSome then .complete
  else .incomplete

/-- The loop of `clearCandidateFailedJobIds` over the decoded ids. -/
def distinctFailedJobIds : List Php → List String → Option (List String)
  | [], failedJobIds => some failedJobIds
  | .str failedJobId :: decoded, failedJobIds =>
      if failedJobId = "" ∨ Php.trim failedJobId ≠ failedJobId ∨ failedJobId ∈ failedJobIds then none
      else distinctFailedJobIds decoded (failedJobIds ++ [failedJobId])
  | _ :: _, _ => none

/-- `clearCandidateFailedJobIds` -/
def clearCandidateFailedJobIds (row : BatchRecord) : Option (List String) :=
  let failedJobs := max 0 row.failedJobs
  match row.failedJobIds with
  | none => if failedJobs = 0 then some [] else none
  | some encoded =>
      match (Json.read encoded.toList).map Php.jsonDecode with
      | some (.array decoded) =>
          if Php.keys decoded = Php.listKeys decoded.length then
            match distinctFailedJobIds (decoded.map Prod.snd) [] with
            | some failedJobIds =>
                if 0 < failedJobs ∧ failedJobIds = [] then none else some failedJobIds
            | none => none
          else none
      | _ => none

/-- The candidate of a row. -/
def clearCandidateOf (row : BatchRecord) : DatabaseBatchClearCandidate where
  id := row.id
  scope := clearScope row.toBatchSource
  failedJobIds := clearCandidateFailedJobIds row

variable (dialect : Dialect) (records : List BatchRecord)

/-- The rows a query of `clearCandidateChunks` returns. -/
def clearCandidateRows (lastId : Option String) : List BatchRecord :=
  let rows := records.filter fun row => decide (row.id ≠ "") && clearCandidate row.toBatchSource &&
    lastId.all fun lastId => !dialect.idLe row.id lastId
  (rows.mergeSort fun a b => dialect.idLe a.id b.id).take clearCandidateChunkSize

variable {records} in
/-- A candidate is one of the records. -/
theorem mem_of_mem_clearCandidateRows {lastId : Option String} {row : BatchRecord}
    (h : row ∈ clearCandidateRows dialect records lastId) : row ∈ records :=
  (List.mem_filter.mp (List.mem_mergeSort.mp (List.mem_of_mem_take h))).1

/-- The loop of `clearCandidateChunks`. -/
def clearCandidateChunksFrom (lastId : Option String) :
    Generated (List DatabaseBatchClearCandidate) :=
  let rows := clearCandidateRows dialect records lastId
  let candidates := (rows.filter fun row => decide (row.id ≠ "")).map clearCandidateOf
  let chunk := if candidates = [] then [] else [candidates]
  match _hlast : rows.getLast? with
  | none => ⟨chunk, none⟩
  | some last =>
      if _hstuck : last.id = "" ∨ lastId.any fun lastId => (strcmp last.id lastId).isLE then
        ⟨chunk, some
          "The database batch clear query could not advance through the retained batches."⟩
      else if rows.length = clearCandidateChunkSize then
        let rest := clearCandidateChunksFrom (some last.id)
        ⟨chunk ++ rest.yielded, rest.thrown⟩
      else ⟨chunk, none⟩
termination_by (Keys.behind (fun row : BatchRecord => row.id) records lastId).length
decreasing_by
  apply Keys.length_behind_lt (fun row : BatchRecord => row.id)
    (mem_of_mem_clearCandidateRows dialect (List.mem_of_getLast? _hlast))
  rintro id rfl
  rw [not_or, Option.any_some, Bool.not_eq_true, Ordering.isLE_eq_false] at _hstuck
  exact compare_gt_iff_gt.mp _hstuck.2

/-- `clearCandidateChunks` -/
def clearCandidateChunks : Generated (List DatabaseBatchClearCandidate) :=
  clearCandidateChunksFrom dialect records none

end DatabaseBatchQuery

/-! ## The chunks of candidates -/

namespace DatabaseBatchQuery

variable {dialect : Dialect} {records : List BatchRecord}

/-- The rows of all candidates, by their ids. -/
def candidateRows (records : List BatchRecord) : List BatchRecord :=
  Keys.byKey (·.id) (records.filter fun row => clearCandidate row.toBatchSource)

/-- A batch table as the candidates are read from it: with distinct ids that are not empty, in a
database that orders them by their bytes. -/
structure Readable (dialect : Dialect) (records : List BatchRecord) : Prop where
  distinct : (records.map (·.id)).Nodup
  nonEmpty : ∀ row ∈ records, row.id ≠ ""
  bytewise : ∀ s s', dialect.idLe s s' = decide (s ≤ s')

/-- The candidates are the records that may be cleared. -/
theorem mem_candidateRows {row : BatchRecord} :
    row ∈ candidateRows records ↔ row ∈ records ∧ clearCandidate row.toBatchSource := by
  rw [candidateRows, Keys.mem_byKey, List.mem_filter]

/-- A selection of the records lists no id twice. -/
theorem Readable.distinct_filter (h : Readable dialect records) (p : BatchRecord → Bool) :
    ((records.filter p).map (·.id)).Nodup := h.distinct.sublist (List.filter_sublist.map _)

/-- The rows are in strict order. -/
theorem pairwise_candidateRows (h : Readable dialect records) :
    (candidateRows records).Pairwise fun a b => a.id < b.id :=
  Keys.pairwise_byKey (h.distinct_filter _)

/-- Nor do the candidates. -/
theorem nodup_candidateRows (h : Readable dialect records) :
    ((candidateRows records).map (·.id)).Nodup :=
  Keys.nodup_map_byKey (h.distinct_filter _)

/-- A query returns the first rows behind the last id. -/
theorem clearCandidateRows_eq (h : Readable dialect records) (lastId : Option String) :
    clearCandidateRows dialect records lastId =
      (Keys.behind (·.id) (candidateRows records) lastId).take clearCandidateChunkSize := by
  have hfilter : (records.filter fun row => decide (row.id ≠ "") &&
      clearCandidate row.toBatchSource && lastId.all fun lastId => !dialect.idLe row.id lastId) =
      (records.filter fun row => clearCandidate row.toBatchSource).filter
        fun row => lastId.all fun lastId => decide (lastId < row.id) := by
    rw [List.filter_filter]
    apply List.filter_congr
    intro row hrow
    rw [decide_eq_true (h.nonEmpty row hrow), Bool.true_and, Bool.and_comm]
    congr 1
    cases lastId with
    | none => rfl
    | some id =>
        rw [Option.all_some, Option.all_some, h.bytewise, ← decide_not, decide_eq_decide, not_le]
  have hle : (fun a b : BatchRecord => dialect.idLe a.id b.id) =
      fun a b : BatchRecord => decide (a.id ≤ b.id) := by
    funext a b
    exact h.bytewise a.id b.id
  rw [clearCandidateRows, hfilter, hle]
  exact congrArg _ (Keys.byKey_filter (h.distinct_filter _) _)

/-- **The chunks of candidates**: all candidates, by their ids, in pieces. -/
theorem clearCandidateChunksFrom_eq (h : Readable dialect records) (lastId : Option String) :
    (clearCandidateChunksFrom dialect records lastId).yielded =
        (List.arrayChunk clearCandidateChunkSize (Keys.behind (·.id) (candidateRows records) lastId)).map
          (List.map clearCandidateOf) ∧
      (clearCandidateChunksFrom dialect records lastId).thrown = none := by
  -- Induction on the rows that are left.
  induction hn : (Keys.behind (·.id) (candidateRows records) lastId).length using Nat.strongRecOn
    generalizing lastId with
  | ind n ih =>
      have hrows := clearCandidateRows_eq h lastId
      have hnames : (clearCandidateRows dialect records lastId).filter
          (fun row => decide (row.id ≠ "")) = clearCandidateRows dialect records lastId := by
        apply List.filter_eq_self.mpr
        intro row hrow
        exact decide_eq_true (h.nonEmpty row (mem_of_mem_clearCandidateRows dialect hrow))
      rw [clearCandidateChunksFrom]
      simp only [hnames]
      cases hlast : (clearCandidateRows dialect records lastId).getLast? with
      | none =>
          have hnil := List.getLast?_eq_none_iff.mp hlast
          rw [hnil] at hrows
          have hempty : Keys.behind (·.id) (candidateRows records) lastId = [] := by
            rcases List.take_eq_nil_iff.mp hrows.symm with hzero | hempty
            · exact absurd hzero (by decide)
            · exact hempty
          simp [hnil, hempty]
      | some last =>
          have hmem : last ∈ clearCandidateRows dialect records lastId := List.mem_of_getLast? hlast
          have hne : Keys.behind (·.id) (candidateRows records) lastId ≠ [] := by
            intro hnil
            rw [hrows, hnil, List.take_nil] at hmem
            exact List.not_mem_nil hmem
          have hbefore : last ∈ Keys.behind (·.id) (candidateRows records) lastId := by
            rw [hrows] at hmem
            exact List.mem_of_mem_take hmem
          have hadvances : ¬(last.id = "" ∨
              lastId.any fun lastId => (strcmp last.id lastId).isLE) := by
            rw [not_or]
            refine ⟨h.nonEmpty last (mem_of_mem_clearCandidateRows dialect hmem), ?_⟩
            have hbehind := (List.mem_filter.mp hbefore).2
            cases lastId with
            | none => simp
            | some id =>
                rw [Option.all_some] at hbehind
                rw [Option.any_some, Bool.not_eq_true, Ordering.isLE_eq_false]
                exact compare_gt_iff_gt.mpr (of_decide_eq_true hbehind)
          have hlast' := hlast
          rw [hrows] at hlast'
          have hrest := (Keys.behind_last (pairwise_candidateRows h) hlast').1
          rw [List.arrayChunk_eq (by decide) hne, List.map_cons, ← hrows, ← hrest]
          have hchunk : (clearCandidateRows dialect records lastId).map clearCandidateOf ≠ [] := by
            rw [Ne, List.map_eq_nil_iff]
            exact List.ne_nil_of_mem hmem
          dsimp only
          rw [dif_neg hadvances, if_neg hchunk]
          split
          · have hshorter : (Keys.behind (·.id) (candidateRows records) (some last.id)).length < n := by
              have hpos := List.length_pos_iff.mpr hne
              have hsize : 0 < clearCandidateChunkSize := by decide
              rw [hrest, List.length_drop]
              omega
            obtain ⟨hyielded, hthrown⟩ := ih _ hshorter (some last.id) rfl
            exact ⟨by rw [hyielded, List.singleton_append], hthrown⟩
          · rename_i hshort
            -- A short chunk is the last one.
            have hempty : Keys.behind (·.id) (candidateRows records) (some last.id) = [] := by
              rw [hrows, List.length_take] at hshort
              rw [hrest]
              exact List.drop_of_length_le (by omega)
            rw [hempty]
            simp

/-! ## Well-formed columns -/

/-- The column `failed_job_ids` of a row stands for these ids: distinct, trimmed and not empty, at
least one where the row counts failed jobs; a missing column stands for none. -/
def WellFormed (row : BatchRecord) (failedJobIds : List String) : Prop :=
  (∀ failedJobId ∈ failedJobIds, failedJobId ≠ "" ∧ Php.trim failedJobId = failedJobId) ∧
    failedJobIds.Nodup ∧ (0 < row.failedJobs → failedJobIds ≠ []) ∧
    match row.failedJobIds with
    | none => failedJobIds = []
    | some text => (Json.read text.toList).map Php.jsonDecode =
        some (.array ((Php.listKeys failedJobIds.length).zip (failedJobIds.map .str)))

/-- The failed ids are those that are found, behind the ones known before. -/
theorem distinctFailedJobIds_eq_some {decoded : List Php} {found failedJobIds : List String}
    (hfound : found.Nodup) :
    distinctFailedJobIds decoded found = some failedJobIds ↔
      ∃ rest, failedJobIds = found ++ rest ∧ decoded = rest.map .str ∧
        (∀ failedJobId ∈ rest, failedJobId ≠ "" ∧ Php.trim failedJobId = failedJobId) ∧
        (found ++ rest).Nodup := by
  -- by induction on the values, with the ids found so far general
  induction decoded generalizing found with
  | nil =>
      rw [distinctFailedJobIds, Option.some.injEq]
      constructor
      · rintro rfl
        exact ⟨[], by simp [hfound]⟩
      · rintro ⟨rest, rfl, hrest, -⟩
        rw [eq_comm, List.map_eq_nil_iff] at hrest
        rw [hrest, List.append_nil]
  | cons value decoded ih =>
      cases value with
      | str failedJobId =>
          rw [distinctFailedJobIds]
          split
          · -- an empty, untrimmed or repeated id makes the column malformed
            rename_i hmalformed
            constructor
            · intro h
              cases h
            · rintro ⟨rest, -, hrest, htrimmed, hnodup⟩
              obtain ⟨rest, rfl⟩ : ∃ rest', rest = failedJobId :: rest' := by
                cases rest with
                | nil => cases hrest
                | cons first rest =>
                    rw [List.map_cons, List.cons.injEq, Php.str.injEq] at hrest
                    exact ⟨rest, by rw [hrest.1]⟩
              obtain ⟨hne, htrim⟩ := htrimmed failedJobId List.mem_cons_self
              rcases hmalformed with hempty | htrim' | hmem
              · exact absurd hempty hne
              · exact absurd htrim htrim'
              · exact absurd List.mem_cons_self (List.disjoint_of_nodup_append hnodup hmem)
          · rename_i hwell
            simp only [not_or, not_not] at hwell
            obtain ⟨hne, htrim, hnew⟩ := hwell
            have hfound' : (found ++ [failedJobId]).Nodup := by
              apply hfound.append (List.nodup_singleton _)
              intro id hid hsingle
              rw [List.mem_singleton.mp hsingle] at hid
              exact hnew hid
            rw [ih hfound']
            constructor
            · rintro ⟨rest, rfl, rfl, htrimmed, hnodup⟩
              refine ⟨failedJobId :: rest, by simp, rfl, ?_, by simpa using hnodup⟩
              exact List.forall_mem_cons.mpr ⟨⟨hne, htrim⟩, htrimmed⟩
            · rintro ⟨rest, rfl, hrest, htrimmed, hnodup⟩
              cases rest with
              | nil => cases hrest
              | cons first rest =>
                  rw [List.map_cons, List.cons.injEq, Php.str.injEq] at hrest
                  obtain ⟨rfl, rfl⟩ := hrest
                  refine ⟨rest, by simp, rfl, ?_, by simpa using hnodup⟩
                  exact (List.forall_mem_cons.mp htrimmed).2
      -- a value that is no string
      | _ =>
          rw [distinctFailedJobIds]
          · constructor
            · intro h
              cases h
            · rintro ⟨rest, -, hrest, -⟩
              cases rest <;> cases hrest
          · intro id h
            cases h

/-- What the program reads off the column. -/
theorem clearCandidateFailedJobIds_eq_some {row : BatchRecord} {failedJobIds : List String} :
    clearCandidateFailedJobIds row = some failedJobIds ↔
      WellFormed row failedJobIds := by
  have hpositive : 0 < max 0 row.failedJobs ↔ 0 < row.failedJobs := by omega
  rw [clearCandidateFailedJobIds, WellFormed]
  cases row.failedJobIds with
  -- no column: well formed where no failure is counted
  | none =>
      dsimp only
      constructor
      · intro h
        split at h
        · cases h
          refine ⟨by simp, List.nodup_nil, fun hpos => ?_, rfl⟩
          omega
        · cases h
      · rintro ⟨-, -, hpos, rfl⟩
        have hzero : max 0 row.failedJobs = 0 := by
          by_contra hne
          exact hpos (by omega) rfl
        rw [if_pos hzero]
  | some text =>
      dsimp only
      cases hread : (Json.read text.toList).map Php.jsonDecode with
      | none => simp
      | some value =>
          cases value with
          -- an array, which has to be a list of ids
          | array decoded =>
              dsimp only
              constructor
              · intro h
                split at h
                · rename_i hkeys
                  split at h
                  · rename_i ids hids
                    split at h
                    · cases h
                    · rename_i hcount
                      cases h
                      obtain ⟨rest, rfl, hvalues, htrimmed, hnodup⟩ :=
                        (distinctFailedJobIds_eq_some List.nodup_nil).mp hids
                      refine ⟨htrimmed, hnodup, fun hpos hnil => hcount ⟨hpositive.mpr hpos, hnil⟩, ?_⟩
                      have hlength := congrArg List.length hvalues
                      rw [List.length_map, List.length_map] at hlength
                      rw [← hvalues, ← hlength, ← hkeys, Php.keys, List.zip_map']
                      simp
                  · cases h
                · cases h
              · rintro ⟨htrimmed, hnodup, hpos, hdecoded⟩
                rw [Option.some.injEq, Php.array.injEq] at hdecoded
                have hlisted : (Php.listKeys failedJobIds.length).length =
                    (failedJobIds.map Php.str).length := by
                  simp [Php.listKeys]
                have hlength : decoded.length = failedJobIds.length := by
                  rw [hdecoded, List.length_zip, ← hlisted]
                  simp [Php.listKeys]
                have hkeys : Php.keys decoded = Php.listKeys decoded.length := by
                  rw [hlength, hdecoded, Php.keys, List.map_fst_zip hlisted.le]
                have hvalues : decoded.map Prod.snd = failedJobIds.map .str := by
                  rw [hdecoded, List.map_snd_zip hlisted.ge]
                have hids : distinctFailedJobIds (decoded.map Prod.snd) [] =
                    some failedJobIds :=
                  (distinctFailedJobIds_eq_some List.nodup_nil).mpr
                    ⟨failedJobIds, rfl, hvalues, htrimmed, hnodup⟩
                rw [if_pos hkeys, hids]
                exact if_neg fun h => hpos (hpositive.mp h.1) h.2
          | _ => simp

end DatabaseBatchQuery

end HorizonNewDawn

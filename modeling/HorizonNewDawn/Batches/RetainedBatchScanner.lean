import HorizonNewDawn.Queues.QueueBatchesData
import Mathlib.Data.Finset.Card

/-! # Reading the batch repository to its end

Two readers of the batch repository that do not take a short page for the end: the generator of
`RetainedBatchScanner`, and `BatchesData::repositoryPage`, which asks again until its page is full
and hands out the position for the next page. From a repository that answers from a history, in
pieces of any length, both deliver every batch once and in order. They rely on no repository to move
on: a run with a cursor that does not decrease ends with an exception, so a run over finitely many
ids ends in any case. -/

namespace HorizonNewDawn

open QueueBatchesData

/-- What a call of a batch repository comes to: an exception, a value that is no array, or an array,
whose entries need not be batches. -/
inductive RepositoryAnswer
  | thrown (message : String)
  | invalid
  | page (entries : List (Option Batch))

/-- Any batch repository: what it answers may depend on all that went before, so on the number of
the call, and on the limit and the id it is asked with. -/
abbrev AnyBatchRepository := ℕ → ℕ → Option String → RepositoryAnswer

/-- How a run ends. -/
inductive Ending
  | returned
  | thrown (message : String)
  deriving DecidableEq

/-- What a reader of the repository has seen: the pages, the cursors it went on with, and how it
ended; `none` where it had not ended when the fuel was used up. -/
structure Reading (α : Type) where
  pages : List (List α)
  cursors : List String
  ending : Option Ending

/-- The common body of the two `advanceCursor` functions: the id of the last entry of a page, which
has to be a batch, and to stand before the current cursor. -/
def nextCursor (last : Option Batch) (current : Option String) : Except String String :=
  match last with
  | none => .error "The batch repository returned an empty page."
  | some batch =>
      let cursor := batch.id
      if cursor = "" ∨ current.any fun current => (strcmp cursor current).isGE then
        .error "The batch repository did not advance its pagination cursor."
      else .ok cursor

variable (repository : AnyBatchRepository)

namespace RetainedBatchScanner

/-- The loop of `validatedPage` over the entries. -/
def validatedBatches : List (Option Batch) → Except String (List Batch)
  | [] => .ok []
  | none :: _ => .error "The batch repository returned an invalid batch."
  | some batch :: entries => (validatedBatches entries).map (batch :: ·)

/-- `validatedPage` -/
def validatedPage (page : RepositoryAnswer) (requestLimit : ℕ) : Except String (List Batch) :=
  match page with
  | .thrown message => .error message
  | .invalid => .error "The batch repository returned an invalid page."
  | .page entries =>
      if requestLimit < entries.length then
        .error "The batch repository exceeded the requested page size."
      else validatedBatches entries

/-- `advanceCursor` -/
def advanceCursor (batches : List Batch) (current : Option String) : Except String String :=
  nextCursor batches.getLast? current

/-- The loop of `pages`, from the `n`-th call of the repository on. -/
def pagesFrom (pageSize : ℕ) : ℕ → ℕ → Option String → Reading Batch
  | 0, _, _ => ⟨[], [], none⟩
  | fuel + 1, n, cursor =>
      match validatedPage (repository n pageSize cursor) pageSize with
      | .error message => ⟨[], [], some (.thrown message)⟩
      | .ok [] => ⟨[], [], some .returned⟩
      | .ok page@(_ :: _) =>
          -- The page is yielded before its cursor is looked at.
          match advanceCursor page cursor with
          | .error message => ⟨[page], [], some (.thrown message)⟩
          | .ok next =>
              let rest := pagesFrom pageSize fuel (n + 1) (some next)
              ⟨page :: rest.pages, next :: rest.cursors, rest.ending⟩

/-- `pages`, read to its end -/
def pages (pageSize : ℤ) (fuel : ℕ) : Reading Batch :=
  pagesFrom repository (max 1 pageSize).toNat fuel 0 none

end RetainedBatchScanner

namespace BatchesData

/-- `PAGE_SIZE` -/
def pageSize : ℕ := 50

/-- `advanceCursor` -/
def advanceCursor (batches : List (Option Batch)) (current : Option String) :
    Except String String :=
  nextCursor batches.getLast?.join current

/-- What a call of `repositoryPage` comes to: the cursors it went on with, the number of the next
call of the repository, and what it returns. -/
structure PageRun where
  cursors : List String
  calls : ℕ
  result : Except String (List (Option Batch) × Option String)

/-- The loop of `repositoryPage`, from the `n`-th call of the repository on. -/
def repositoryPageFrom (n : ℕ) (batches : List (Option Batch)) (cursor : Option String) : PageRun :=
  if _ : batches.length < pageSize then
    match repository n (pageSize - batches.length) cursor with
    | .thrown message => ⟨[], n + 1, .error message⟩
    | .invalid => ⟨[], n + 1, .error "advanceCursor(): Argument #1 ($batches) must be of type array"⟩
    | .page [] => ⟨[], n + 1, .ok (batches, none)⟩
    | .page (entry :: entries) =>
        match advanceCursor (entry :: entries) cursor with
        | .error message => ⟨[], n + 1, .error message⟩
        | .ok next =>
            let rest := repositoryPageFrom (n + 1) (batches ++ entry :: entries) (some next)
            { rest with cursors := next :: rest.cursors }
  else ⟨[], n, .ok (batches, cursor)⟩
termination_by pageSize - batches.length
decreasing_by
  rw [List.length_append, List.length_cons]
  omega

/-- `repositoryPage` -/
def repositoryPage (n : ℕ) (beforeId : Option String) : PageRun :=
  repositoryPageFrom repository n [] beforeId

/-- A reader who asks for a page and then for the page of the position it is handed, as long as
there is one. -/
def followPages : ℕ → ℕ → Option String → Reading (Option Batch)
  | 0, _, _ => ⟨[], [], none⟩
  | fuel + 1, n, beforeId =>
      let page := repositoryPage repository n beforeId
      match page.result with
      | .error message => ⟨[], page.cursors, some (.thrown message)⟩
      | .ok (batches, none) => ⟨[batches], page.cursors, some .returned⟩
      | .ok (batches, some next) =>
          let rest := followPages fuel page.calls (some next)
          ⟨batches :: rest.pages, page.cursors ++ rest.cursors, rest.ending⟩

end BatchesData

variable {repository} {history : List Batch} {cursor : Option String}

/-! ## Cursors decrease -/

/-- Cursors that stand one before the other, and before the position a run began at. -/
def Decreasing (start : Option String) (cursors : List String) : Prop :=
  (start.toList ++ cursors).Pairwise fun a b => b < a

/-- No cursors decrease. -/
@[simp] theorem decreasing_nil {start : Option String} : Decreasing start [] := by
  cases start <;> simp [Decreasing]

/-- Cursors that decrease are in descending order. -/
theorem Decreasing.pairwise {start : Option String} {cursors : List String}
    (h : Decreasing start cursors) : cursors.Pairwise fun a b => b < a :=
  (List.pairwise_append.mp h).2.1

/-- One more cursor below the start. -/
theorem Decreasing.cons {start : Option String} {next : String} {cursors : List String}
    (hnext : ∀ c, start = some c → next < c) (h : Decreasing (some next) cursors) :
    Decreasing start (next :: cursors) := by
  cases start with
  | none => exact h
  | some c =>
      apply List.Pairwise.cons _ h
      intro a ha
      rcases List.mem_cons.mp ha with rfl | ha
      · exact hnext c rfl
      · exact lt_trans (List.rel_of_pairwise_cons h ha) (hnext c rfl)

/-- Decreasing cursors out of a finite set are no more than the set has elements. -/
theorem Decreasing.length_le_card {start : Option String} {cursors : List String}
    {ids : Finset String} (h : Decreasing start cursors) (hids : ∀ c ∈ cursors, c ∈ ids) :
    cursors.length ≤ ids.card := by
  have hnodup : cursors.Nodup := h.pairwise.imp fun hlt => ne_of_gt hlt
  rw [← List.toFinset_card_of_nodup hnodup]
  apply Finset.card_le_card
  intro c hc
  exact hids c (List.mem_toFinset.mp hc)

/-- A cursor that is accepted is the id of the last entry, and stands before the current one. -/
theorem of_nextCursor {last : Option Batch} {next : String}
    (h : nextCursor last cursor = .ok next) :
    (∃ batch, last = some batch ∧ batch.id = next) ∧ ∀ c, cursor = some c → next < c := by
  cases last with
  | none => cases h
  | some batch =>
      simp only [nextCursor] at h
      split at h
      · cases h
      · rename_i hadvances
        cases h
        rw [not_or] at hadvances
        constructor
        · exact ⟨batch, rfl, rfl⟩
        · rintro c rfl
          rw [Option.any_some, Ordering.isGE_iff_ne_lt, not_not] at hadvances
          exact strcmp_eq_lt.mp hadvances.2

/-- The ids of all batches a repository ever returns. -/
def Within (repository : AnyBatchRepository) (ids : Finset String) : Prop :=
  ∀ n limit before entries, repository n limit before = .page entries →
    ∀ batch, some batch ∈ entries → batch.id ∈ ids

namespace RetainedBatchScanner

/-- The entries of a page that is accepted are batches. -/
theorem validatedBatches_eq_ok {entries : List (Option Batch)} {batches : List Batch} :
    validatedBatches entries = .ok batches ↔ entries = batches.map some := by
  induction entries generalizing batches with
  | nil => cases batches <;> simp [validatedBatches]
  | cons entry entries ih =>
      cases entry with
      | none => cases batches <;> simp [validatedBatches]
      | some batch =>
          cases hrest : validatedBatches entries with
          | error message =>
              have hnone : ∀ batches : List Batch, entries ≠ batches.map some := by
                intro batches h
                rw [ih.mpr h] at hrest
                cases hrest
              cases batches <;> simp [validatedBatches, hrest, Except.map, hnone]
          | ok rest =>
              obtain rfl := ih.mp hrest
              have hinj := List.map_injective_iff.mpr (Option.some_injective Batch)
              cases batches <;> simp [validatedBatches, hrest, Except.map, hinj.eq_iff]

/-- A valid answer is a page of batches. -/
theorem of_validatedPage {answer : RepositoryAnswer} {limit : ℕ} {batches : List Batch}
    (h : validatedPage answer limit = .ok batches) : answer = .page (batches.map some) := by
  cases answer with
  | thrown message => cases h
  | invalid => cases h
  | page entries =>
      simp only [validatedPage] at h
      split at h
      · cases h
      · rw [validatedBatches_eq_ok.mp h]

/-- The cursors of the scanner decrease, come from the repository, and are as many as the fuel where
the run has not ended. -/
theorem pagesFrom_advances (repository : AnyBatchRepository) (pageSize fuel n : ℕ)
    (cursor : Option String) :
    let reading := pagesFrom repository pageSize fuel n cursor
    Decreasing cursor reading.cursors ∧
      (∀ ids, Within repository ids → ∀ c ∈ reading.cursors, c ∈ ids) ∧
      (reading.ending = none → reading.cursors.length = fuel) := by
  induction fuel generalizing n cursor with
  | zero => simp [pagesFrom]
  | succ fuel ih =>
      rw [pagesFrom]
      split
      · simp
      · simp
      · rename_i page hpage
        split
        · simp
        · rename_i next hnext
          obtain ⟨hdecreasing, hids, hending⟩ := ih (n + 1) (some next)
          obtain ⟨⟨batch, hlast, rfl⟩, hlt⟩ := of_nextCursor hnext
          refine ⟨hdecreasing.cons hlt, fun ids hwithin c hc => ?_, fun hnone => ?_⟩
          · rcases List.mem_cons.mp hc with rfl | hc
            · apply hwithin _ _ _ _ (of_validatedPage hpage)
              exact List.mem_map_of_mem (List.mem_of_getLast? hlast)
            · exact hids ids hwithin c hc
          · rw [List.length_cons, hending hnone]

end RetainedBatchScanner

namespace BatchesData

/-- The cursors of a page decrease, whatever decreasing cursors follow from the position it hands out
on, and they come from the repository. A page that is asked for below its size goes on with a cursor
at least before it hands out a position. -/
theorem repositoryPageFrom_advances (repository : AnyBatchRepository) (n : ℕ)
    (batches : List (Option Batch)) (cursor : Option String) :
    let run := repositoryPageFrom repository n batches cursor
    Decreasing cursor run.cursors ∧
      (∀ shown next, run.result = .ok (shown, some next) → ∀ rest, Decreasing (some next) rest →
        Decreasing cursor (run.cursors ++ rest)) ∧
      (∀ ids, Within repository ids → ∀ c ∈ run.cursors, c ∈ ids) ∧
      (∀ shown next, run.result = .ok (shown, some next) → batches.length < pageSize →
        run.cursors ≠ []) := by
  -- Induction on what the page still has room for.
  induction hroom : pageSize - batches.length using Nat.strongRecOn generalizing n batches cursor with
  | ind room ih =>
      rw [repositoryPageFrom]
      split
      · rename_i hlength
        cases hanswer : repository n (pageSize - batches.length) cursor with
        | thrown message => simp
        | invalid => simp
        | page entries =>
            cases entries with
            | nil => simp
            | cons entry entries =>
                dsimp only
                cases hnext : advanceCursor (entry :: entries) cursor with
                | error message => simp
                | ok next =>
                    dsimp only
                    obtain ⟨⟨batch, hlast, rfl⟩, hlt⟩ := of_nextCursor hnext
                    have hshorter : pageSize - (batches ++ entry :: entries).length < room := by
                      rw [List.length_append, List.length_cons]
                      omega
                    obtain ⟨hdecreasing, hfollow, hids, -⟩ :=
                      ih _ hshorter (n + 1) (batches ++ entry :: entries) (some batch.id) rfl
                    refine ⟨hdecreasing.cons hlt, fun shown next hresult rest hrest => ?_,
                      fun ids hwithin c hc => ?_, fun _ _ _ _ => List.cons_ne_nil _ _⟩
                    · exact (hfollow shown next hresult rest hrest).cons hlt
                    · rcases List.mem_cons.mp hc with rfl | hc
                      · apply hwithin _ _ _ _ hanswer
                        exact List.mem_of_getLast? (Option.join_eq_some_iff.mp hlast)
                      · exact hids ids hwithin c hc
      · rename_i hlength
        refine ⟨decreasing_nil, ?_, by simp, fun _ _ _ h => absurd h hlength⟩
        intro shown next hresult rest hrest
        cases hresult
        exact hrest

/-- The cursors of a reader who follows the pages decrease, come from the repository, and are as many
as the pages the reader has followed where the run has not ended. -/
theorem followPages_advances (repository : AnyBatchRepository) (fuel n : ℕ)
    (beforeId : Option String) :
    let reading := followPages repository fuel n beforeId
    Decreasing beforeId reading.cursors ∧
      (∀ ids, Within repository ids → ∀ c ∈ reading.cursors, c ∈ ids) ∧
      (reading.ending = none → fuel ≤ reading.cursors.length) := by
  induction fuel generalizing n beforeId with
  | zero => simp [followPages]
  | succ fuel ih =>
      obtain ⟨hdecreasing, hfollow, hids, hmoves⟩ :=
        repositoryPageFrom_advances repository n [] beforeId
      rw [followPages]
      dsimp only
      split
      · exact ⟨hdecreasing, hids, by simp⟩
      · exact ⟨hdecreasing, hids, by simp⟩
      · rename_i batches next hresult
        obtain ⟨hrest, hrestids, hending⟩ :=
          ih (repositoryPage repository n beforeId).calls (some next)
        refine ⟨hfollow batches next hresult _ hrest, fun ids hwithin c hc => ?_, fun hnone => ?_⟩
        · rcases List.mem_append.mp hc with hc | hc
          · exact hids ids hwithin c hc
          · exact hrestids ids hwithin c hc
        · have hpos := List.length_pos_iff.mpr (hmoves batches next hresult (by decide))
          have hle := hending hnone
          rw [List.length_append]
          rw [repositoryPage] at hle ⊢
          omega

end BatchesData

/-! ## Every batch once -/

/-- The repository answers from a history: with a first piece, of any length within the limit, of
what stands below the id it is asked with, and with an empty piece only where nothing does. -/
def AnswersFrom (repository : AnyBatchRepository) (history : List Batch) : Prop :=
  ∀ n limit before, ∃ page, repository n limit before = .page (page.map some) ∧
    page <+: below history before ∧ page.length ≤ limit ∧
    (0 < limit → page = [] → below history before = [])

/-- Behind a piece of what stands below a cursor, a run goes on with the rest. -/
theorem nextCursor_of_prefix {page : List Batch} (hsorted : Descending history)
    (hids : ∀ batch ∈ history, batch.id ≠ "") (hinitial : page <+: below history cursor)
    (hpage : page ≠ []) :
    ∃ next, nextCursor page.getLast? cursor = .ok next ∧
      below history cursor = page ++ below history (some next) := by
  have hpos : 0 < page.length := List.length_pos_iff.mpr hpage
  have hk : page.length - 1 < (below history cursor).length := by
    have hle := hinitial.length_le
    omega
  have hlast : page.getLast? = some (below history cursor)[page.length - 1] := by
    rw [List.getLast?_eq_getElem?, List.getElem?_eq_getElem (by omega),
      hinitial.getElem (by omega)]
  have hbelow := below_getElem hsorted hk
  have hmem : (below history cursor)[page.length - 1] ∈ below history cursor := List.getElem_mem hk
  generalize (below history cursor)[page.length - 1] = batch at hlast hbelow hmem
  obtain ⟨hbatch, hcursor⟩ := List.mem_filter.mp hmem
  refine ⟨batch.id, ?_, ?_⟩
  · have hadvances : ¬(cursor.any fun current => (strcmp batch.id current).isGE) := by
      cases cursor with
      | none => simp
      | some c =>
          rw [Option.all_some, decide_eq_true_eq] at hcursor
          rw [Option.any_some, strcmp_eq_lt.mpr hcursor]
          simp
    rw [hlast]
    exact if_neg (not_or.mpr ⟨hids batch hbatch, hadvances⟩)
  · rw [hbelow, Nat.sub_add_cancel hpos]
    exact (List.prefix_iff_eq_append.mp hinitial).symm

namespace RetainedBatchScanner

/-- The scanner yields what stands below its cursor. -/
theorem pagesFrom_of_answers (hsorted : Descending history)
    (hids : ∀ batch ∈ history, batch.id ≠ "") (hanswers : AnswersFrom repository history)
    {pageSize fuel : ℕ} (n : ℕ) (cursor : Option String) (hsize : 0 < pageSize)
    (hfuel : (below history cursor).length < fuel) :
    let reading := pagesFrom repository pageSize fuel n cursor
    reading.pages.flatten = below history cursor ∧ reading.ending = some .returned := by
  induction fuel generalizing n cursor with
  | zero => omega
  | succ fuel ih =>
      obtain ⟨page, hpage, hinitial, hlength, hempty⟩ := hanswers n pageSize cursor
      have hvalid : validatedPage (repository n pageSize cursor) pageSize = .ok page := by
        rw [hpage, validatedPage, List.length_map, if_neg (not_lt.mpr hlength),
          validatedBatches_eq_ok.mpr rfl]
      rw [pagesFrom, hvalid]
      cases page with
      | nil => simp [hempty hsize rfl]
      | cons batch batches =>
          dsimp only
          obtain ⟨next, hnext, hbelow⟩ :=
            nextCursor_of_prefix hsorted hids hinitial (List.cons_ne_nil _ _)
          have hshorter : (below history (some next)).length < fuel := by
            have hsplit := congrArg List.length hbelow
            rw [List.length_append, List.length_cons] at hsplit
            omega
          obtain ⟨hrest, hending⟩ := ih (n + 1) (some next) hshorter
          rw [advanceCursor, hnext]
          dsimp only
          constructor
          · rw [List.flatten_cons, hrest, hbelow]
          · exact hending

end RetainedBatchScanner

namespace BatchesData

/-- A page is filled with what stands below its cursor, up to the position it hands out; it hands out
none only at the end. -/
theorem repositoryPageFrom_of_answers (hsorted : Descending history)
    (hids : ∀ batch ∈ history, batch.id ≠ "") (hanswers : AnswersFrom repository history)
    (n : ℕ) (batches : List (Option Batch)) (cursor : Option String)
    (hstart : pageSize ≤ batches.length → cursor.isSome) :
    ∃ page next, (repositoryPageFrom repository n batches cursor).result =
        .ok (batches ++ page.map some, next) ∧
      (next = none → page = below history cursor) ∧
      (∀ c, next = some c → below history cursor = page ++ below history (some c) ∧
        pageSize ≤ batches.length + page.length) := by
  -- Induction on what the page still has room for.
  induction hroom : pageSize - batches.length using Nat.strongRecOn generalizing n batches cursor with
  | ind room ih =>
      rw [repositoryPageFrom]
      split
      · rename_i hlength
        obtain ⟨page, hpage, hinitial, -, hempty⟩ :=
          hanswers n (pageSize - batches.length) cursor
        rw [hpage]
        cases page with
        | nil =>
            refine ⟨[], none, by simp, fun _ => ?_, by simp⟩
            exact (hempty (by omega) rfl).symm
        | cons batch rest =>
            obtain ⟨next, hnext, hbelow⟩ :=
              nextCursor_of_prefix hsorted hids hinitial (List.cons_ne_nil _ _)
            have hadvance : advanceCursor (some batch :: rest.map some) cursor = .ok next := by
              rw [advanceCursor, ← List.map_cons, List.getLast?_map, ← hnext]
              cases (batch :: rest).getLast? <;> rfl
            rw [List.map_cons]
            dsimp only
            rw [hadvance]
            dsimp only
            have hshorter :
                pageSize - (batches ++ some batch :: rest.map some).length < room := by
              rw [List.length_append, List.length_cons]
              omega
            obtain ⟨page, next', hresult, hlast, hmore⟩ := ih _ hshorter (n + 1)
              (batches ++ some batch :: rest.map some) (some next) (fun _ => rfl) rfl
            refine ⟨batch :: rest ++ page, next', ?_, fun hnone => ?_, fun c hc => ?_⟩
            · rw [hresult]
              simp
            · rw [hbelow, hlast hnone]
            · obtain ⟨hsplit, hfull⟩ := hmore c hc
              constructor
              · rw [hbelow, hsplit, List.append_assoc]
              · simp only [List.length_append, List.length_cons, List.length_map] at hfull ⊢
                omega
      · rename_i hlength
        have hcursor := hstart (not_lt.mp hlength)
        refine ⟨[], cursor, by simp, fun hnone => ?_, fun c hc => ?_⟩
        · simp [hnone] at hcursor
        · subst hc
          simpa using hlength

/-- A reader who follows the pages is shown what stands below the first position. -/
theorem followPages_of_answers (hsorted : Descending history)
    (hids : ∀ batch ∈ history, batch.id ≠ "") (hanswers : AnswersFrom repository history)
    {fuel : ℕ} (n : ℕ) (cursor : Option String) (hfuel : (below history cursor).length < fuel) :
    let reading := followPages repository fuel n cursor
    reading.pages.flatten = (below history cursor).map some ∧
      reading.ending = some .returned := by
  induction fuel generalizing n cursor with
  | zero => omega
  | succ fuel ih =>
      obtain ⟨page, next, hresult, hlast, hmore⟩ := repositoryPageFrom_of_answers hsorted hids
        hanswers n [] cursor (by simp [pageSize])
      rw [followPages]
      simp only [repositoryPage, hresult, List.nil_append]
      cases next with
      | none =>
          rw [hlast rfl]
          simp
      | some next =>
          obtain ⟨hsplit, hfull⟩ := hmore next rfl
          have hshorter : (below history (some next)).length < fuel := by
            have hlength := congrArg List.length hsplit
            simp only [List.length_append, List.length_nil, pageSize] at hlength hfull
            omega
          obtain ⟨hrest, hending⟩ :=
            ih (repositoryPageFrom repository n [] cursor).calls (some next) hshorter
          constructor
          · simp only [List.flatten_cons, hrest, hsplit, List.map_append]
          · exact hending

end BatchesData

namespace RetainedBatchScanner

/-- **Readers of the repository.** From a repository that answers from a history of batches with ids,
in descending order of these, the scanner yields, and the pages of `repositoryPage` show, every batch
once and in order, and they come to an end. From any repository whatever, the cursors of a run
decrease, and a run over finitely many ids ends, by an exception or not. -/
theorem readers_deliver :
    (∀ (repository : AnyBatchRepository) (history : List Batch), Descending history →
      (∀ batch ∈ history, batch.id ≠ "") → AnswersFrom repository history →
      (∀ pageSize fuel, history.length < fuel →
        (pages repository pageSize fuel).pages.flatten = history ∧
          (pages repository pageSize fuel).ending = some .returned) ∧
      ∀ fuel, history.length < fuel →
        (BatchesData.followPages repository fuel 0 none).pages.flatten = history.map some ∧
          (BatchesData.followPages repository fuel 0 none).ending = some .returned) ∧
    ∀ repository : AnyBatchRepository,
      (∀ pageSize fuel,
        (pages repository pageSize fuel).cursors.Pairwise fun c c' => c' < c) ∧
      (∀ fuel n beforeId, Decreasing beforeId
        (BatchesData.followPages repository fuel n beforeId).cursors) ∧
      ∀ ids, Within repository ids → ∀ fuel, ids.card < fuel →
        (∀ pageSize, (pages repository pageSize fuel).ending ≠ none) ∧
          ∀ n beforeId, (BatchesData.followPages repository fuel n beforeId).ending ≠ none := by
  refine ⟨fun repository history hsorted hids hanswers => ?_, fun repository => ?_⟩
  · have hall : below history none = history := List.filter_eq_self.mpr fun _ _ => rfl
    constructor
    · intro pageSize fuel hfuel
      have hpages := pagesFrom_of_answers hsorted hids hanswers 0 none
        (show 0 < (max 1 pageSize).toNat by omega) (by rwa [hall])
      rwa [hall] at hpages
    · intro fuel hfuel
      have hpages := BatchesData.followPages_of_answers hsorted hids hanswers 0 none
        (by rwa [hall])
      rwa [hall] at hpages
  · refine ⟨fun pageSize fuel => ?_, fun fuel n beforeId => ?_, fun ids hwithin fuel hfuel => ?_⟩
    · exact (pagesFrom_advances repository _ fuel 0 none).1.pairwise
    · exact (BatchesData.followPages_advances repository fuel n beforeId).1
    · constructor
      · intro pageSize hnone
        obtain ⟨hdecreasing, hids, hending⟩ :=
          pagesFrom_advances repository (max 1 pageSize).toNat fuel 0 none
        have hle := hdecreasing.length_le_card (hids ids hwithin)
        rw [hending hnone] at hle
        omega
      · intro n beforeId hnone
        obtain ⟨hdecreasing, hids, hending⟩ :=
          BatchesData.followPages_advances repository fuel n beforeId
        have hle := hdecreasing.length_le_card (hids ids hwithin)
        have hfuel' := hending hnone
        omega

/-- A repository that returns one batch at a time. -/
def oneByOne (history : List Batch) : AnyBatchRepository := fun _ limit before =>
  .page (((below history before).take (min 1 limit)).map some)

/-- The repository of the example answers from the history. -/
theorem answersFrom_oneByOne (history : List Batch) : AnswersFrom (oneByOne history) history := by
  intro n limit before
  refine ⟨_, rfl, List.take_prefix _ _, ?_, fun hlimit hnil => ?_⟩
  · rw [List.length_take]
    omega
  · rcases List.take_eq_nil_iff.mp hnil with h | h
    · omega
    · exact h

/-- Two batches that are returned one at a time are delivered once, in order. -/
theorem readers_deliver_oneByOne :
    (pages (oneByOne [retainedQueueBatch "b" "reports", retainedQueueBatch "a" "reports"]) 100
        3).pages.flatten =
      [retainedQueueBatch "b" "reports", retainedQueueBatch "a" "reports"] := by
  have hdescending : Descending
      [retainedQueueBatch "b" "reports", retainedQueueBatch "a" "reports"] := by
    rw [Descending, List.pairwise_pair]
    show ("a" : String) < "b"
    decide
  have hids : ∀ batch ∈ [retainedQueueBatch "b" "reports", retainedQueueBatch "a" "reports"],
      batch.id ≠ "" := by
    simp [retainedQueueBatch]
  exact ((readers_deliver.1 _ _ hdescending hids (answersFrom_oneByOne _)).1 100 3
    (by decide)).1

/-- A batch without an id is yielded, but the run then ends with an exception. -/
theorem readers_throw_nameless :
    AnswersFrom (oneByOne [retainedQueueBatch "" "reports"]) [retainedQueueBatch "" "reports"] ∧
      Descending [retainedQueueBatch "" "reports"] ∧
      ∀ fuel, (pages (oneByOne [retainedQueueBatch "" "reports"]) 100 (fuel + 1)).ending =
        some (.thrown "The batch repository did not advance its pagination cursor.") :=
  ⟨answersFrom_oneByOne _, List.pairwise_singleton _ _, fun _ => rfl⟩

end RetainedBatchScanner

end HorizonNewDawn

import HorizonNewDawn.BulkOperations.Alone
import HorizonNewDawn.FailedJobs.RetryFailedJob

/-! # Whether there is a failed job to retry

The button that retries all failed jobs is shown where a search through the index finds a job that
can be retried. The search reads the index by ranks and two fields of every hash; the operation
behind the button takes a snapshot, hydrates it through the repository and reads every job again
under a lock. `hasRetryable_iff_dispatches` says that the two agree. -/

namespace HorizonNewDawn

open Program

namespace FailedJobsData

/-- The fields of a job's hash that are read here. -/
structure Hash where
  id : Option String
  status : Option String
  payload : Option String
  retriedBy : Option String

/-- The hashes of the jobs; those of other ids are missing. -/
abbrev Hashes : Type := String → Option Hash

/-- The clients of Redis, which answer differently where a field is missing. -/
inductive Client
  | phpRedis
  | predis

/-- A field as a client reads it. -/
def Client.field (client : Client) : Option String → Php
  | some text => .str text
  | none =>
      match client with
      | .phpRedis => .bool false
      | .predis => .null

/-- `PAGE_SIZE` -/
def pageSize : ℕ := 50

variable (client : Client)

/-- `$retryCandidate`: the answer of `hmget($id, ['payload', 'retried_by'])`. -/
def retryCandidate (hash : Option Hash) : FailedJob where
  id := .null
  payload := client.field (hash.bind (·.payload))
  retriedBy := client.field (hash.bind (·.retriedBy))

/-- The loop of `hasRetryableFromRawIndex`; `failed` is the index, the highest scores first. -/
def rawIndexFrom (hashes : Hashes) (failed : List String) (startingAt : ℕ) : Bool :=
  let ids := (failed.drop startingAt).take (pageSize + 1)
  if ids = [] then false
  else if (ids.take pageSize).any fun id =>
      FailedJobRetryEligibility.allowsBulk (retryCandidate client (hashes id)) then
    true
  else if _hmore : pageSize < ids.length then rawIndexFrom hashes failed (startingAt + pageSize)
  else false
termination_by failed.length - startingAt
decreasing_by
  have hlength : ids.length = min (pageSize + 1) (failed.length - startingAt) := by
    rw [List.length_take, List.length_drop]
  have hpage : pageSize = 50 := rfl
  omega

/-- `hasRetryableFromRawIndex` -/
def hasRetryableFromRawIndex (hashes : Hashes) (failedJobs : SortedSet String ℚ) : Bool :=
  rawIndexFrom client hashes failedJobs.members.reverse 0

/-! ## What stands behind the operation -/

/-- The job repository of Horizon. -/
structure JobRepository where
  getJobs : Hashes → List String → List (Option BulkOperationSnapshot.Job)
  findFailed : Hashes → String → Option FailedJob

/-- The repository returns the jobs that have a hash with an id; a failed job is found where the
status says so, with its fields as they are. -/
structure JobRepository.Reads (repository : JobRepository) : Prop where
  getJobs : ∀ hashes ids jobId, (∃ job, some job ∈ repository.getJobs hashes ids ∧
    job.id = .str jobId) ↔ ∃ id ∈ ids, ∃ hash, hashes id = some hash ∧ hash.id = some jobId
  findFailed : ∀ hashes id hash jobId, hashes id = some hash → hash.id = some jobId →
    hash.status = some "failed" → repository.findFailed hashes id =
      some ⟨.str jobId, client.field hash.payload, client.field hash.retriedBy⟩

/-- What the operation finds: the hashes, the locks, how many tokens have been drawn, and the jobs
that were dispatched so far, the latest first. -/
structure Jobs where
  hashes : Hashes
  locks : String → Option (RetryFailedJob.LockToken Unit)
  drawn : ℕ
  dispatched : List String

/-- The operations of a retry, answered. What Horizon does to the hashes when it retries a job is
`retried`. -/
def performRetry (repository : JobRepository) (retried : String → Hashes → Hashes) :
    (o : RetryFailedJob.Operation Unit) → Jobs → Reply RetryFailedJob.Operation.Answer o × Jobs
  | .randomToken, jobs => (some ((), jobs.drawn), { jobs with drawn := jobs.drawn + 1 })
  | .acquire key token, jobs =>
      match jobs.locks key with
      | none => (some (.str "OK"), { jobs with locks := Function.update jobs.locks key (some token) })
      | some _ => (some .null, jobs)
  | .release key token, jobs =>
      if jobs.locks key = some token then
        (some (), { jobs with locks := Function.update jobs.locks key none })
      else (some (), jobs)
  | .findFailed id, jobs => (some (repository.findFailed jobs.hashes id), jobs)
  | .dispatch id, jobs =>
      (some (), { jobs with
        hashes := retried id jobs.hashes
        dispatched := id :: jobs.dispatched })

variable (sha256 : String → String) (repository : JobRepository)
  (retried : String → Hashes → Hashes)

/-- `handleBulk` on its own -/
def handleBulk (id : String) (jobs : Jobs) : Option Bool × Jobs :=
  match (RetryFailedJob.Call.program sha256 ⟨id, none, true⟩ :
      RetryFailedJob.RetryProgram Unit Bool).eval (performRetry repository retried) jobs with
  | (.returned retried, jobs) => (some retried, jobs)
  | (_, jobs) => (none, jobs)

/-- The repository and the handlers as the operation meets them; only `handleBulk` is called. -/
def surroundings : BulkOperationSnapshot.Surroundings Jobs where
  getJobs jobs ids := repository.getJobs jobs.hashes ids
  handle
    | .handleBulk, id, jobs => handleBulk sha256 repository retried id jobs
    | _, _, jobs => (none, jobs)

/-! ## The search -/

variable {client}

/-- A job that the search finds. -/
def Retryable (client : Client) (hashes : Hashes) (id : String) : Prop :=
  FailedJobRetryEligibility.allowsBulk (retryCandidate client (hashes id))

/-- The pages cover the index from where they start. -/
theorem rawIndexFrom_iff {hashes : Hashes} {failed : List String} (startingAt : ℕ) :
    rawIndexFrom client hashes failed startingAt ↔
      ∃ id ∈ failed.drop startingAt, Retryable client hashes id := by
  induction h : failed.length - startingAt using Nat.strong_induction_on generalizing startingAt with
  | _ n ih =>
    have hpage : pageSize = 50 := rfl
    have hlength : ((failed.drop startingAt).take (pageSize + 1)).length =
        min (pageSize + 1) (failed.length - startingAt) := by
      rw [List.length_take, List.length_drop]
    have hfirst : ((failed.drop startingAt).take (pageSize + 1)).take pageSize =
        (failed.drop startingAt).take pageSize := by
      rw [List.take_take, Nat.min_eq_left (Nat.le_succ _)]
    rw [rawIndexFrom, hfirst]
    split_ifs with hempty hfound hmore
    · have hnone : failed.drop startingAt = [] := by
        rw [List.take_eq_nil_iff] at hempty
        exact hempty.resolve_left (Nat.succ_ne_zero _)
      simp [hnone]
    · obtain ⟨id, hid, hretryable⟩ := List.any_eq_true.mp hfound
      exact iff_of_true rfl ⟨id, List.mem_of_mem_take hid, hretryable⟩
    · rw [ih (failed.length - (startingAt + pageSize)) (by omega) (startingAt + pageSize) rfl]
      constructor
      · rintro ⟨id, hid, hretryable⟩
        rw [← List.drop_drop] at hid
        exact ⟨id, List.mem_of_mem_drop hid, hretryable⟩
      · rintro ⟨id, hid, hretryable⟩
        rw [← List.take_append_drop pageSize (failed.drop startingAt), List.mem_append] at hid
        rcases hid with hid | hid
        · exact (hfound (List.any_eq_true.mpr ⟨id, hid, hretryable⟩)).elim
        · rw [List.drop_drop] at hid
          exact ⟨id, hid, hretryable⟩
    · refine iff_of_false not_false ?_
      rintro ⟨id, hid, hretryable⟩
      have hall : (failed.drop startingAt).take pageSize = failed.drop startingAt :=
        List.take_of_length_le (by rw [List.length_drop]; omega)
      exact hfound (List.any_eq_true.mpr ⟨id, by rw [hall]; exact hid, hretryable⟩)

/-- The raw index finds a job that can be retried, where there is one. -/
theorem hasRetryableFromRawIndex_iff {hashes : Hashes} {failedJobs : SortedSet String ℚ} :
    hasRetryableFromRawIndex client hashes failedJobs ↔
      ∃ id ∈ failedJobs, Retryable client hashes id := by
  rw [hasRetryableFromRawIndex, rawIndexFrom_iff, List.drop_zero]
  simp only [List.mem_reverse, SortedSet.mem_iff_members]

/-! ## The operation -/

variable {sha256 : String → String} {repository : JobRepository}
  {retried : String → Hashes → Hashes} {jobs : Jobs} {id : String}

/-- A job that is dispatched when its turn comes. -/
def Allowed (repository : JobRepository) (hashes : Hashes) (id : String) : Prop :=
  ∃ job, repository.findFailed hashes id = some job ∧ job.id = .str id ∧
    FailedJobRetryEligibility.allowsBulk job

/-- What a retry leads to, under the lock or without it. -/
def Retried (repository : JobRepository) (jobs : Jobs) (id : String) (dispatched : Bool)
    (jobs' : Jobs) : Prop :=
  jobs'.locks = jobs.locks ∧
    (dispatched = true ∧ Allowed repository jobs.hashes id ∧
        jobs'.dispatched = id :: jobs.dispatched ∨
      dispatched = false ∧ ¬Allowed repository jobs.hashes id ∧
        jobs'.dispatched = jobs.dispatched ∧ jobs'.hashes = jobs.hashes)

/-- **A retry** dispatches the job where this is allowed. -/
theorem leads_retry (jobs : Jobs) (id : String) :
    Prog.Leads (performRetry repository retried) (RetryFailedJob.retry id none true) jobs
      (Retried repository jobs id) := by
  refine Prog.Leads.bind (Q := fun found jobs' => found = repository.findFailed jobs.hashes id ∧
    jobs' = jobs) ⟨_, _, rfl, rfl, rfl⟩ ?_
  rintro found jobs' ⟨hfound, rfl⟩
  cases found with
  | none =>
      refine Prog.Leads.ret ⟨rfl, Or.inr ⟨rfl, ?_, rfl, rfl⟩⟩
      rintro ⟨job, hjob, -⟩
      rw [← hfound] at hjob
      cases hjob
  | some job =>
      have hnot : ¬(job.id = .str id ∧ FailedJobRetryEligibility.allowsBulk job) →
          ¬Allowed repository jobs'.hashes id := by
        rintro hjob ⟨job', hjob', hallowed⟩
        rw [← hfound, Option.some.injEq] at hjob'
        exact hjob (hjob' ▸ hallowed)
      dsimp only
      split
      case h_1 jobId hid =>
        split_ifs with hother hallowed
        · refine Prog.Leads.ret ⟨rfl, Or.inr ⟨rfl, hnot fun hjob => hother ?_, rfl, rfl⟩⟩
          rw [hid] at hjob
          exact Php.str.inj hjob.1
        · obtain rfl := not_not.mp hother
          exact ⟨_, _, rfl, rfl, Or.inl ⟨rfl, ⟨job, hfound.symm, hid, hallowed⟩, rfl⟩⟩
        · exact Prog.Leads.ret ⟨rfl, Or.inr ⟨rfl, hnot fun hjob => hallowed hjob.2, rfl, rfl⟩⟩
      case h_2 hid =>
        exact Prog.Leads.ret ⟨rfl, Or.inr ⟨rfl, hnot fun hjob => hid id hjob.1, rfl, rfl⟩⟩

/-- **One job**: where its lock is free, it is dispatched if that is allowed, and the lock is free
again. -/
theorem handleBulk_spec (hlock : jobs.locks (FailedJobRetryLock.key sha256 id) = none) :
    ∃ dispatched jobs', handleBulk sha256 repository retried id jobs = (some dispatched, jobs') ∧
      Retried repository jobs id dispatched jobs' := by
  let key := FailedJobRetryLock.key sha256 id
  let token : RetryFailedJob.LockToken Unit := ((), jobs.drawn)
  let drawn : Jobs := { jobs with drawn := jobs.drawn + 1 }
  let locked : Jobs := { drawn with locks := Function.update jobs.locks key (some token) }
  obtain ⟨dispatched, jobs', heval, hlocks, hretried⟩ :=
    @leads_retry repository retried locked id
  refine ⟨dispatched, { jobs' with locks := jobs.locks }, ?_, rfl, hretried⟩
  have htoken : Prog.eval (performRetry repository retried)
      (RetryFailedJob.request .randomToken : RetryFailedJob.RetryProgram Unit _) jobs =
        (.returned token, drawn) := rfl
  have hacquire : Prog.eval (performRetry repository retried)
      (RetryFailedJob.request (.acquire key token) : RetryFailedJob.RetryProgram Unit Php) drawn =
        (.returned (.str "OK"), locked) := by
    have hperform : performRetry repository retried (.acquire key token) drawn =
        (some (.str "OK"), locked) := by
      simp only [performRetry, drawn, key, hlock]
      rfl
    exact Prog.eval_request hperform
  have hrelease : Prog.eval (performRetry repository retried)
      ((RetryFailedJob.attempt (.release key token) :
        RetryFailedJob.RetryProgram Unit (Option Unit)) >>= fun _ => .ret ()) jobs' =
        (.returned (), { jobs' with locks := jobs.locks }) := by
    have hheld : jobs'.locks key = some token := by
      rw [hlocks]
      exact Function.update_self _ _ _
    have hfree : Function.update jobs'.locks key none = jobs.locks := by
      rw [hlocks, Function.update_idem, Function.update_eq_self_iff]
      exact hlock.symm
    have hperform : performRetry repository retried (.release key token) jobs' =
        (some (), { jobs' with locks := jobs.locks }) := by
      simp only [performRetry, hheld, hfree, if_pos]
    show (Outcome.returned (), (performRetry repository retried (.release key token) jobs').2) = _
    rw [hperform]
  have hprogram : (RetryFailedJob.Call.program sha256 ⟨id, none, true⟩ :
      RetryFailedJob.RetryProgram Unit Bool).eval (performRetry repository retried) jobs =
        (.returned dispatched, { jobs' with locks := jobs.locks }) := by
    rw [RetryFailedJob.Call.program, RetryFailedJob.handleWithPolicy, if_pos rfl,
      FailedJobRetryLock.run, Prog.eval_bind_of htoken, Prog.eval_bind_of hacquire,
      if_pos (by decide)]
    refine Prog.eval_tryFinally_of ?_ hrelease
    rw [Prog.eval_inside]
    exact heval
  rw [handleBulk, hprogram]

/-- Every live hash that the index refers to belongs to a failed job, and has its own id. -/
def Live (hashes : Hashes) (failedJobs : SortedSet String ℚ) : Prop :=
  ∀ id ∈ failedJobs, ∀ hash, hashes id = some hash → hash.id = some id ∧ hash.status = some "failed"

variable {hashes : Hashes} {failedJobs : SortedSet String ℚ}

/-- A job without a hash cannot be retried. -/
theorem not_retryable_of_missing (hmissing : hashes id = none) : ¬Retryable client hashes id := by
  rw [Retryable, hmissing]
  cases client <;> exact Bool.false_ne_true

/-- A retry is allowed where the raw index finds the job. -/
theorem allowed_iff (hreads : repository.Reads client) {hash : Hash} (hhash : hashes id = some hash)
    (hid : hash.id = some id) (hstatus : hash.status = some "failed") :
    Allowed repository hashes id ↔ Retryable client hashes id := by
  have hfound := hreads.findFailed hashes id hash id hhash hid hstatus
  have hsame : Retryable client hashes id ↔ FailedJobRetryEligibility.allowsBulk
      ⟨.str id, client.field hash.payload, client.field hash.retriedBy⟩ := by
    rw [Retryable, retryCandidate, hhash]
    rfl
  rw [hsame]
  constructor
  · rintro ⟨job, hjob, -, hallowed⟩
    rw [hfound, Option.some.injEq] at hjob
    rw [hjob]
    exact hallowed
  · exact fun hallowed => ⟨_, hfound, rfl, hallowed⟩

open BulkOperationSnapshot in
/-- A job is not hydrated where none with its id is found. -/
theorem hydratedJob_eq_none {found : List (Option Job)} (hne : id ≠ "") :
    hydratedJob found id = none ↔ ¬∃ job, some job ∈ found ∧ job.id = .str id := by
  rw [hydratedJob, Option.map_eq_none_iff, List.find?_eq_none]
  constructor
  · rintro hnone ⟨job, hjob, hid⟩
    refine hnone (id, job) (List.mem_reverse.mpr (List.mem_filterMap.mpr ⟨some job, hjob, ?_⟩))
      (decide_eq_true rfl)
    simp only [hid, if_neg hne]
  · rintro hnone ⟨id', job⟩ hmem hid
    obtain rfl : id' = id := by simpa using hid
    obtain ⟨entry, hentry, hsome⟩ := List.mem_filterMap.mp (List.mem_reverse.mp hmem)
    cases entry with
    | none => cases hsome
    | some job' =>
        dsimp only at hsome
        split at hsome
        case h_1 jobId hjobId =>
          split_ifs at hsome
          rw [Option.some.injEq, Prod.mk.injEq] at hsome
          exact hnone ⟨job', hentry, by rw [hjobId, hsome.1]⟩
        case h_2 => cases hsome

/-- A chunk skips what has no hash. -/
theorem skips_iff (hreads : repository.Reads client) (hlive : Live hashes failedJobs)
    {ids : List String} (hids : ∀ id ∈ ids, id ∈ failedJobs) (hid : id ∈ ids) (hne : id ≠ "") :
    RetryAllFailedJobs.skips none none (repository.getJobs hashes ids) id ↔ hashes id = none := by
  have hnone : BulkOperationSnapshot.hydratedJob (repository.getJobs hashes ids) id = none ↔
      hashes id = none := by
    rw [hydratedJob_eq_none hne, hreads.getJobs]
    constructor
    · intro hmissing
      cases hhash : hashes id with
      | none => rfl
      | some hash =>
          exact (hmissing ⟨id, hid, hash, hhash, (hlive id (hids id hid) hash hhash).1⟩).elim
    · rintro hmissing ⟨id', hid', hash, hhash, hjobId⟩
      have hown := (hlive id' (hids id' hid') hash hhash).1
      rw [hjobId, Option.some.injEq] at hown
      rw [← hown, hmissing] at hhash
      cases hhash
  rw [← hnone, RetryAllFailedJobs.skips]
  cases BulkOperationSnapshot.hydratedJob (repository.getJobs hashes ids) id with
  | none => exact iff_of_true rfl rfl
  | some job => exact iff_of_false Bool.false_ne_true (Option.some_ne_none job)

/-- While jobs are retried: no lock is held between two of them, and as long as none has been
dispatched, the hashes are the old ones and none of the jobs that are done with could be retried. -/
structure Known (client : Client) (hashes : Hashes) (done : Set String) (jobs : Jobs) : Prop where
  locks : ∀ key, jobs.locks key = none
  unchanged : jobs.dispatched = [] → jobs.hashes = hashes
  dispatched : jobs.dispatched = [] ↔ ∀ id ∈ done, ¬Retryable client hashes id

/-- What is known after one more job. -/
theorem Known.insert {done : Set String} (h : Known client hashes done jobs)
    (hid : jobs.dispatched = [] → ¬Retryable client hashes id) :
    Known client hashes (insert id done) jobs where
  locks := h.locks
  unchanged := h.unchanged
  dispatched := by
    rw [Set.forall_mem_insert, ← h.dispatched]
    exact ⟨fun hnil => ⟨hid hnil, hnil⟩, fun hall => hall.2⟩

/-- **Every retry** leads on to what is known after it. -/
theorem known_progresses (hreads : repository.Reads client) (hlive : Live hashes failedJobs) :
    BulkOperationSnapshot.Progresses (surroundings sha256 repository retried)
      {id | id ∈ failedJobs} (Known client hashes) := by
  intro ids done₀ done jobs₀ jobs id hids hjobs₀ hdone hjobs hid hne
  -- As long as nothing has been dispatched, the chunk was hydrated from the old hashes.
  have hskips : jobs.dispatched = [] → (RetryAllFailedJobs.skips none none
      ((surroundings sha256 repository retried).getJobs jobs₀ ids) id ↔ hashes id = none) := by
    intro hnil
    have hnil₀ := hjobs₀.dispatched.mpr fun id' hid' => hjobs.dispatched.mp hnil id' (hdone hid')
    show RetryAllFailedJobs.skips none none (repository.getJobs jobs₀.hashes ids) id ↔ _
    rw [hjobs₀.unchanged hnil₀]
    exact skips_iff hreads hlive hids hid hne
  split_ifs with hskip
  · exact hjobs.insert fun hnil => not_retryable_of_missing ((hskips hnil).mp hskip)
  · obtain ⟨dispatched, jobs', hhandle, hlocks, hretried⟩ :=
      @handleBulk_spec sha256 repository retried jobs id (hjobs.locks _)
    refine ⟨dispatched, jobs', hhandle, ?_⟩
    have hallowed : jobs.dispatched = [] →
        (Allowed repository jobs.hashes id ↔ Retryable client hashes id) := by
      intro hnil
      cases hhash : hashes id with
      | none => exact absurd ((hskips hnil).mpr hhash) hskip
      | some hash =>
          obtain ⟨hown, hstatus⟩ := hlive id (hids id hid) hash hhash
          rw [hjobs.unchanged hnil]
          exact allowed_iff hreads hhash hown hstatus
    rcases hretried with ⟨-, hallow, hlog⟩ | ⟨-, hdeny, hlog, hhashes⟩
    · refine ⟨fun key => by rw [hlocks, hjobs.locks], fun hnil => ?_, ?_⟩
      · rw [hlog] at hnil
        cases hnil
      · refine iff_of_false (by rw [hlog]; exact List.cons_ne_nil _ _) fun hnone => ?_
        obtain ⟨hnot, hrest⟩ := Set.forall_mem_insert.mp hnone
        have hnil := hjobs.dispatched.mpr hrest
        exact hnot ((hallowed hnil).mp hallow)
    · have hknown : Known client hashes done jobs' := by
        refine ⟨fun key => by rw [hlocks, hjobs.locks], fun hnil => ?_, ?_⟩
        · rw [hhashes]
          exact hjobs.unchanged (hlog ▸ hnil)
        · rw [hlog]
          exact hjobs.dispatched
      refine hknown.insert fun hnil hretryable => hdeny ?_
      rw [hlog] at hnil
      exact (hallowed hnil).mpr hretryable

/-- What the operation dispatches, where it starts from these hashes and no lock is held. -/
theorem dispatches_iff (hreads : repository.Reads client) {store : BulkOperationSnapshot.Store}
    (hunused : BulkOperationSnapshot.Unused store)
    (hlive : Live hashes (store.sources "failed_jobs")) (drawn : ℕ)
    {schedule : List (Option BulkOperationSnapshot.OperationId)}
    (hschedule : (store.sources "failed_jobs").card < schedule.length) :
    ∃ result after,
      ((BulkOperationSnapshot.Action.retryAllFailedJobs none none).operation schedule none).eval
          (surroundings sha256 repository retried).exec (store, ⟨hashes, fun _ => none, drawn, []⟩) =
        (.returned (some result), after) ∧ result.complete ∧
      (after.2.dispatched ≠ [] ↔ ∃ id ∈ store.sources "failed_jobs",
        BulkOperationSnapshot.Plain id ∧ Retryable client hashes id) := by
  have hknown : Known client hashes ∅ ⟨hashes, fun _ => none, drawn, []⟩ :=
    ⟨fun _ => rfl, fun _ => rfl, iff_of_true rfl fun _ hid => absurd hid (Set.notMem_empty _)⟩
  obtain ⟨r, after, heval, result, rfl, hcomplete, hdone⟩ :=
    BulkOperationSnapshot.leads_operation (x := (store, ⟨hashes, fun _ => none, drawn, []⟩))
      (@known_progresses client sha256 repository retried hashes _ hreads hlive) hschedule hunused
      hknown
  refine ⟨result, after, heval, hcomplete, ?_⟩
  rw [Ne, hdone.dispatched]
  simp only [Set.mem_ofPred_eq, not_forall, not_not, exists_prop, and_assoc]

/-- **The button** is shown exactly where the operation behind it dispatches a retry. -/
theorem hasRetryable_iff_dispatches (sha256 : String → String) (retried : String → Hashes → Hashes)
    (hreads : repository.Reads client) {store : BulkOperationSnapshot.Store}
    (hunused : BulkOperationSnapshot.Unused store)
    (hlive : Live hashes (store.sources "failed_jobs"))
    (hplain : ∀ id ∈ store.sources "failed_jobs", Retryable client hashes id →
      BulkOperationSnapshot.Plain id) (drawn : ℕ)
    {schedule : List (Option BulkOperationSnapshot.OperationId)}
    (hschedule : (store.sources "failed_jobs").card < schedule.length) :
    ∃ result after,
      ((BulkOperationSnapshot.Action.retryAllFailedJobs none none).operation schedule none).eval
          (surroundings sha256 repository retried).exec (store, ⟨hashes, fun _ => none, drawn, []⟩) =
        (.returned (some result), after) ∧ result.complete ∧
      (hasRetryableFromRawIndex client hashes (store.sources "failed_jobs") ↔
        after.2.dispatched ≠ []) := by
  obtain ⟨result, after, heval, hcomplete, hdispatched⟩ :=
    @dispatches_iff client sha256 repository retried hashes hreads store hunused hlive drawn schedule
      hschedule
  refine ⟨result, after, heval, hcomplete, ?_⟩
  rw [hdispatched, hasRetryableFromRawIndex_iff]
  constructor
  · rintro ⟨id, hid, hretryable⟩
    exact ⟨id, hid, hplain id hid hretryable, hretryable⟩
  · rintro ⟨id, hid, -, hretryable⟩
    exact ⟨id, hid, hretryable⟩

/-! ## A repository -/

/-- The repository of Horizon: `getJobs` keeps the hashes with an id, `findFailed` asks for the status
too. -/
def horizon (client : Client) : JobRepository where
  getJobs hashes ids := ids.map fun id => (hashes id).bind fun hash => hash.id.map fun jobId =>
    ⟨.str jobId, .null, .null⟩
  findFailed hashes id := (hashes id).bind fun hash => hash.id.bind fun jobId =>
    if hash.status = some "failed" then
      some ⟨.str jobId, client.field hash.payload, client.field hash.retriedBy⟩
    else none

/-- The repository of the example reads the hashes. -/
theorem horizon_reads (client : Client) : (horizon client).Reads client where
  getJobs hashes ids jobId := by
    simp only [horizon, List.mem_map, Option.bind_eq_some_iff, Option.map_eq_some_iff]
    constructor
    · rintro ⟨job, ⟨id, hid, hash, hhash, jobId', hjobId, rfl⟩, hjob⟩
      obtain rfl := Php.str.inj hjob
      exact ⟨id, hid, hash, hhash, hjobId⟩
    · rintro ⟨id, hid, hash, hhash, hjobId⟩
      exact ⟨_, ⟨id, hid, hash, hhash, jobId, hjobId, rfl⟩, rfl⟩
  findFailed hashes id hash jobId hhash hjobId hstatus := by
    simp [horizon, hhash, hjobId, hstatus]

/-- One failed job under the id given. -/
def onlyJob (id : String) : Hashes := fun id' =>
  if id' = id then some ⟨some id, some "failed", some "\x7b\x7d", none⟩ else none

/-- An index with some references. -/
def references (ids : List String) : BulkOperationSnapshot.Store :=
  { BulkOperationSnapshot.oneFailedJob with
    sources := fun _ => (∅ : SortedSet String ℚ).insertAll (ids.map fun id => (id, 0)) }

/-- The source of the example has these references. -/
theorem mem_references {ids : List String} {id : String} {key : String} :
    id ∈ (references ids).sources key ↔ id ∈ ids := by
  show id ∈ (∅ : SortedSet String ℚ).insertAll _ ↔ _
  rw [SortedSet.mem_insertAll, List.map_map]
  simp [Function.comp_def]

/-- The hash it leads to is that of a failed job. -/
theorem live_onlyJob (ids : List String) (id : String) :
    Live (onlyJob id) ((references ids).sources "failed_jobs") := by
  intro id' _ hash hhash
  rw [onlyJob] at hhash
  split at hhash
  · rename_i heq
    cases hhash
    exact ⟨congrArg some heq.symm, rfl⟩
  · cases hhash

/-- It can be retried. -/
theorem retryable_onlyJob (id : String) : Retryable .phpRedis (onlyJob id) id := by
  rw [Retryable, retryCandidate, onlyJob, if_pos rfl]
  show FailedJobRetryEligibility.allowsBulk ⟨.null, .str "\x7b\x7d", .bool false⟩ = true
  decide +kernel

/-- No operation has begun. -/
theorem unused_references (ids : List String) : BulkOperationSnapshot.Unused (references ids) :=
  ⟨fun _ => rfl, fun _ => rfl⟩

/-- With more rounds than references there are enough. -/
theorem card_references {ids : List String} {n : ℕ} (h : ids.length < n) :
    ((references ids).sources "failed_jobs").card < n := by
  have hle : ((∅ : SortedSet String ℚ).insertAll (ids.map fun id => (id, 0))).card ≤
      (ids.map fun id => (id, (0 : ℚ))).length := SortedSet.card_insertAll_le
  rw [List.length_map] at hle
  exact Nat.lt_of_le_of_lt hle h

/-- Two references, one of which leads to no job any more: the button is shown and dispatches a retry of the
other one. -/
theorem hasRetryable_iff_dispatches_live : ∃ result after,
    ((BulkOperationSnapshot.Action.retryAllFailedJobs none none).operation [none, none, none] none).eval
        (surroundings (fun s => s) (horizon .phpRedis) fun _ hashes => hashes).exec
        (references ["gone", "job"], ⟨onlyJob "job", fun _ => none, 0, []⟩) =
      (.returned (some result), after) ∧
    hasRetryableFromRawIndex .phpRedis (onlyJob "job")
      ((references ["gone", "job"]).sources "failed_jobs") ∧ after.2.dispatched ≠ [] := by
  have hplain : ∀ id ∈ (references ["gone", "job"]).sources "failed_jobs",
      Retryable .phpRedis (onlyJob "job") id → BulkOperationSnapshot.Plain id := by
    have hall : ∀ id ∈ ["gone", "job"], BulkOperationSnapshot.Plain id := by decide
    exact fun id hid _ => hall id (mem_references.mp hid)
  have hbound : ["gone", "job"].length < [none, none, (none : Option ℕ)].length := by decide
  obtain ⟨result, after, heval, -, hbutton⟩ := hasRetryable_iff_dispatches (fun s => s)
    (fun _ hashes => hashes) (horizon_reads .phpRedis) (unused_references ["gone", "job"])
    (live_onlyJob _ "job") hplain 0 (card_references hbound)
  have hraw : hasRetryableFromRawIndex .phpRedis (onlyJob "job")
      ((references ["gone", "job"]).sources "failed_jobs") :=
    hasRetryableFromRawIndex_iff.mpr ⟨"job", mem_references.mpr (by simp), retryable_onlyJob "job"⟩
  exact ⟨result, after, heval, hraw, hbutton.mp hraw⟩

/-- The operation passes over a job whose id is an integer-like key. -/
theorem hasRetryable_passedOver :
    hasRetryableFromRawIndex .phpRedis (onlyJob "7")
        ((references ["7"]).sources "failed_jobs") ∧
      ∃ result after,
        ((BulkOperationSnapshot.Action.retryAllFailedJobs none none).operation [none, none]
            none).eval (surroundings (fun s => s) (horizon .phpRedis) fun _ hashes => hashes).exec
            (references ["7"], ⟨onlyJob "7", fun _ => none, 0, []⟩) =
          (.returned (some result), after) ∧ result.complete ∧ after.2.dispatched = [] := by
  refine ⟨hasRetryableFromRawIndex_iff.mpr
    ⟨"7", mem_references.mpr List.mem_cons_self, retryable_onlyJob "7"⟩, ?_⟩
  have hbound : ["7"].length < [none, (none : Option ℕ)].length := by decide
  obtain ⟨result, after, heval, hcomplete, hdispatched⟩ :=
    @dispatches_iff .phpRedis (fun s => s) (horizon .phpRedis) (fun _ hashes => hashes) _
      (horizon_reads .phpRedis) _ (unused_references ["7"]) (live_onlyJob _ "7") 0 _
      (card_references hbound)
  refine ⟨result, after, heval, hcomplete, not_not.mp (hdispatched.not.mpr ?_)⟩
  rintro ⟨id, hid, hplain, -⟩
  obtain rfl := List.mem_singleton.mp (mem_references.mp hid)
  exact absurd hplain.2 (by decide)

end FailedJobsData

end HorizonNewDawn

import HorizonNewDawn.FailedJobs.FailedJobRetryEligibility
import HorizonNewDawn.Program.Faults
import HorizonNewDawn.Program.Interleaving
import Mathlib.Data.List.Forall2

/-! # Retrying failed jobs, one call at a time

A failed job is retried by single calls and by the chunks of bulk operations, any number of them at
once. A call takes a lock of the job under a token of its own, reads the job again, decides by the
retries Horizon has recorded whether another one is allowed, and dispatches it. The lock expires,
but not while the callback of its holder runs.

`retries_exclusive` says what that is good for: a bulk call dispatches a retry only where none is
recorded, a single call only where all recorded ones have failed, so that there are never two
retries of a job that have not failed and at most one retry by a bulk call. -/

namespace HorizonNewDawn

open Program

namespace RetryFailedJob

/-! ## The store -/

/-- A token: the process that drew it, and how many tokens it had drawn before. -/
abbrev LockToken (Pid : Type) : Type := Pid × ℕ

/-- The fields of a failed job's hash, apart from `retried_by`. -/
structure FailedRecord where
  id : Php
  payload : Php

/-- A dispatch by a process, with the retries that were recorded before it. -/
structure Dispatch (Pid : Type) where
  pid : Pid
  id : String
  before : List Retry

/-- The locks, the failed jobs and their recorded retries, how many tokens every process has drawn,
the retry that is dispatched next, the fate of the next operation, and the dispatches so far, the
latest first. Nothing reads `log`. -/
structure Store (Pid : Type) where
  locks : String → Option (LockToken Pid)
  failed : String → Option FailedRecord
  retries : String → List Retry
  drawn : Pid → ℕ
  upcoming : Retry
  fate : Fate
  log : List (Dispatch Pid)

variable {Pid : Type}

/-- The dispatches of one job, the latest first. -/
def Store.dispatches (s : Store Pid) (id : String) : List (Dispatch Pid) :=
  s.log.filter fun entry => entry.id = id

/-- The atomic operations of a retry. -/
inductive Operation (Pid : Type)
  /-- `bin2hex(random_bytes(16))` -/
  | randomToken
  /-- `ACQUIRE_SCRIPT` -/
  | acquire (key : String) (token : LockToken Pid)
  /-- `RELEASE_SCRIPT` -/
  | release (key : String) (token : LockToken Pid)
  /-- `JobRepository::findFailed` -/
  | findFailed (id : String)
  /-- Horizon's `RetryFailedJob`: it pushes the retry and records it. -/
  | dispatch (id : String)

/-- The answers of the operations. -/
abbrev Operation.Answer : Operation Pid → Type
  | .randomToken => LockToken Pid
  | .acquire _ _ => Php
  | .release _ _ => Unit
  | .findFailed _ => Option FailedJob
  | .dispatch _ => Unit

variable [DecidableEq Pid]

/-- The answer of an operation of the process `i`, and the store after it. -/
def perform (i : Pid) : (o : Operation Pid) → Store Pid → o.Answer × Store Pid
  | .randomToken, s =>
      ((i, s.drawn i), { s with drawn := Function.update s.drawn i (s.drawn i + 1) })
  | .acquire key token, s =>
      match s.locks key with
      | none => (.str "OK", { s with locks := Function.update s.locks key (some token) })
      | some _ => (.null, s)
  | .release key token, s =>
      if s.locks key = some token then
        ((), { s with locks := Function.update s.locks key none })
      else ((), s)
  | .findFailed id, s =>
      ((s.failed id).map fun job => ⟨job.id, job.payload, Retry.retriedBy (s.retries id)⟩, s)
  | .dispatch id, s =>
      -- Horizon's job does nothing where the failed job is gone.
      ((), { s with
        retries := if (s.failed id).isSome then
            Function.update s.retries id
              (s.retries id ++ [{ s.upcoming with status := "pending" }])
          else s.retries
        log := ⟨i, id, s.retries id⟩ :: s.log })

/-- An operation of the process `i` under the fate that awaits it. -/
abbrev exec (i : Pid) (o : Operation Pid) (s : Store Pid) : Reply Operation.Answer o × Store Pid :=
  underFate Store.fate (perform i) o s

/-! ## The calls -/

/-- The section of the callback that runs under a lock. -/
inductive Section
  | callback

/-- The exception of an operation that failed. -/
inductive RetryFailure
  | thrown

/-- Programs over the operations. -/
abbrev RetryProgram (Pid α : Type) : Type :=
  Prog (Operation Pid) (Reply Operation.Answer) Section RetryFailure α

/-- One operation, or its exception. -/
abbrev request (o : Operation Pid) : RetryProgram Pid o.Answer := Prog.request .thrown o

/-- One operation, with `none` for an exception. -/
abbrev attempt (o : Operation Pid) : RetryProgram Pid (Option o.Answer) := Prog.attempt o

end RetryFailedJob

namespace FailedJobRetryLock

open RetryFailedJob

variable {Pid : Type} (sha256 : String → String)

/-- `key` -/
def key (id : String) : String :=
  "\x1fhorizon-new-dawn:v1:failed-job-retry-lock:" ++ sha256 id

/-- `acquired`; a status of the client stands for its text. -/
def acquired (result : Php) : Bool :=
  match result with
  | .bool true => true
  | .int n => n = 1
  | .str status => status = "OK"
  | _ => false

/-- `run` -/
def run (id : String) (callback : RetryProgram Pid Bool) : RetryProgram Pid Bool := do
  let token ← (request .randomToken : RetryProgram Pid (LockToken Pid))
  let result ← (request (.acquire (key sha256 id) token) : RetryProgram Pid Php)
  if acquired result then
    (callback.inside .callback).tryFinally do
      -- An exception is swallowed: the lock expires.
      let _ ← (attempt (.release (key sha256 id) token) : RetryProgram Pid (Option Unit))
      return ()
  else return false

end FailedJobRetryLock

namespace RetryFailedJob

variable {Pid : Type} (sha256 : String → String)

/-- `$allowed` of `retry` -/
def allowed (bulk : Bool) (job : FailedJob) : Bool :=
  if bulk then FailedJobRetryEligibility.allowsBulk job else FailedJobRetryEligibility.allows job

/-- `retry` -/
def retry (id : String) (job : Option FailedJob) (bulk : Bool) : RetryProgram Pid Bool := do
  let found ← (match job with
    | some job => pure (some job)
    | none => request (.findFailed id) : RetryProgram Pid (Option FailedJob))
  match found with
  | none => return false
  | some job =>
      match job.id with
      | .str jobId =>
          if jobId ≠ id then return false
          else if allowed bulk job then do
            (request (.dispatch id) : RetryProgram Pid Unit)
            return true
          else return false
      | _ => return false

/-- `handleWithPolicy`; the application binds the action with a lock. -/
def handleWithPolicy (lock : Bool) (id : String) (job : Option FailedJob) (bulk : Bool) :
    RetryProgram Pid Bool :=
  if lock then FailedJobRetryLock.run sha256 id (retry id none bulk)
  else retry id job bulk

/-- A call of `handle`, or of `handleBulk`. -/
structure Call where
  id : String
  job : Option FailedJob
  bulk : Bool

/-- `handle` and `handleBulk`, of the action as the application binds it -/
def Call.program (call : Call) : RetryProgram Pid Bool :=
  handleWithPolicy sha256 true call.id call.job call.bulk

/-! ## The system -/

/-- The programs left to the calls, and the store. -/
abbrev System (Pid : Type) : Type :=
  Config Pid (Operation Pid) (Reply Operation.Answer) Section RetryFailure (Store Pid) Bool

/-- All calls about to start. -/
def start (calls : Pid → Call) (s : Store Pid) : System Pid where
  prog i := (calls i).program sha256
  store := s

/-- What outcomes may do to recorded retries: a failed retry remains failed. -/
def Aged (before after : List Retry) : Prop :=
  List.Forall₂ (fun retry retry' => retry'.id = retry.id ∧
    (retry.status = "failed" → retry'.status = "failed")) before after

/-- What the world may do: locks expire, outcomes of retries are recorded, failed jobs change or go
for good, and operations begin to fail and cease to. -/
structure World (s s' : Store Pid) : Prop where
  locks : ∀ key, s'.locks key = s.locks key ∨ s'.locks key = none
  retries : ∀ id, Aged (s.retries id) (s'.retries id)
  failed : ∀ id, s.failed id = none → s'.failed id = none
  drawn : s'.drawn = s.drawn
  log : s'.log = s.log

/-- The lease of a lock does not expire while the callback of a call runs. -/
def LeaseHolds (calls : Pid → Call) (d : System Pid) (e : Event Pid) (d' : System Pid) : Prop :=
  e = .world → ∀ i, .callback ∈ (d.prog i).sections →
    d'.store.locks (FailedJobRetryLock.key sha256 (calls i).id) =
      d.store.locks (FailedJobRetryLock.key sha256 (calls i).id)

/-! ## The invariant -/

/-- What the retries recorded at a dispatch have to be like. -/
def Allowed (bulk : Bool) (recorded : List Retry) : Prop :=
  (bulk → recorded = []) ∧ ∀ retry ∈ recorded, retry.status = "failed"

/-- The retries that have not failed. -/
def unfailed (recorded : List Retry) : List Retry :=
  recorded.filter fun retry => retry.status ≠ "failed"

/-- What holds of the store at every moment. -/
structure Inv (calls : Pid → Call) (s : Store Pid) : Prop where
  /-- At most one retry of a job has not failed. -/
  exclusive : ∀ id, (unfailed (s.retries id)).length ≤ 1
  /-- Every dispatch is one of its call's job, and was allowed. -/
  allowed : ∀ entry ∈ s.log, entry.id = (calls entry.pid).id ∧
    Allowed (calls entry.pid).bulk entry.before
  /-- A job has been dispatched by one bulk call at most. -/
  once : ∀ id, ((s.dispatches id).filter fun entry => (calls entry.pid).bulk).length ≤ 1
  /-- A job that has been dispatched has a recorded retry, unless it is gone. -/
  recorded : ∀ id, s.dispatches id ≠ [] → s.failed id = none ∨ s.retries id ≠ []

variable {sha256} {calls : Pid → Call} {s s' : Store Pid} {i j : Pid}

/-- A record is as old as itself. -/
theorem Aged.refl (recorded : List Retry) : Aged recorded recorded :=
  List.forall₂_same.mpr fun _ _ => ⟨rfl, id⟩

/-- Ageing is transitive. -/
theorem Aged.trans {a b c : List Retry} (h : Aged a b) (h' : Aged b c) : Aged a c := by
  induction h generalizing c with
  | nil => exact h'
  | cons hab _ ih =>
      cases h' with
      | cons hbc ht =>
          exact .cons ⟨hbc.1.trans hab.1, fun hfailed => hbc.2 (hab.2 hfailed)⟩ (ih ht)

/-- With age no more retries are unfailed. -/
theorem Aged.length_unfailed_le {a b : List Retry} (h : Aged a b) :
    (unfailed b).length ≤ (unfailed a).length := by
  induction h with
  | nil => exact Nat.le_refl _
  | @cons r r' a b hr _ ih =>
      by_cases hfailed' : r'.status = "failed"
      · rw [unfailed, List.filter_cons_of_neg (by simpa using hfailed')]
        refine ih.trans ?_
        rw [unfailed, unfailed]
        exact (List.Sublist.filter _ (List.sublist_cons_self r a)).length_le
      · have hfailed : r.status ≠ "failed" := fun hfailed => hfailed' (hr.2 hfailed)
        rw [unfailed, unfailed, List.filter_cons_of_pos (by simpa using hfailed'),
          List.filter_cons_of_pos (by simpa using hfailed), List.length_cons, List.length_cons]
        exact Nat.succ_le_succ ih

/-- A dispatch that is allowed remains so while only outcomes are recorded. -/
theorem Aged.allowed {bulk : Bool} {a b : List Retry} (h : Aged a b) (ha : Allowed bulk a) :
    Allowed bulk b := by
  constructor
  · intro hbulk
    rw [ha.1 hbulk] at h
    exact List.forall₂_nil_left_iff.mp h
  · have hall := ha.2
    clear ha
    induction h with
    | nil => exact fun _ hmem => absurd hmem List.not_mem_nil
    | cons hr _ ih =>
        intro retry hmem
        rcases List.mem_cons.mp hmem with rfl | hmem
        · exact hr.2 (hall _ List.mem_cons_self)
        · exact ih (fun r hr => hall r (List.mem_cons_of_mem _ hr)) retry hmem

/-- The world keeps the invariant. -/
theorem World.inv (h : World s s') (hs : Inv calls s) : Inv calls s' where
  exclusive id := (h.retries id).length_unfailed_le.trans (hs.exclusive id)
  allowed entry hentry := hs.allowed entry (h.log ▸ hentry)
  once id := by
    rw [Store.dispatches, h.log]
    exact hs.once id
  recorded id hid := by
    rw [Store.dispatches, h.log] at hid
    rcases hs.recorded id hid with hgone | hne
    · exact Or.inl (h.failed id hgone)
    · right
      intro hnil
      have haged := h.retries id
      rw [hnil] at haged
      exact hne (List.forall₂_nil_right_iff.mp haged)

/-! ## The discipline of a call -/

/-- The process holds the lock of its call's job. -/
def Holds (sha256 : String → String) (calls : Pid → Call) (i : Pid) (s : Store Pid) : Prop :=
  ∃ n, s.locks (FailedJobRetryLock.key sha256 (calls i).id) = some (i, n)

/-- What a call may do: take and release locks in its own name, and dispatch its job while it holds
the lock, where this is allowed. -/
def MayPerform (sha256 : String → String) (calls : Pid → Call) (i : Pid) (s : Store Pid) :
    Operation Pid → Prop
  | .acquire _ token => token.1 = i
  | .release _ token => token.1 = i
  | .dispatch id => id = (calls i).id ∧ Holds sha256 calls i s ∧
      Allowed (calls i).bulk (s.retries id) ∧ ((calls i).bulk → s.dispatches id = [])
  | _ => True

/-- What a holder of a lock may rely on: only outcomes are recorded. -/
structure Guarded (sha256 : String → String) (calls : Pid → Call) (i : Pid) (s s' : Store Pid) :
    Prop where
  locks : s'.locks (FailedJobRetryLock.key sha256 (calls i).id) =
    s.locks (FailedJobRetryLock.key sha256 (calls i).id)
  retries : Aged (s.retries (calls i).id) (s'.retries (calls i).id)
  dispatches : s'.dispatches (calls i).id = s.dispatches (calls i).id

/-- A store is guarded against itself. -/
theorem Guarded.refl (s : Store Pid) : Guarded sha256 calls i s s := ⟨rfl, Aged.refl _, rfl⟩

/-- Being guarded is transitive. -/
theorem Guarded.trans {s'' : Store Pid} (h : Guarded sha256 calls i s s')
    (h' : Guarded sha256 calls i s' s'') : Guarded sha256 calls i s s'' :=
  ⟨h'.locks.trans h.locks, h.retries.trans h'.retries, h'.dispatches.trans h.dispatches⟩

/-- What a process holds it holds on to, whatever the others do. -/
theorem Guarded.holds (h : Guarded sha256 calls i s s') (hs : Holds sha256 calls i s) :
    Holds sha256 calls i s' := by
  obtain ⟨n, hn⟩ := hs
  exact ⟨n, h.locks.trans hn⟩

/-- The others keep the invariant, and leave the job alone while the callback of the call runs under
the lock. -/
def acting (sha256 : String → String) (calls : Pid → Call) (i : Pid) :
    Discipline (Operation Pid) Section (Store Pid) where
  rely ls s s' := (Inv calls s → Inv calls s') ∧
    (.callback ∈ ls → Holds sha256 calls i s → Guarded sha256 calls i s s')
  assume _ _ _ := True
  ok _ o s := MayPerform sha256 calls i s o
  rely_refl _ s := ⟨fun h => h, fun _ _ => Guarded.refl s⟩
  rely_trans _ _ _ _ h h' := ⟨fun hs => h'.1 (h.1 hs), fun hcallback hs =>
    (h.2 hcallback hs).trans (h'.2 hcallback ((h.2 hcallback hs).holds hs))⟩

/-- A dispatch is recorded under its id. -/
theorem dispatches_cons {entry : Dispatch Pid} {id : String}
    (hlog : s'.log = entry :: s.log) :
    s'.dispatches id = if entry.id = id then entry :: s.dispatches id else s.dispatches id := by
  rw [Store.dispatches, hlog, List.filter_cons]
  simp [Store.dispatches]

/-- No retry has failed to fail where another one is allowed. -/
theorem Allowed.unfailed_eq_nil {bulk : Bool} {recorded : List Retry} (h : Allowed bulk recorded) :
    unfailed recorded = [] :=
  List.filter_eq_nil_iff.mpr fun retry hretry => by simpa using h.2 retry hretry

variable [DecidableEq Pid]

/-- An allowed dispatch keeps the invariant. -/
theorem dispatch_inv (hs : Inv calls s) (hallowed : Allowed (calls i).bulk (s.retries (calls i).id))
    (honce : (calls i).bulk → s.dispatches (calls i).id = []) :
    Inv calls (perform i (.dispatch (calls i).id) s).2 := by
  have hretries : ∀ id, (perform i (.dispatch (calls i).id) s).2.retries id =
      if id = (calls i).id ∧ (s.failed id).isSome then
        s.retries id ++ [{ s.upcoming with status := "pending" }]
      else s.retries id := by
    intro id
    simp only [perform]
    by_cases hid : id = (calls i).id
    · -- The dispatched job is the only one whose retries can grow.
      subst hid
      split <;> simp_all
    · have hother : ¬(id = (calls i).id ∧ (s.failed id).isSome) := fun h => hid h.1
      rw [if_neg hother]
      split
      · rw [Function.update_of_ne hid]
      · rfl
  have hdispatches : ∀ id, (perform i (.dispatch (calls i).id) s).2.dispatches id =
      if (calls i).id = id then ⟨i, (calls i).id, s.retries (calls i).id⟩ :: s.dispatches id
      else s.dispatches id := by
    intro id
    have hlog : (perform i (.dispatch (calls i).id) s).2.log =
        ⟨i, (calls i).id, s.retries (calls i).id⟩ :: s.log := rfl
    exact dispatches_cons hlog
  constructor
  · intro id
    rw [hretries]
    split
    · rename_i h
      -- A dispatch was allowed, so none of the earlier retries was unfailed.
      rw [unfailed, List.filter_append, ← unfailed, h.1, hallowed.unfailed_eq_nil]
      exact List.length_filter_le _ _
    · exact hs.exclusive id
  · intro entry hentry
    rcases List.mem_cons.mp hentry with rfl | hentry
    · exact ⟨rfl, hallowed⟩
    · exact hs.allowed entry hentry
  · intro id
    rw [hdispatches]
    split
    · rename_i heq
      by_cases hbulk : (calls i).bulk
      · rw [List.filter_cons, if_pos hbulk, ← heq, honce hbulk]
        exact Nat.le_refl 1
      · rw [List.filter_cons, if_neg hbulk]
        exact hs.once id
    · exact hs.once id
  · intro id hid
    -- A job that is gone needs no retry; one that is there has just got its own.
    rw [hretries]
    by_cases hgone : s.failed id = none
    · exact Or.inl hgone
    · right
      have hsome : (s.failed id).isSome := Option.isSome_iff_ne_none.mpr hgone
      split
      · exact List.append_ne_nil_of_right_ne_nil _ (List.cons_ne_nil _ _)
      · rename_i hother
        have hne : ¬(calls i).id = id := fun heq => hother ⟨heq.symm, hsome⟩
        rw [hdispatches, if_neg hne] at hid
        exact (hs.recorded id hid).resolve_left hgone

variable (sha256) in
/-- **One operation** of a call keeps the invariant. -/
theorem perform_inv {o : Operation Pid} (hs : Inv calls s)
    (hmay : MayPerform sha256 calls i s o) : Inv calls (perform i o s).2 := by
  cases o with
  | randomToken => exact ⟨hs.exclusive, hs.allowed, hs.once, hs.recorded⟩
  | acquire key token =>
      simp only [perform]
      cases s.locks key with
      | none => exact ⟨hs.exclusive, hs.allowed, hs.once, hs.recorded⟩
      | some other => exact hs
  | release key token =>
      simp only [perform]
      split
      · exact ⟨hs.exclusive, hs.allowed, hs.once, hs.recorded⟩
      · exact hs
  | findFailed id => exact hs
  | dispatch id =>
      obtain ⟨rfl, -, hallowed, honce⟩ := hmay
      exact dispatch_inv hs hallowed honce

/-- **One operation** of a call leaves the locks of the others alone. -/
theorem perform_locks {o : Operation Pid} (hmay : MayPerform sha256 calls i s o) {key : String}
    {token : LockToken Pid} (hother : token.1 ≠ i) (hheld : s.locks key = some token) :
    (perform i o s).2.locks key = some token := by
  cases o with
  | randomToken => exact hheld
  | acquire key' token' =>
      simp only [perform]
      cases hkey : s.locks key' with
      | none =>
          refine (Function.update_of_ne (fun heq => ?_) _ _).trans hheld
          rw [← heq, hheld] at hkey
          cases hkey
      | some _ => exact hheld
  | release key' token' =>
      simp only [perform]
      split
      · rename_i hheld'
        refine (Function.update_of_ne (fun heq => ?_) _ _).trans hheld
        rw [← heq, hheld, Option.some.injEq] at hheld'
        rw [← hheld'] at hmay
        exact hother hmay
      · exact hheld
  | findFailed id => exact hheld
  | dispatch id => exact hheld

/-- **One operation** of a call leaves alone what another one holds the lock of. -/
theorem perform_guarded {o : Operation Pid} (hne : i ≠ j) (hj : Holds sha256 calls j s)
    (hmay : MayPerform sha256 calls i s o) : Guarded sha256 calls j s (perform i o s).2 := by
  obtain ⟨n, hn⟩ := hj
  have hlocks : (perform i o s).2.locks (FailedJobRetryLock.key sha256 (calls j).id) =
      s.locks (FailedJobRetryLock.key sha256 (calls j).id) :=
    (perform_locks hmay (Ne.symm hne) hn).trans hn.symm
  -- Where both calls hold their locks, these are different, so the calls are about different jobs.
  have hjob : ∀ id, o = .dispatch id → (calls j).id ≠ id := by
    rintro id rfl heq
    obtain ⟨rfl, ⟨m, hm⟩, -, -⟩ := hmay
    rw [heq, hm] at hn
    cases hn
    exact hne rfl
  refine ⟨hlocks, ?_, ?_⟩
  · cases o with
    | dispatch id =>
        simp only [perform]
        split
        · rw [Function.update_of_ne (hjob id rfl)]
          exact Aged.refl _
        · exact Aged.refl _
    | acquire key token =>
        simp only [perform]
        split <;> exact Aged.refl _
    | release key token =>
        simp only [perform]
        split <;> exact Aged.refl _
    | _ => exact Aged.refl _
  · cases o with
    | dispatch id => rw [dispatches_cons rfl, if_neg (Ne.symm (hjob id rfl))]
    | acquire key token =>
        simp only [perform]
        split <;> rfl
    | release key token =>
        simp only [perform]
        split <;> rfl
    | _ => rfl

/-! ## The programs -/

/-- The callback runs: the invariant holds, the lock is held, and the job is as `P` says of its
retries and dispatches. -/
def Running (sha256 : String → String) (calls : Pid → Call) (i : Pid)
    (P : List Retry → List (Dispatch Pid) → Prop) (s : Store Pid) : Prop :=
  Inv calls s ∧ Holds sha256 calls i s ∧ P (s.retries (calls i).id) (s.dispatches (calls i).id)

omit [DecidableEq Pid] in
/-- What outcomes keep is stable while the callback runs. -/
theorem running_stable {P : List Retry → List (Dispatch Pid) → Prop}
    (hP : ∀ a b log, Aged a b → P a log → P b log) :
    ((acting sha256 calls i).push .callback).Stable (Running sha256 calls i P) := by
  rintro ls s s' ⟨hinv, hguarded⟩ ⟨hs, hholds, hp⟩
  have hg := hguarded List.mem_cons_self hholds
  refine ⟨hinv hs, hg.holds hholds, ?_⟩
  rw [hg.dispatches]
  exact hP _ _ _ hg.retries hp

omit [DecidableEq Pid] in
/-- The invariant is stable at any time. -/
theorem inv_stable : (acting sha256 calls i).Stable (Inv calls) := fun _ _ _ hr hs => hr.1 hs

omit [DecidableEq Pid] in
/-- A job that is found and eligible may be dispatched. -/
theorem allowed_of_eligible {job : FailedJob} {record : FailedRecord} (hs : Inv calls s)
    (hfound : s.failed (calls i).id = some record)
    (hjob : job.retriedBy = Retry.retriedBy (s.retries (calls i).id))
    (h : allowed (calls i).bulk job) :
    Allowed (calls i).bulk (s.retries (calls i).id) ∧
      ((calls i).bulk → s.dispatches (calls i).id = []) := by
  rw [allowed] at h
  by_cases hbulk : (calls i).bulk
  · rw [if_pos hbulk] at h
    have hnil := FailedJobRetryEligibility.eq_nil_of_allowsBulk hjob h
    rw [hnil]
    refine ⟨⟨fun _ => rfl, fun _ hmem => absurd hmem List.not_mem_nil⟩, fun _ => ?_⟩
    by_contra hne
    rcases hs.recorded _ hne with hgone | hretries
    · rw [hfound] at hgone
      cases hgone
    · exact hretries hnil
  · rw [if_neg hbulk] at h
    exact ⟨⟨fun hb => absurd hb hbulk, FailedJobRetryEligibility.failed_of_allows hjob h⟩,
      fun hb => absurd hb hbulk⟩

/-- The job may be dispatched. -/
def Eligible (calls : Pid → Call) (i : Pid) (recorded : List Retry) (log : List (Dispatch Pid)) :
    Prop :=
  Allowed (calls i).bulk recorded ∧ ((calls i).bulk → log = [])

/-- **The callback** dispatches only what is allowed. -/
theorem retry_running (hs : Running sha256 calls i (fun _ _ => True) s) :
    wp (exec i) ((acting sha256 calls i).push .callback)
      (retry (calls i).id none (calls i).bulk) (fun _ s => Inv calls s) (fun _ s => Inv calls s)
      s := by
  have hstable : ((acting sha256 calls i).push .callback).Stable
      (Running sha256 calls i fun _ _ => True) := running_stable fun _ _ _ _ _ => trivial
  have heligible : ((acting sha256 calls i).push .callback).Stable
      (Running sha256 calls i (Eligible calls i)) :=
    running_stable fun _ _ _ haged h => ⟨haged.allowed h.1, h.2⟩
  have hfind : wp (exec i) ((acting sha256 calls i).push .callback)
      (request (.findFailed (calls i).id) : RetryProgram Pid (Option FailedJob))
      (fun found s => Inv calls s ∧ ∀ job ∈ found,
        allowed (calls i).bulk job → Running sha256 calls i (Eligible calls i) s) (fun _ s => Inv calls s) s := by
    refine wp_request hstable hs (fun _ _ _ => trivial) ?_ fun s hs _ => ⟨hs.1, hs.1⟩
    rintro s ⟨hinv, hholds, -⟩ -
    refine ⟨hinv, fun job hjob hallows => ⟨hinv, hholds, ?_⟩⟩
    obtain ⟨record, hrecord, rfl⟩ := Option.map_eq_some_iff.mp hjob
    exact allowed_of_eligible hinv hrecord rfl hallows
  refine wp_bind_of hfind fun found s hfound => ?_
  obtain ⟨hinv, hfound⟩ := hfound
  cases found with
  | none => exact hinv
  | some job =>
      dsimp only
      split
      · split_ifs with hid hallows
        · exact hinv
        · -- the reread job is eligible
          refine wp_bind_of (Q := fun _ s => Inv calls s) (wp_request heligible
            (hfound job rfl hallows) ?_ ?_ ?_) fun _ s hs => hs
          · rintro s ⟨-, hholds, hallowed, honce⟩ -
            exact ⟨rfl, hholds, hallowed, honce⟩
          · rintro s ⟨hinv, -, hallowed, honce⟩ -
            exact dispatch_inv hinv hallowed honce
          · rintro s ⟨hinv, -, hallowed, honce⟩ -
            exact ⟨hinv, dispatch_inv hinv hallowed honce⟩
        · exact hinv
      · exact hinv

/-- **A call** meets its discipline. -/
theorem program_meets (hs : Inv calls s) :
    wp (exec i) (acting sha256 calls i) ((calls i).program sha256) (fun _ _ => True)
      (fun _ _ => True) s := by
  have hdraw : wp (exec i) (acting sha256 calls i)
      (request .randomToken : RetryProgram Pid (LockToken Pid))
      (fun token s => Inv calls s ∧ token.1 = i) (fun _ _ => True) s :=
    wp_request inv_stable hs (fun _ _ _ => trivial)
      (fun s hs _ => ⟨perform_inv sha256 hs trivial, rfl⟩)
      fun _ _ _ => ⟨trivial, trivial⟩
  refine wp_bind_of hdraw fun token s htoken => ?_
  obtain ⟨hs, htoken⟩ := htoken
  have hacquire : wp (exec i) (acting sha256 calls i)
      (request (.acquire (FailedJobRetryLock.key sha256 (calls i).id) token) :
        RetryProgram Pid Php)
      (fun result s => Inv calls s ∧
        (FailedJobRetryLock.acquired result → Holds sha256 calls i s)) (fun _ _ => True) s := by
    refine wp_request inv_stable hs (fun _ _ _ => htoken) ?_ fun _ _ _ => ⟨trivial, trivial⟩
    rintro s hs -
    refine ⟨perform_inv sha256 hs htoken, fun hacquired => ?_⟩
    refine ⟨token.2, ?_⟩
    simp only [perform] at hacquired ⊢
    cases hkey : s.locks (FailedJobRetryLock.key sha256 (calls i).id) with
    | none =>
        change Function.update _ _ _ _ = _
        rw [Function.update_self, ← htoken]
    | some other =>
        rw [hkey] at hacquired
        exact absurd hacquired Bool.false_ne_true
  refine wp_bind_of hacquire fun result s hresult => ?_
  obtain ⟨hs, hholds⟩ := hresult
  by_cases hacquired : FailedJobRetryLock.acquired result
  · rw [if_pos hacquired]
    have hrelease : ∀ s, Inv calls s → wp (exec i) (acting sha256 calls i)
        (attempt (.release (FailedJobRetryLock.key sha256 (calls i).id) token) >>= fun _ =>
          (.ret () : RetryProgram Pid Unit)) (fun _ _ => True) (fun _ _ => True) s := by
      intro s hs
      exact wp_bind_of (wp_attempt (Q := fun _ _ => True) inv_stable hs (fun _ _ _ => htoken)
        (fun _ _ _ => trivial) fun _ _ _ => ⟨trivial, trivial⟩) fun _ _ _ => trivial
    refine wp_tryFinally_of (wp_inside.mpr (retry_running ⟨hs, hholds hacquired, trivial⟩)) ?_ ?_
    · exact fun _ s hs => hrelease s hs
    · exact fun _ s hs => hrelease s hs
  · rw [if_neg hacquired]
    trivial

/-! ## Whole runs -/

/-- **Every run**: the invariant holds, and every call meets its discipline from there on. -/
theorem reaches_inv {c d : System Pid} (hs : Inv calls c.store)
    (hprog : ∀ i, c.prog i = (calls i).program sha256)
    (h : Reaches exec World (LeaseHolds sha256 calls) c d) :
    d.Good exec (acting sha256 calls) ∧ Inv calls d.store := by
  refine h.invariant (I := fun d => d.Good exec (acting sha256 calls) ∧ Inv calls d.store) ?_
    ⟨fun i => by rw [hprog]; exact program_meets hs, hs⟩
  rintro d e d' ⟨hgood, hinv⟩ hstep hlease
  have hnext : Inv calls d'.store ∧ ∀ j ls o next, e ≠ .run j → d.prog j = .op ls o next →
      (acting sha256 calls j).rely ls d.store d'.store := by
    cases hstep with
    | @run i ls o next hi =>
        have hmay : MayPerform sha256 calls i d.store o := hgood.ok hi trivial
        refine ⟨underFate_store (Inv calls) hinv (perform_inv sha256 hinv hmay), ?_⟩
        intro j ls' o' next' hne _
        have hij : i ≠ j := fun heq => hne (congrArg Event.run heq)
        refine ⟨fun _ => underFate_store (Inv calls) hinv (perform_inv sha256 hinv hmay),
          fun _ hj => ?_⟩
        exact underFate_store (Guarded sha256 calls j d.store) (Guarded.refl _)
          (perform_guarded hij hj hmay)
    | @crash i =>
        exact ⟨hinv, fun j ls o next _ _ => (acting sha256 calls j).rely_refl ls d.store⟩
    | world hworld =>
        refine ⟨hworld.inv hinv, fun j ls o next _ hj => ⟨hworld.inv, fun hcallback _ => ?_⟩⟩
        refine ⟨hlease rfl j (by rw [hj]; exact hcallback), hworld.retries _, ?_⟩
        rw [Store.dispatches, Store.dispatches, hworld.log]
  exact ⟨hgood.step hstep (fun _ _ _ _ _ _ => trivial) hnext.2, hnext.1⟩

/-- **At most one live retry.** In every interleaving of single and bulk calls with the outcomes of
their retries: a bulk call dispatches only where no retry is recorded, a single call only where all
recorded ones have failed; so at most one retry of a job has not failed, and at most one is
dispatched by a bulk call; and no call releases a lock but its own. -/
theorem retries_exclusive {s : Store Pid} (hlog : s.log = [])
    (hexclusive : ∀ id, (unfailed (s.retries id)).length ≤ 1) {d : System Pid}
    (h : Reaches exec World (LeaseHolds sha256 calls) (start sha256 calls s) d) :
    (∀ entry ∈ d.store.log, entry.id = (calls entry.pid).id ∧
      ((calls entry.pid).bulk → entry.before = []) ∧
      ∀ retry ∈ entry.before, retry.status = "failed") ∧
    (∀ id, (unfailed (d.store.retries id)).length ≤ 1) ∧
    (∀ id, ((d.store.dispatches id).filter fun entry => (calls entry.pid).bulk).length ≤ 1) ∧
    (∀ i d', Step exec World d (.run i) d' → ∀ key token, d.store.locks key = some token →
      d'.store.locks key ≠ some token → token.1 = i) := by
  have hstart : Inv calls s := by
    refine ⟨hexclusive, fun entry hentry => ?_, fun id => ?_, fun id hid => ?_⟩
    · rw [hlog] at hentry
      exact absurd hentry List.not_mem_nil
    · rw [Store.dispatches, hlog]
      exact Nat.zero_le 1
    · rw [Store.dispatches, hlog] at hid
      exact absurd rfl hid
  obtain ⟨hgood, hinv⟩ := reaches_inv (c := start sha256 calls s) hstart (fun _ => rfl) h
  refine ⟨hinv.allowed, hinv.exclusive, hinv.once, fun i d' hstep key token hheld hfree => ?_⟩
  cases hstep with
  | @run i ls o next hi =>
      have hmay : MayPerform sha256 calls i d.store o := hgood.ok hi trivial
      by_contra hother
      exact hfree (underFate_store (fun s : Store Pid => s.locks key = some token) hheld
        (perform_locks hmay hother hheld))

/-- Two chunks of bulk operations that are about the same job. -/
def twoChunks (_ : Fin 2) : Call := ⟨"job", none, true⟩

/-- A failed job that has not been retried. -/
def oneFailed : Store (Fin 2) where
  locks _ := none
  failed id := if id = "job" then some ⟨.str "job", .str "\x7b\x7d"⟩ else none
  retries _ := []
  drawn _ := 0
  upcoming := ⟨"retry", "pending", 1700000000, by decide⟩
  fate := .answered
  log := []

/-- The second chunk takes the lock after the first one has released it. -/
def inTurns : System (Fin 2) :=
  (start id twoChunks oneFailed).play exec ([0, 1, 0, 0, 0, 0, 1, 1, 1].map .run)

/-- One of two chunks dispatches the job. -/
theorem retries_exclusive_inTurns :
    (inTurns.store.log.map fun entry => (entry.pid, entry.id)) = [(0, "job")] ∧
      ((inTurns.store.dispatches "job").filter fun entry =>
        (twoChunks entry.pid).bulk).length ≤ 1 := by
  have hreaches : Reaches exec World (LeaseHolds id twoChunks) (start id twoChunks oneFailed)
      inTurns :=
    Config.reaches_play_of_run (fun _ _ _ hne hworld => absurd hworld hne) _ _
  have hone : ∀ id, (unfailed (oneFailed.retries id)).length ≤ 1 := fun _ => Nat.zero_le 1
  exact ⟨by decide +kernel, (retries_exclusive rfl hone hreaches).2.2.1 "job"⟩

end RetryFailedJob

end HorizonNewDawn

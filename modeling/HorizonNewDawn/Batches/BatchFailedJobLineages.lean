import HorizonNewDawn.Collections.Assignments
import HorizonNewDawn.Collections.Traversal
import HorizonNewDawn.FailedJobs.FailedJobRetryEligibility
import HorizonNewDawn.Jobs.RetainedJobIndex.Reading
import Mathlib

/-! # The lineages of failed jobs

The retained failed jobs of a batch refer to the jobs they retry and to the retries of them, some of
which are not retained. `BatchFailedJobLineages` takes this graph apart into its connected components and
shows each of them, unless it has been completed, as one row: that of its newest job, with the attempts
of all of them (`summarize_lineages`). -/

namespace HorizonNewDawn

open Assignments

namespace BatchFailedJobLineages

/-! ## Jobs -/

/-- A job as the job repository returns it; a property that is missing is `null`. -/
structure RetainedJob where
  id : Php
  name : Php
  status : Php
  payload : Php
  failedAt : Php
  index : Php
  retriedBy : Php

/-- Numeric values as integers and as floats: `none` where `is_numeric` says no. -/
structure Numbers (F : Type) where
  zero : F
  toInt : Php → Option ℤ
  toFloat : Php → Option F

variable {F : Type} (numbers : Numbers F)

/-- What is read of a row. -/
structure JobRowData (F : Type) where
  id : String
  name : String
  attempts : ℤ
  failedAt : Option F
  attemptsComplete : Bool

/-- `is_string($value) && $value !== ''` -/
def nonEmpty : Php → Option String
  | .str text => if text = "" then none else some text
  | _ => none

/-- `JobsData::row`, with the attempts given. -/
def row (job : RetainedJob) (attemptsOverride : ℤ) (attemptsComplete : Bool) :
    Option (JobRowData F) :=
  match nonEmpty job.id, nonEmpty job.name with
  | some id, some name =>
      let status := match job.status with
        | .str status => status
        | _ => "unknown"
      some ⟨id, name, attemptsOverride,
        if status = "failed" then numbers.toFloat job.failedAt else none, attemptsComplete⟩
  | _, _ => none

/-- `decode` -/
def decode : Php → List (String × Php)
  | .str text =>
      if text = "" then []
      else
        match FailedJobRetryEligibility.decode text with
        | some (.array entries) => entries
        | _ => []
  | _ => []

/-- An entry of `retried_by`, where it is a retry: its id and its status. -/
def retry : Php → Option (String × String)
  | .array entries =>
      ((Php.get "id" entries).bind nonEmpty).map fun id =>
        (id, (Php.getStr "status" entries).getD "unknown")
  | _ => none

/-- `retries` -/
def retries (value : Php) : List (String × String) :=
  let value := match value with
    | .str _ => Php.array (decode value)
    | value => value
  match value with
  | .array entries => entries.filterMap fun e => retry e.2
  | _ => []

namespace RetainedJob

variable (job : RetainedJob)

/-- The id of a job that has one. -/
def identifier : Option String := nonEmpty job.id

/-- The job that this one retries. -/
def retryOf : Option String := (Php.get "retry_of" (decode job.payload)).bind nonEmpty

/-- The retries of the job. -/
def retries : List (String × String) := BatchFailedJobLineages.retries job.retriedBy

/-- The number of attempts, at least one. -/
def attempts : ℤ := max 1 (((Php.get "attempts" (decode job.payload)).bind numbers.toInt).getD 0)

end RetainedJob

/-! ## The graph of the references -/

/-- A node of a retained job. -/
structure Node (F : Type) where
  job : RetainedJob
  attempts : ℤ
  failedAt : F
  index : ℤ

/-- The node of a job. -/
def node (job : RetainedJob) : Node F where
  job := job
  attempts := job.attempts numbers
  failedAt := (numbers.toFloat job.failedAt).getD numbers.zero
  index := (numbers.toInt job.index).getD 0

/-- The related ids by id. -/
abbrev Adjacency : Type := List (String × List String)

/-- `array_keys($adjacency[$id] ?? [])` -/
def related (adjacency : Adjacency) (id : String) : List String := (get id adjacency).getD []

/-- `$adjacency[$id] ??= []` -/
def ensure (id : String) (adjacency : Adjacency) : Adjacency :=
  if (get id adjacency).isSome then adjacency else put id [] adjacency

/-- `$adjacency[$left][$right] = true` -/
def relate (left right : String) (adjacency : Adjacency) : Adjacency :=
  if right ∈ related adjacency left then adjacency
  else put left (related adjacency left ++ [right]) adjacency

/-- `connect` -/
def connect (adjacency : Adjacency) (left right : String) : Adjacency :=
  relate right left (relate left right (ensure right (ensure left adjacency)))

/-- What is gathered of the retained jobs. -/
structure Graph (F : Type) where
  nodes : List (String × Node F)
  adjacency : Adjacency
  referenceStatuses : List (String × String)

/-- A retry of the job with an id. -/
def addRetry (id : String) (graph : Graph F) (retry : String × String) : Graph F where
  nodes := graph.nodes
  adjacency := connect graph.adjacency id retry.1
  referenceStatuses := put retry.1 retry.2 graph.referenceStatuses

/-- The job that the one with an id retries. -/
def addRetryOf (id : String) (graph : Graph F) (retryOf : String) : Graph F where
  nodes := graph.nodes
  adjacency := connect graph.adjacency id retryOf
  referenceStatuses :=
    if (get retryOf graph.referenceStatuses).isSome then graph.referenceStatuses
    else put retryOf "failed" graph.referenceStatuses

/-- The iteration of the first loop of `summarize`. -/
def addJob (graph : Graph F) (job : RetainedJob) : Graph F :=
  match job.identifier with
  | none => graph
  | some id =>
      let graph : Graph F := { graph with
        nodes := put id (node numbers job) graph.nodes
        adjacency := ensure id graph.adjacency }
      let graph := job.retryOf.elim graph (addRetryOf id graph)
      job.retries.foldl (addRetry id) graph

/-- The first loop of `summarize`. -/
def graphOf (retainedJobs : List RetainedJob) : Graph F :=
  retainedJobs.foldl (addJob numbers) ⟨[], [], []⟩

/-! ## Components -/

/-- The iterations that the loop of `component` makes at most. -/
def budget (adjacency : Adjacency) : ℕ := 1 + (adjacency.map fun e => e.2.length).sum

/-- `component`: the ids found, and the visited ids afterwards. -/
def component (start : String) (adjacency : Adjacency) (visited : List String) :
    List String × List String :=
  Traversal.visit (related adjacency) (budget adjacency) [start] [] visited

/-- `wasCompleted` -/
def wasCompleted (component : List String) (referenceStatuses : List (String × String)) : Bool :=
  component.any fun id => get id referenceStatuses = some "completed"

section Rows

variable [LinearOrder F]

/-- Whether a node stands before another one: the newest first. -/
def newestFirst (left right : Node F) : Bool :=
  toLex (right.failedAt, right.index) ≤ toLex (left.failedAt, left.index)

variable (graph : Graph F)

/-- The attempts of a component, and whether they are complete. -/
def attemptsOf (component : List String) : ℤ × Bool :=
  component.foldl (fun (attempts, attemptsComplete) id =>
    match get id graph.nodes with
    | some node => (attempts + node.attempts, attemptsComplete)
    | none =>
        if (get id graph.referenceStatuses).getD "failed" = "pending" then
          (attempts, attemptsComplete)
        else (attempts + 1, false)) (0, true)

/-- The row of a component. -/
def lineage (component : List String) : Option (JobRowData F) :=
  let retained := component.filterMap fun id => get id graph.nodes
  if wasCompleted component graph.referenceStatuses then none
  else
    (retained.mergeSort newestFirst).head?.bind fun newest =>
      let (attempts, attemptsComplete) := attemptsOf graph component
      row numbers newest.job attempts attemptsComplete

/-- What the second loop of `summarize` keeps. -/
structure Progress (F : Type) where
  rows : List (JobRowData F)
  coveredIds : List String
  visited : List String
  allAttemptsComplete : Bool

/-- The iteration of the second loop of `summarize`; `none` is the error of an integer-like id, which is
no string any more as an array key. -/
def addComponent (progress : Progress F) (id : String) : Option (Progress F) :=
  if id ∈ progress.visited then some progress
  else if isIntegerKey id then none
  else
    let (component, visited) := component id graph.adjacency progress.visited
    let coveredIds := progress.coveredIds ++ component.filter (· ∉ progress.coveredIds)
    match lineage numbers graph component with
    | none => some ⟨progress.rows, coveredIds, visited, progress.allAttemptsComplete⟩
    | some row =>
        some ⟨progress.rows ++ [row], coveredIds, visited,
          progress.allAttemptsComplete && row.attemptsComplete⟩

/-- The result of `summarize`. -/
structure Summary (F : Type) where
  rows : List (JobRowData F)
  complete : Bool

/-- `$row->failedAt ?? 0` -/
def failedAt (row : JobRowData F) : F := row.failedAt.getD numbers.zero

/-- `summarize` -/
def summarize (retainedJobs : List RetainedJob) (failedJobIds : List String) :
    Option (Summary F) :=
  let graph := graphOf numbers retainedJobs
  ((graph.nodes.map Prod.fst).foldlM (addComponent numbers graph) ⟨[], [], [], true⟩).map
    fun progress =>
      ⟨progress.rows.mergeSort fun left right => failedAt numbers right ≤ failedAt numbers left,
        failedJobIds.all (· ∈ progress.coveredIds) && progress.allAttemptsComplete⟩

end Rows

/-! ## What the jobs say

The graph as it can be read off the jobs, without the arrays it is gathered in. -/

/-- The references of a job. -/
def RetainedJob.references (job : RetainedJob) : List String :=
  job.retryOf.toList ++ job.retries.map Prod.fst

/-- A job refers to another one: an edge between the two ids, in either direction. -/
def RetainedJob.Links (job : RetainedJob) (left right : String) : Prop :=
  ∃ id, job.identifier = some id ∧ ∃ reference ∈ job.references,
    (left = id ∧ right = reference) ∨ (left = reference ∧ right = id)

/-- The undirected graph of the references. -/
def Linked (jobs : List RetainedJob) (left right : String) : Prop := ∃ job ∈ jobs, job.Links left right

/-- The retained job with an id. -/
def jobOf (jobs : List RetainedJob) (id : String) : Option RetainedJob :=
  jobs.find? fun job => job.identifier = some id

/-- The status recorded for an id: that of the last retry with the id, and `failed` for a job of which
only retries are known. -/
def recordedStatus (jobs : List RetainedJob) (id : String) : Option String :=
  (((jobs.flatMap RetainedJob.retries).filter fun retry => retry.1 = id).getLast?.map Prod.snd).or
    (if ∃ job ∈ jobs, job.retryOf = some id then some "failed" else none)

/-- The jobs have distinct ids, which are strings as array keys. -/
structure Identified (jobs : List RetainedJob) : Prop where
  identifier : ∀ job ∈ jobs, ∃ id, job.identifier = some id ∧ isIntegerKey id = false
  distinct : (jobs.map RetainedJob.identifier).Nodup

/-- An id with attempts nothing is known of: that of a job which is not retained and not pending. -/
def Missing (jobs : List RetainedJob) (id : String) : Prop :=
  jobOf jobs id = none ∧ recordedStatus jobs id ≠ some "pending"

instance (jobs : List RetainedJob) (id : String) : Decidable (Missing jobs id) :=
  inferInstanceAs (Decidable (_ ∧ _))

/-- The attempts an id stands for. -/
def share (jobs : List RetainedJob) (id : String) : ℤ :=
  match jobOf jobs id with
  | some job => job.attempts numbers
  | none => if recordedStatus jobs id = some "pending" then 0 else 1

/-- The time a job failed at, and its index. -/
def rank (job : RetainedJob) : F ×ₗ ℤ := toLex ((node numbers job).failedAt, (node numbers job).index)

/-- The newest retained job of a component. -/
structure IsNewest [LinearOrder F] (jobs : List RetainedJob) (component : List String) (job : RetainedJob) :
    Prop where
  mem : ∃ id ∈ component, jobOf jobs id = some job
  newest : ∀ id ∈ component, ∀ other, jobOf jobs id = some other → rank numbers other ≤ rank numbers job

/-- What a component shows: nothing when one of its references has been completed, and otherwise the row
of its newest job with the attempts of the component. -/
structure Shows [LinearOrder F] (jobs : List RetainedJob) (component : List String)
    (shown : Option (JobRowData F)) : Prop where
  completed : (∃ id ∈ component, recordedStatus jobs id = some "completed") → shown = none
  newest : (¬∃ id ∈ component, recordedStatus jobs id = some "completed") →
    ∃ job, IsNewest numbers jobs component job ∧
      shown = row numbers job (component.map (share numbers jobs)).sum
        (decide (∀ id ∈ component, ¬Missing jobs id))

/-- Each retry is recorded with one status. -/
def SingleStatus (jobs : List RetainedJob) : Prop :=
  ∀ r ∈ jobs.flatMap RetainedJob.retries, ∀ r' ∈ jobs.flatMap RetainedJob.retries, r.1 = r'.1 → r.2 = r'.2

/-- No two jobs of a component failed at the same time with the same index. -/
def Untied (jobs : List RetainedJob) : Prop :=
  ∀ id id' job job', jobOf jobs id = some job → jobOf jobs id' = some job' →
    Traversal.Reaches (Linked jobs) id id' → rank numbers job = rank numbers job' → id = id'

/-- Links go both ways. -/
theorem linked_symm {jobs : List RetainedJob} {left right : String} (h : Linked jobs left right) :
    Linked jobs right left := by
  obtain ⟨job, hjob, id, hid, reference, hreference, hlinks⟩ := h
  refine ⟨job, hjob, id, hid, reference, hreference, ?_⟩
  tauto

section Gathering

variable {adjacency : Adjacency} {left right x y : String} {graph : Graph F}

/-- Making sure that a node is there relates nothing. -/
@[simp] theorem related_ensure : related (ensure left adjacency) x = related adjacency x := by
  unfold ensure related
  split_ifs with h
  · rfl
  by_cases hx : x = left
  · subst hx
    rw [Bool.not_eq_true, Option.isSome_eq_false_iff, Option.isNone_iff_eq_none] at h
    simp [get_put, h]
  · rw [get_put_ne hx]

/-- Relating a node adds one neighbour. -/
theorem mem_related_relate : y ∈ related (relate left right adjacency) x ↔
    (x = left ∧ y = right) ∨ y ∈ related adjacency x := by
  unfold relate
  split_ifs with h
  · constructor
    · exact Or.inr
    · rintro (⟨rfl, rfl⟩ | hy)
      · exact h
      · exact hy
  · by_cases hx : x = left
    · subst hx
      rw [related, get_put]
      simp [or_comm]
    · rw [related, get_put_ne hx]
      simp [hx, related]

/-- An edge goes both ways. -/
theorem mem_related_connect : y ∈ related (connect adjacency left right) x ↔
    ((x = left ∧ y = right) ∨ (x = right ∧ y = left)) ∨ y ∈ related adjacency x := by
  simp only [connect, mem_related_relate, related_ensure]
  tauto

/-- Making sure that a node is there enters no node twice. -/
theorem nodup_ensure (h : (adjacency.map Prod.fst).Nodup) :
    ((ensure left adjacency).map Prod.fst).Nodup := by
  unfold ensure
  split_ifs
  · exact h
  · exact nodup_put h

/-- Relating two nodes enters no node twice. -/
theorem nodup_relate (h : (adjacency.map Prod.fst).Nodup) :
    ((relate left right adjacency).map Prod.fst).Nodup := by
  unfold relate
  split_ifs
  · exact h
  · exact nodup_put h

/-- Connecting two nodes enters no node twice. -/
theorem nodup_connect (h : (adjacency.map Prod.fst).Nodup) :
    ((connect adjacency left right).map Prod.fst).Nodup :=
  nodup_relate (nodup_relate (nodup_ensure (nodup_ensure h)))

/-! ### One job -/

variable {id : String} {rs : List (String × String)} {job : RetainedJob}

/-- The retries of a job are no nodes by themselves. -/
theorem addRetries_nodes : (rs.foldl (addRetry id) graph).nodes = graph.nodes := by
  induction rs generalizing graph with
  | nil => rfl
  | cons r rs ih => rw [List.foldl_cons, ih, addRetry]

/-- The retries of a job are connected with it. -/
theorem mem_related_addRetries : y ∈ related (rs.foldl (addRetry id) graph).adjacency x ↔
    (∃ r ∈ rs, (x = id ∧ y = r.1) ∨ (x = r.1 ∧ y = id)) ∨ y ∈ related graph.adjacency x := by
  induction rs generalizing graph with
  | nil => simp
  | cons r rs ih =>
      rw [List.foldl_cons, ih, addRetry]
      simp only [mem_related_connect, List.mem_cons, exists_eq_or_imp]
      rw [or_left_comm]
      exact or_assoc.symm

/-- Adding the retries of a job enters no node twice. -/
theorem nodup_addRetries (h : (graph.adjacency.map Prod.fst).Nodup) :
    ((rs.foldl (addRetry id) graph).adjacency.map Prod.fst).Nodup := by
  induction rs generalizing graph with
  | nil => exact h
  | cons r rs ih => exact ih (nodup_connect h)

/-- The last retry counts. -/
theorem get_addRetries : get x (rs.foldl (addRetry id) graph).referenceStatuses =
    ((rs.filter fun r => r.1 = x).getLast?.map Prod.snd).or (get x graph.referenceStatuses) := by
  induction rs generalizing graph with
  | nil => simp
  | cons r rs ih =>
      rw [List.foldl_cons, ih, addRetry]
      by_cases hr : r.1 = x
      · subst hr
        have hsplit : (r :: rs).filter (fun r' => r'.1 = r.1) =
            [r] ++ rs.filter (fun r' => r'.1 = r.1) := by simp
        rw [hsplit, List.getLast?_append, get_put]
        cases (rs.filter fun r' => r'.1 = r.1).getLast? <;> simp
      · rw [get_put_ne (Ne.symm hr), List.filter_cons_of_neg (by simpa using hr)]

variable (hid : job.identifier = some id)

include hid

/-- A job is a node under its id. -/
theorem addJob_nodes : (addJob numbers graph job).nodes = put id (node numbers job) graph.nodes := by
  rw [addJob, hid]
  dsimp only
  rw [addRetries_nodes]
  cases job.retryOf <;> rfl

/-- A job adds its links. -/
theorem mem_related_addJob : y ∈ related (addJob numbers graph job).adjacency x ↔
    job.Links x y ∨ y ∈ related graph.adjacency x := by
  have hlinks : job.Links x y ↔ (∃ reference, job.retryOf = some reference ∧
      ((x = id ∧ y = reference) ∨ (x = reference ∧ y = id))) ∨
      ∃ r ∈ job.retries, (x = id ∧ y = r.1) ∨ (x = r.1 ∧ y = id) := by
    unfold RetainedJob.Links RetainedJob.references
    simp only [hid, Option.some.injEq, exists_eq_left', List.mem_append, Option.mem_toList,
      List.mem_map, or_and_right, exists_or]
    simp
  rw [hlinks, addJob, hid]
  dsimp only
  rw [mem_related_addRetries]
  cases hretryOf : job.retryOf with
  | none => simp
  | some reference =>
      simp only [Option.elim_some, addRetryOf, mem_related_connect, related_ensure, Option.some.injEq,
        exists_eq_left']
      rw [or_left_comm]
      exact or_assoc.symm

/-- Adding a job enters no node twice. -/
theorem nodup_addJob (h : (graph.adjacency.map Prod.fst).Nodup) :
    ((addJob numbers graph job).adjacency.map Prod.fst).Nodup := by
  rw [addJob, hid]
  dsimp only
  apply nodup_addRetries
  cases job.retryOf with
  | none => exact nodup_ensure h
  | some reference => exact nodup_connect (nodup_ensure h)

/-- The status of a reference is the one told last, and otherwise that of the job that names it. -/
theorem get_addJob : get x (addJob numbers graph job).referenceStatuses =
    ((job.retries.filter fun r => r.1 = x).getLast?.map Prod.snd).or
      ((get x graph.referenceStatuses).or
        (if job.retryOf = some x then some "failed" else none)) := by
  rw [addJob, hid]
  dsimp only
  rw [get_addRetries]
  congr 1
  cases job.retryOf with
  | none => simp
  | some reference =>
      simp only [Option.elim_some, addRetryOf, Option.some.injEq]
      by_cases hx : reference = x
      · subst hx
        cases hget : get reference graph.referenceStatuses with
        | none => simp [get_put]
        | some status => simp [hget]
      · rw [if_neg hx, Option.or_none]
        split_ifs
        · rfl
        · exact get_put_ne (Ne.symm hx)

end Gathering

/-! ## The gathered graph -/

section Gathered

variable {jobs : List RetainedJob} {graph : Graph F} {x y : String}

/-- The jobs add their links. -/
theorem mem_related_foldl (hids : ∀ job ∈ jobs, ∃ id, job.identifier = some id) :
    y ∈ related (jobs.foldl (addJob numbers) graph).adjacency x ↔
      Linked jobs x y ∨ y ∈ related graph.adjacency x := by
  induction jobs generalizing graph with
  | nil => simp [Linked]
  | cons job jobs ih =>
      obtain ⟨⟨id, hid⟩, hids⟩ := List.forall_mem_cons.mp hids
      rw [List.foldl_cons, ih hids, mem_related_addJob numbers hid]
      simp only [Linked, List.mem_cons, exists_eq_or_imp]
      rw [or_left_comm]
      exact or_assoc.symm

/-- Adding the jobs enters no node twice. -/
theorem nodup_foldl (hids : ∀ job ∈ jobs, ∃ id, job.identifier = some id)
    (h : (graph.adjacency.map Prod.fst).Nodup) :
    ((jobs.foldl (addJob numbers) graph).adjacency.map Prod.fst).Nodup := by
  induction jobs generalizing graph with
  | nil => exact h
  | cons job jobs ih =>
      obtain ⟨⟨id, hid⟩, hids⟩ := List.forall_mem_cons.mp hids
      exact ih hids (nodup_addJob numbers hid h)

/-- The status of a reference after all the jobs. -/
theorem get_foldl (hids : ∀ job ∈ jobs, ∃ id, job.identifier = some id) :
    get x (jobs.foldl (addJob numbers) graph).referenceStatuses =
      (((jobs.flatMap RetainedJob.retries).filter fun r => r.1 = x).getLast?.map Prod.snd).or
        ((get x graph.referenceStatuses).or
          (if ∃ job ∈ jobs, job.retryOf = some x then some "failed" else none)) := by
  induction jobs generalizing graph with
  | nil => simp
  | cons job jobs ih =>
      obtain ⟨⟨id, hid⟩, hids⟩ := List.forall_mem_cons.mp hids
      rw [List.foldl_cons, ih hids, get_addJob numbers hid, List.flatMap_cons, List.filter_append,
        List.getLast?_append, Option.map_or, Option.or_assoc, Option.or_assoc, Option.or_assoc]
      have hfailed : (if job.retryOf = some x then some "failed" else none).or
          (if ∃ job ∈ jobs, job.retryOf = some x then some "failed" else none) =
          if ∃ job' ∈ job :: jobs, job'.retryOf = some x then some "failed" else none := by
        by_cases hjob : job.retryOf = some x <;> simp [hjob]
      rw [hfailed]

/-- The nodes after all the jobs, in the order of the jobs. -/
theorem nodes_foldl (hids : ∀ job ∈ jobs, ∃ id, job.identifier = some id)
    (hnodup : (graph.nodes.map Prod.fst ++ jobs.filterMap RetainedJob.identifier).Nodup) :
    (jobs.foldl (addJob numbers) graph).nodes =
      graph.nodes ++ jobs.filterMap fun job => job.identifier.map fun id => (id, node numbers job) := by
  induction jobs generalizing graph with
  | nil => simp
  | cons job jobs ih =>
      obtain ⟨⟨id, hid⟩, hids⟩ := List.forall_mem_cons.mp hids
      rw [List.filterMap_cons_some hid] at hnodup
      have hnew : id ∉ graph.nodes.map Prod.fst := fun hmem =>
        (List.nodup_append'.mp hnodup).2.2 hmem List.mem_cons_self
      have hnodes : (addJob numbers graph job).nodes = put id (node numbers job) graph.nodes :=
        addJob_nodes numbers hid
      rw [put_of_notMem hnew] at hnodes
      rw [List.foldl_cons, ih hids, hnodes]
      · simp [hid]
      · rw [hnodes, List.map_append, List.append_assoc]
        exact hnodup

variable (hjobs : Identified jobs)

include hjobs

/-- Every job has an id. -/
theorem Identified.exists_identifier : ∀ job ∈ jobs, ∃ id, job.identifier = some id :=
  fun job hjob => (hjobs.identifier job hjob).imp fun _ h => h.1

/-- No id belongs to two jobs. -/
theorem Identified.nodup_ids : (jobs.filterMap RetainedJob.identifier).Nodup := by
  have hmap := List.map_filterMap_some_eq_filter_map_isSome (f := RetainedJob.identifier) (l := jobs)
  apply List.Nodup.of_map some
  rw [hmap]
  exact hjobs.distinct.filter _

/-- The graph has the edges that the jobs say. -/
theorem mem_related_graphOf : y ∈ related (graphOf numbers jobs).adjacency x ↔ Linked jobs x y := by
  rw [graphOf, mem_related_foldl numbers hjobs.exists_identifier]
  simp [related]

/-- The graph of the jobs has every node once. -/
theorem nodup_graphOf : ((graphOf numbers jobs).adjacency.map Prod.fst).Nodup :=
  nodup_foldl numbers hjobs.exists_identifier List.nodup_nil

/-- The graph has the statuses that the jobs say. -/
theorem get_referenceStatuses :
    get x (graphOf numbers jobs).referenceStatuses = recordedStatus jobs x := by
  rw [graphOf, get_foldl numbers hjobs.exists_identifier, get_nil, Option.none_or, recordedStatus]

/-- The nodes of the graph are the jobs. -/
theorem nodes_graphOf : (graphOf numbers jobs).nodes =
    jobs.filterMap fun job => job.identifier.map fun id => (id, node numbers job) := by
  rw [graphOf, nodes_foldl numbers hjobs.exists_identifier (by simpa using hjobs.nodup_ids)]
  rfl

/-- The nodes stand under the ids of the jobs. -/
theorem keys_nodes : (graphOf numbers jobs).nodes.map Prod.fst =
    jobs.filterMap RetainedJob.identifier := by
  rw [nodes_graphOf numbers hjobs, List.map_filterMap]
  apply List.filterMap_congr
  intro job _
  cases job.identifier <;> rfl

/-- The graph has the jobs as nodes. -/
theorem get_nodes : get x (graphOf numbers jobs).nodes = (jobOf jobs x).map (node numbers) := by
  rw [nodes_graphOf numbers hjobs]
  clear hjobs
  induction jobs with
  | nil => rfl
  | cons job jobs ih =>
      cases hid : job.identifier with
      | none => simpa [jobOf, hid] using ih
      | some id =>
          rw [List.filterMap_cons_some (by rw [hid]; rfl), get_cons, jobOf, List.find?_cons]
          by_cases hx : id = x
          · simp [hid, hx]
          · simpa [hid, hx, jobOf] using ih

/-- The job of an id is the one that has it. -/
theorem jobOf_eq_some {job : RetainedJob} :
    jobOf jobs x = some job ↔ job ∈ jobs ∧ job.identifier = some x := by
  constructor
  · intro h
    exact ⟨List.mem_of_find?_eq_some h, by simpa using List.find?_some h⟩
  · rintro ⟨hjob, hid⟩
    have hsome : (jobOf jobs x).isSome := List.find?_isSome.mpr ⟨job, hjob, by simpa using hid⟩
    obtain ⟨job', hjob'⟩ := Option.isSome_iff_exists.mp hsome
    have hid' : job'.identifier = some x := by simpa using List.find?_some hjob'
    rw [hjob', List.inj_on_of_nodup_map hjobs.distinct (List.mem_of_find?_eq_some hjob') hjob
      (hid'.trans hid.symm)]

/-- The attempts of a component are those its ids stand for. -/
theorem attemptsOf_eq {c : List String} : attemptsOf (graphOf numbers jobs) c =
    ((c.map (share numbers jobs)).sum, decide (∀ id ∈ c, ¬Missing jobs id)) := by
  have hfold (p : ℤ × Bool) : c.foldl (fun (attempts, attemptsComplete) id =>
      match get id (graphOf numbers jobs).nodes with
      | some node => (attempts + node.attempts, attemptsComplete)
      | none =>
          if (get id (graphOf numbers jobs).referenceStatuses).getD "failed" = "pending" then
            (attempts, attemptsComplete)
          else (attempts + 1, false)) p =
      (p.1 + (c.map (share numbers jobs)).sum, p.2 && decide (∀ id ∈ c, ¬Missing jobs id)) := by
    induction c generalizing p with
    | nil => simp
    | cons id c ih =>
        have hpending : (recordedStatus jobs id).getD "failed" = "pending" ↔
            recordedStatus jobs id = some "pending" := by
          cases recordedStatus jobs id <;> simp
        rw [List.foldl_cons, ih, get_nodes numbers hjobs, get_referenceStatuses numbers hjobs,
          List.map_cons, List.sum_cons]
        cases hjob : jobOf jobs id with
        | some job => simp [share, hjob, Missing, node, add_assoc]
        | none =>
            by_cases hstatus : recordedStatus jobs id = some "pending"
            · simp [share, hjob, Missing, hstatus]
            · simp [share, hjob, Missing, hstatus, hpending, add_assoc]
  rw [attemptsOf, hfold]
  simp

omit hjobs in
/-- The neighbours that may go on the stack are within the budget. -/
theorem ahead_le_budget {adjacency : Adjacency} (h : (adjacency.map Prod.fst).Nodup) :
    1 + Traversal.ahead (related adjacency) (adjacency.map Prod.fst).toFinset [] ≤ budget adjacency := by
  have hsum : Traversal.ahead (related adjacency) (adjacency.map Prod.fst).toFinset [] =
      (adjacency.map fun e => e.2.length).sum := by
    rw [Traversal.ahead, Finset.filter_true_of_mem (by simp), List.sum_toFinset _ h, List.map_map]
    refine congrArg List.sum (List.map_congr_left fun e he => ?_)
    rw [Function.comp_apply, related, get_of_mem h he, Option.getD_some]
  rw [hsum, budget]

/-- The traversals of the graph find its components. -/
theorem gather_graphOf : Traversal.Components (Linked jobs) (jobs.filterMap RetainedJob.identifier)
    (Traversal.gather (related (graphOf numbers jobs).adjacency) (budget (graphOf numbers jobs).adjacency)
      (jobs.filterMap RetainedJob.identifier) []) := by
  have hlinked : (fun x y => y ∈ related (graphOf numbers jobs).adjacency x) = Linked jobs := by
    funext x y
    exact propext (mem_related_graphOf numbers hjobs)
  rw [← hlinked]
  refine Traversal.gather_components (fun x hx => ?_)
    (ahead_le_budget (nodup_graphOf numbers hjobs)) fun x y => ?_
  · rw [related, get_eq_none.mpr (by simpa using hx), Option.getD_none]
  · simp only [mem_related_graphOf numbers hjobs]
    exact linked_symm

end Gathered

/-! ## The components -/

section Summarized

variable [LinearOrder F] {jobs : List RetainedJob} {graph : Graph F} {c : List String}

/-- An id that has not been visited stands for its component. -/
theorem addComponent_of_notMem {id : String} {p : Progress F} (hid : isIntegerKey id = false)
    (hvisited : id ∉ p.visited) :
    ∃ q, addComponent numbers graph p id = some q ∧
      q.visited = (component id graph.adjacency p.visited).2 ∧
      q.rows = p.rows ++ (lineage numbers graph (component id graph.adjacency p.visited).1).toList ∧
      (∀ x, x ∈ q.coveredIds ↔
        x ∈ p.coveredIds ∨ x ∈ (component id graph.adjacency p.visited).1) ∧
      (q.allAttemptsComplete = true ↔ p.allAttemptsComplete = true ∧
        ∀ row ∈ lineage numbers graph (component id graph.adjacency p.visited).1,
          row.attemptsComplete = true) := by
  rw [addComponent, if_neg hvisited, hid, if_neg Bool.false_ne_true]
  set found := component id graph.adjacency p.visited
  have hcovered (x : String) : x ∈ p.coveredIds ++ found.1.filter (· ∉ p.coveredIds) ↔
      x ∈ p.coveredIds ∨ x ∈ found.1 := by
    simp only [List.mem_append, List.mem_filter, decide_eq_true_eq]
    tauto
  dsimp only
  cases lineage numbers graph found.1 with
  | none => exact ⟨_, rfl, rfl, by simp, hcovered, by simp⟩
  | some row => exact ⟨_, rfl, rfl, by simp, hcovered, by simp⟩

/-- The second loop goes through the components of the graph. -/
theorem foldlM_addComponent {ids : List String} {p : Progress F}
    (hids : ∀ id ∈ ids, isIntegerKey id = false) :
    ∃ q, ids.foldlM (addComponent numbers graph) p = some q ∧
      q.rows = p.rows ++ (Traversal.gather (related graph.adjacency) (budget graph.adjacency) ids
        p.visited).filterMap (lineage numbers graph) ∧
      (∀ x, x ∈ q.coveredIds ↔ x ∈ p.coveredIds ∨ ∃ c ∈ Traversal.gather (related graph.adjacency)
        (budget graph.adjacency) ids p.visited, x ∈ c) ∧
      (q.allAttemptsComplete = true ↔ p.allAttemptsComplete = true ∧
        ∀ row ∈ (Traversal.gather (related graph.adjacency) (budget graph.adjacency) ids
          p.visited).filterMap (lineage numbers graph), row.attemptsComplete = true) := by
  induction ids generalizing p with
  | nil => exact ⟨p, rfl, by simp [Traversal.gather], by simp [Traversal.gather],
      by simp [Traversal.gather]⟩
  | cons id ids ih =>
      obtain ⟨hid, hids⟩ := List.forall_mem_cons.mp hids
      rw [Traversal.gather, List.foldlM_cons]
      by_cases hvisited : id ∈ p.visited
      · rw [if_pos hvisited, addComponent, if_pos hvisited]
        exact ih hids
      obtain ⟨p', hstep, hvisited', hrows', hcovered', hcomplete'⟩ :=
        @addComponent_of_notMem F numbers _ graph id p hid hvisited
      obtain ⟨q, hq, hrows, hcovered, hcomplete⟩ := @ih p' hids
      rw [hvisited'] at hrows hcovered hcomplete
      rw [if_neg hvisited, hstep]
      refine ⟨q, hq, ?_, fun x => ?_, ?_⟩
      · rw [hrows, hrows', List.append_assoc, component]
        cases hrow : lineage numbers graph (Traversal.visit (related graph.adjacency)
            (budget graph.adjacency) [id] [] p.visited).1 with
        | none => simp [hrow]
        | some row => simp [hrow]
      · rw [hcovered, hcovered', or_assoc]
        simp [component]
      · rw [hcomplete, hcomplete', and_assoc]
        simp [component, or_imp, forall_and]

/-- Newest first is the reverse order of the ranks. -/
theorem newestFirst_iff {left right : RetainedJob} :
    newestFirst (node numbers left) (node numbers right) = true ↔ rank numbers right ≤ rank numbers left :=
  decide_eq_true_iff

/-- **A component with a retained job** shows what it has to. -/
theorem shows_lineage (hjobs : Identified jobs) (hretained : ∃ id ∈ c, (jobOf jobs id).isSome) :
    Shows numbers jobs c (lineage numbers (graphOf numbers jobs) c) := by
  have hcompleted : wasCompleted c (graphOf numbers jobs).referenceStatuses = true ↔
      ∃ id ∈ c, recordedStatus jobs id = some "completed" := by
    simp [wasCompleted, get_referenceStatuses numbers hjobs]
  unfold lineage
  dsimp only
  constructor
  · intro h
    rw [if_pos (hcompleted.mpr h)]
  · intro h
    rw [if_neg (mt hcompleted.mp h)]
    set retained := c.filterMap fun id => get id (graphOf numbers jobs).nodes with hdef
    have hmem (n : Node F) : n ∈ retained ↔ ∃ id ∈ c, ∃ job, jobOf jobs id = some job ∧ node numbers job = n := by
      simp [hdef, get_nodes numbers hjobs]
    have hsort (n : Node F) : n ∈ retained.mergeSort newestFirst ↔ n ∈ retained := List.mem_mergeSort
    have hsorted : (retained.mergeSort newestFirst).Pairwise fun l r => newestFirst l r = true := by
      apply List.pairwise_mergeSort
      · intro a b c hab hbc
        exact decide_eq_true ((of_decide_eq_true hbc).trans (of_decide_eq_true hab))
      · intro a b
        rw [Bool.or_eq_true]
        exact (le_total _ _).imp decide_eq_true decide_eq_true
    cases hlist : retained.mergeSort newestFirst with
    | nil =>
        obtain ⟨id, hid, hsome⟩ := hretained
        obtain ⟨job, hjob⟩ := Option.isSome_iff_exists.mp hsome
        have hin : node numbers job ∈ retained := (hmem _).mpr ⟨id, hid, job, hjob, rfl⟩
        rw [← hsort, hlist] at hin
        cases hin
    | cons n rest =>
        have hn : n ∈ retained := by
          rw [← hsort, hlist]
          exact List.mem_cons_self
        obtain ⟨id, hid, job, hjob, rfl⟩ := (hmem n).mp hn
        refine ⟨job, ⟨⟨id, hid, hjob⟩, fun id' hid' other hother => ?_⟩, ?_⟩
        · have hin : node numbers other ∈ retained := (hmem _).mpr ⟨id', hid', other, hother, rfl⟩
          rw [← hsort, hlist] at hin
          rcases List.mem_cons.mp hin with heq | hin
          · exact (congrArg (fun n : Node F => toLex (n.failedAt, n.index)) heq).le
          · rw [hlist] at hsorted
            exact (newestFirst_iff numbers).mp (List.rel_of_pairwise_cons hsorted hin)
        · rw [List.head?_cons, Option.bind_some, attemptsOf_eq numbers hjobs]
          rfl

/-! ## The order of the jobs -/

/-- What the same ids show is the same, where it is known which of them is the newest. -/
theorem Shows.eq {jobs' : List RetainedJob} {c' : List String} {shown shown' : Option (JobRowData F)}
    (h : Shows numbers jobs c shown) (h' : Shows numbers jobs' c' shown')
    (hjobOf : ∀ id, jobOf jobs id = jobOf jobs' id)
    (hstatus : ∀ id, recordedStatus jobs id = recordedStatus jobs' id)
    (hperm : c.Perm c')
    (huntied : ∀ id ∈ c, ∀ id' ∈ c, ∀ job job', jobOf jobs id = some job → jobOf jobs id' = some job' →
      rank numbers job = rank numbers job' → id = id') :
    shown = shown' := by
  have hcompleted : (∃ id ∈ c, recordedStatus jobs id = some "completed") ↔
      ∃ id ∈ c', recordedStatus jobs' id = some "completed" := by
    simp only [hperm.mem_iff, hstatus]
  by_cases hsome : ∃ id ∈ c, recordedStatus jobs id = some "completed"
  · rw [h.completed hsome, h'.completed (hcompleted.mp hsome)]
  obtain ⟨job, hnewest, hshown⟩ := h.newest hsome
  obtain ⟨job', hnewest', hshown'⟩ := h'.newest (mt hcompleted.mpr hsome)
  have hshare : share numbers jobs = share numbers jobs' := by
    funext id
    rw [share, share, hjobOf, hstatus]
  have hmissing : (∀ id ∈ c, ¬Missing jobs id) ↔ ∀ id ∈ c', ¬Missing jobs' id := by
    simp only [Missing, hperm.mem_iff, hjobOf, hstatus]
  -- Each of the two newest jobs is at most as new as the other one.
  obtain ⟨id, hid, hjob⟩ := hnewest.mem
  obtain ⟨id', hid', hjob'⟩ := hnewest'.mem
  rw [← hjobOf] at hjob'
  rw [← hperm.mem_iff] at hid'
  have hle : rank numbers job' ≤ rank numbers job := hnewest.newest id' hid' job' hjob'
  have hge : rank numbers job ≤ rank numbers job' :=
    hnewest'.newest id (hperm.mem_iff.mp hid) job (hjobOf id ▸ hjob)
  have hids : id = id' := huntied id hid id' hid' job job' hjob hjob' (le_antisymm hge hle)
  rw [hids, hjob'] at hjob
  cases hjob
  rw [hshown, hshown', hshare, (hperm.map _).sum_eq]
  simp only [hmissing]

section Permuted

variable {jobs' : List RetainedJob} (hjobs : Identified jobs) (hperm : jobs.Perm jobs')

include hperm

/-- The links do not depend on the order of the jobs. -/
theorem linked_perm {x y : String} : Linked jobs x y ↔ Linked jobs' x y := by
  simp only [Linked, hperm.mem_iff]

include hjobs

/-- Distinct ids stay distinct in another order. -/
theorem Identified.perm : Identified jobs' where
  identifier job hjob := hjobs.identifier job (hperm.mem_iff.mpr hjob)
  distinct := (hperm.map _).nodup_iff.mp hjobs.distinct

/-- The job of an id does not depend on the order of the jobs. -/
theorem jobOf_perm (id : String) : jobOf jobs id = jobOf jobs' id := by
  ext job
  rw [jobOf_eq_some hjobs, jobOf_eq_some (hjobs.perm hperm), hperm.mem_iff]

end Permuted

/-- The last status of a retry is the one it is recorded with. -/
theorem getLast?_eq_some (h : SingleStatus jobs) {x status : String} :
    ((jobs.flatMap RetainedJob.retries).filter fun r => r.1 = x).getLast?.map Prod.snd = some status ↔
      (x, status) ∈ jobs.flatMap RetainedJob.retries := by
  constructor
  · intro hlast
    obtain ⟨r, hr, rfl⟩ := Option.map_eq_some_iff.mp hlast
    obtain ⟨hmem, hx⟩ := List.mem_filter.mp (List.mem_of_getLast? hr)
    obtain rfl := of_decide_eq_true hx
    exact hmem
  · intro hmem
    have hin : (x, status) ∈ (jobs.flatMap RetainedJob.retries).filter fun r => r.1 = x :=
      List.mem_filter.mpr ⟨hmem, decide_eq_true rfl⟩
    obtain ⟨r, hr⟩ := Option.isSome_iff_exists.mp
      (List.getLast?_isSome.mpr (List.ne_nil_of_mem hin))
    obtain ⟨hmem', hx⟩ := List.mem_filter.mp (List.mem_of_getLast? hr)
    rw [hr, Option.map_some, h r hmem' _ hmem (of_decide_eq_true hx)]

/-- Where every reference has one status, it does not depend on the order of the jobs. -/
theorem recordedStatus_perm {jobs' : List RetainedJob} (hperm : jobs.Perm jobs') (h : SingleStatus jobs)
    (id : String) : recordedStatus jobs id = recordedStatus jobs' id := by
  have hretries : (jobs.flatMap RetainedJob.retries).Perm (jobs'.flatMap RetainedJob.retries) :=
    hperm.flatMap_right _
  have h' : SingleStatus jobs' := by
    intro r hr r' hr'
    exact h r (hretries.mem_iff.mpr hr) r' (hretries.mem_iff.mpr hr')
  unfold recordedStatus
  congr 1
  · ext status
    rw [getLast?_eq_some h, getLast?_eq_some h', hretries.mem_iff]
  · simp only [hperm.mem_iff]

/-- A retained job is in a component that has been found from it. -/
theorem exists_retained (hjobs : Identified jobs) {components : List (List String)}
    (h : Traversal.Components (Linked jobs) (jobs.filterMap RetainedJob.identifier) components)
    (hc : c ∈ components) : ∃ id ∈ c, (jobOf jobs id).isSome := by
  obtain ⟨id, hid, hconnected⟩ := h.connected c hc
  obtain ⟨job, hjob, hidentifier⟩ := List.mem_filterMap.mp hid
  refine ⟨id, (hconnected id).mpr .refl, ?_⟩
  rw [(jobOf_eq_some hjobs).mpr ⟨hjob, hidentifier⟩]
  rfl

/-- What `summarize` returns: the rows of the components, and whether all the failed ids are covered. -/
theorem summarize_eq (hjobs : Identified jobs) (failedJobIds : List String) :
    ∃ summary components, summarize numbers jobs failedJobIds = some summary ∧
      Traversal.Components (Linked jobs) (jobs.filterMap RetainedJob.identifier) components ∧
      summary.rows.Perm (components.filterMap (lineage numbers (graphOf numbers jobs))) ∧
      summary.rows.Pairwise (fun left right => failedAt numbers right ≤ failedAt numbers left) ∧
      (summary.complete = true ↔ (∀ id ∈ failedJobIds, ∃ c ∈ components, id ∈ c) ∧
        ∀ row ∈ summary.rows, row.attemptsComplete = true) := by
  have hids : ∀ id ∈ (graphOf numbers jobs).nodes.map Prod.fst, isIntegerKey id = false := by
    intro id hid
    rw [keys_nodes numbers hjobs] at hid
    obtain ⟨job, hjob, hidentifier⟩ := List.mem_filterMap.mp hid
    obtain ⟨id', hid', hkey⟩ := hjobs.identifier job hjob
    obtain rfl := Option.some.inj (hidentifier.symm.trans hid')
    exact hkey
  obtain ⟨progress, hprogress, hrows, hcovered, hcomplete⟩ :=
    foldlM_addComponent (p := ⟨[], [], [], true⟩) numbers hids
  rw [keys_nodes numbers hjobs] at hprogress hrows hcovered hcomplete
  set components := Traversal.gather (related (graphOf numbers jobs).adjacency)
    (budget (graphOf numbers jobs).adjacency) (jobs.filterMap RetainedJob.identifier) []
  set rows := progress.rows.mergeSort
    fun left right => decide (failedAt numbers right ≤ failedAt numbers left) with hsort
  have hperm : rows.Perm progress.rows := List.mergeSort_perm _ _
  refine ⟨⟨rows, failedJobIds.all (· ∈ progress.coveredIds) && progress.allAttemptsComplete⟩, components,
    ?_, gather_graphOf numbers hjobs, ?_, ?_, ?_⟩
  · rw [summarize, keys_nodes numbers hjobs, hprogress, Option.map_some]
  · rw [hrows] at hperm
    exact hperm
  · refine (List.pairwise_mergeSort (fun a b c hab hbc => ?_) (fun a b => ?_) _).imp of_decide_eq_true
    · exact decide_eq_true ((of_decide_eq_true hbc).trans (of_decide_eq_true hab))
    · rw [Bool.or_eq_true]
      exact (le_total _ _).imp decide_eq_true decide_eq_true
  · simp only [Bool.and_eq_true, List.all_eq_true, decide_eq_true_eq, hcovered, hcomplete, hperm.mem_iff,
      hrows]
    simp

/-- Numbers that are integers. -/
def integers : Numbers ℚ where
  zero := 0
  toInt
    | .int n => some n
    | _ => none
  toFloat
    | .int n => some n
    | _ => none

/-- A failed job. -/
def failedJob (id : String) (index : ℤ) : RetainedJob where
  id := .str id
  name := .str "SendInvoice"
  status := .str "failed"
  payload := .null
  failedAt := .int 1700000000
  index := .int index
  retriedBy := .null

/-- A job that has been retried, its retry, and a third job that failed at the same time. -/
def retriedJobs : List RetainedJob :=
  [{ failedJob "3f2a" 7 with
      retriedBy := .array [("0", .array [("id", .str "9c1b"), ("status", .str "failed")])] },
    { failedJob "9c1b" 8 with
      payload := .str "\x7b\"retry_of\":\"3f2a\",\"attempts\":2\x7d" },
    failedJob "5d0e" 9]

end Summarized

end BatchFailedJobLineages

end HorizonNewDawn

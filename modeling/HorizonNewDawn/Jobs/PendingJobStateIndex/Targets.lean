import HorizonNewDawn.Jobs.PendingJobStateIndex
import HorizonNewDawn.Jobs.RetainedJobIndex.Evaluation
import Mathlib

/-! # Scans of the queues of some targets

The scans of `PendingJobStateIndex` as programs: every target's queue is copied by one script when its
turn comes, and the copies are read. While nothing else happens the programs answer what the scans find
in the structures the queues have (`eval_matchingEntries`, `eval_delayedAvailabilityScores`). -/

namespace HorizonNewDawn

open Program

/-- What `PendingJobStateIndex` takes from PHP: the number a value stands for, and whether a score is
finite. -/
structure PendingStates where
  toFloat : Php → Option ℚ
  isFinite : ℚ → Bool

namespace PendingStates

open RetainedJobIndex PendingJobStateIndex

/-- The copies of the structures of a queue, with the time of the script. -/
abbrev QueueCopy : Type := PendingJobStateIndex.Queue ℚ × ℚ

variable (states : PendingStates) {α : Type}

/-- What a scan finds or throws. -/
def scanned (found : Except PendingJobStateIndex.Failure α) : Redis α :=
  match found with
  | .ok found => return found
  | .error .typeError => .fail .typeError
  | .error .snapshotExpired =>
      throwRuntime "The pending job state snapshot expired; refresh is required."

/-- The copies of a target's queue. -/
def snapshot (target : Target) : Redis QueueCopy := do
  match (← command (.snapshotQueue target.connection target.queue) : Option QueueCopy) with
  | some snapshot => return snapshot
  | none => throwRuntime ("Pending state is unavailable for [" ++ target.connection ++ "].")

/-- A scan of one queue after the other. -/
def scanTargets (scan : α → Target × QueueCopy → Except PendingJobStateIndex.Failure α) :
    α → List Target → Redis α :=
  Prog.fold fun found target => do
    let snapshot ← snapshot target
    scanned (scan found (target, snapshot))

/-- The state with a name. -/
def stateOf : String → Option PendingState
  | "ready" => some .ready
  | "reserved" => some .reserved
  | "delayed" => some .delayed
  | "released" => some .released
  | _ => none

/-- `matchingEntries` -/
def matchingEntries (targets : List Target) (state : String) : Redis (List (Entry ℚ)) :=
  match stateOf state with
  | none => throwRuntime ("Unsupported pending job state [" ++ state ++ "].")
  | some state =>
      scanTargets (fun entries (target, queue, asOf) =>
        (createSnapshot queue state asOf).foldlM
          (scanSnapshotEntries states.toFloat states.isFinite target asOf) entries) [] targets

/-- `delayedAvailabilityScores` -/
def delayedAvailabilityScores (targets : List Target) : Redis (List (String × ℚ)) :=
  scanTargets (fun scores (_, queue, asOf) =>
    (createSnapshot queue .delayed asOf).foldlM (scanSnapshotScores states.isFinite) scores) [] targets

/-! ## What the scans find -/

/-- The structures of the queues of some targets. -/
def snapshotsAt (s : Store) (targets : List Target) : List (Target × QueueCopy) :=
  targets.filterMap fun target =>
    (s.queues target.connection target.queue).map fun snapshot => (target, snapshot)

variable {states} {scan : ScanOrder} {i : ProcessId} {s : Store} {targets : List Target}

/-- The copies of a queue are those of its structures. -/
theorem eval_snapshot (hs : s.failing = false) {target : Target} {snapshot : QueueCopy}
    (h : s.queues target.connection target.queue = some snapshot) :
    (PendingStates.snapshot target).eval (exec scan i) s = (.returned snapshot, s) := by
  have hcommand : (command (.snapshotQueue target.connection target.queue) :
      Redis (Option QueueCopy)).eval (exec scan i) s =
        (.returned (s.queues target.connection target.queue), s) := eval_command hs _
  rw [PendingStates.snapshot, Prog.eval_bind_of hcommand, h]
  rfl

/-- The scans of the queues one after the other are a scan of all their structures. -/
theorem eval_scanTargets (hs : s.failing = false)
    (hqueues : ∀ target ∈ targets, (s.queues target.connection target.queue).isSome)
    {f : α → Target × QueueCopy → Except PendingJobStateIndex.Failure α} {found result : α}
    (h : (snapshotsAt s targets).foldlM f found = .ok result) :
    (scanTargets f found targets).eval (exec scan i) s = (.returned result, s) := by
  induction targets generalizing found with
  | nil =>
      cases h
      rfl
  | cons target targets ih =>
      obtain ⟨snapshot, hsnapshot⟩ :=
        Option.isSome_iff_exists.mp (hqueues target List.mem_cons_self)
      have hcons : snapshotsAt s (target :: targets) =
          (target, snapshot) :: snapshotsAt s targets := by
        simp [snapshotsAt, hsnapshot]
      rw [hcons, List.foldlM_cons] at h
      -- The first queue is scanned without an exception.
      cases hfirst : f found (target, snapshot) with
      | error e =>
          rw [hfirst] at h
          cases h
      | ok next =>
          rw [hfirst] at h
          have hbody : (PendingStates.snapshot target >>= fun snapshot =>
              scanned (f found (target, snapshot))).eval (exec scan i) s = (.returned next, s) := by
            rw [Prog.eval_bind_of (eval_snapshot hs hsnapshot), hfirst]
            rfl
          exact (Prog.eval_bind_of hbody).trans
            (ih (fun target' hmem => hqueues target' (List.mem_cons_of_mem _ hmem)) h)

/-- **The entries of one state** are those the scans find in the queues. -/
theorem eval_matchingEntries (hs : s.failing = false)
    (hqueues : ∀ target ∈ targets, (s.queues target.connection target.queue).isSome)
    {name : String} {state : PendingState} (hstate : stateOf name = some state)
    {entries : List (Entry ℚ)}
    (h : PendingJobStateIndex.matchingEntries states.toFloat states.isFinite (snapshotsAt s targets)
      state = .ok entries) :
    (states.matchingEntries targets name).eval (exec scan i) s = (.returned entries, s) := by
  rw [PendingStates.matchingEntries, hstate]
  exact eval_scanTargets hs hqueues h

/-- **The delayed jobs** are those the scans find in the queues. -/
theorem eval_delayedAvailabilityScores (hs : s.failing = false)
    (hqueues : ∀ target ∈ targets, (s.queues target.connection target.queue).isSome)
    {scores : List (String × ℚ)}
    (h : PendingJobStateIndex.delayedAvailabilityScores states.isFinite (snapshotsAt s targets) =
      .ok scores) :
    (states.delayedAvailabilityScores targets).eval (exec scan i) s = (.returned scores, s) :=
  eval_scanTargets hs hqueues h

end PendingStates

end HorizonNewDawn

import HorizonNewDawn.Collections.Records
import Mathlib.Data.List.Induction
import Mathlib.Data.Int.Order.Basic

/-! # Pending process transitions

The dashboard lets a user pause and continue an instance or one of its supervisors, and shows the
transition as pending until the server reports the target, the transition fails or its time is up.
The state is what the hook keeps between renders: the snapshot of the latest render, the pending
transitions and the last token. `step` is what the hook does on an event.

The records of the hook are JavaScript objects, so that a lookup of a name that is not among the
keys may still find a member of `Object.prototype` (`inheritedMembers`). -/

namespace HorizonNewDawn

inductive HorizonTransitionStatus
  | continuing
  | pausing
deriving DecidableEq, Repr

/-- What is read of a supervisor. -/
structure SupervisorItem where
  id : String
  status : String
deriving DecidableEq, Repr

/-- What is read of an instance. -/
structure SupervisorGroup where
  name : String
  status : String
  items : List SupervisorItem
deriving DecidableEq, Repr

structure DashboardSupervisors where
  available : Bool
  groups : List SupervisorGroup
deriving DecidableEq, Repr

namespace ProcessTransitions

def fallbackTransitionPollInterval : ℤ := 5000

def minimumTransitionTimeout : ℤ := 30000

def transitionPollAttempts : ℤ := 6

structure PendingTransition where
  status : HorizonTransitionStatus
  token : ℤ
  expiresAt : ℤ
deriving DecidableEq, Repr

abbrev Pending : Type := AList fun _ : String => PendingTransition

structure PendingProcessTransitions where
  instances : Pending
  supervisors : Pending

def resolveProcessPollInterval (configuredInterval : ℤ) : ℤ :=
  if configuredInterval > 0 then configuredInterval else fallbackTransitionPollInterval

def resolveProcessTransitionTimeout (configuredInterval : ℤ) : ℤ :=
  max minimumTransitionTimeout
    (resolveProcessPollInterval configuredInterval * transitionPollAttempts)

def emptyPendingTransitions : PendingProcessTransitions := ⟨∅, ∅⟩

def targetStatus : HorizonTransitionStatus → String
  | .pausing => "paused"
  | .continuing => "running"

/-- `groups.get(instanceName)`: of groups with one name the map keeps the last. -/
def groupNamed (supervisors : DashboardSupervisors) (instanceName : String) :
    Option SupervisorGroup :=
  supervisors.groups.reverse.find? fun group => group.name = instanceName

/-- `children.get(supervisorId)` -/
def childWith (supervisors : DashboardSupervisors) (supervisorId : String) : Option SupervisorItem :=
  (supervisors.groups.flatMap (·.items)).reverse.find? fun item => item.id = supervisorId

/-- The instance is gone, or it and all its supervisors have the target status. -/
def instanceSettled (supervisors : DashboardSupervisors) (instanceName : String)
    (transition : PendingTransition) : Bool :=
  match groupNamed supervisors instanceName with
  | none => true
  | some group => (group.status :: group.items.map (·.status)).all fun status =>
      status = targetStatus transition.status

def supervisorSettled (supervisors : DashboardSupervisors) (supervisorId : String)
    (transition : PendingTransition) : Bool :=
  match childWith supervisors supervisorId with
  | none => true
  | some supervisor => supervisor.status = targetStatus transition.status

def reconcileTransitions (transitions : PendingProcessTransitions)
    (supervisors : DashboardSupervisors) : PendingProcessTransitions :=
  if !supervisors.available then transitions
  else
    { instances := Records.sweep (instanceSettled supervisors) transitions.instances
      supervisors := Records.sweep (supervisorSettled supervisors) transitions.supervisors }

def nextExpiry (transitions : PendingProcessTransitions) : Option ℤ :=
  ((transitions.instances.entries ++ transitions.supervisors.entries).map (·.2.expiresAt)).min?

def withoutExpiredTransitions (transitions : PendingProcessTransitions) (expiredAt : ℤ) :
    PendingProcessTransitions :=
  { instances := Records.filter (fun _ transition => transition.expiresAt > expiredAt)
      transitions.instances
    supervisors := Records.filter (fun _ transition => transition.expiresAt > expiredAt)
      transitions.supervisors }

/-- What every object has without keys of its own. -/
def inheritedMembers : List String :=
  ["constructor", "__defineGetter__", "__defineSetter__", "hasOwnProperty", "__lookupGetter__",
    "__lookupSetter__", "isPrototypeOf", "propertyIsEnumerable", "toString", "valueOf",
    "__proto__", "toLocaleString"]

/-- `pending[name] !== undefined` -/
def occupied (pending : Pending) (name : String) : Bool :=
  (pending.lookup name).isSome || inheritedMembers.contains name

/-- What the hook keeps: `supervisors` of the latest render, `transitionRef` (which
`commitTransitions` sets together with the rendered transitions) and `nextToken`. -/
structure State where
  supervisors : Option DashboardSupervisors
  transitions : PendingProcessTransitions
  nextToken : ℤ

def initial : State := ⟨none, emptyPendingTransitions, 0⟩

/-- `supervisors?.available ? supervisors.groups : undefined` -/
def availableGroups (state : State) : List SupervisorGroup :=
  match state.supervisors with
  | some supervisors => if supervisors.available then supervisors.groups else []
  | none => []

/-- The pending transition that a start at a time adds. -/
def started (state : State) (status : HorizonTransitionStatus) (now configuredPollInterval : ℤ) :
    PendingTransition :=
  ⟨status, state.nextToken + 1, now + resolveProcessTransitionTimeout configuredPollInterval⟩

def onInstanceTransition (state : State) (instanceName : String) (status : HorizonTransitionStatus)
    (now configuredPollInterval : ℤ) : State × Option ℤ :=
  match (availableGroups state).find? fun candidate => candidate.name = instanceName with
  | none => (state, none)
  | some group =>
      if occupied state.transitions.instances instanceName ||
          group.items.any fun item => occupied state.transitions.supervisors item.id then
        (state, none)
      else
        let instances := state.transitions.instances.insert instanceName
          (started state status now configuredPollInterval)
        ({ state with
            transitions := { state.transitions with instances }
            nextToken := state.nextToken + 1 }, some (state.nextToken + 1))

def onSupervisorTransition (state : State) (supervisorId : String)
    (status : HorizonTransitionStatus) (now configuredPollInterval : ℤ) : State × Option ℤ :=
  match (availableGroups state).find? fun candidate =>
      candidate.items.any fun item => item.id = supervisorId with
  | none => (state, none)
  | some group =>
      if occupied state.transitions.instances group.name ||
          occupied state.transitions.supervisors supervisorId then
        (state, none)
      else
        let supervisors := state.transitions.supervisors.insert supervisorId
          (started state status now configuredPollInterval)
        ({ state with
            transitions := { state.transitions with supervisors }
            nextToken := state.nextToken + 1 }, some (state.nextToken + 1))

def onInstanceTransitionFailure (state : State) (instanceName : String) (token : ℤ) : State :=
  if (state.transitions.instances.lookup instanceName).map (·.token) ≠ some token then state
  else
    let instances := state.transitions.instances.erase instanceName
    { state with transitions := { state.transitions with instances } }

def onSupervisorTransitionFailure (state : State) (supervisorId : String) (token : ℤ) : State :=
  if (state.transitions.supervisors.lookup supervisorId).map (·.token) ≠ some token then state
  else
    let supervisors := state.transitions.supervisors.erase supervisorId
    { state with transitions := { state.transitions with supervisors } }

/-- A render with a new snapshot, and the effect that reconciles with it. -/
def onSupervisors (state : State) (supervisors : Option DashboardSupervisors) : State :=
  { state with
    supervisors
    transitions := supervisors.elim state.transitions (reconcileTransitions state.transitions) }

/-- The timer. Without a pending transition none is armed, and before the next expiry it is armed
again. -/
def expireTransitions (state : State) (now : ℤ) : State :=
  match nextExpiry state.transitions with
  | none => state
  | some expiresAt =>
      if now < expiresAt then state
      else { state with transitions := withoutExpiredTransitions state.transitions now }

inductive Event
  | instanceTransition (instanceName : String) (status : HorizonTransitionStatus)
      (now configuredPollInterval : ℤ)
  | supervisorTransition (supervisorId : String) (status : HorizonTransitionStatus)
      (now configuredPollInterval : ℤ)
  | instanceTransitionFailure (instanceName : String) (token : ℤ)
  | supervisorTransitionFailure (supervisorId : String) (token : ℤ)
  | supervisors (supervisors : Option DashboardSupervisors)
  | expiry (now : ℤ)

/-- The next state, and the token that a start hands out. -/
def step (state : State) : Event → State × Option ℤ
  | .instanceTransition instanceName status now configuredPollInterval =>
      onInstanceTransition state instanceName status now configuredPollInterval
  | .supervisorTransition supervisorId status now configuredPollInterval =>
      onSupervisorTransition state supervisorId status now configuredPollInterval
  | .instanceTransitionFailure instanceName token =>
      (onInstanceTransitionFailure state instanceName token, none)
  | .supervisorTransitionFailure supervisorId token =>
      (onSupervisorTransitionFailure state supervisorId token, none)
  | .supervisors supervisors => (onSupervisors state supervisors, none)
  | .expiry now => (expireTransitions state now, none)

/-- One more event after a run; the tokens handed out stand with the latest first. -/
def advance (run : State × List ℤ) (event : Event) : State × List ℤ :=
  let next := step run.1 event
  (next.1, next.2.toList ++ run.2)

def run (events : List Event) : State × List ℤ := events.foldl advance (initial, [])

/-- One more event is one more step. -/
@[simp] theorem run_concat (events : List Event) (event : Event) :
    run (events ++ [event]) = advance (run events) event := by
  rw [run, List.foldl_append]
  rfl

/-! ## What a snapshot says

The server lists an instance under its name and a supervisor under its id. -/

def Belongs (supervisors : DashboardSupervisors) (supervisorId instanceName : String) : Prop :=
  ∃ group ∈ supervisors.groups, group.name = instanceName ∧
    ∃ item ∈ group.items, item.id = supervisorId

/-- Every instance and every supervisor is listed once. -/
structure WellFormed (supervisors : DashboardSupervisors) : Prop where
  names : (supervisors.groups.map (·.name)).Nodup
  ids : ((supervisors.groups.flatMap (·.items)).map (·.id)).Nodup

/-- An instance that the snapshot lists has the target status, and so have its supervisors. -/
def InstanceReached (supervisors : DashboardSupervisors) (instanceName : String)
    (transition : PendingTransition) : Prop :=
  supervisors.available ∧ ∀ group ∈ supervisors.groups, group.name = instanceName →
    group.status = targetStatus transition.status ∧
      ∀ item ∈ group.items, item.status = targetStatus transition.status

/-- A supervisor that the snapshot lists has the target status. -/
def SupervisorReached (supervisors : DashboardSupervisors) (supervisorId : String)
    (transition : PendingTransition) : Prop :=
  supervisors.available ∧ ∀ group ∈ supervisors.groups, ∀ item ∈ group.items,
    item.id = supervisorId → item.status = targetStatus transition.status

/-- Of two states of the transitions the second lacks what the tests pick, and nothing else. -/
structure Removes (instanceGone supervisorGone : String → PendingTransition → Prop)
    (before after : PendingProcessTransitions) : Prop where
  instances : ∀ name transition, after.instances.lookup name = some transition ↔
    before.instances.lookup name = some transition ∧ ¬instanceGone name transition
  supervisors : ∀ id transition, after.supervisors.lookup id = some transition ↔
    before.supervisors.lookup id = some transition ∧ ¬supervisorGone id transition

section Find

variable {α : Type} {key : α → String} {l : List α} {k : String} {a : α}

/-- With distinct keys the element with a key is found. -/
theorem find?_key (hl : (l.map key).Nodup) :
    l.find? (fun a => key a = k) = some a ↔ a ∈ l ∧ key a = k := by
  constructor
  · intro hfind
    exact ⟨List.mem_of_find?_eq_some hfind, by simpa using List.find?_some hfind⟩
  · rintro ⟨ha, rfl⟩
    cases hfind : l.find? fun b => key b = key a with
    | none => simpa using List.find?_eq_none.mp hfind a ha
    | some b =>
        have hkey : key b = key a := by simpa using List.find?_some hfind
        rw [List.inj_on_of_nodup_map hl (List.mem_of_find?_eq_some hfind) ha hkey]

/-- So it is from the end. -/
theorem find?_reverse_key (hl : (l.map key).Nodup) :
    l.reverse.find? (fun a => key a = k) = some a ↔ a ∈ l ∧ key a = k := by
  rw [find?_key, List.mem_reverse]
  rwa [List.map_reverse, List.nodup_reverse]

end Find

variable {supervisors : DashboardSupervisors} {transition : PendingTransition}

/-- **An instance is settled** where its supervisors have reached the status. -/
theorem instanceSettled_iff (h : WellFormed supervisors) (havailable : supervisors.available)
    {instanceName : String} :
    instanceSettled supervisors instanceName transition ↔
      InstanceReached supervisors instanceName transition := by
  rw [instanceSettled]
  cases hgroup : groupNamed supervisors instanceName with
  | none =>
      refine iff_of_true rfl ⟨havailable, fun group hmem hname => ?_⟩
      have hsome : groupNamed supervisors instanceName = some group :=
        (find?_reverse_key h.names).mpr ⟨hmem, hname⟩
      rw [hgroup] at hsome
      cases hsome
  | some group =>
      obtain ⟨hmem, hname⟩ := (find?_reverse_key h.names).mp hgroup
      have hall : ((group.status :: group.items.map (·.status)).all fun status =>
          status = targetStatus transition.status) ↔
          group.status = targetStatus transition.status ∧
            ∀ item ∈ group.items, item.status = targetStatus transition.status := by
        simp
      rw [hall]
      constructor
      · rintro hreached
        refine ⟨havailable, fun group' hmem' hname' => ?_⟩
        rw [List.inj_on_of_nodup_map h.names hmem' hmem (hname'.trans hname.symm)]
        exact hreached
      · rintro ⟨-, hreached⟩
        exact hreached group hmem hname

/-- **A supervisor is settled** where it has reached the status. -/
theorem supervisorSettled_iff (h : WellFormed supervisors) (havailable : supervisors.available)
    {supervisorId : String} :
    supervisorSettled supervisors supervisorId transition ↔
      SupervisorReached supervisors supervisorId transition := by
  have hlisted : ∀ item, childWith supervisors supervisorId = some item ↔
      (∃ group ∈ supervisors.groups, item ∈ group.items) ∧ item.id = supervisorId := by
    intro item
    rw [childWith, find?_reverse_key h.ids, List.mem_flatMap]
  rw [supervisorSettled]
  cases hchild : childWith supervisors supervisorId with
  | none =>
      refine iff_of_true rfl ⟨havailable, fun group hgroup item hitem hid => ?_⟩
      have hsome := (hlisted item).mpr ⟨⟨group, hgroup, hitem⟩, hid⟩
      rw [hchild] at hsome
      cases hsome
  | some item =>
      obtain ⟨⟨group, hgroup, hitem⟩, hid⟩ := (hlisted item).mp hchild
      rw [decide_eq_true_eq]
      constructor
      · intro hreached
        refine ⟨havailable, fun group' hgroup' item' hitem' hid' => ?_⟩
        have hsame := (hlisted item').mpr ⟨⟨group', hgroup', hitem'⟩, hid'⟩
        rw [hchild, Option.some.injEq] at hsame
        rw [← hsame]
        exact hreached
      · rintro ⟨-, hreached⟩
        exact hreached group hgroup item hitem hid

/-- A new snapshot removes the transitions that have reached their target. -/
theorem onSupervisors_removes (state : State) (h : WellFormed supervisors) :
    Removes (InstanceReached supervisors) (SupervisorReached supervisors) state.transitions
      (onSupervisors state (some supervisors)).transitions := by
  rw [onSupervisors, Option.elim_some, reconcileTransitions]
  by_cases havailable : supervisors.available
  · rw [if_neg (by simp [havailable])]
    constructor
    · intro name transition
      rw [Records.lookup_sweep, Option.filter_eq_some_iff, Bool.not_eq_true', ← Bool.not_eq_true,
        instanceSettled_iff h havailable]
    · intro id transition
      rw [Records.lookup_sweep, Option.filter_eq_some_iff, Bool.not_eq_true', ← Bool.not_eq_true,
        supervisorSettled_iff h havailable]
  · rw [if_pos (by simp [havailable])]
    exact ⟨fun name transition => (and_iff_left fun hreached => havailable hreached.1).symm,
      fun id transition => (and_iff_left fun hreached => havailable hreached.1).symm⟩

/-- The timer removes the transitions whose time is up. -/
theorem expireTransitions_removes (state : State) (now : ℤ) :
    Removes (fun _ transition => transition.expiresAt ≤ now)
      (fun _ transition => transition.expiresAt ≤ now) state.transitions
      (expireTransitions state now).transitions := by
  have hmem : ∀ {pending : Pending} {name : String} {transition : PendingTransition},
      pending.lookup name = some transition → ⟨name, transition⟩ ∈ pending.entries :=
    AList.mem_lookup_iff.mp
  rw [expireTransitions]
  cases hexpiry : nextExpiry state.transitions with
  | none =>
      rw [nextExpiry, List.min?_eq_none_iff, List.map_eq_nil_iff, List.append_eq_nil_iff] at hexpiry
      obtain ⟨hinstances, hsupervisors⟩ := hexpiry
      constructor
      · intro name transition
        refine (and_iff_left_of_imp fun hlookup => ?_).symm
        have := hmem hlookup
        simp [hinstances] at this
      · intro id transition
        refine (and_iff_left_of_imp fun hlookup => ?_).symm
        have := hmem hlookup
        simp [hsupervisors] at this
  | some expiresAt =>
      dsimp only
      split_ifs with hearly
      · -- the earliest expiry is still to come
        obtain ⟨-, hleast⟩ := List.min?_eq_some_iff.mp hexpiry
        constructor
        · intro name transition
          refine (and_iff_left_of_imp fun hlookup => ?_).symm
          have := hleast transition.expiresAt (List.mem_map_of_mem
            (List.mem_append_left _ (hmem hlookup)))
          omega
        · intro id transition
          refine (and_iff_left_of_imp fun hlookup => ?_).symm
          have := hleast transition.expiresAt (List.mem_map_of_mem
            (List.mem_append_right _ (hmem hlookup)))
          omega
      · constructor
        · intro name transition
          rw [withoutExpiredTransitions, Records.lookup_filter, Option.filter_eq_some_iff,
            decide_eq_true_eq, Int.not_le]
        · intro id transition
          rw [withoutExpiredTransitions, Records.lookup_filter, Option.filter_eq_some_iff,
            decide_eq_true_eq, Int.not_le]

/-! ## Runs

What is known of a run refers to the snapshots that its events bring. A supervisor is listed under
the same instance in all of them (`Steady`). -/

/-- The available snapshots among the events. -/
def snapshots (events : List Event) : List DashboardSupervisors :=
  events.filterMap fun
    | .supervisors (some supervisors) => if supervisors.available then some supervisors else none
    | _ => none

/-- The snapshots are those of the events that bring available ones. -/
theorem mem_snapshots {events : List Event} : supervisors ∈ snapshots events ↔
    .supervisors (some supervisors) ∈ events ∧ supervisors.available := by
  rw [snapshots, List.mem_filterMap]
  constructor
  · rintro ⟨event, hevent, hsome⟩
    cases event with
    | supervisors snapshot =>
        cases snapshot with
        | none => cases hsome
        | some supervisors' =>
            dsimp only at hsome
            split_ifs at hsome with havailable
            obtain rfl := Option.some.inj hsome
            exact ⟨hevent, havailable⟩
    | _ => cases hsome
  · rintro ⟨hevent, havailable⟩
    exact ⟨_, hevent, if_pos havailable⟩

/-- The membership of supervisors in instances does not change between the available snapshots. -/
structure Steady (events : List Event) : Prop where
  wellFormed : ∀ supervisors ∈ snapshots events, WellFormed supervisors
  membership : ∀ supervisors ∈ snapshots events, ∀ supervisors' ∈ snapshots events,
    ∀ supervisorId instanceName instanceName', Belongs supervisors supervisorId instanceName →
      Belongs supervisors' supervisorId instanceName' → instanceName = instanceName'

/-- The invariant of a run whose snapshots are among those of `events`: a pending supervisor is
listed in the snapshot in use, and its instance is not pending. -/
structure Exclusive (events : List Event) (state : State) : Prop where
  known : ∀ supervisors, state.supervisors = some supervisors → supervisors.available →
    supervisors ∈ snapshots events
  listed : ∀ supervisors, state.supervisors = some supervisors → supervisors.available →
    ∀ supervisorId ∈ state.transitions.supervisors,
      ∃ instanceName, Belongs supervisors supervisorId instanceName
  apart : ∀ supervisors ∈ snapshots events, ∀ supervisorId instanceName,
    Belongs supervisors supervisorId instanceName →
      supervisorId ∈ state.transitions.supervisors → instanceName ∉ state.transitions.instances

variable {events : List Event} {state : State}

/-- The invariant holds at first. -/
theorem Exclusive.initial : Exclusive events initial where
  known _ hsupervisors := by cases hsupervisors
  listed _ hsupervisors := by cases hsupervisors
  apart _ _ _ _ _ hmem := absurd hmem (AList.notMem_empty _)

/-- Fewer transitions with the same snapshot. -/
theorem Exclusive.shrink (h : Exclusive events state) {transitions : PendingProcessTransitions}
    {nextToken : ℤ} (hinstances : ∀ name ∈ transitions.instances,
      name ∈ state.transitions.instances)
    (hsupervisors : ∀ id ∈ transitions.supervisors, id ∈ state.transitions.supervisors) :
    Exclusive events ⟨state.supervisors, transitions, nextToken⟩ where
  known := h.known
  listed supervisors hsnapshot havailable supervisorId hmem :=
    h.listed supervisors hsnapshot havailable supervisorId (hsupervisors _ hmem)
  apart supervisors hsnapshot supervisorId instanceName hbelongs hmem hinstance :=
    h.apart supervisors hsnapshot supervisorId instanceName hbelongs (hsupervisors _ hmem)
      (hinstances _ hinstance)

/-- What is looked up is pending. -/
theorem mem_of_lookup {pending : Pending} {name : String} {transition : PendingTransition}
    (h : pending.lookup name = some transition) : name ∈ pending := by
  rw [← AList.lookup_isSome, h]
  rfl

/-- What is pending is looked up. -/
theorem exists_lookup {pending : Pending} {name : String} (h : name ∈ pending) :
    ∃ transition, pending.lookup name = some transition :=
  Option.isSome_iff_exists.mp (AList.lookup_isSome.mpr h)

/-- What removes instances adds none. -/
theorem Removes.instances_subset {instanceGone supervisorGone : String → PendingTransition → Prop}
    {before after : PendingProcessTransitions}
    (h : Removes instanceGone supervisorGone before after) :
    ∀ name ∈ after.instances, name ∈ before.instances := by
  intro name hmem
  obtain ⟨transition, hlookup⟩ := exists_lookup hmem
  exact mem_of_lookup ((h.instances name transition).mp hlookup).1

/-- What removes supervisors adds none. -/
theorem Removes.supervisors_subset {instanceGone supervisorGone : String → PendingTransition → Prop}
    {before after : PendingProcessTransitions}
    (h : Removes instanceGone supervisorGone before after) :
    ∀ id ∈ after.supervisors, id ∈ before.supervisors := by
  intro id hmem
  obtain ⟨transition, hlookup⟩ := exists_lookup hmem
  exact mem_of_lookup ((h.supervisors id transition).mp hlookup).1

/-- The groups of the snapshot in use. -/
theorem mem_availableGroups {group : SupervisorGroup} (hgroup : group ∈ availableGroups state) :
    ∃ supervisors, state.supervisors = some supervisors ∧ supervisors.available ∧
      group ∈ supervisors.groups := by
  rw [availableGroups] at hgroup
  split at hgroup
  case h_1 supervisors hsupervisors =>
    split_ifs at hgroup with havailable
    · exact ⟨supervisors, hsupervisors, havailable, hgroup⟩
    · cases hgroup
  case h_2 => cases hgroup

/-- An instance is started. No supervisor that is pending belongs to it: the snapshot in use lists
them all, and the guard has seen those of the instance. -/
theorem Exclusive.onInstanceTransition (hsteady : Steady events) (h : Exclusive events state)
    (instanceName : String) (status : HorizonTransitionStatus)
    (now configuredPollInterval : ℤ) : Exclusive events
      (onInstanceTransition state instanceName status now configuredPollInterval).1 := by
  rw [ProcessTransitions.onInstanceTransition]
  split
  case h_1 => exact h
  case h_2 group hgroup =>
    split_ifs with hoccupied
    · exact h
    obtain ⟨supervisors, hsupervisors, havailable, hmem⟩ :=
      mem_availableGroups (List.mem_of_find?_eq_some hgroup)
    have hname : group.name = instanceName := by simpa using List.find?_some hgroup
    have hsnapshot := h.known supervisors hsupervisors havailable
    refine ⟨h.known, h.listed, ?_⟩
    intro supervisors' hsnapshot' supervisorId instanceName' hbelongs' hpending hinstance
    rcases (AList.mem_insert _).mp hinstance with rfl | hinstance
    · obtain ⟨name, group', hmem', rfl, item, hitem, rfl⟩ :=
        h.listed supervisors hsupervisors havailable supervisorId hpending
      have hbelongs : Belongs supervisors item.id group'.name := ⟨group', hmem', rfl, item, hitem, rfl⟩
      have hsame := hsteady.membership _ hsnapshot _ hsnapshot' _ _ _ hbelongs hbelongs'
      obtain rfl : group' = group := List.inj_on_of_nodup_map
        (hsteady.wellFormed _ hsnapshot).names hmem' hmem (hsame.trans hname.symm)
      apply hoccupied
      rw [Bool.or_eq_true, List.any_eq_true]
      refine Or.inr ⟨item, hitem, ?_⟩
      rw [occupied, AList.lookup_isSome.mpr hpending, Bool.true_or]
    · exact h.apart supervisors' hsnapshot' supervisorId instanceName' hbelongs' hpending hinstance

/-- A supervisor is started. The guard has looked at the only instance that it belongs to. -/
theorem Exclusive.onSupervisorTransition (hsteady : Steady events) (h : Exclusive events state)
    (supervisorId : String) (status : HorizonTransitionStatus)
    (now configuredPollInterval : ℤ) : Exclusive events
      (onSupervisorTransition state supervisorId status now configuredPollInterval).1 := by
  rw [ProcessTransitions.onSupervisorTransition]
  split
  case h_1 => exact h
  case h_2 group hgroup =>
    split_ifs with hoccupied
    · exact h
    obtain ⟨supervisors, hsupervisors, havailable, hmem⟩ :=
      mem_availableGroups (List.mem_of_find?_eq_some hgroup)
    have hsnapshot := h.known supervisors hsupervisors havailable
    have hbelongs : Belongs supervisors supervisorId group.name := by
      have hfound := List.find?_some hgroup
      obtain ⟨item, hitem, hid⟩ := List.any_eq_true.mp hfound
      exact ⟨group, hmem, rfl, item, hitem, of_decide_eq_true hid⟩
    refine ⟨h.known, ?_, ?_⟩
    · intro supervisors' hsupervisors' havailable' id hpending
      rcases (AList.mem_insert _).mp hpending with rfl | hpending
      · obtain rfl : supervisors = supervisors' :=
          Option.some.inj (hsupervisors.symm.trans hsupervisors')
        exact ⟨group.name, hbelongs⟩
      · exact h.listed supervisors' hsupervisors' havailable' id hpending
    · intro supervisors' hsnapshot' id instanceName hbelongs' hpending hinstance
      rcases (AList.mem_insert _).mp hpending with rfl | hpending
      · obtain rfl := hsteady.membership _ hsnapshot _ hsnapshot' _ _ _ hbelongs hbelongs'
        apply hoccupied
        rw [occupied, AList.lookup_isSome.mpr hinstance, Bool.true_or, Bool.true_or]
      · exact h.apart supervisors' hsnapshot' id instanceName hbelongs' hpending hinstance

/-- A new snapshot. The supervisors that stay pending are those that it lists. -/
theorem Exclusive.onSupervisors (hsteady : Steady events) (h : Exclusive events state)
    {snapshot : Option DashboardSupervisors} (hevent : .supervisors snapshot ∈ events) :
    Exclusive events (onSupervisors state snapshot) := by
  cases snapshot with
  | none => exact ⟨fun _ hnone => (by cases hnone), fun _ hnone => (by cases hnone), h.apart⟩
  | some supervisors =>
      by_cases havailable : supervisors.available
      · have hsnapshot := mem_snapshots.mpr ⟨hevent, havailable⟩
        have hremoves := onSupervisors_removes state (hsteady.wellFormed _ hsnapshot)
        constructor
        · rintro _ ⟨⟩ -
          exact hsnapshot
        · rintro _ ⟨⟩ - supervisorId hpending
          obtain ⟨transition, hlookup⟩ := exists_lookup hpending
          have hleft := ((hremoves.supervisors supervisorId transition).mp hlookup).2
          by_contra hnone
          refine hleft ⟨havailable, fun group hgroup item hitem hid => ?_⟩
          exact (hnone ⟨group.name, group, hgroup, rfl, item, hitem, hid⟩).elim
        · intro supervisors' hsnapshot' supervisorId instanceName hbelongs hpending hinstance
          exact h.apart supervisors' hsnapshot' supervisorId instanceName hbelongs
            (hremoves.supervisors_subset _ hpending) (hremoves.instances_subset _ hinstance)
      · have hsame : (ProcessTransitions.onSupervisors state (some supervisors)).transitions =
            state.transitions := by
          rw [ProcessTransitions.onSupervisors, Option.elim_some, reconcileTransitions,
            if_pos (by simp [havailable])]
        refine ⟨?_, ?_, ?_⟩
        · rintro _ ⟨⟩ havailable'
          exact absurd havailable' havailable
        · rintro _ ⟨⟩ havailable'
          exact absurd havailable' havailable
        · rw [hsame]
          exact h.apart

/-- **One step** keeps the invariant. -/
theorem Exclusive.step (hsteady : Steady events) (h : Exclusive events state) {event : Event}
    (hevent : event ∈ events) : Exclusive events (step state event).1 := by
  have hids : ∀ id ∈ state.transitions.supervisors, id ∈ state.transitions.supervisors :=
    fun _ hmem => hmem
  have hnames : ∀ name ∈ state.transitions.instances, name ∈ state.transitions.instances :=
    fun _ hmem => hmem
  cases event with
  | instanceTransition instanceName status now configuredPollInterval =>
      exact h.onInstanceTransition hsteady instanceName status now configuredPollInterval
  | supervisorTransition supervisorId status now configuredPollInterval =>
      exact h.onSupervisorTransition hsteady supervisorId status now configuredPollInterval
  | instanceTransitionFailure instanceName token =>
      rw [ProcessTransitions.step, onInstanceTransitionFailure]
      split_ifs
      · exact h
      · exact h.shrink (fun name hmem => (AList.mem_erase.mp hmem).2) hids
  | supervisorTransitionFailure supervisorId token =>
      rw [ProcessTransitions.step, onSupervisorTransitionFailure]
      split_ifs
      · exact h
      · exact h.shrink hnames fun id hmem => (AList.mem_erase.mp hmem).2
  | supervisors snapshot => exact h.onSupervisors hsteady hevent
  | expiry now =>
      have hremoves := expireTransitions_removes state now
      have hrest : expireTransitions state now =
          ⟨state.supervisors, (expireTransitions state now).transitions, state.nextToken⟩ := by
        rw [expireTransitions]
        split
        · rfl
        · split_ifs <;> rfl
      rw [ProcessTransitions.step, hrest]
      exact h.shrink hremoves.instances_subset hremoves.supervisors_subset

/-- What has been handed out, the latest first, and the last token. -/
theorem step_token (state : State) (event : Event) :
    (step state event).2 = none ∧ (step state event).1.nextToken = state.nextToken ∨
      (step state event).2 = some (state.nextToken + 1) ∧
        (step state event).1.nextToken = state.nextToken + 1 := by
  cases event with
  | instanceTransition instanceName status now configuredPollInterval =>
      rw [step, onInstanceTransition]
      split
      · exact Or.inl ⟨rfl, rfl⟩
      · split_ifs
        · exact Or.inl ⟨rfl, rfl⟩
        · exact Or.inr ⟨rfl, rfl⟩
  | supervisorTransition supervisorId status now configuredPollInterval =>
      rw [step, onSupervisorTransition]
      split
      · exact Or.inl ⟨rfl, rfl⟩
      · split_ifs
        · exact Or.inl ⟨rfl, rfl⟩
        · exact Or.inr ⟨rfl, rfl⟩
  | instanceTransitionFailure instanceName token =>
      rw [step, onInstanceTransitionFailure]
      split_ifs <;> exact Or.inl ⟨rfl, rfl⟩
  | supervisorTransitionFailure supervisorId token =>
      rw [step, onSupervisorTransitionFailure]
      split_ifs <;> exact Or.inl ⟨rfl, rfl⟩
  | supervisors snapshot => exact Or.inl ⟨rfl, rfl⟩
  | expiry now =>
      rw [step, expireTransitions]
      split
      · exact Or.inl ⟨rfl, rfl⟩
      · split_ifs <;> exact Or.inl ⟨rfl, rfl⟩

/-- **Every run** keeps the invariant. -/
theorem run_exclusive (events : List Event) {all : List Event} (hsteady : Steady all)
    (hevents : events ⊆ all) : Exclusive all (run events).1 := by
  induction events using List.reverseRecOn with
  | nil => exact Exclusive.initial
  | append_singleton events event ih =>
      obtain ⟨hbefore, hlast⟩ := List.append_subset.mp hevents
      rw [run_concat]
      exact (ih hbefore).step hsteady (hlast List.mem_cons_self)

/-- Tokens are handed out in order. -/
theorem run_tokens (events : List Event) :
    (run events).2.Pairwise (· > ·) ∧ ∀ token ∈ (run events).2, token ≤ (run events).1.nextToken := by
  induction events using List.reverseRecOn with
  | nil => exact ⟨List.Pairwise.nil, fun _ hmem => absurd hmem List.not_mem_nil⟩
  | append_singleton events event ih =>
      obtain ⟨hordered, hbound⟩ := ih
      rw [run_concat, advance]
      rcases step_token (run events).1 event with ⟨htoken, hnext⟩ | ⟨htoken, hnext⟩
      · rw [htoken, hnext]
        exact ⟨hordered, hbound⟩
      · rw [htoken, hnext]
        constructor
        · refine List.pairwise_cons.mpr ⟨fun token hmem => ?_, hordered⟩
          have := hbound token hmem
          omega
        · intro token hmem
          rcases List.mem_cons.mp hmem with rfl | hmem
          · exact le_refl _
          · have := hbound token hmem
            omega

/-- A pending transition is not started again. -/
theorem onInstanceTransition_pending {instanceName : String}
    (hpending : instanceName ∈ state.transitions.instances) (status : HorizonTransitionStatus)
    (now configuredPollInterval : ℤ) :
    onInstanceTransition state instanceName status now configuredPollInterval = (state, none) := by
  rw [onInstanceTransition]
  split
  · rfl
  · rw [occupied, AList.lookup_isSome.mpr hpending, Bool.true_or, Bool.true_or]
    rfl

/-- A supervisor that is pending is not requested again. -/
theorem onSupervisorTransition_pending {supervisorId : String}
    (hpending : supervisorId ∈ state.transitions.supervisors) (status : HorizonTransitionStatus)
    (now configuredPollInterval : ℤ) :
    onSupervisorTransition state supervisorId status now configuredPollInterval =
      (state, none) := by
  rw [onSupervisorTransition]
  split
  · rfl
  · rw [occupied, occupied, AList.lookup_isSome.mpr hpending, Bool.true_or, Bool.or_true]
    rfl

/-- **Pending transitions.** After any events an instance and one of its supervisors are not both
pending, no entity is pending twice, and no token was handed out twice. A failure with another token
than the current one of the entity changes nothing. A snapshot removes the transitions that have
reached their target and an expiry those whose time is up, and both leave the others as they are. -/
theorem transitions_exclusive (events : List Event) (h : Steady events) :
    let state := (run events).1
    (∀ supervisors ∈ snapshots events, ∀ supervisorId instanceName,
        Belongs supervisors supervisorId instanceName →
          ¬(instanceName ∈ state.transitions.instances ∧
            supervisorId ∈ state.transitions.supervisors)) ∧
      (state.transitions.instances.keys.Nodup ∧ state.transitions.supervisors.keys.Nodup) ∧
      (∀ instanceName ∈ state.transitions.instances, ∀ status now configuredPollInterval,
        step state (.instanceTransition instanceName status now configuredPollInterval) =
          (state, none)) ∧
      (∀ supervisorId ∈ state.transitions.supervisors, ∀ status now configuredPollInterval,
        step state (.supervisorTransition supervisorId status now configuredPollInterval) =
          (state, none)) ∧
      (run events).2.Nodup ∧
      (∀ instanceName token,
        (state.transitions.instances.lookup instanceName).map (·.token) ≠ some token →
          step state (.instanceTransitionFailure instanceName token) = (state, none)) ∧
      (∀ supervisorId token,
        (state.transitions.supervisors.lookup supervisorId).map (·.token) ≠ some token →
          step state (.supervisorTransitionFailure supervisorId token) = (state, none)) ∧
      (∀ supervisors, WellFormed supervisors →
        Removes (InstanceReached supervisors) (SupervisorReached supervisors) state.transitions
          (step state (.supervisors (some supervisors))).1.transitions) ∧
      ∀ now, Removes (fun _ transition => transition.expiresAt ≤ now)
        (fun _ transition => transition.expiresAt ≤ now) state.transitions
          (step state (.expiry now)).1.transitions := by
  intro state
  have hexclusive := run_exclusive events h (List.Subset.refl events)
  refine ⟨?_, ⟨AList.keys_nodup _, AList.keys_nodup _⟩, ?_, ?_, ?_, ?_, ?_, ?_, ?_⟩
  · rintro supervisors hsnapshot supervisorId instanceName hbelongs ⟨hinstance, hsupervisor⟩
    exact hexclusive.apart supervisors hsnapshot supervisorId instanceName hbelongs hsupervisor
      hinstance
  · intro instanceName hpending status now configuredPollInterval
    exact onInstanceTransition_pending hpending status now configuredPollInterval
  · intro supervisorId hpending status now configuredPollInterval
    exact onSupervisorTransition_pending hpending status now configuredPollInterval
  · exact (run_tokens events).1.imp ne_of_gt
  · intro instanceName token hstale
    rw [step, onInstanceTransitionFailure, if_pos hstale]
  · intro supervisorId token hstale
    rw [step, onSupervisorTransitionFailure, if_pos hstale]
  · intro supervisors hwell
    exact onSupervisors_removes state hwell
  · intro now
    exact expireTransitions_removes state now

/-- An instance with two supervisors, one of which is pending. -/
theorem transitions_exclusive_supervisor :
    let supervisors : DashboardSupervisors :=
      ⟨true, [⟨"web", "paused", [⟨"web:a", "paused"⟩, ⟨"web:b", "paused"⟩]⟩]⟩
    "web" ∉ (run [.supervisors (some supervisors),
      .supervisorTransition "web:a" .continuing 0 0,
      .instanceTransition "web" .pausing 1 0]).1.transitions.instances := by
  intro supervisors
  have hmem : ∀ snapshot ∈ snapshots [.supervisors (some supervisors),
      .supervisorTransition "web:a" .continuing 0 0, .instanceTransition "web" .pausing 1 0],
      snapshot = supervisors := by
    intro snapshot hsnapshot
    exact List.mem_singleton.mp hsnapshot
  have hsteady : Steady [.supervisors (some supervisors),
      .supervisorTransition "web:a" .continuing 0 0, .instanceTransition "web" .pausing 1 0] := by
    constructor
    · intro snapshot hsnapshot
      rw [hmem snapshot hsnapshot]
      exact ⟨by decide, by decide⟩
    · intro snapshot hsnapshot snapshot' hsnapshot' supervisorId name name' hbelongs hbelongs'
      rw [hmem snapshot hsnapshot] at hbelongs
      rw [hmem snapshot' hsnapshot'] at hbelongs'
      obtain ⟨group, hgroup, rfl, -⟩ := hbelongs
      obtain ⟨group', hgroup', rfl, -⟩ := hbelongs'
      rw [List.mem_singleton.mp hgroup, List.mem_singleton.mp hgroup']
  intro hinstance
  refine (transitions_exclusive _ hsteady).1 supervisors List.mem_cons_self "web:a" "web" ?_
    ⟨hinstance, ?_⟩
  · exact ⟨_, List.mem_cons_self, rfl, _, List.mem_cons_self, rfl⟩
  · decide

end ProcessTransitions

end HorizonNewDawn

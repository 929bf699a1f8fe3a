import HorizonNewDawn.BulkOperations.BulkActions
import HorizonNewDawn.Program.Evaluation

/-! # No target is lost

A chunk peeks at its targets, handles them, counts and acknowledges, each by a command of its own
that may fail, and is executed again after a failure. `operation_covers` collects what holds of an
operation all the same: when it reports its completion every member of the snapshot has been skipped
or handed to the handler, a target is removed only after that, nothing else is ever handled, every
execution that does not fail makes progress, and without failures the number of executions is bounded
by the number of targets. -/

namespace HorizonNewDawn

open Program

namespace BulkOperationSnapshot

/-! ## What is recorded -/

/-- What an action does to a target. -/
def Action.handlers : Action → List Handler
  | .retryAllFailedJobs _ _ => [.handleBulk]
  | .clearFailedJobs => [.deleteFailed, .forget]
  | .cancelPendingJobs _ => [.cancel]

/-- Whether an action passes a member over. -/
def Action.skips : Action → List (Option Job) → String → Bool
  | .retryAllFailedJobs connection queue => RetryAllFailedJobs.skips connection queue
  | .clearFailedJobs => fun _ _ => false
  | .cancelPendingJobs queue => CancelPendingJobs.skips queue

/-- The members of a snapshot: those of the source when it was read. -/
def Member (x : Traced) (operationId : OperationId) (id : String) : Prop :=
  ∃ key s, (.zrangeWithScores operationId key, s) ∈ x.2 ∧ s.fate = .answered ∧ id ∈ s.sources key

/-- A member that is neither empty nor integer-like. -/
def Plain (id : String) : Prop := id ≠ "" ∧ isIntegerKey id = false

instance (id : String) : Decidable (Plain id) := inferInstanceAs (Decidable (_ ∧ _))

/-- A member has been passed to a handler. -/
def Called (h : Handler) (x : Traced) (operationId : OperationId) (id : String) : Prop :=
  ∃ s, (.handle h operationId id, s) ∈ x.2

/-- A handler has returned for a member. -/
def Returned (h : Handler) (x : Traced) (operationId : OperationId) (id : String) : Prop :=
  ∃ s, (.handle h operationId id, s) ∈ x.2 ∧ s.fate = .answered

/-- The failure of a handler has been reported for a member. -/
def Reported (x : Traced) (operationId : OperationId) (id : String) : Prop :=
  ∃ s, (.report operationId id, s) ∈ x.2 ∧ s.fate = .answered

/-- A member has been passed to the handlers of the action. -/
def Handled (action : Action) (x : Traced) (operationId : OperationId) (id : String) : Prop :=
  ∀ h ∈ action.handlers, Called h x operationId id

/-- A member has been found to be no target: its job is gone, or is not among those the action is
limited to. -/
def Skipped (action : Action) (x : Traced) (operationId : OperationId) (id : String) : Prop :=
  ∃ ids s, (.getJobs operationId ids, s) ∈ x.2 ∧ s.fate = .answered ∧ id ∈ ids ∧
    action.skips s.jobs id

/-- A member is done with: it is no target, its handlers have returned, or, for a cancellation, the
failure of the handler has been reported. -/
def Settled (action : Action) (x : Traced) (operationId : OperationId) (id : String) : Prop :=
  Skipped action x operationId id ∨ (∀ h ∈ action.handlers, Returned h x operationId id) ∨
    ((∃ queue, action = .cancelPendingJobs queue) ∧ Called .cancel x operationId id ∧
      Reported x operationId id)

variable {action : Action} {x y z : Traced} {operationId k : OperationId} {id : String} {o : Operation}

/-- A settled job stays settled as the history grows. -/
theorem Settled.mono (h : Settled action x operationId id) (hsub : x.2 ⊆ y.2) :
    Settled action y operationId id := by
  rcases h with ⟨ids, s, hmem, hrest⟩ | hreturned | ⟨hcancel, ⟨s, hs⟩, s', hs', hfate⟩
  · exact Or.inl ⟨ids, s, hsub hmem, hrest⟩
  · refine Or.inr (Or.inl fun h hh => ?_)
    obtain ⟨s, hs, hfate⟩ := hreturned h hh
    exact ⟨s, hsub hs, hfate⟩
  · exact Or.inr (Or.inr ⟨hcancel, ⟨s, hsub hs⟩, s', hsub hs', hfate⟩)

/-- A member stays one as the history grows. -/
theorem Member.mono (h : Member x operationId id) (hsub : x.2 ⊆ y.2) :
    Member y operationId id := by
  obtain ⟨key, s, hs, hrest⟩ := h
  exact ⟨key, s, hsub hs, hrest⟩

/-- A member that is done with has been skipped or passed to the handlers. -/
theorem Settled.skipped_or_handled (h : Settled action x operationId id) :
    Skipped action x operationId id ∨ Handled action x operationId id := by
  rcases h with hskipped | hreturned | ⟨⟨queue, rfl⟩, hcalled, -⟩
  · exact Or.inl hskipped
  · refine Or.inr fun h hh => ?_
    obtain ⟨s, hs, -⟩ := hreturned h hh
    exact ⟨s, hs⟩
  · refine Or.inr fun h hh => ?_
    rw [List.mem_singleton.mp hh]
    exact hcalled

/-! ## The invariant -/

/-- What holds at every moment of an operation. -/
structure Inv (action : Action) (x : Traced) : Prop where
  /-- Nothing is known of ids that have not been drawn. -/
  fresh : ∀ k, x.1.drawn ≤ k → x.1.targets k = ∅ ∧ x.1.affected k = none ∧ ∀ id, ¬Member x k id
  /-- Targets are members of the snapshot. -/
  members : ∀ k id, id ∈ x.1.targets k → Member x k id
  /-- A member that is no target any more is done with. -/
  kept : ∀ k, x.1.affected k ≠ none → ∀ id, Member x k id → Plain id →
    id ∈ x.1.targets k ∨ Settled action x k id
  /-- Only members have been passed to a handler. -/
  handled : ∀ h k id, Called h x k id → Member x k id

/-- When a command may be given. -/
def MayPerform (action : Action) : Operation → Traced → Prop
  | .zrangeWithScores k _, x => k < x.1.drawn ∧ x.1.affected k = none
  | .zadd k _ id, x => Member x k id
  | .hmset k, x => k < x.1.drawn ∧ ∀ id, Member x k id → Plain id → id ∈ x.1.targets k
  | .zrem k ids, x => ∀ id ∈ ids, Settled action x k id
  | .hincrby k _, x => x.1.affected k ≠ none
  | .handle _ k id, x => Member x k id
  | .del ks, x => ∀ k, .targetsKey k ∈ ks → .metaKey k ∈ ks ∧ ∀ id ∈ x.1.targets k, ¬Plain id
  | _, _ => True

/-- Recording a command adds members where it reads the source. -/
theorem member_cons {s' : Store} (h : Member (s', (o, x.1) :: x.2) k id) :
    Member x k id ∨ x.1.fate = .answered ∧ ∃ key, o = .zrangeWithScores k key := by
  obtain ⟨key, s, hs, hrest⟩ := h
  rcases List.mem_cons.mp hs with heq | hs
  · obtain ⟨rfl, rfl⟩ := Prod.mk.inj heq
    exact Or.inr ⟨hrest.1, key, rfl⟩
  · exact Or.inl ⟨key, s, hs, hrest⟩

/-- **The step rule**: what a command has to leave behind for the invariant to remain. -/
theorem Inv.cons (hx : Inv action x) {s' : Store} (hdrawn : x.1.drawn ≤ s'.drawn)
    (hfresh : ∀ k, s'.drawn ≤ k → s'.targets k = ∅ ∧ s'.affected k = none)
    (hmembers : ∀ k id, id ∈ s'.targets k → id ∈ x.1.targets k ∨ Member x k id)
    (hkept : ∀ k, s'.affected k ≠ none → ∀ id, Member x k id → Plain id →
      id ∈ s'.targets k ∨ Settled action x k id)
    (hread : x.1.fate = .answered → ∀ k key, o = .zrangeWithScores k key →
      k < s'.drawn ∧ s'.affected k = none)
    (hhandle : ∀ h k id, o = .handle h k id → Member x k id) :
    Inv action (s', (o, x.1) :: x.2) := by
  have hsub : x.2 ⊆ (s', (o, x.1) :: x.2).2 := List.subset_cons_self _ _
  constructor
  · intro k hk
    refine ⟨(hfresh k hk).1, (hfresh k hk).2, fun id hid => ?_⟩
    rcases member_cons hid with hid | ⟨hfate, key, rfl⟩
    · exact (hx.fresh k (hdrawn.trans hk)).2.2 id hid
    · exact absurd (hread hfate k key rfl).1 (Nat.not_lt.mpr hk)
  · intro k id hid
    rcases hmembers k id hid with hid | hid
    · exact (hx.members k id hid).mono hsub
    · exact hid.mono hsub
  · intro k hk id hid hplain
    rcases member_cons hid with hid | ⟨hfate, key, rfl⟩
    · exact (hkept k hk id hid hplain).imp_right fun h => h.mono hsub
    · exact absurd (hread hfate k key rfl).2 hk
  · rintro h k id ⟨s, hs⟩
    rcases List.mem_cons.mp hs with heq | hs
    · exact (hhandle h k id (Prod.mk.inj heq).1.symm).mono hsub
    · exact (hx.handled h k id ⟨s, hs⟩).mono hsub

/-- A command that changes neither targets nor counters. -/
theorem Inv.cons_same (hx : Inv action x) {s' : Store} (hkeys : s'.targets = x.1.targets)
    (haffected : s'.affected = x.1.affected) (hdrawn : s'.drawn = x.1.drawn)
    (hmay : MayPerform action o x) : Inv action (s', (o, x.1) :: x.2) := by
  refine hx.cons (by rw [hdrawn]) (fun k hk => ?_) (fun k id hid => ?_) (fun k hk id hid hp => ?_)
    (fun _ k key ho => ?_) fun h k id ho => ?_
  · rw [hkeys, haffected]
    rw [hdrawn] at hk
    exact ⟨(hx.fresh k hk).1, (hx.fresh k hk).2.1⟩
  · exact Or.inl (hkeys ▸ hid)
  · rw [haffected] at hk
    rw [hkeys]
    exact hx.kept k hk id hid hp
  · subst ho
    rw [hdrawn, haffected]
    exact hmay
  · subst ho
    exact hmay

/-- **Every permitted command keeps the invariant**, when it is carried out. -/
theorem Inv.perform (hx : Inv action x) (hmay : MayPerform action o x) :
    Inv action ((perform o x.1).2, (o, x.1) :: x.2) := by
  cases o with
  | randomId =>
      refine hx.cons (Nat.le_succ _) (fun k hk => ?_) (fun _ _ => Or.inl) hx.kept
        (fun _ _ _ h => nomatch h) fun _ _ _ h => nomatch h
      -- the key that is drawn was fresh before
      have hk' := hx.fresh k (Nat.le_of_succ_le hk)
      exact ⟨hk'.1, hk'.2.1⟩
  | zadd k' score id' =>
      refine hx.cons (Nat.le_refl _) (fun k hk => ?_) (fun k id hid => ?_) (fun k hk id hid hp => ?_)
        (fun _ _ _ h => nomatch h) fun _ _ _ h => nomatch h
      · -- a fresh key has no member in the source, so it is another key
        have hne : k ≠ k' := by
          rintro rfl
          exact (hx.fresh k hk).2.2 id' hmay
        simp only [BulkOperationSnapshot.perform, Function.update_of_ne hne]
        exact ⟨(hx.fresh k hk).1, (hx.fresh k hk).2.1⟩
      · -- what is new among the targets is a member of the source
        simp only [BulkOperationSnapshot.perform] at hid
        by_cases hkk : k = k'
        · subst hkk
          rw [Function.update_self, SortedSet.mem_insert] at hid
          rcases hid with rfl | hid
          · exact Or.inr hmay
          · exact Or.inl hid
        · rw [Function.update_of_ne hkk] at hid
          exact Or.inl hid
      · refine (hx.kept k hk id hid hp).imp_left fun hmem => ?_
        simp only [BulkOperationSnapshot.perform]
        by_cases hkk : k = k'
        · subst hkk
          rw [Function.update_self, SortedSet.mem_insert]
          exact Or.inr hmem
        · rwa [Function.update_of_ne hkk]
  | hmset k' =>
      refine hx.cons (Nat.le_refl _) (fun k hk => ?_) (fun _ _ => Or.inl) (fun k hk id hid hp => ?_)
        (fun _ _ _ h => nomatch h) fun _ _ _ h => nomatch h
      · have hne : k ≠ k' := by
          rintro rfl
          exact absurd hmay.1 (Nat.not_lt.mpr hk)
        simp only [BulkOperationSnapshot.perform, Function.update_of_ne hne]
        exact ⟨(hx.fresh k hk).1, (hx.fresh k hk).2.1⟩
      · -- the snapshot is complete when its record is written
        by_cases hkk : k = k'
        · subst hkk
          exact Or.inl (hmay.2 id hid hp)
        · simp only [BulkOperationSnapshot.perform, Function.update_of_ne hkk] at hk
          exact hx.kept k hk id hid hp
  | zrem k' ids =>
      refine hx.cons (Nat.le_refl _) (fun k hk => ?_) (fun k id hid => ?_) (fun k hk id hid hp => ?_)
        (fun _ _ _ h => nomatch h) fun _ _ _ h => nomatch h
      · refine ⟨?_, (hx.fresh k hk).2.1⟩
        simp only [BulkOperationSnapshot.perform]
        by_cases hkk : k = k'
        · subst hkk
          rw [Function.update_self, (hx.fresh k hk).1]
          rfl
        · rw [Function.update_of_ne hkk]
          exact (hx.fresh k hk).1
      · simp only [BulkOperationSnapshot.perform] at hid
        by_cases hkk : k = k'
        · subst hkk
          rw [Function.update_self, SortedSet.mem_eraseAll] at hid
          exact Or.inl hid.2
        · rw [Function.update_of_ne hkk] at hid
          exact Or.inl hid
      · simp only [BulkOperationSnapshot.perform]
        by_cases hkk : k = k'
        · subst hkk
          rw [Function.update_self, SortedSet.mem_eraseAll]
          -- only settled targets are acknowledged
          by_cases hids : id ∈ ids
          · exact Or.inr (hmay id hids)
          · exact (hx.kept k hk id hid hp).imp_left fun hmem => ⟨hids, hmem⟩
        · rw [Function.update_of_ne hkk]
          exact hx.kept k hk id hid hp
  | hincrby k' n =>
      refine hx.cons (Nat.le_refl _) (fun k hk => ?_) (fun _ _ => Or.inl) (fun k hk id hid hp => ?_)
        (fun _ _ _ h => nomatch h) fun _ _ _ h => nomatch h
      · have hne : k ≠ k' := by
          rintro rfl
          exact hmay (hx.fresh k hk).2.1
        simp only [BulkOperationSnapshot.perform, Function.update_of_ne hne]
        exact ⟨(hx.fresh k hk).1, (hx.fresh k hk).2.1⟩
      · refine hx.kept k (fun hnone => ?_) id hid hp
        by_cases hkk : k = k'
        · subst hkk
          exact hmay hnone
        · simp only [BulkOperationSnapshot.perform, Function.update_of_ne hkk] at hk
          exact hk hnone
  | del ks =>
      refine hx.cons (Nat.le_refl _) (fun k hk => ?_) (fun k id hid => ?_) (fun k hk id hid hp => ?_)
        (fun _ _ _ h => nomatch h) fun _ _ _ h => nomatch h
      · simp only [BulkOperationSnapshot.perform]
        rw [(hx.fresh k hk).1, (hx.fresh k hk).2.1, ite_self, ite_self]
        exact ⟨rfl, rfl⟩
      · simp only [BulkOperationSnapshot.perform] at hid
        split at hid
        · exact absurd hid SortedSet.not_mem_empty
        · exact Or.inl hid
      · simp only [BulkOperationSnapshot.perform] at hk ⊢
        by_cases hmeta : .metaKey k ∈ ks
        · rw [if_pos hmeta] at hk
          exact absurd rfl hk
        · rw [if_neg hmeta] at hk
          rw [if_neg fun htargets => hmeta (hmay k htargets).1]
          exact hx.kept k hk id hid hp
  | _ => exact hx.cons_same rfl rfl rfl hmay

/-- **Every permitted command keeps the invariant**, whatever becomes of it. -/
theorem Inv.traced (hx : Inv action x) (hmay : MayPerform action o x) :
    Inv action (traced o x).2 := by
  simp only [BulkOperationSnapshot.traced, recording, exec, underFate]
  cases hfate : x.1.fate with
  | answered => exact hx.perform hmay
  | unsent => exact hx.cons_same rfl rfl rfl hmay
  | unanswered => exact hx.perform hmay

/-- Neutral commands read no source. -/
theorem Later.member (h : Later x y) : Member y k id ↔ Member x k id := by
  refine ⟨fun hid => ?_, fun hid => hid.mono h.subset⟩
  obtain ⟨key, s, hs, hrest⟩ := hid
  exact ⟨key, s, h.mem_of_not_neutral (fun h => h) hs, hrest⟩

/-- Neutral commands keep the invariant. -/
theorem Inv.later (hx : Inv action x) (h : Later x y) : Inv action y := by
  constructor
  · intro k hk
    rw [h.targets, h.affected]
    rw [h.drawn] at hk
    exact ⟨(hx.fresh k hk).1, (hx.fresh k hk).2.1,
      fun id hid => (hx.fresh k hk).2.2 id (h.member.mp hid)⟩
  · intro k id hid
    rw [h.targets] at hid
    exact h.member.mpr (hx.members k id hid)
  · intro k hk id hid hp
    rw [h.affected] at hk
    rw [h.targets]
    exact (hx.kept k hk id (h.member.mp hid) hp).imp_right fun hs => hs.mono h.subset
  · rintro handler k id ⟨s, hs⟩
    exact h.member.mpr (hx.handled handler k id ⟨s, h.mem_of_not_neutral (fun h => h) hs⟩)

/-! ## What a part of an execution does -/

/-- What the world does: it leaves the keys alone. The sources and the jobs may change at any time,
handlers may answer anything, and commands may begin to fail and cease to. -/
def World (x y : Traced) : Prop := y.1.toKeys = x.1.toKeys ∧ y.2 = x.2

/-- The world may do nothing. -/
theorem world_refl (_ : List Empty) (x : Traced) : World x x := ⟨rfl, rfl⟩

/-- What the world does in two steps it may do in one. -/
theorem world_trans (_ : List Empty) (x y z : Traced) (h : World x y) (h' : World y z) :
    World x z :=
  ⟨h'.1.trans h.1, h'.2.trans h.2⟩

/-- The runs of a program; when it is calm, no command fails. -/
abbrev Runs {α : Type} (calm : Prop) :
    BulkProgram α × Traced → BulkProgram α × Traced → Prop :=
  Run traced (fun _ => World) fun _ _ x => calm → x.1.fate = .answered

/-- The discipline of an operation: every command is permitted. -/
def discipline (action : Action) (calm : Prop) : Discipline Operation Empty Traced where
  rely _ := World
  assume _ _ x := calm → x.1.fate = .answered
  ok _ o x := MayPerform action o x
  rely_refl := world_refl
  rely_trans := world_trans

/-- The discipline admits what the operations of an action do. -/
theorem discipline_admits (action : Action) (calm : Prop) : Admits (discipline action calm) where
  rely _ x y h := ⟨by rw [h.1], by rw [h.1], by rw [h.1], [], h.2, fun _ he =>
    absurd he List.not_mem_nil⟩
  ok _ o x ho := by
    cases o <;> trivial

variable {calm : Prop}

/-- An exception is thrown only where operations may fail. -/
theorem Thrown.not_calm (h : Thrown (discipline action calm) x) : ¬calm := by
  obtain ⟨ls, o, w, -, ha, hfate, -⟩ := h
  exact fun hcalm => hfate (ha hcalm)

/-- An operation is tried in vain only where operations may fail. -/
theorem Tried.not_calm (h : Tried (discipline action calm) o x z) : ¬calm := by
  obtain ⟨y, -, ha, -, ⟨-, hfate⟩ | hthrown⟩ := h
  · exact fun hcalm => hfate (ha hcalm)
  · exact hthrown.not_calm

/-- A part of an execution that removes the given members from the targets. -/
structure Advance (action : Action) (operationId : OperationId) (gone : List String)
    (x z : Traced) : Prop where
  inv : Inv action z
  targets : z.1.targets operationId = (x.1.targets operationId).eraseAll gone
  affected : x.1.affected operationId ≠ none → z.1.affected operationId ≠ none
  history : x.2 ⊆ z.2
  members : ∀ k id, Member z k id → Member x k id

/-- What an exception leaves behind. -/
def Failed (action : Action) (calm : Prop) (operationId : OperationId) (x z : Traced) : Prop :=
  Inv action z ∧ x.2 ⊆ z.2 ∧ (calm → x.1.affected operationId = none)

/-! ### Advances -/

variable {gone gone' : List String} {w : Traced}

/-- An advance may consist of the passing of time. -/
theorem Advance.of_later (hx : Inv action x) (h : Later x y) : Advance action k [] x y where
  inv := hx.later h
  targets := by rw [h.targets, SortedSet.eraseAll_nil]
  affected hne := by rwa [h.affected]
  history := h.subset
  members _ _ hid := h.member.mp hid

/-- Advances can be put together. -/
theorem Advance.trans (h : Advance action k gone x y) (h' : Advance action k gone' y z) :
    Advance action k (gone ++ gone') x z where
  inv := h'.inv
  targets := by rw [h'.targets, h.targets, SortedSet.eraseAll_append]
  affected hne := h'.affected (h.affected hne)
  history := List.Subset.trans h.history h'.history
  members k id hid := h.members k id (h'.members k id hid)

/-- An advance goes on while time passes. -/
theorem Advance.later (h : Advance action k gone x y) (h' : Later y z) :
    Advance action k gone x z := by
  simpa using h.trans (Advance.of_later h.inv h')

/-- A command that has been carried out among neutral ones. -/
theorem Advance.of_wrote {a : o.Answer} (hx : Inv action x)
    (hmay : ∀ y, Later x y → MayPerform action o y) (h : Wrote (discipline action calm) o x a z)
    (hread : ∀ k key, o ≠ .zrangeWithScores k key)
    (htargets : ∀ s, (perform o s).2.targets k = (s.targets k).eraseAll gone)
    (haffected : ∀ s, s.affected k ≠ none → (perform o s).2.affected k ≠ none) :
    Advance action k gone x z := by
  obtain ⟨y, hxy, hfate, -, hyz⟩ := h
  have hmid : Advance action k gone y ((perform o y.1).2, (o, y.1) :: y.2) := by
    refine ⟨(hx.later hxy).perform (hmay y hxy), htargets y.1, haffected y.1,
      List.subset_cons_self _ _, fun k id hid => ?_⟩
    rcases member_cons hid with hid | ⟨-, key, hkey⟩
    · exact hid
    · exact absurd hkey (hread k key)
  simpa using ((Advance.of_later hx hxy).trans hmid).later hyz

/-- A failure behind an advance is a failure. -/
theorem Failed.of_advance (h : Advance action k gone x y) (h' : Failed action calm k y z) :
    Failed action calm k x z := by
  refine ⟨h'.1, List.Subset.trans h.history h'.2.1, fun hcalm => ?_⟩
  by_contra hne
  exact h.affected hne (h'.2.2 hcalm)

/-- An aborted operation has failed. -/
theorem Aborts.failed (hx : Inv action x) (h : Aborts (discipline action calm) k x z) :
    Failed action calm k x z := by
  refine ⟨hx.later h.1, h.1.subset, fun hcalm => ?_⟩
  exact h.2.resolve_left fun hthrown => hthrown.not_calm hcalm

/-- An operation that was tried in vain has failed. -/
theorem Tried.failed (hx : Inv action x) (hmay : ∀ y, Later x y → MayPerform action o y)
    (h : Tried (discipline action calm) o x z) : Failed action calm k x z := by
  have hcalm := h.not_calm
  obtain ⟨y, hxy, -, hyz, -⟩ := h
  refine ⟨((hx.later hxy).traced (hmay y hxy)).later hyz, ?_, fun h => absurd h hcalm⟩
  have hsub : y.2 ⊆ (BulkOperationSnapshot.traced o y).2.2 := List.subset_cons_self _ _
  exact List.Subset.trans hxy.subset (List.Subset.trans hsub hyz.subset)

/-- An operation that fails has failed. -/
theorem Fails.failed (hx : Inv action x) (hmay : ∀ y, Later x y → MayPerform action o y)
    (h : Fails (discipline action calm) k o x z) : Failed action calm k x z := by
  rcases h with h | h
  · exact h.failed hx
  · exact h.failed hx hmay

/-! ## One member -/

/-- Acknowledging a member that is done with. -/
theorem advance_acknowledge (hx : Inv action x) (hid : Settled action x k id) :
    wp traced (discipline action calm) (acknowledge k [id])
      (fun _ z => Advance action k [id] x z) (fun _ z => Failed action calm k x z) x := by
  have hmay : ∀ y, Later x y → MayPerform action (.zrem k [id]) y := by
    intro y hxy id' hid'
    rw [List.mem_singleton.mp hid']
    exact hid.mono hxy.subset
  refine wp_mono (fun _ z hz => ?_) (fun _ z hz => hz.failed hx hmay)
    (wp_acknowledge (discipline_admits action calm) (by simp) hmay)
  refine Advance.of_wrote hx hmay hz.2 (by simp) (fun s => ?_) fun s hs => hs
  simp only [perform, Function.update_self]

/-- A handler that returns. -/
theorem advance_handle {h : Handler} (hx : Inv action x) (hid : Member x k id) :
    wp traced (discipline action calm) (request (.handle h k id))
      (fun _ z => Advance action k [] x z ∧ Returned h z k id)
      (fun _ z => Failed action calm k x z) x := by
  have hmay : ∀ y, Later x y → MayPerform action (.handle h k id) y :=
    fun y hxy => hxy.member.mpr hid
  refine wp_mono (fun _ z hz => ⟨?_, ?_⟩) (fun _ z hz => hz.failed hx hmay)
    (wp_command (discipline_admits action calm) hmay)
  · exact Advance.of_wrote hx hmay hz (by simp) (fun s => by simp [perform]) fun s hs => hs
  · obtain ⟨y, -, ⟨hfate, -⟩, -, hyz⟩ := hz
    exact ⟨y.1, hyz.subset List.mem_cons_self, hfate⟩

/-- Counting an affected job. -/
theorem advance_addAffected {n : ℤ} (hn : 0 ≤ n) (hx : Inv action x)
    (haffected : x.1.affected k ≠ none) :
    wp traced (discipline action calm) (addAffected k n)
      (fun _ z => Advance action k [] x z) (fun _ z => Failed action calm k x z) x := by
  rcases hn.eq_or_lt with rfl | hn
  · exact wp_mono (fun _ z hz => Advance.of_later hx hz.1) (fun _ z hz => hz.failed hx)
      (wp_addAffected_zero (discipline_admits action calm))
  have hmay : ∀ y, Later x y → MayPerform action (.hincrby k n) y := by
    intro y hxy
    show y.1.affected k ≠ none
    rwa [hxy.affected]
  refine wp_mono (fun _ z hz => ?_) (fun _ z hz => hz.failed hx hmay)
    (wp_addAffected_pos (discipline_admits action calm) hn hmay)
  refine Advance.of_wrote hx hmay hz.2 (by simp) (fun s => by simp [perform]) fun s hs => ?_
  simp [perform]

/-- A member that a retry passes over, or retries. -/
theorem advance_retry {connection queue : Option String} {jobs : List (Option Job)}
    (hx : Inv (.retryAllFailedJobs connection queue) x) (haffected : x.1.affected k ≠ none)
    (hid : Member x k id) (hskip : RetryAllFailedJobs.skips connection queue jobs id = true →
      Skipped (.retryAllFailedJobs connection queue) x k id) :
    wp traced (discipline (.retryAllFailedJobs connection queue) calm)
      (RetryAllFailedJobs.settle connection queue k jobs id)
      (fun _ z => Advance (.retryAllFailedJobs connection queue) k [id] x z)
      (fun _ z => Failed (.retryAllFailedJobs connection queue) calm k x z) x := by
  rw [RetryAllFailedJobs.settle]
  split
  · exact advance_acknowledge hx (Or.inl (hskip ‹_›))
  refine wp_bind_of (advance_handle hx hid) fun retried y hy => ?_
  obtain ⟨hy, s, hs, hfate⟩ := hy
  refine wp_bind_of (Q := fun _ z =>
    Advance (.retryAllFailedJobs connection queue) k [] x z ∧ y.2 ⊆ z.2) ?_ fun _ z hz => ?_
  · refine wp_ifThen (fun _ => ?_) fun _ => ⟨hy, List.Subset.refl _⟩
    refine wp_bind_of (wp_mono (fun _ _ h => h) (fun _ _ h => h.of_advance hy)
      (advance_addAffected Int.one_nonneg hy.inv (hy.affected haffected))) fun _ z hz => ?_
    exact ⟨hy.trans hz, hz.history⟩
  · have hreturned : Settled (.retryAllFailedJobs connection queue) z k id := by
      refine Or.inr (Or.inl fun h hh => ?_)
      rw [List.mem_singleton.mp hh]
      exact ⟨s, hz.2 hs, hfate⟩
    exact wp_mono (fun _ _ h => hz.1.trans h) (fun _ _ h => h.of_advance hz.1)
      (advance_acknowledge hz.1.inv hreturned)

/-- A member that is cleared. -/
theorem advance_clear (hx : Inv .clearFailedJobs x) (haffected : x.1.affected k ≠ none)
    (hid : Member x k id) :
    wp traced (discipline .clearFailedJobs calm) (ClearFailedJobs.settle k id)
      (fun _ z => Advance .clearFailedJobs k [id] x z)
      (fun _ z => Failed .clearFailedJobs calm k x z) x := by
  refine wp_bind_of (advance_handle hx hid) fun _ y hy => ?_
  obtain ⟨hy, s, hs, hfate⟩ := hy
  refine wp_bind_of (wp_mono (fun _ _ h => h) (fun _ _ h => h.of_advance hy)
    (advance_handle hy.inv (hid.mono hy.history))) fun _ z hz => ?_
  obtain ⟨hz, s', hs', hfate'⟩ := hz
  have hxz := hy.trans hz
  refine wp_bind_of (wp_mono (fun _ _ h => h) (fun _ _ h => h.of_advance hxz)
    (advance_addAffected Int.one_nonneg hz.inv (hxz.affected haffected))) fun _ w hw => ?_
  have hreturned : Settled .clearFailedJobs w k id := by
    refine Or.inr (Or.inl fun h hh => ?_)
    rcases List.mem_cons.mp hh with rfl | hh
    · exact ⟨s, hw.history (hz.history hs), hfate⟩
    · rw [List.mem_singleton.mp hh]
      exact ⟨s', hw.history hs', hfate'⟩
  have hxw := hxz.trans hw
  exact wp_mono (fun _ _ h => hxw.trans h) (fun _ _ h => h.of_advance hxw)
    (advance_acknowledge hw.inv hreturned)

/-- A cancellation that returns, or whose failure is reported. -/
theorem advance_handleOrReport {queue : Option String} {counts : CancelPendingJobs.Counts}
    (hx : Inv (.cancelPendingJobs queue) x) (hid : Member x k id) :
    wp traced (discipline (.cancelPendingJobs queue) calm)
      (CancelPendingJobs.handleOrReport k counts id)
      (fun _ z => Advance (.cancelPendingJobs queue) k [] x z ∧
        Settled (.cancelPendingJobs queue) z k id)
      (fun _ z => Failed (.cancelPendingJobs queue) calm k x z) x := by
  have hD := discipline_admits (.cancelPendingJobs queue) calm
  have hcall : ∀ y, Later x y →
      Advance (.cancelPendingJobs queue) k [] x (traced (.handle .cancel k id) y).2 := by
    intro y hxy
    have hinv := (hx.later hxy).traced (o := .handle .cancel k id) (hxy.member.mpr hid)
    have hstore : (traced (.handle .cancel k id) y).2.1 = y.1 := by
      simp only [traced, recording, exec, underFate]
      cases y.1.fate <;> rfl
    have hstep : Advance (.cancelPendingJobs queue) k [] y (traced (.handle .cancel k id) y).2 := by
      refine ⟨hinv, by rw [hstore, SortedSet.eraseAll_nil], fun h => by rwa [hstore],
        List.subset_cons_self _ _, fun k' id' hid' => ?_⟩
      rcases member_cons hid' with hid' | ⟨-, key, hkey⟩
      · exact hid'
      · cases hkey
    exact (Advance.of_later hx hxy).trans hstep
  -- the call of the handler, which may have thrown
  refine wp_bind_of (Q := fun result z => Advance (.cancelPendingJobs queue) k [] x z ∧
    Called .cancel z k id ∧ (result.isSome → Returned .cancel z k id))
    (wp_recording_attempt (fun y hr _ => (hD.rely [] x y hr).member.mpr hid)
      (fun y hr _ hfate => ?_) fun y hr _ _ => ?_) fun result z hz => ?_
  · have hstep := hcall y (hD.rely [] x y hr)
    rw [traced_of_answered hfate] at hstep
    exact ⟨hstep, ⟨y.1, List.mem_cons_self⟩, fun _ => ⟨y.1, List.mem_cons_self, hfate⟩⟩
  · exact ⟨hcall y (hD.rely [] x y hr), ⟨y.1, List.mem_cons_self⟩, fun h => absurd h (by simp)⟩
  · obtain ⟨hz, ⟨s, hs⟩, hreturned⟩ := hz
    cases result with
    | some result =>
        refine ⟨hz, Or.inr (Or.inl fun h hh => ?_)⟩
        rw [List.mem_singleton.mp hh]
        exact hreturned rfl
    | none =>
        -- a call that has thrown is reported, unless the report is not carried out either
        refine wp_bind_of (wp_neutral hD (Q := fun _ w =>
          Advance (.cancelPendingJobs queue) k [] x w ∧
            Settled (.cancelPendingJobs queue) w k id) trivial (fun w hw hfate => ?_)
          fun w hw hthrown => ?_) fun _ w hw => hw
        · have hlater := hw.trans (Later.perform (o := .report k id) trivial w)
          refine ⟨hz.later hlater, Or.inr (Or.inr ⟨⟨queue, rfl⟩, ⟨s, hlater.subset hs⟩, ?_⟩)⟩
          exact ⟨w.1, List.mem_cons_self, hfate⟩
        · have haborts : Aborts (discipline (.cancelPendingJobs queue) calm) k z w :=
            ⟨hw, Or.inl hthrown⟩
          exact (haborts.failed hz.inv).of_advance hz

/-- A member that a cancellation passes over, or cancels. -/
theorem advance_cancel {queue : Option String} {jobs : List (Option Job)}
    {counts : CancelPendingJobs.Counts} (hx : Inv (.cancelPendingJobs queue) x)
    (hid : Member x k id) (hskip : CancelPendingJobs.skips queue jobs id = true →
      Skipped (.cancelPendingJobs queue) x k id) :
    wp traced (discipline (.cancelPendingJobs queue) calm)
      (CancelPendingJobs.settle queue k jobs counts id)
      (fun _ z => Advance (.cancelPendingJobs queue) k [id] x z)
      (fun _ z => Failed (.cancelPendingJobs queue) calm k x z) x := by
  rw [CancelPendingJobs.settle]
  split
  · exact wp_bind_of (advance_acknowledge hx (Or.inl (hskip ‹_›))) fun _ z hz => hz
  refine wp_bind_of (advance_handleOrReport hx hid) fun counts y hy => ?_
  exact wp_bind_of (wp_mono (fun _ _ h => hy.1.trans h) (fun _ _ h => h.of_advance hy.1)
    (advance_acknowledge hy.1.inv hy.2)) fun _ z hz => hz

/-! ## A chunk -/

/-- The loop over the ids of a chunk. -/
theorem advance_forEach {ids : List String} {body : String → BulkProgram Unit} (hx : Inv action x)
    (haffected : x.1.affected k ≠ none) (hids : ∀ id ∈ ids, Member x k id)
    (hbody : ∀ id ∈ ids, ∀ y, Inv action y → y.1.affected k ≠ none → x.2 ⊆ y.2 → Member y k id →
      wp traced (discipline action calm) (body id) (fun _ z => Advance action k [id] y z)
        (fun _ z => Failed action calm k y z) y) :
    wp traced (discipline action calm) (Prog.forEach ids body)
      (fun _ z => Advance action k ids x z) (fun _ z => Failed action calm k x z) x := by
  induction ids generalizing x with
  | nil => exact Advance.of_later hx (Later.refl x)
  | cons id ids ih =>
      refine wp_bind_of (hbody id List.mem_cons_self x hx haffected (List.Subset.refl _)
        (hids id List.mem_cons_self)) fun _ y hy => ?_
      refine wp_mono (fun _ _ h => hy.trans h) (fun _ _ h => h.of_advance hy)
        (ih hy.inv (hy.affected haffected) ?_ ?_)
      · exact fun id' hid' => (hids id' (List.mem_cons_of_mem _ hid')).mono hy.history
      · exact fun id' hid' w hw haffected' hsub => hbody id' (List.mem_cons_of_mem _ hid') w hw
          haffected' (List.Subset.trans hy.history hsub)

/-- The loop over the ids of a chunk, with an accumulator. -/
theorem advance_fold {σ : Type} {ids : List String} {body : σ → String → BulkProgram σ}
    (hx : Inv action x) (haffected : x.1.affected k ≠ none) (hids : ∀ id ∈ ids, Member x k id)
    (hbody : ∀ a, ∀ id ∈ ids, ∀ y, Inv action y → y.1.affected k ≠ none → x.2 ⊆ y.2 →
      Member y k id → wp traced (discipline action calm) (body a id)
        (fun _ z => Advance action k [id] y z) (fun _ z => Failed action calm k y z) y) (a : σ) :
    wp traced (discipline action calm) (Prog.fold body a ids)
      (fun _ z => Advance action k ids x z) (fun _ z => Failed action calm k x z) x := by
  induction ids generalizing x a with
  | nil => exact Advance.of_later hx (Later.refl x)
  | cons id ids ih =>
      refine wp_bind_of (hbody a id List.mem_cons_self x hx haffected (List.Subset.refl _)
        (hids id List.mem_cons_self)) fun b y hy => ?_
      refine wp_mono (fun _ _ h => hy.trans h) (fun _ _ h => h.of_advance hy)
        (ih hy.inv (hy.affected haffected) ?_ ?_ b)
      · exact fun id' hid' => (hids id' (List.mem_cons_of_mem _ hid')).mono hy.history
      · exact fun c id' hid' w hw haffected' hsub => hbody c id' (List.mem_cons_of_mem _ hid') w hw
          haffected' (List.Subset.trans hy.history hsub)

/-- Renewing the keys where the loop has failed. -/
theorem wp_renewing {α : Type} {body : BulkProgram α} {Q : α → Traced → Prop}
    (h : wp traced (discipline action calm) body Q (fun _ z => Failed action calm k x z) x) :
    wp traced (discipline action calm) (renewing k body) Q
      (fun _ z => Failed action calm k x z) x := by
  refine wp_tryCatch.mpr (wp_mono (fun _ _ h => h) (fun e y hy => ?_) h)
  have hlater : ∀ z, Later y z → Failed action calm k x z := fun z hz =>
    ⟨hy.1.later hz, List.Subset.trans hy.2.1 hz.subset, hy.2.2⟩
  exact wp_bind_of (wp_mono (fun _ _ h => h) (fun _ z hz => hlater z hz.1)
    (wp_renew (discipline_admits action calm))) fun _ z hz => hlater z hz

/-- The ids of the next chunk. -/
def page (x : Traced) (k : OperationId) : List String :=
  ((x.1.targets k).members.take chunkSize).filter fun id => id ≠ ""

/-- What an execution that returns has done. -/
structure Executed (action : Action) (k : OperationId) (x z : Traced)
    (result : BulkOperationChunkResult) : Prop where
  operationId : result.operationId = k
  inv : Inv action z
  history : x.2 ⊆ z.2
  members : ∀ k id, Member z k id → Member x k id
  settled : result.complete = true → ∀ id, Member z k id → Plain id → Settled action z k id
  emptied : result.complete = true → z.1.targets k = ∅
  rest : result.complete = false → z.1.affected k ≠ none ∧
    z.1.targets k = (x.1.targets k).eraseAll (page x k) ∧ 0 < (z.1.targets k).card

/-- Deleting the keys is permitted when no target is left. -/
theorem mayPerform_del (hnone : ∀ id ∈ y.1.targets k, ¬Plain id) (w : Traced) (hyw : Later y w) :
    MayPerform action (.del (keys k)) w := by
  intro k' hk'
  have heq : k' = k := by
    rcases List.mem_cons.mp hk' with heq | hk'
    · exact Key.targetsKey.inj heq
    · exact absurd (List.mem_singleton.mp hk') (by simp)
  subst heq
  refine ⟨by simp [keys], fun id hid => hnone id ?_⟩
  rwa [hyw.targets] at hid

/-- The keys are deleted when no target is left. -/
theorem Executed.of_del {total : ℤ} (h : Advance action k gone x y)
    (haffected : y.1.affected k ≠ none) (hnone : ∀ id ∈ y.1.targets k, ¬Plain id)
    (hw : Wrote (discipline action calm) (.del (keys k)) y () z) : Executed action k x z (.completed k total) := by
  have hsettled : ∀ id, Member y k id → Plain id → Settled action y k id := fun id hid hplain =>
    (h.inv.kept k haffected id hid hplain).resolve_left fun hmem => hnone id hmem hplain
  obtain ⟨w, hyw, -, -, hwz⟩ := hw
  have hsub : y.2 ⊆ z.2 := List.Subset.trans hyw.subset
    (List.Subset.trans (List.subset_cons_self _ _) hwz.subset)
  have hmembers : ∀ k' id, Member z k' id → Member y k' id := by
    intro k' id hid
    rcases member_cons (hwz.member.mp hid) with hid | ⟨-, key, hkey⟩
    · exact hyw.member.mp hid
    · exact nomatch hkey
  refine ⟨rfl, ((h.inv.later hyw).perform (mayPerform_del hnone w hyw)).later hwz,
    List.Subset.trans h.history hsub, fun k' id hid => h.members k' id (hmembers k' id hid),
    fun _ id hid hplain => (hsettled id (hmembers k id hid) hplain).mono hsub, fun _ => ?_,
    fun hfalse => nomatch hfalse⟩
  rw [hwz.targets]
  simp [perform, keys]

/-- Completing an operation whose targets are gone executes it. -/
theorem executed_completing (h : Advance action k gone x y) (hnone : ∀ id ∈ y.1.targets k, ¬Plain id) :
    wp traced (discipline action calm) (completing k) (fun result z => Executed action k x z result)
      (fun _ z => Failed action calm k x z) y := by
  have hmay : ∀ w, Later y w → MayPerform action (.del (keys k)) w := mayPerform_del hnone
  refine wp_bind_of (wp_mono (fun _ _ h => h)
    (fun _ _ hf => (hf.failed h.inv hmay).of_advance h)
    (wp_finish (discipline_admits action calm) hmay)) fun total z hz => ?_
  obtain ⟨⟨n, hn, -⟩, hw⟩ := hz
  exact Executed.of_del h (by simp [hn]) hnone hw

/-- A set without members has no plain ones. -/
theorem not_plain_of_card {T : SortedSet String ℚ} (h : ¬0 < T.card) : ∀ id ∈ T, ¬Plain id := by
  intro id hid
  exact absurd (SortedSet.card_pos_iff.mpr ⟨id, hid⟩) h

/-- Concluding a page executes the operation as far as it has got. -/
theorem executed_concluding (h : Advance action k (page x k) x y)
    (haffected : y.1.affected k ≠ none) :
    wp traced (discipline action calm) (concluding k) (fun result z => Executed action k x z result)
      (fun _ z => Failed action calm k x z) y := by
  have hD := discipline_admits action calm
  refine wp_bind_of (wp_mono (fun _ _ h => h) (fun _ _ hf => (hf.failed h.inv).of_advance h)
    (wp_totalAffected hD)) fun total z hz => ?_
  have hz' := h.later hz.1
  refine wp_bind_of (wp_mono (fun _ _ h => h) (fun _ _ hf => (hf.failed hz'.inv).of_advance hz')
    (wp_hasMore hD)) fun more w hw => ?_
  obtain ⟨hzw, -, rfl⟩ := hw
  have hw' := hz'.later hzw
  have hcard : (w.1.targets k).card = (z.1.targets k).card := by rw [hzw.targets]
  split
  · rename_i hmore
    refine ⟨rfl, hw'.inv, hw'.history, hw'.members, (fun hfalse => nomatch hfalse),
      (fun hfalse => nomatch hfalse), fun _ => ⟨?_, hw'.targets, ?_⟩⟩
    · rw [hzw.affected, hz.1.affected]
      exact haffected
    · rw [hcard]
      exact of_decide_eq_true hmore
  · rename_i hmore
    refine executed_completing hw' (not_plain_of_card ?_)
    rw [hcard]
    exact fun hpos => hmore (decide_eq_true hpos)

/-- A page without ids leaves no target but the empty one. -/
theorem empty_of_page (h : page x k = []) : ∀ id ∈ x.1.targets k, id = "" := by
  intro id hid
  rw [page, List.filter_eq_nil_iff] at h
  have hempty : ∀ id' ∈ (x.1.targets k).members.take chunkSize, id' = "" := by
    intro id' hid'
    simpa using h id' hid'
  have hnodup : ((x.1.targets k).members.take chunkSize).Nodup :=
    List.Nodup.sublist (List.take_sublist _ _) (x.1.targets k).nodup
  have hshort : ((x.1.targets k).members.take chunkSize).length ≤ 1 := by
    by_contra hlong
    have h₀ := hempty _ (List.getElem_mem (l := (x.1.targets k).members.take chunkSize)
      (n := 0) (by omega))
    have h₁ := hempty _ (List.getElem_mem (l := (x.1.targets k).members.take chunkSize)
      (n := 1) (by omega))
    have heq := (List.Nodup.getElem_inj_iff hnodup).mp (h₀.trans h₁.symm)
    exact absurd heq (by decide)
  have hlength : (x.1.targets k).members.length ≤ 1 := by
    rw [List.length_take, chunkSize] at hshort
    omega
  have htake : (x.1.targets k).members.take chunkSize = (x.1.targets k).members :=
    List.take_of_length_le (hlength.trans (by decide))
  exact hempty id (by rw [htake]; exact hid)

/-- **A chunk**: reading its ids, and then either completing the operation or processing them. -/
theorem executed_chunk {body : List String → BulkProgram BulkOperationChunkResult}
    (hx : Inv action x) (hbody : ∀ y, Advance action k [] x y → page y k = page x k →
      y.1.affected k ≠ none → (∀ id ∈ page x k, Member y k id) →
      wp traced (discipline action calm) (body (page x k))
        (fun result z => Executed action k x z result)
        (fun _ z => Failed action calm k x z) y) :
    wp traced (discipline action calm)
      (nextChunk k >>= fun ids => if ids = [] then completing k else body ids)
      (fun result z => Executed action k x z result)
      (fun _ z => Failed action calm k x z) x := by
  refine wp_bind_of (wp_mono (fun _ _ h => h) (fun _ _ hf => hf.failed hx)
    (wp_nextChunk (discipline_admits action calm))) fun ids y hy => ?_
  obtain ⟨hxy, haffected, hids⟩ := hy
  have hadvance : Advance action k [] x y := Advance.of_later hx hxy
  have hids : ids = page x k := hids
  split
  · rename_i hnil
    refine executed_completing hadvance ?_
    rw [hxy.targets]
    exact fun id hid hplain => hplain.1 (empty_of_page (hids.symm.trans hnil) id hid)
  · rw [hids]
    refine hbody y hadvance (by rw [page, page, hxy.targets]) (by rwa [hxy.affected]) ?_
    intro id hid
    refine (hx.members k id ?_).mono hxy.subset
    exact List.mem_of_mem_take (List.mem_of_mem_filter hid)

/-! ## An execution -/

/-- The chunk of a cancellation, with what its job reads of the result. -/
theorem cancel_processChunk_some {queue : Option String} :
    Action.processChunk (some k) (.cancelPendingJobs queue) =
      nextChunk k >>= fun ids => if ids = [] then completing k else
        (request (.getJobs k ids) : BulkProgram (List (Option Job))) >>= fun jobs =>
          renewing k (Prog.fold (CancelPendingJobs.settle queue k jobs) ⟨0, 0, 0⟩ ids) >>=
            fun counts => addAffected k counts.cancelled >>= fun total =>
              hasMore k >>= fun more =>
                if more then .ret (.continuing k total)
                else cleanup k >>= fun _ => .ret (.completed k total) := by
  simp only [Action.processChunk, CancelPendingJobs.processChunk, operationIdOf, completing,
    Prog.ret_bind, bind_assoc, Prog.pure_eq_ret]
  refine congrArg _ (funext fun ids => ?_)
  split
  · simp only [bind_assoc, Prog.ret_bind]
    rfl
  · simp only [bind_assoc]
    refine congrArg _ (funext fun jobs => congrArg _ (funext fun counts => congrArg _ (funext
      fun total => congrArg _ (funext fun more => ?_))))
    split
    · rfl
    · simp only [bind_assoc, Prog.ret_bind]
      rfl

/-- The end of a cancellation. -/
theorem executed_cancelled (h : Advance action k (page x k) x y) (haffected : y.1.affected k ≠ none)
    {n : ℤ} (hn : 0 ≤ n) :
    wp traced (discipline action calm)
      (addAffected k n >>= fun total => hasMore k >>= fun more =>
        if more then .ret (.continuing k total)
        else cleanup k >>= fun _ => .ret (.completed k total))
      (fun result z => Executed action k x z result)
      (fun _ z => Failed action calm k x z) y := by
  have hD := discipline_admits action calm
  refine wp_bind_of (wp_mono (fun _ _ h => h) (fun _ _ hf => hf.of_advance h)
    (advance_addAffected hn h.inv haffected)) fun total z hz => ?_
  have hz' := h.trans hz
  rw [List.append_nil] at hz'
  refine wp_bind_of (wp_mono (fun _ _ h => h) (fun _ _ hf => (hf.failed hz.inv).of_advance hz')
    (wp_hasMore hD)) fun more w hw => ?_
  obtain ⟨hzw, haffected', rfl⟩ := hw
  have hw' := hz'.later hzw
  have hcard : (w.1.targets k).card = (z.1.targets k).card := by rw [hzw.targets]
  split
  · rename_i hmore
    refine ⟨rfl, hw'.inv, hw'.history, hw'.members, (fun hfalse => nomatch hfalse),
      (fun hfalse => nomatch hfalse), fun _ => ⟨?_, hw'.targets, ?_⟩⟩
    · rwa [hzw.affected]
    · rw [hcard]
      exact of_decide_eq_true hmore
  · rename_i hmore
    have hnone : ∀ id ∈ w.1.targets k, ¬Plain id := by
      refine not_plain_of_card ?_
      rw [hcard]
      exact fun hpos => hmore (decide_eq_true hpos)
    have hmay : ∀ v, Later w v → MayPerform action (.del (keys k)) v := mayPerform_del hnone
    refine wp_bind_of (wp_mono (fun _ _ h => h)
      (fun _ _ hf => (hf.failed hw'.inv hmay).of_advance hw') (wp_command hD hmay)) fun _ v hv => ?_
    refine Executed.of_del hw' ?_ hnone hv
    rwa [hzw.affected]

/-- Reading the jobs of a chunk. -/
theorem wp_getJobs {ids : List String} (hx : Inv action x) (haffected : x.1.affected k ≠ none) :
    wp traced (discipline action calm) (request (.getJobs k ids))
      (fun jobs z => Advance action k [] x z ∧ x.2 ⊆ z.2 ∧ z.1.affected k ≠ none ∧
        ∃ s, (.getJobs k ids, s) ∈ z.2 ∧ s.fate = .answered ∧ jobs = s.jobs)
      (fun _ z => Failed action calm k x z) x := by
  refine wp_neutral (discipline_admits action calm) trivial (fun z hz hfate => ?_)
    fun z hz hthrown => ?_
  · have hlater := hz.trans (Later.perform (o := .getJobs k ids) trivial z)
    refine ⟨Advance.of_later hx hlater, hlater.subset, ?_, z.1, List.mem_cons_self, hfate, rfl⟩
    show z.1.affected k ≠ none
    rwa [hz.affected]
  · have haborts : Aborts (discipline action calm) k x z := ⟨hz, Or.inl hthrown⟩
    exact haborts.failed hx

/-- An execution of a chunk of an operation that has an id. -/
theorem executed_some (hx : Inv action x) :
    wp traced (discipline action calm) (action.processChunk (some k))
      (fun result z => Executed action k x z result)
      (fun _ z => Failed action calm k x z) x := by
  cases action with
  | retryAllFailedJobs connection queue =>
      refine executed_chunk hx fun y hy hpage haffected hids => ?_
      refine wp_bind_of (wp_mono (fun _ _ h => h) (fun _ _ hf => hf.of_advance hy)
        (wp_getJobs hy.inv haffected)) fun jobs z hz => ?_
      obtain ⟨hz, hsub, haffected', s, hs, hfate, rfl⟩ := hz
      have hxz := hy.trans hz
      refine wp_bind_of (wp_mono (fun _ _ h => h) (fun _ _ hf => hf.of_advance hxz)
        (wp_renewing (advance_forEach hz.inv haffected' (fun id hid => (hids id hid).mono hsub)
          fun id hid w hw hw' hsub' hmem => advance_retry hw hw' hmem fun hskip =>
            ⟨page x k, s, hsub' hs, hfate, hid, hskip⟩))) fun _ w hw => ?_
      exact executed_concluding (hxz.trans hw) (hw.affected haffected')
  | clearFailedJobs =>
      refine executed_chunk hx fun y hy hpage haffected hids => ?_
      refine wp_bind_of (wp_mono (fun _ _ h => h) (fun _ _ hf => hf.of_advance hy)
        (wp_renewing (advance_forEach hy.inv haffected hids
          fun id hid w hw hw' hsub' hmem => advance_clear hw hw' hmem))) fun _ w hw => ?_
      exact executed_concluding (hy.trans hw) (hw.affected haffected)
  | cancelPendingJobs queue =>
      rw [cancel_processChunk_some]
      refine executed_chunk hx fun y hy hpage haffected hids => ?_
      refine wp_bind_of (wp_mono (fun _ _ h => h) (fun _ _ hf => hf.of_advance hy)
        (wp_getJobs hy.inv haffected)) fun jobs z hz => ?_
      obtain ⟨hz, hsub, haffected', s, hs, hfate, rfl⟩ := hz
      have hxz := hy.trans hz
      refine wp_bind_of (wp_mono (fun _ _ h => h) (fun _ _ hf => hf.of_advance hxz)
        (wp_renewing (advance_fold hz.inv haffected' (fun id hid => (hids id hid).mono hsub)
          (fun _ id hid w hw hw' hsub' hmem => advance_cancel hw hmem fun hskip =>
            ⟨page x k, s, hsub' hs, hfate, hid, hskip⟩) _))) fun counts w hw => ?_
      exact executed_cancelled (hxz.trans hw) (hw.affected haffected') (Int.natCast_nonneg _)

/-! ## Taking a snapshot -/

/-- What an exception without an operation leaves behind. -/
def Abandoned (action : Action) (calm : Prop) (x z : Traced) : Prop :=
  Inv action z ∧ x.2 ⊆ z.2 ∧ ¬calm

/-- An operation that was tried in vain is abandoned. -/
theorem Tried.abandoned (hx : Inv action x) (hmay : ∀ y, Later x y → MayPerform action o y)
    (h : Tried (discipline action calm) o x z) : Abandoned action calm x z := by
  have hfailed : Failed action calm 0 x z := h.failed hx hmay
  exact ⟨hfailed.1, hfailed.2.1, h.not_calm⟩

/-- The members of a source that was read in a store, as they are kept. -/
def keptOf (s : Store) (key : String) : List (String × ℚ) := pairs (s.sources key).entries

/-- The members that are kept are those that do not look like integers. -/
theorem mem_keptOf {s : Store} {key : String} :
    id ∈ (keptOf s key).map Prod.fst ↔ id ∈ s.sources key ∧ isIntegerKey id = false := by
  rw [keptOf, pairs, SortedSet.mem_iff_members, SortedSet.members, List.mem_map, List.mem_map]
  constructor
  · rintro ⟨e, he, rfl⟩
    rw [List.mem_filter] at he
    exact ⟨⟨e, he.1, rfl⟩, by simpa using he.2⟩
  · rintro ⟨⟨e, he, rfl⟩, hkey⟩
    exact ⟨e, List.mem_filter.mpr ⟨he, by simpa using hkey⟩, rfl⟩

/-- While the snapshot `k` is filled with what was read in the store `s`. -/
structure Filling (action : Action) (k : OperationId) (s : Store) (key : String)
    (filled : List (String × ℚ)) (x z : Traced) : Prop where
  inv : Inv action z
  history : x.2 ⊆ z.2
  read : (.zrangeWithScores k key, s) ∈ z.2 ∧ s.fate = .answered
  members : ∀ id, Member z k id → id ∈ s.sources key
  drawn : k < z.1.drawn
  targets : z.1.targets k = (∅ : SortedSet String ℚ).insertAll filled
  affected : z.1.affected k = none

variable {s : Store} {key : String} {filled : List (String × ℚ)}

/-- A filling goes on while time passes. -/
theorem Filling.later (h : Filling action k s key filled x y) (hyz : Later y z) :
    Filling action k s key filled x z where
  inv := h.inv.later hyz
  history := List.Subset.trans h.history hyz.subset
  read := ⟨hyz.subset h.read.1, h.read.2⟩
  members id hid := h.members id (hyz.member.mp hid)
  drawn := by rw [hyz.drawn]; exact h.drawn
  targets := by rw [hyz.targets, h.targets]
  affected := by rw [hyz.affected, h.affected]

/-- A snapshot that has been taken: the members of the source that are no integer-like keys. -/
structure Taken (action : Action) (k : OperationId) (x z : Traced) : Prop where
  inv : Inv action z
  history : x.2 ⊆ z.2
  affected : z.1.affected k = some 0
  snapshot : ∃ key s, (.zrangeWithScores k key, s) ∈ z.2 ∧ s.fate = .answered ∧
    z.1.targets k = (∅ : SortedSet String ℚ).insertAll (keptOf s key)

/-- One target. -/
theorem wp_zadd {e : String × ℚ} (h : Filling action k s key filled x y)
    (he : e ∈ keptOf s key) :
    wp traced (discipline action calm) (request (.zadd k e.2 e.1))
      (fun _ z => Filling action k s key (filled ++ [e]) x z)
      (fun _ z => Abandoned action calm x z) y := by
  have hmem : e.1 ∈ s.sources key := (mem_keptOf.mp (List.mem_map_of_mem he)).1
  have hmay : ∀ w, Later y w → MayPerform action (.zadd k e.2 e.1) w := fun w hyw =>
    ⟨key, s, hyw.subset h.read.1, h.read.2, hmem⟩
  refine wp_mono (fun _ z hz => ?_) (fun _ z hz => ?_) (wp_command (discipline_admits action calm)
    hmay)
  · obtain ⟨w, hyw, -, -, hwz⟩ := hz
    have hw := h.later hyw
    refine Filling.later (y := ((perform (.zadd k e.2 e.1) w.1).2, (.zadd k e.2 e.1, w.1) :: w.2))
      ⟨hw.inv.perform (hmay w hyw), List.Subset.trans hw.history (List.subset_cons_self _ _),
        ⟨List.mem_cons_of_mem _ hw.read.1, hw.read.2⟩, fun id hid => ?_, hw.drawn, ?_, hw.affected⟩
      hwz
    · rcases member_cons hid with hid | ⟨-, key', hkey⟩
      · exact hw.members id hid
      · exact nomatch hkey
    · simp only [perform, Function.update_self, hw.targets]
      rw [SortedSet.insertAll, SortedSet.insertAll, List.foldl_append]
      rfl
  · obtain ⟨hinv, hsub, hcalm⟩ := hz.abandoned h.inv hmay
    exact ⟨hinv, List.Subset.trans h.history hsub, hcalm⟩

/-- Reading the source for an id that has just been drawn. -/
theorem wp_read (key : String) (hx : Inv action x) :
    wp traced (discipline action calm) newOperationId
      (fun k y => wp traced (discipline action calm) (request (.zrangeWithScores k key))
        (fun members z => ∃ s, members = (s.sources key).entries ∧ Filling action k s key [] x z)
        (fun _ z => Abandoned action calm x z) y)
      (fun _ z => Abandoned action calm x z) x := by
  have hD := discipline_admits action calm
  have hmay : ∀ y, Later x y → MayPerform action .randomId y := fun _ _ => trivial
  -- drawing the key, after which nothing is known under it
  refine wp_mono (fun k y hy => ?_) (fun _ z hz => hz.abandoned hx hmay) (wp_command hD hmay)
  obtain ⟨w, hxw, -, hk, hwy⟩ := hy
  have hw := hx.later hxw
  have hy := (hw.perform (o := .randomId) trivial).later hwy
  have hsub : x.2 ⊆ y.2 := List.Subset.trans hxw.subset
    (List.Subset.trans (List.subset_cons_self _ _) hwy.subset)
  have hk : k = w.1.drawn := hk
  have hdrawn : k < y.1.drawn := by
    rw [hwy.drawn, hk]
    exact Nat.lt_succ_self _
  obtain ⟨htargets, haffected, hnone⟩ := hw.fresh k (Nat.le_of_eq hk.symm)
  have htargets : y.1.targets k = ∅ := by rw [hwy.targets]; exact htargets
  have haffected : y.1.affected k = none := by rw [hwy.affected]; exact haffected
  have hnone : ∀ id, ¬Member y k id := by
    intro id hid
    rcases member_cons (hwy.member.mp hid) with hid | ⟨-, key', hkey⟩
    · exact hnone id hid
    · exact nomatch hkey
  have hread : ∀ v, Later y v → MayPerform action (.zrangeWithScores k key) v := by
    intro v hyv
    refine ⟨?_, ?_⟩
    · rw [hyv.drawn]
      exact hdrawn
    · rw [hyv.affected]
      exact haffected
  -- reading the source, which is where the members of the operation are fixed
  refine wp_mono (fun members z hz => ?_) (fun _ z hz => ?_) (wp_command hD hread)
  · obtain ⟨v, hyv, ⟨hfate, -⟩, rfl, hvz⟩ := hz
    refine ⟨v.1, rfl, Filling.later (y := ((perform (.zrangeWithScores k key) v.1).2,
      (.zrangeWithScores k key, v.1) :: v.2)) ⟨(hy.later hyv).perform (hread v hyv), ?_,
        ⟨List.mem_cons_self, hfate⟩, fun id hid => ?_, ?_, ?_, ?_⟩ hvz⟩
    · exact List.Subset.trans hsub
        (List.Subset.trans hyv.subset (List.subset_cons_self _ _))
    · obtain ⟨key', s, hs, hfate', hid⟩ := hid
      rcases List.mem_cons.mp hs with heq | hs
      · obtain ⟨hop, rfl⟩ := Prod.mk.inj heq
        rw [← (Operation.zrangeWithScores.inj hop).2]
        exact hid
      · exact absurd (hyv.member.mp ⟨key', s, hs, hfate', hid⟩) (hnone id)
    · exact (hread v hyv).1
    · show v.1.targets k = ∅
      rw [hyv.targets, htargets]
    · exact (hread v hyv).2
  · obtain ⟨hinv, hsub', hcalm⟩ := hz.abandoned hy hread
    exact ⟨hinv, List.Subset.trans hsub hsub', hcalm⟩

/-- Copying what was read. -/
theorem wp_fill (h : Filling action k s key [] x y) :
    wp traced (discipline action calm)
      (Prog.forEach ((keptOf s key).arrayChunk chunkSize) fun chunk =>
        Prog.forEach chunk fun e => (request (.zadd k e.2 e.1) : BulkProgram Unit))
      (fun _ z => Filling action k s key (keptOf s key) x z)
      (fun _ z => Abandoned action calm x z) y := by
  rw [Prog.forEach_flatten, List.flatten_arrayChunk]
  have hloop : ∀ e rest z, (∃ filled, keptOf s key = filled ++ e :: rest ∧
      Filling action k s key filled x z) →
      wp traced (discipline action calm) (request (.zadd k e.2 e.1))
        (fun _ z => ∃ filled, keptOf s key = filled ++ rest ∧ Filling action k s key filled x z)
        (fun _ z => Abandoned action calm x z) z := by
    rintro e rest z ⟨filled, hfilled, hz⟩
    refine wp_mono (fun _ w hw => ⟨filled ++ [e], ?_, hw⟩) (fun _ _ h => h) (wp_zadd hz ?_)
    · rw [hfilled, List.append_assoc]
      rfl
    · rw [hfilled]
      exact List.mem_append_right _ List.mem_cons_self
  refine wp_mono (fun _ z hz => ?_) (fun _ _ h => h) (wp_forEach
    (I := fun rest z => ∃ filled, keptOf s key = filled ++ rest ∧
      Filling action k s key filled x z) hloop ⟨[], rfl, h⟩)
  obtain ⟨filled, hfilled, hz⟩ := hz
  rw [List.append_nil] at hfilled
  rw [hfilled]
  exact hz

/-- Taking a snapshot of a sorted set. -/
theorem wp_createFromSortedSet {sourceKey : String} (hsource : Php.trim sourceKey ≠ "")
    (hx : Inv action x) :
    wp traced (discipline action calm) (createFromSortedSet sourceKey)
      (fun k z => Taken action k x z) (fun _ z => Abandoned action calm x z) x := by
  have hD := discipline_admits action calm
  rw [createFromSortedSet, if_neg hsource]
  refine wp_bind_of (wp_read (Php.trim sourceKey) hx) fun k y hy => ?_
  refine wp_bind_of hy fun members z hz => ?_
  obtain ⟨s, rfl, hz⟩ := hz
  refine wp_bind_of (wp_fill hz) fun _ w hw => ?_
  have hmay : ∀ v, Later w v → MayPerform action (.hmset k) v := by
    intro v hwv
    have hv := hw.later hwv
    refine ⟨hv.drawn, fun id hid hplain => ?_⟩
    rw [hv.targets, SortedSet.mem_insertAll]
    exact Or.inl (mem_keptOf.mpr ⟨hv.members id hid, hplain.2⟩)
  refine wp_bind_of (wp_mono (fun _ _ h => h) (fun _ v hv => ?_) (wp_command hD hmay))
    fun _ v hv => ?_
  · obtain ⟨hinv, hsub, hcalm⟩ := hv.abandoned hw.inv hmay
    exact ⟨hinv, List.Subset.trans hw.history hsub, hcalm⟩
  · obtain ⟨u, hwu, -, -, huv⟩ := hv
    have hu := hw.later hwu
    have htaken : Taken action k x v := by
      refine ⟨(hu.inv.perform (hmay u hwu)).later huv, List.Subset.trans hu.history
        (List.Subset.trans (List.subset_cons_self _ _) huv.subset), ?_, _, s,
        huv.subset (List.mem_cons_of_mem _ hu.read.1), hu.read.2, ?_⟩
      · rw [huv.affected]
        simp [perform]
      · rw [huv.targets]
        exact hu.targets
    refine wp_bind_of (wp_mono (fun _ _ h => h) (fun _ t ht => ?_) (wp_renew hD)) fun _ t ht => ?_
    · exact ⟨htaken.inv.later ht.1, List.Subset.trans htaken.history ht.1.subset, ht.2.not_calm⟩
    · obtain ⟨key', s', hs', hfate', htargets⟩ := htaken.snapshot
      refine ⟨htaken.inv.later ht, List.Subset.trans htaken.history ht.subset, ?_, key', s',
        ht.subset hs', hfate', ?_⟩
      · rw [ht.affected]
        exact htaken.affected
      · rw [ht.targets]
        exact htargets

/-! ## Executions one after the other -/

/-- The sorted set an operation is made from. -/
def Action.sourceKey : Action → String
  | .retryAllFailedJobs _ _ => "failed_jobs"
  | .clearFailedJobs => "failed_jobs"
  | .cancelPendingJobs _ => "pending_jobs"

/-- The source of an action has a name. -/
theorem Action.trim_sourceKey (action : Action) : Php.trim action.sourceKey ≠ "" := by
  have hfailed : Php.trim "failed_jobs" ≠ "" := by decide
  have hpending : Php.trim "pending_jobs" ≠ "" := by decide
  cases action with
  | retryAllFailedJobs connection queue => exact hfailed
  | clearFailedJobs => exact hfailed
  | cancelPendingJobs queue => exact hpending

/-- The first execution takes the snapshot. -/
theorem processChunk_none :
    action.processChunk none =
      createFromSortedSet action.sourceKey >>= fun k => action.processChunk (some k) := by
  cases action with
  | retryAllFailedJobs connection queue => rfl
  | clearFailedJobs => rfl
  | cancelPendingJobs queue =>
      simp only [Action.processChunk, CancelPendingJobs.processChunk, operationIdOf, bind_assoc]
      rfl

/-- The first execution. -/
theorem executed_none (hx : Inv action x) :
    wp traced (discipline action calm) (action.processChunk none)
      (fun result z => ∃ y, Taken action result.operationId x y ∧
        Executed action result.operationId y z result)
      (fun _ z => Abandoned action calm x z) x := by
  have hcreate := @wp_createFromSortedSet action x calm _ action.trim_sourceKey hx
  rw [processChunk_none]
  -- What matters of the constructor is what it establishes.
  generalize createFromSortedSet action.sourceKey = create at hcreate ⊢
  refine wp_bind_of hcreate fun k y hy => ?_
  refine wp_mono (fun result z hz => ?_) (fun _ z hz => ?_) (executed_some hy.inv)
  · rw [hz.operationId]
    exact ⟨y, hy, hz⟩
  · refine ⟨hz.1, List.Subset.trans hy.history hz.2.1, fun hcalm => ?_⟩
    have hnone := hz.2.2 hcalm
    rw [hy.affected] at hnone
    exact nomatch hnone

/-- Everything is done with when an operation completes. -/
def Completes (action : Action) (x : Traced) (r : Option BulkOperationChunkResult) (z : Traced) :
    Prop :=
  Inv action z ∧ x.2 ⊆ z.2 ∧ ∀ result, r = some result → result.complete = true ∧
    ∀ id, Member z result.operationId id → Plain id → Settled action z result.operationId id

/-- An execution, whatever becomes of it. -/
theorem completes_execution (hx : Inv action x) (operationId : Option OperationId) :
    wp traced (discipline action calm) (action.execution operationId)
      (fun r z => Inv action z ∧ x.2 ⊆ z.2 ∧ ∀ result, r = some result →
        result.complete = true → ∀ id, Member z result.operationId id → Plain id →
          Settled action z result.operationId id)
      (fun _ _ => False) x := by
  refine wp_tryCatch.mpr ?_
  have hnone : ∀ z, Inv action z → x.2 ⊆ z.2 → Inv action z ∧ x.2 ⊆ z.2 ∧
      ∀ result : BulkOperationChunkResult, none = some result → result.complete = true → ∀ id,
        Member z result.operationId id → Plain id → Settled action z result.operationId id :=
    fun z hz hsub => ⟨hz, hsub, fun _ h => nomatch h⟩
  cases operationId with
  | some k =>
      refine wp_bind_of (wp_mono (fun _ _ h => h) (fun _ z hz => hnone z hz.1 hz.2.1)
        (executed_some hx)) fun result z hz => ?_
      refine ⟨hz.inv, hz.history, fun result' heq => ?_⟩
      rw [← Option.some.inj heq, hz.operationId]
      exact hz.settled
  | none =>
      refine wp_bind_of (wp_mono (fun _ _ h => h) (fun _ z hz => hnone z hz.1 hz.2.1)
        (executed_none hx)) fun result z hz => ?_
      obtain ⟨y, hy, hz⟩ := hz
      refine ⟨hz.inv, List.Subset.trans hy.history hz.history, fun result' heq => ?_⟩
      rw [← Option.some.inj heq]
      exact hz.settled

/-- **Completion**: an operation that completes has left nothing behind. -/
theorem completes_operation (hx : Inv action x) (schedule : List (Option OperationId))
    (operationId : Option OperationId) :
    wp traced (discipline action calm) (action.operation schedule operationId)
      (Completes action x) (fun _ _ => False) x := by
  induction schedule generalizing x operationId with
  | nil => exact ⟨hx, List.Subset.refl _, fun _ h => nomatch h⟩
  | cons again schedule ih =>
      refine wp_bind_of (completes_execution hx operationId) fun r z hz => ?_
      obtain ⟨hinv, hsub, hsettled⟩ := hz
      have hagain : ∀ operationId, wp traced (discipline action calm)
          (action.operation schedule operationId) (Completes action x) (fun _ _ => False) z :=
        fun operationId => wp_mono (fun _ _ h => ⟨h.1, List.Subset.trans hsub h.2.1, h.2.2⟩)
          (fun _ _ h => h) (ih hinv operationId)
      cases r with
      | none => exact hagain (again <|> operationId)
      | some result =>
          show wp traced (discipline action calm) (if result.complete then .ret (some result)
            else action.operation schedule (some result.operationId)) _ _ z
          split
          · rename_i hcomplete
            refine ⟨hinv, hsub, fun result' heq => ?_⟩
            rw [← Option.some.inj heq]
            exact ⟨hcomplete, hsettled result rfl hcomplete⟩
          · exact hagain (some result.operationId)

/-! ## Progress -/

/-- A page of targets that are not empty holds the first of them. -/
theorem page_eq_take (h : ∀ id ∈ x.1.targets k, Plain id) :
    page x k = (x.1.targets k).members.take chunkSize := by
  refine List.filter_eq_self.mpr fun id hid => ?_
  have hne : id ≠ "" := (h id (List.mem_of_mem_take hid)).1
  simpa using hne

/-- An execution that does not complete the operation has removed a whole chunk of targets. -/
theorem Executed.card {result : BulkOperationChunkResult} (h : Executed action k x z result)
    (hplain : ∀ id ∈ x.1.targets k, Plain id) (hcomplete : result.complete = false) :
    (z.1.targets k).card + chunkSize = (x.1.targets k).card := by
  obtain ⟨-, htargets, hpos⟩ := h.rest hcomplete
  rw [page_eq_take hplain] at htargets
  have hcard : (z.1.targets k).card = (x.1.targets k).card - chunkSize := by
    rw [htargets, SortedSet.card_eraseAll_take]
  omega

/-- **Progress**: an execution that returns has removed targets, if there were any. -/
theorem Executed.shrinks {result : BulkOperationChunkResult} (h : Executed action k x z result)
    (hplain : ∀ id ∈ x.1.targets k, Plain id) (hne : ∃ id, id ∈ x.1.targets k) :
    (∀ id ∈ z.1.targets k, id ∈ x.1.targets k) ∧ ∃ id ∈ x.1.targets k, id ∉ z.1.targets k := by
  obtain ⟨id, hid⟩ := hne
  cases hcomplete : result.complete with
  | true =>
      rw [h.emptied hcomplete]
      exact ⟨fun _ h => absurd h SortedSet.not_mem_empty, id, hid, SortedSet.not_mem_empty⟩
  | false =>
      obtain ⟨-, htargets, -⟩ := h.rest hcomplete
      rw [htargets]
      refine ⟨fun id hid => (SortedSet.mem_eraseAll.mp hid).2, ?_⟩
      cases hmembers : (x.1.targets k).members with
      | nil =>
          rw [SortedSet.mem_iff_members, hmembers] at hid
          cases hid
      | cons first rest =>
          have hfirst : first ∈ x.1.targets k := by
            rw [SortedSet.mem_iff_members, hmembers]
            exact List.mem_cons_self
          refine ⟨first, hfirst, fun hmem => (SortedSet.mem_eraseAll.mp hmem).1 ?_⟩
          rw [page_eq_take hplain, hmembers]
          exact List.mem_cons_self

/-- The first execution has removed members of its snapshot, if there were any. -/
theorem Taken.shrinks {result : BulkOperationChunkResult}
    (h : Taken action result.operationId x y) (hz : Executed action result.operationId y z result) :
    ∃ key s, (.zrangeWithScores result.operationId key, s) ∈ z.2 ∧ s.fate = .answered ∧
      ((∀ id ∈ s.sources key, Plain id) → (∃ id, id ∈ s.sources key) →
        (∀ id ∈ z.1.targets result.operationId, id ∈ s.sources key) ∧
          ∃ id ∈ s.sources key, id ∉ z.1.targets result.operationId) := by
  obtain ⟨key, s, hs, hfate, htargets⟩ := h.snapshot
  refine ⟨key, s, hz.history hs, hfate, fun hplain hne => ?_⟩
  have hmem : ∀ id, id ∈ y.1.targets result.operationId ↔ id ∈ s.sources key := by
    intro id
    rw [htargets, SortedSet.mem_insertAll, mem_keptOf]
    constructor
    · exact fun hid => (hid.resolve_right SortedSet.not_mem_empty).1
    · exact fun hid => Or.inl ⟨hid, (hplain id hid).2⟩
  obtain ⟨hsub, id, hid, hgone⟩ := hz.shrinks (fun id hid => hplain id ((hmem id).mp hid))
    (hne.imp fun id hid => (hmem id).mpr hid)
  exact ⟨fun id hid => (hmem id).mp (hsub id hid), id, (hmem id).mp hid, hgone⟩

/-! ## How many executions there are -/

/-- Every snapshot that was taken had at most `n` members, all of them plain. -/
def Bounded (n : ℕ) (x : Traced) : Prop :=
  ∀ k key s, (.zrangeWithScores k key, s) ∈ x.2 → s.fate = .answered →
    (s.sources key).card ≤ n ∧ ∀ id ∈ s.sources key, Plain id

/-- In a bounded history the targets are plain ids. -/
theorem Bounded.plain {n : ℕ} (hz : Bounded n z) (hx : Inv action x) (hsub : x.2 ⊆ z.2) :
    ∀ id ∈ x.1.targets k, Plain id := by
  intro id hid
  obtain ⟨key, s, hs, hfate, hmem⟩ := hx.members k id hid
  exact (hz k key s (hsub hs) hfate).2 id hmem

/-- In a bounded history no more targets are taken than the bound says. -/
theorem Bounded.card_taken {n : ℕ} (hz : Bounded n z) (h : Taken action k x y) (hsub : y.2 ⊆ z.2) :
    (y.1.targets k).card ≤ n := by
  obtain ⟨key, s, hs, hfate, htargets⟩ := h.snapshot
  rw [htargets]
  calc ((∅ : SortedSet String ℚ).insertAll (keptOf s key)).card
      ≤ (keptOf s key).length := SortedSet.card_insertAll_le
    _ ≤ (s.sources key).entries.length := List.length_filter_le _ _
    _ ≤ n := (hz k key s (hsub hs) hfate).1

/-- Without failures an execution returns. -/
theorem calm_execution_some (hx : Inv action x) (haffected : x.1.affected k ≠ none) :
    wp traced (discipline action True) (action.execution (some k))
      (fun r z => ∃ result, r = some result ∧ Executed action k x z result)
      (fun _ _ => False) x := by
  refine wp_tryCatch.mpr ?_
  refine wp_bind_of (wp_mono (fun _ _ h => h) (fun _ z hz => ?_) (executed_some hx))
    fun result z hz => ⟨result, rfl, hz⟩
  exact absurd (hz.2.2 trivial) haffected

/-- A first execution that is not disturbed takes its targets and executes the operation. -/
theorem calm_execution_none (hx : Inv action x) :
    wp traced (discipline action True) (action.execution none)
      (fun r z => ∃ result, r = some result ∧ ∃ y, Taken action result.operationId x y ∧
        Executed action result.operationId y z result)
      (fun _ _ => False) x := by
  refine wp_tryCatch.mpr ?_
  refine wp_bind_of (wp_mono (fun _ _ h => h) (fun _ z hz => ?_) (executed_none hx))
    fun result z hz => ⟨result, rfl, hz⟩
  exact absurd trivial hz.2.2

/-- An operation that is not complete after some executions had more than a chunk for each. -/
theorem calm_operation_some (hx : Inv action x) (haffected : x.1.affected k ≠ none)
    (schedule : List (Option OperationId)) :
    wp traced (discipline action True) (action.operation schedule (some k))
      (fun r z => x.2 ⊆ z.2 ∧ ∀ n, Bounded n z → r = none →
        schedule.length ≤ (x.1.targets k).card / chunkSize)
      (fun _ _ => False) x := by
  induction schedule generalizing x with
  | nil => exact ⟨List.Subset.refl _, fun _ _ _ => Nat.zero_le _⟩
  | cons again schedule ih =>
      refine wp_bind_of (calm_execution_some hx haffected) fun r y hy => ?_
      obtain ⟨result, rfl, hy⟩ := hy
      show wp traced (discipline action True) (if result.complete then .ret (some result)
        else action.operation schedule (some result.operationId)) _ _ y
      split
      · exact ⟨hy.history, fun _ _ h => nomatch h⟩
      rename_i hcomplete
      have hcomplete : result.complete = false := by simpa using hcomplete
      rw [hy.operationId]
      refine wp_mono (fun r z hz => ⟨List.Subset.trans hy.history hz.1, fun n hn hr => ?_⟩)
        (fun _ _ h => h) (ih hy.inv (hy.rest hcomplete).1)
      have hrest := hz.2 n hn hr
      have hcard := hy.card (hn.plain hx (List.Subset.trans hy.history hz.1)) hcomplete
      rw [← hcard, Nat.add_div_right _ (by decide : 0 < chunkSize)]
      exact Nat.succ_le_succ hrest

/-- **The number of executions**: without failures, an operation over at most `n` members is
complete after `n / 100 + 1` executions. -/
theorem calm_operation_none (hx : Inv action x) (schedule : List (Option OperationId)) :
    wp traced (discipline action True) (action.operation schedule none)
      (fun r z => ∀ n, Bounded n z → r = none → schedule.length ≤ n / chunkSize)
      (fun _ _ => False) x := by
  cases schedule with
  | nil => exact fun _ _ _ => Nat.zero_le _
  | cons again schedule =>
      refine wp_bind_of (calm_execution_none hx) fun r y hy => ?_
      obtain ⟨result, rfl, w, hw, hy⟩ := hy
      show wp traced (discipline action True) (if result.complete then .ret (some result)
        else action.operation schedule (some result.operationId)) _ _ y
      split
      · exact fun _ _ h => nomatch h
      rename_i hcomplete
      have hcomplete : result.complete = false := by simpa using hcomplete
      refine wp_mono (fun r z hz n hn hr => ?_) (fun _ _ h => h)
        (calm_operation_some hy.inv (hy.rest hcomplete).1 schedule)
      have hrest := hz.2 n hn hr
      have hcard := hy.card (hn.plain hw.inv (List.Subset.trans hy.history hz.1)) hcomplete
      have htaken := hn.card_taken hw (List.Subset.trans hy.history hz.1)
      calc schedule.length + 1 ≤ (y.1.targets result.operationId).card / chunkSize + 1 :=
            Nat.succ_le_succ hrest
        _ = (w.1.targets result.operationId).card / chunkSize := by
            rw [← hcard, Nat.add_div_right _ (by decide : 0 < chunkSize)]
        _ ≤ n / chunkSize := Nat.div_le_div_right htaken

/-! ## Operations -/

/-- A store in which no operation has left anything behind. -/
structure Unused (s : Store) : Prop where
  targets : ∀ k, s.targets k = ∅
  affected : ∀ k, s.affected k = none

/-- An unused store meets the invariant. -/
theorem Unused.inv {s : Store} (h : Unused s) (action : Action) : Inv action (s, []) := by
  have hnone : ∀ k id, ¬Member (s, []) k id := by
    rintro k id ⟨key, s', hs', -⟩
    cases hs'
  constructor
  · exact fun k _ => ⟨h.targets k, h.affected k, hnone k⟩
  · intro k id hid
    rw [h.targets k] at hid
    exact absurd hid SortedSet.not_mem_empty
  · exact fun k hk => absurd (h.affected k) hk
  · rintro handler k id ⟨s', hs'⟩
    cases hs'

/-- Every permitted command removes only targets that are done with. -/
theorem MayPerform.settled (hmay : MayPerform action o x) (hplain : Plain id)
    (hid : id ∈ x.1.targets k) (hgone : id ∉ (traced o x).2.1.targets k) :
    Settled action x k id := by
  have hperform : id ∉ (perform o x.1).2.targets k := by
    simp only [traced, recording, exec, underFate] at hgone
    cases hfate : x.1.fate with
    | answered => simpa only [hfate] using hgone
    | unsent =>
        simp only [hfate] at hgone
        exact absurd hid hgone
    | unanswered => simpa only [hfate] using hgone
  cases o with
  | zadd k' score id' =>
      refine absurd ?_ hperform
      simp only [perform]
      by_cases hk : k = k'
      · subst hk
        rw [Function.update_self, SortedSet.mem_insert]
        exact Or.inr hid
      · rwa [Function.update_of_ne hk]
  | zrem k' ids =>
      simp only [perform] at hperform
      by_cases hk : k = k'
      · subst hk
        rw [Function.update_self, SortedSet.mem_eraseAll, not_and] at hperform
        refine hmay id ?_
        by_contra hids
        exact hperform hids hid
      · rw [Function.update_of_ne hk] at hperform
        exact absurd hid hperform
  | del ks =>
      simp only [perform] at hperform
      split at hperform
      · exact absurd hplain ((hmay k ‹_›).2 id hid)
      · exact absurd hid hperform
  | _ => exact absurd hid hperform

/-- The invariant holds throughout a program that keeps to its discipline and ends with it. -/
theorem inv_of_wp {α : Type} {p p' : BulkProgram α} {Q : α → Traced → Prop}
    {E : BulkOperationFailure → Traced → Prop} (hx : Inv action x)
    (hp : wp traced (discipline action calm) p Q E x)
    (hQ : ∀ a y z, World y z → Q a y → Q a z) (hE : ∀ e y z, World y z → E e y → E e z)
    (h : Runs calm (p, x) (p', y)) :
    Inv action y ∧ wp traced (discipline action calm) p' Q E y := by
  have hsound : ∀ {q}, Runs calm (p, x) q → wp traced (discipline action calm) q.1 Q E q.2 :=
    fun hq => Run.sound (D := discipline action calm) hQ hE hq hp
  refine ⟨?_, hsound h⟩
  have hinv : ∀ {q}, Runs calm (p, x) q → Inv action q.2 := by
    intro q hq
    induction hq with
    | refl => exact hx
    | own hrun hc ih =>
        exact ih.traced ((hsound hrun) _ ⟨rfl, rfl⟩ hc).1
    | @world q s s' hrun hw ih =>
        exact ih.later ((discipline_admits action calm).rely [] _ _ hw)
  exact hinv h

/-- The state of a completed operation is not changed by the world. -/
theorem Completes.world {r : Option BulkOperationChunkResult} (hw : World y z)
    (h : Completes action x r y) : Completes action x r z := by
  have hlater : Later y z := (discipline_admits action True).rely [] y z hw
  refine ⟨h.1.later hlater, List.Subset.trans h.2.1 hlater.subset, fun result hr => ?_⟩
  refine ⟨(h.2.2 result hr).1, fun id hid hplain => ?_⟩
  exact ((h.2.2 result hr).2 id (hlater.member.mp hid) hplain).mono hlater.subset

/-- **Coverage, order, isolation and progress** of a bulk operation, whatever fails and however often
its chunks are executed again:

* when it reports its completion, every member of its snapshot has been skipped or handled;
* a command removes a target only when it is settled;
* only members of the snapshot are handled;
* an execution that returns has removed targets, unless there were none: those it has found, or, the
  first time, those it has copied;
* if nothing fails, an operation over at most `n` members completes in `n / 100 + 1` executions. -/
theorem operation_covers (action : Action) (s₀ : Store) (h₀ : Unused s₀)
    (schedule : List (Option OperationId)) :
    (∀ p x, Runs False (action.operation schedule none, (s₀, [])) (p, x) →
      (∀ result, p = .ret (some result) → result.complete = true ∧
        ∀ id, Member x result.operationId id → Plain id →
          Skipped action x result.operationId id ∨ Handled action x result.operationId id) ∧
      (∀ ls o next, p = .op ls o next → ∀ k id, Plain id → id ∈ x.1.targets k →
        id ∉ (traced o x).2.1.targets k → Settled action x k id) ∧
      (∀ h k id, Called h x k id → Member x k id) ∧
      (∀ k result z, Runs False (action.processChunk (some k), x) (.ret result, z) →
        (∀ id ∈ x.1.targets k, Plain id) → (∃ id, id ∈ x.1.targets k) →
        (∀ id ∈ z.1.targets k, id ∈ x.1.targets k) ∧
          ∃ id ∈ x.1.targets k, id ∉ z.1.targets k) ∧
      ∀ result z, Runs False (action.processChunk none, x) (.ret result, z) →
        ∃ key s, (.zrangeWithScores result.operationId key, s) ∈ z.2 ∧ s.fate = .answered ∧
          ((∀ id ∈ s.sources key, Plain id) → (∃ id, id ∈ s.sources key) →
            (∀ id ∈ z.1.targets result.operationId, id ∈ s.sources key) ∧
              ∃ id ∈ s.sources key, id ∉ z.1.targets result.operationId)) ∧
    ∀ r x n, Runs True (action.operation schedule none, (s₀, [])) (.ret r, x) → Bounded n x →
      n / 100 + 1 ≤ schedule.length → ∃ result, r = some result ∧ result.complete = true := by
  have hstart := h₀.inv action
  constructor
  · intro p x hrun
    obtain ⟨hx, hwp⟩ := inv_of_wp hstart (completes_operation hstart schedule none)
      (fun _ _ _ hw h => h.world hw) (fun _ _ _ _ h => h) hrun
    refine ⟨?_, ?_, hx.handled, ?_, ?_⟩
    · rintro result rfl
      obtain ⟨-, -, hdone⟩ := hwp
      exact ⟨(hdone result rfl).1, fun id hid hplain =>
        ((hdone result rfl).2 id hid hplain).skipped_or_handled⟩
    · rintro ls o next rfl k id hplain hid hgone
      exact (hwp x ⟨rfl, rfl⟩ (fun h => h.elim)).1.settled hplain hid hgone
    · intro k result z hchunk hplain hne
      have hshrinks : wp traced (discipline action False) (action.processChunk (some k))
          (fun _ z => (∀ id ∈ z.1.targets k, id ∈ x.1.targets k) ∧
            ∃ id ∈ x.1.targets k, id ∉ z.1.targets k) (fun _ _ => True) x :=
        wp_mono (fun _ _ h => h.shrinks hplain hne) (fun _ _ _ => trivial) (executed_some hx)
      refine (inv_of_wp hx hshrinks (fun _ _ _ hw h => ?_) (fun _ _ _ _ h => h) hchunk).2
      rwa [hw.1]
    · intro result z hchunk
      have hshrinks : wp traced (discipline action False) (action.processChunk none)
          (fun result z => ∃ key s, (.zrangeWithScores result.operationId key, s) ∈ z.2 ∧
            s.fate = .answered ∧ ((∀ id ∈ s.sources key, Plain id) →
              (∃ id, id ∈ s.sources key) →
              (∀ id ∈ z.1.targets result.operationId, id ∈ s.sources key) ∧
                ∃ id ∈ s.sources key, id ∉ z.1.targets result.operationId))
          (fun _ _ => True) x := by
        refine wp_mono (fun result z hz => ?_) (fun _ _ _ => trivial) (executed_none hx)
        obtain ⟨y, hy, hz⟩ := hz
        exact hy.shrinks hz
      refine (inv_of_wp hx hshrinks (fun _ _ _ hw h => ?_) (fun _ _ _ _ h => h) hchunk).2
      rwa [hw.1, hw.2]
  · intro r x n hrun hn hlength
    have hdone := (inv_of_wp hstart (completes_operation hstart schedule none)
      (fun _ _ _ hw h => h.world hw) (fun _ _ _ _ h => h) hrun).2
    have hcount := (inv_of_wp hstart (calm_operation_none hstart schedule)
      (fun r y z hw h m hm => h m (by rw [Bounded, hw.2] at hm; exact hm))
      (fun _ _ _ _ h => h) hrun).2
    cases r with
    | none => exact absurd (hcount n hn rfl) (Nat.not_le.mpr hlength)
    | some result => exact ⟨result, rfl, (hdone.2.2 result rfl).1⟩

/-- A store with two failed jobs. -/
def twoFailedJobs : Store :=
  { oneFailedJob with sources := fun _ => SortedSet.ofFun ["job", "other"] fun _ => some 0 }

/-- Before a command: the first `ZREM` is not sent, and everything else succeeds. -/
def losingZrem (o : Operation) (x : Traced) : Traced :=
  let isZrem : Operation → Bool := fun | .zrem _ _ => true | _ => false
  ({ x.1 with fate := if isZrem o && x.2.all (fun e => !isZrem e.1) then .unsent else .answered }, x.2)

/-- Clearing the two failed jobs: the first execution ends at the lost command, the second one goes on
with the same operation. -/
def clearingTwo : Outcome BulkOperationFailure (Option BulkOperationChunkResult) × Traced :=
  (Action.clearFailedJobs.operation [some 0, none] none).eval (fun o x => traced o (losingZrem o x))
    (twoFailedJobs, [])

/-- Two failed jobs are cleared, although a command fails in between. -/
theorem operation_covers_clearingTwo :
    ∃ result x, Runs False (Action.clearFailedJobs.operation [some 0, none] none, (twoFailedJobs, []))
        (.ret (some result), x) ∧
      (∃ e ∈ x.2, e.2.fate = .unsent) ∧ ∀ id ∈ ["job", "other"], Member x result.operationId id ∧
        (Skipped .clearFailedJobs x result.operationId id ∨
          Handled .clearFailedJobs x result.operationId id) := by
  have hunused : Unused twoFailedJobs := ⟨fun _ => rfl, fun _ => rfl⟩
  have heval : clearingTwo.1 = .returned (some ⟨0, 3, true⟩) := rfl
  have hrun : Runs False (Action.clearFailedJobs.operation [some 0, none] none, (twoFailedJobs, []))
      (.ret (some ⟨0, 3, true⟩), clearingTwo.2) :=
    Prog.run_eval_amid losingZrem (fun _ _ _ => ⟨rfl, rfl⟩) (fun _ _ _ h => h.elim)
      (Prod.ext heval rfl)
  have hread : clearingTwo.2.2[50]? =
      some (.zrangeWithScores 0 "failed_jobs", { twoFailedJobs with drawn := 1 }) := rfl
  have hlost : clearingTwo.2.2[33]?.map (·.2.fate) = some .unsent := rfl
  obtain ⟨e, he, hfate⟩ := Option.map_eq_some_iff.mp hlost
  refine ⟨_, _, hrun, ⟨e, List.mem_of_getElem? he, hfate⟩, fun id hid => ?_⟩
  have hsource : ∀ id ∈ ["job", "other"], id ∈ twoFailedJobs.sources "failed_jobs" := by decide
  have hplain : ∀ id ∈ ["job", "other"], Plain id := by decide
  have hmember : Member clearingTwo.2 0 id :=
    ⟨"failed_jobs", _, List.mem_of_getElem? hread, rfl, hsource id hid⟩
  exact ⟨hmember, (((operation_covers .clearFailedJobs twoFailedJobs hunused [some 0, none]).1 _ _
    hrun).1 _ rfl).2 id hmember (hplain id hid)⟩

end BulkOperationSnapshot

end HorizonNewDawn

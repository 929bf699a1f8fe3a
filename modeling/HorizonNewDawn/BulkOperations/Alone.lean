import HorizonNewDawn.BulkOperations.BulkActions
import HorizonNewDawn.BulkOperations.Coverage
import HorizonNewDawn.Program.Evaluation

/-! # Bulk operations that run alone

An operation that nothing interferes with: every command is answered, and what the repository and the
handlers answer is a matter of their surroundings. The operation completes, and it has called its
handler on every member of the source that is a target, one after the other (`leads_operation`). -/

namespace HorizonNewDawn

open Program

namespace BulkOperationSnapshot

/-- What an operation finds beside its snapshot: the repository, and the handlers, which may throw. -/
structure Surroundings (E : Type) where
  getJobs : E → List String → List (Option Job)
  handle : (h : Handler) → String → E → Option h.Answer × E

variable {E : Type} (surroundings : Surroundings E)

/-- A command that is answered, in its surroundings. -/
def Surroundings.exec : (o : Operation) → Store × E → Reply Operation.Answer o × (Store × E)
  | .getJobs _ ids, x => (some (surroundings.getJobs x.2 ids), x)
  | .handle h _ id, x =>
      let answer := surroundings.handle h id x.2
      (answer.1, (x.1, answer.2))
  | o, x => (some (perform o x.1).1, ((perform o x.1).2, x.2))

/-- The snapshot of an operation, and its surroundings. -/
structure Holding (k : OperationId) (targets : SortedSet String ℚ) (e : E) (x : Store × E) :
    Prop where
  targets : x.1.targets k = targets
  affected : x.1.affected k ≠ none
  surroundings : x.2 = e

variable {surroundings} {k : OperationId} {T : SortedSet String ℚ} {e : E} {x : Store × E}

/-! ## The methods -/

/-- A renewal leaves everything as it is. -/
theorem leads_renew (h : Holding k T e x) :
    Prog.Leads surroundings.exec (renew k) x fun _ y => Holding k T e y := by
  refine Prog.Leads.forEach (I := fun _ y => Holding k T e y) (fun key _ y hy => ?_) h
  exact ⟨(), _, rfl, hy.targets, hy.affected, hy.surroundings⟩

/-- The check finds the state. -/
theorem leads_ensureExists (h : Holding k T e x) :
    Prog.Leads surroundings.exec (ensureExists k) x fun _ y => Holding k T e y := by
  refine Prog.Leads.bind (Q := fun found y => found = true ∧ Holding k T e y)
    ⟨_, _, rfl, Option.isSome_iff_ne_none.mpr h.affected, h.targets, h.affected, h.surroundings⟩ ?_
  rintro found y ⟨rfl, hy⟩
  exact Prog.Leads.ret hy

/-- The page of a snapshot. -/
def targetsOf (T : SortedSet String ℚ) : List String :=
  (T.members.take chunkSize).filter fun id => id ≠ ""

/-- The next chunk is made of the targets that are left. -/
theorem leads_nextChunk (h : Holding k T e x) :
    Prog.Leads surroundings.exec (nextChunk k) x fun ids y =>
      ids = targetsOf T ∧ Holding k T e y := by
  refine (leads_ensureExists h).bind fun _ y hy => ?_
  refine (leads_renew hy).bind fun _ z hz => ?_
  refine Prog.Leads.bind (Q := fun ids y => ids = T.members.take chunkSize ∧ Holding k T e y)
    ⟨_, _, rfl, ?_, hz.targets, hz.affected, hz.surroundings⟩ ?_
  · show ((z.1.targets k).members.drop 0).take (chunkSize - 1 + 1 - 0) = _
    rw [hz.targets]
    rfl
  · rintro ids w ⟨rfl, hw⟩
    exact Prog.Leads.ret ⟨rfl, hw⟩

/-- There is more where targets are left. -/
theorem leads_hasMore (h : Holding k T e x) :
    Prog.Leads surroundings.exec (hasMore k) x fun more y =>
      more = decide (0 < T.card) ∧ Holding k T e y := by
  refine (leads_ensureExists h).bind fun _ y hy => ?_
  refine Prog.Leads.bind (Q := fun card y => card = T.card ∧ Holding k T e y)
    ⟨_, _, rfl, ?_, hy.targets, hy.affected, hy.surroundings⟩ ?_
  · show (y.1.targets k).card = _
    rw [hy.targets]
  · rintro card w ⟨rfl, hw⟩
    exact Prog.Leads.ret ⟨rfl, hw⟩

/-- The total is read without a change. -/
theorem leads_totalAffected (h : Holding k T e x) :
    Prog.Leads surroundings.exec (totalAffected k) x fun _ y => Holding k T e y := by
  refine (leads_ensureExists h).bind fun _ y hy => ?_
  refine Prog.Leads.bind (Q := fun _ y => Holding k T e y)
    ⟨_, _, rfl, hy.targets, hy.affected, hy.surroundings⟩ fun _ z hz => ?_
  exact Prog.Leads.ret hz

/-- A number is added to the state. -/
theorem leads_addAffected (h : Holding k T e x) :
    Prog.Leads surroundings.exec (addAffected k 1) x fun _ y => Holding k T e y := by
  rw [addAffected, if_neg (by decide)]
  refine (leads_ensureExists h).bind fun _ y hy => ?_
  rw [if_neg (by decide)]
  refine Prog.Leads.bind (Q := fun _ y => Holding k T e y)
    ⟨_, _, rfl, hy.targets, ?_, hy.surroundings⟩ fun _ z hz => ?_
  · show Function.update y.1.affected k _ k ≠ none
    rw [Function.update_self]
    exact Option.some_ne_none _
  · exact (leads_renew hz).bind fun _ w hw => Prog.Leads.ret hw

/-- An acknowledged target is removed. -/
theorem leads_acknowledge (h : Holding k T e x) (id : String) :
    Prog.Leads surroundings.exec (acknowledge k [id]) x fun _ y =>
      Holding k (T.eraseAll [id]) e y := by
  rw [acknowledge, if_neg (List.cons_ne_nil _ _)]
  refine (leads_ensureExists h).bind fun _ y hy => ?_
  refine Prog.Leads.bind (Q := fun _ y => Holding k (T.eraseAll [id]) e y)
    ⟨_, _, rfl, ?_, hy.affected, hy.surroundings⟩ fun _ z hz => ?_
  · show Function.update y.1.targets k _ k = _
    rw [Function.update_self, hy.targets]
  · exact leads_renew hz

/-- The end is reached without a change. -/
theorem leads_completing (h : Holding k T e x) :
    Prog.Leads surroundings.exec (completing k) x fun result y =>
      result.operationId = k ∧ result.complete ∧ y.2 = e := by
  refine Prog.Leads.bind (Q := fun _ y => y.2 = e) ?_ fun _ y hy => ?_
  · refine (leads_totalAffected h).bind fun _ y hy => ?_
    refine Prog.Leads.bind (Q := fun _ y => y.2 = e) ⟨_, _, rfl, hy.surroundings⟩ fun _ z hz => ?_
    exact Prog.Leads.ret hz
  · exact Prog.Leads.ret ⟨rfl, rfl, hy⟩

/-- What a chunk leaves: the operation is complete, or its snapshot has become smaller. -/
theorem leads_concluding (h : Holding k T e x) :
    Prog.Leads surroundings.exec (concluding k) x fun result y =>
      result.operationId = k ∧ y.2 = e ∧
        (result.complete ∧ (∀ id, id ∉ T) ∨ result.complete = false ∧ Holding k T e y) := by
  refine (leads_totalAffected h).bind fun _ y hy => ?_
  refine (leads_hasMore hy).bind ?_
  rintro more z ⟨rfl, hz⟩
  by_cases hmore : 0 < T.card
  · rw [decide_eq_true hmore]
    exact Prog.Leads.ret ⟨rfl, hz.surroundings, Or.inr ⟨rfl, hz⟩⟩
  · rw [decide_eq_false hmore]
    refine (leads_completing hz).mono fun result w hw => ⟨hw.1, hw.2.2, Or.inl ⟨hw.2.1, ?_⟩⟩
    rwa [SortedSet.card_pos_iff, not_exists] at hmore

/-- The snapshot of an operation that starts: the members of the source that are no integer-like
keys. -/
theorem leads_createFromSortedSet {sourceKey : String} (hsource : Php.trim sourceKey = sourceKey)
    (hne : sourceKey ≠ "") (hunused : Unused x.1) :
    Prog.Leads surroundings.exec (createFromSortedSet sourceKey) x fun k y =>
      Holding k ((∅ : SortedSet String ℚ).insertAll (pairs (x.1.sources sourceKey).entries))
        x.2 y := by
  rw [createFromSortedSet, hsource, if_neg hne]
  -- The id of the operation, the members and the targets filed so far.
  refine Prog.Leads.bind (Q := fun k y => k = x.1.drawn ∧ y = ({ x.1 with drawn := k + 1 }, x.2))
    ⟨_, _, rfl, rfl, rfl⟩ ?_
  rintro k y ⟨-, rfl⟩
  refine Prog.Leads.bind (Q := fun members y => members = (x.1.sources sourceKey).entries ∧
    y.1.targets k = ∅ ∧ y.2 = x.2) ⟨_, _, rfl, rfl, hunused.targets k, rfl⟩ ?_
  rintro members y ⟨rfl, hempty, he⟩
  rw [Prog.forEach_flatten, List.flatten_arrayChunk]
  refine Prog.Leads.bind (Q := fun _ y => y.1.targets k =
    (∅ : SortedSet String ℚ).insertAll (pairs (x.1.sources sourceKey).entries) ∧ y.2 = x.2)
    (Prog.Leads.mono (Prog.Leads.forEach (I := fun rest y => (∃ filled,
      filled ++ rest = pairs (x.1.sources sourceKey).entries ∧
        y.1.targets k = (∅ : SortedSet String ℚ).insertAll filled) ∧ y.2 = x.2) ?_ ?_) ?_) ?_
  · rintro member rest z ⟨⟨filled, hfilled, htargets⟩, hz⟩
    refine ⟨(), _, rfl, ⟨filled ++ [member], by rw [List.append_assoc]; exact hfilled, ?_⟩, hz⟩
    show Function.update z.1.targets k _ k = _
    rw [Function.update_self, htargets, SortedSet.insertAll_append]
    rfl
  · exact ⟨⟨[], rfl, hempty⟩, he⟩
  · rintro _ z ⟨⟨filled, hfilled, htargets⟩, hz⟩
    rw [List.append_nil] at hfilled
    exact ⟨hfilled ▸ htargets, hz⟩
  · rintro _ z ⟨htargets, hz⟩
    refine Prog.Leads.bind (Q := fun _ w => Holding k ((∅ : SortedSet String ℚ).insertAll
      (pairs (x.1.sources sourceKey).entries)) x.2 w) ⟨(), _, rfl, htargets, ?_, hz⟩ fun _ w hw => ?_
    · show Function.update z.1.affected k _ k ≠ none
      rw [Function.update_self]
      exact Option.some_ne_none _
    · exact (leads_renew hw).bind fun _ v hv => Prog.Leads.ret hv

/-! ## Retrying failed jobs -/

/-- An invariant of the surroundings while failed jobs among `all` are retried: `Q` is known of the
jobs that are done with. A chunk reads its jobs once, when `done₀` were done with. -/
def Progresses (surroundings : Surroundings E) (all : Set String) (Q : Set String → E → Prop) :
    Prop :=
  ∀ {ids : List String} {done₀ done : Set String} {e₀ e : E} {id : String},
    (∀ id ∈ ids, id ∈ all) → Q done₀ e₀ → done₀ ⊆ done → Q done e → id ∈ ids → id ≠ "" →
      if RetryAllFailedJobs.skips none none (surroundings.getJobs e₀ ids) id then
        Q (insert id done) e
      else ∃ retried e', surroundings.handle .handleBulk id e = (some retried, e') ∧
        Q (insert id done) e'

variable {all : Set String} {Q : Set String → E → Prop} {done : Set String}

/-- **One target** is settled and acknowledged. -/
theorem leads_settle {ids : List String} {done₀ : Set String} {e₀ : E} {id : String}
    (hQ : Progresses surroundings all Q) (h : Holding k T e x) (hids : ∀ id ∈ ids, id ∈ all)
    (he₀ : Q done₀ e₀) (hdone : done₀ ⊆ done) (he : Q done e) (hid : id ∈ ids) (hne : id ≠ "") :
    Prog.Leads surroundings.exec
      (RetryAllFailedJobs.settle none none k (surroundings.getJobs e₀ ids) id) x fun _ y =>
        ∃ e', Holding k (T.eraseAll [id]) e' y ∧ Q (insert id done) e' := by
  have hstep := hQ hids he₀ hdone he hid hne
  rw [RetryAllFailedJobs.settle]
  split_ifs at hstep ⊢ with hskips
  · exact (leads_acknowledge h id).mono fun _ y hy => ⟨e, hy, hstep⟩
  · obtain ⟨retried, e', hhandle, he'⟩ := hstep
    refine Prog.Leads.bind (Q := fun r y => r = retried ∧ Holding k T e' y)
      ⟨retried, (x.1, e'), ?_, rfl, h.targets, h.affected, rfl⟩ ?_
    · have hexec : surroundings.exec (.handle .handleBulk k id) x = (some retried, (x.1, e')) := by
        show ((surroundings.handle .handleBulk id x.2).1,
          (x.1, (surroundings.handle .handleBulk id x.2).2)) = _
        rw [h.surroundings, hhandle]
      exact Prog.eval_request hexec
    · rintro r y ⟨rfl, hy⟩
      refine Prog.Leads.bind (Q := fun _ y => Holding k T e' y) ?_ fun _ z hz => ?_
      · rw [Prog.ifThen]
        split_ifs
        · exact (leads_addAffected hy).bind fun _ z hz => Prog.Leads.ret hz
        · exact Prog.Leads.ret hy
      · exact (leads_acknowledge hz id).mono fun _ w hw => ⟨e', hw, he'⟩

/-- A target of the chunk is a target with an id. -/
theorem mem_of_mem_targetsOf {id : String} (hid : id ∈ targetsOf T) : id ∈ T ∧ id ≠ "" := by
  rw [targetsOf, List.mem_filter, decide_eq_true_eq] at hid
  exact ⟨List.mem_of_mem_take hid.1, hid.2⟩

/-- After a chunk the operation is complete, or what is left to do is less. -/
def Chunked (Q : Set String → E → Prop) (k : OperationId) (T : SortedSet String ℚ)
    (done : Set String) (result : BulkOperationChunkResult) (y : Store × E) : Prop :=
  result.operationId = k ∧
    (result.complete ∧ Q (done ∪ {id | id ∈ T ∧ id ≠ ""}) y.2 ∨
      result.complete = false ∧ ∃ T' done' e', Holding k T' e' y ∧ Q done' e' ∧
        (∀ id ∈ T', id ∈ T) ∧ T'.card < T.card ∧ done' ∪ {id | id ∈ T' ∧ id ≠ ""} = done ∪ {id | id ∈ T ∧ id ≠ ""})

/-- **One chunk** is settled, target by target. -/
theorem leads_processChunk (hQ : Progresses surroundings all Q) (h : Holding k T e x)
    (hT : ∀ id ∈ T, id ∈ all) (he : Q done e) :
    Prog.Leads surroundings.exec (RetryAllFailedJobs.processChunk none none (some k)) x
      (Chunked Q k T done) := by
  rw [RetryAllFailedJobs.processChunk, operationIdOf, Prog.ret_bind]
  have hids' : ∀ id ∈ targetsOf T, id ∈ all := fun id hid => hT id (mem_of_mem_targetsOf hid).1
  refine (leads_nextChunk h).bind ?_
  rintro ids y ⟨rfl, hy⟩
  split_ifs with hempty
  · -- a page without targets holds the empty member at most
    refine (leads_completing hy).mono fun result z hz => ⟨hz.1, Or.inl ⟨hz.2.1, ?_⟩⟩
    have hnone : {id | id ∈ T ∧ id ≠ ""} = ∅ := by
      have hpage := @empty_of_page (y.1, []) k (by rw [page, hy.targets]; exact hempty)
      rw [Set.eq_empty_iff_forall_notMem]
      rintro id ⟨hid, hne⟩
      exact hne (hpage id (by rw [hy.targets]; exact hid))
    rw [hnone, Set.union_empty, hz.2.2]
    exact he
  · -- the jobs of the page are looked up, and settled one after the other
    refine Prog.Leads.bind (Q := fun jobs z => jobs = surroundings.getJobs e (targetsOf T) ∧
      Holding k T e z) ⟨_, _, rfl, by rw [hy.surroundings], hy⟩ ?_
    rintro jobs z ⟨rfl, hz⟩
    refine Prog.Leads.bind (Q := fun _ w => ∃ e', Holding k (T.eraseAll (targetsOf T)) e' w ∧
      Q (done ∪ {id | id ∈ targetsOf T}) e') (Prog.Leads.tryCatch (Prog.Leads.mono
        (Prog.Leads.forEach (I := fun rest w => ∃ settled e', settled ++ rest = targetsOf T ∧
          Holding k (T.eraseAll settled) e' w ∧ Q (done ∪ {id | id ∈ settled}) e') ?_ ?_) ?_)) ?_
    · -- one target more is settled
      rintro id rest w ⟨settled, e', hids, hw, he'⟩
      have hid : id ∈ targetsOf T := by
        rw [← hids]
        exact List.mem_append_right _ List.mem_cons_self
      refine (leads_settle hQ hw hids' he Set.subset_union_left he' hid
        (mem_of_mem_targetsOf hid).2).mono ?_
      rintro _ v ⟨e'', hv, he''⟩
      refine ⟨settled ++ [id], e'', by rw [List.append_assoc]; exact hids, ?_, ?_⟩
      · rw [SortedSet.eraseAll_append]
        exact hv
      · have hset : insert id (done ∪ {id | id ∈ settled}) =
            done ∪ {id' | id' ∈ settled ++ [id]} := by
          ext id'
          simp only [Set.mem_insert_iff, Set.mem_union, Set.mem_ofPred_eq, List.mem_append,
            List.mem_singleton]
          tauto
        rw [← hset]
        exact he''
    · refine ⟨[], e, rfl, ?_, ?_⟩
      · rw [SortedSet.eraseAll_nil]
        exact hz
      · simpa using he
    · rintro _ w ⟨settled, e', hids, hw, he'⟩
      rw [List.append_nil] at hids
      subst hids
      exact ⟨e', hw, he'⟩
    · -- what the page leaves to the next chunk
      rintro _ w ⟨e', hw, he'⟩
      have hunion : done ∪ {id | id ∈ targetsOf T} ∪ {id | id ∈ T.eraseAll (targetsOf T) ∧ id ≠ ""} =
          done ∪ {id | id ∈ T ∧ id ≠ ""} := by
        ext id
        simp only [Set.mem_union, Set.mem_ofPred_eq, SortedSet.mem_eraseAll]
        constructor
        · rintro ((hid | hid) | ⟨⟨-, hid⟩, hne⟩)
          · exact Or.inl hid
          · exact Or.inr (mem_of_mem_targetsOf hid)
          · exact Or.inr ⟨hid, hne⟩
        · rintro (hid | ⟨hid, hne⟩)
          · exact Or.inl (Or.inl hid)
          · by_cases hmem : id ∈ targetsOf T
            · exact Or.inl (Or.inr hmem)
            · exact Or.inr ⟨⟨hmem, hid⟩, hne⟩
      refine (leads_concluding hw).mono ?_
      rintro result v ⟨hk, hv, ⟨hcomplete, hnone⟩ | ⟨hcomplete, hv'⟩⟩
      · refine ⟨hk, Or.inl ⟨hcomplete, ?_⟩⟩
        have hrest : {id | id ∈ T.eraseAll (targetsOf T) ∧ id ≠ ""} = ∅ :=
          Set.eq_empty_iff_forall_notMem.mpr fun id hid => hnone id hid.1
        rw [hrest, Set.union_empty] at hunion
        rw [← hunion, hv]
        exact he'
      · refine ⟨hk, Or.inr ⟨hcomplete, _, _, e', hv', he',
          fun id hid => (SortedSet.mem_eraseAll.mp hid).2, ?_, hunion⟩⟩
        obtain ⟨id, hid⟩ := List.exists_mem_of_ne_nil _ hempty
        exact SortedSet.card_eraseAll_lt hid (mem_of_mem_targetsOf hid).1

/-- An execution of a chunk, where nothing is thrown. -/
theorem leads_execution {action : Action} {operationId : Option OperationId}
    {R : BulkOperationChunkResult → Store × E → Prop}
    (h : Prog.Leads surroundings.exec (action.processChunk operationId) x R) :
    Prog.Leads surroundings.exec (action.execution operationId) x fun r y =>
      ∃ result, r = some result ∧ R result y := by
  rw [Action.execution]
  exact Prog.Leads.tryCatch (h.bind fun result y hy => Prog.Leads.ret ⟨result, rfl, hy⟩)

/-- An operation that has its snapshot. -/
theorem leads_operation_some (hQ : Progresses surroundings all Q) {schedule : List (Option OperationId)}
    (hschedule : T.card < schedule.length) (h : Holding k T e x) (hT : ∀ id ∈ T, id ∈ all)
    (he : Q done e) :
    Prog.Leads surroundings.exec
      ((Action.retryAllFailedJobs none none).operation schedule (some k)) x fun r y =>
        ∃ result, r = some result ∧ result.complete ∧ Q (done ∪ {id | id ∈ T ∧ id ≠ ""}) y.2 := by
  induction schedule generalizing T e x done with
  | nil => exact absurd hschedule (Nat.not_lt_zero _)
  | cons again schedule ih =>
      rw [List.length_cons] at hschedule
      rw [Action.operation]
      have hchunk : Prog.Leads surroundings.exec
          ((Action.retryAllFailedJobs none none).processChunk (some k)) x (Chunked Q k T done) :=
        leads_processChunk hQ h hT he
      refine (leads_execution hchunk).bind ?_
      rintro _ y ⟨result, rfl, hk,
        ⟨hcomplete, hdone⟩ | ⟨hcomplete, T', done', e', hy, he', hsub, hcard, hset⟩⟩
      · dsimp only
        rw [if_pos hcomplete]
        exact Prog.Leads.ret ⟨result, rfl, hcomplete, hdone⟩
      · dsimp only
        rw [hcomplete, if_neg Bool.false_ne_true, hk, ← hset]
        exact ih (by omega) hy (fun id hid => hT id (hsub id hid)) he'

/-- **An operation that runs alone** completes, and is then done with the members of the source that
are neither empty nor integer-like. -/
theorem leads_operation
    (hQ : Progresses surroundings {id | id ∈ x.1.sources "failed_jobs"} Q) {schedule : List (Option OperationId)}
    (hschedule : (x.1.sources "failed_jobs").card < schedule.length) (hunused : Unused x.1)
    (he : Q ∅ x.2) :
    Prog.Leads surroundings.exec ((Action.retryAllFailedJobs none none).operation schedule none) x
      fun r y => ∃ result, r = some result ∧ result.complete ∧
        Q {id | id ∈ x.1.sources "failed_jobs" ∧ Plain id} y.2 := by
  -- what the snapshot takes over from the source
  have hset : {id | id ∈ (∅ : SortedSet String ℚ).insertAll
      (pairs (x.1.sources "failed_jobs").entries) ∧ id ≠ ""} =
        {id | id ∈ x.1.sources "failed_jobs" ∧ Plain id} := by
    ext id
    have hkept : id ∈ (pairs (x.1.sources "failed_jobs").entries).map Prod.fst ↔ _ :=
      mem_keptOf (s := x.1)
    simp only [Set.mem_ofPred_eq, SortedSet.mem_insertAll, SortedSet.not_mem_empty, or_false, hkept,
      Plain]
    tauto
  have hle : ((∅ : SortedSet String ℚ).insertAll
      (pairs (x.1.sources "failed_jobs").entries)).card ≤ (x.1.sources "failed_jobs").card :=
    SortedSet.card_insertAll_le.trans (List.length_filter_le _ _)
  have hT : ∀ id ∈ (∅ : SortedSet String ℚ).insertAll (pairs (x.1.sources "failed_jobs").entries),
      id ∈ x.1.sources "failed_jobs" := by
    intro id hid
    rcases SortedSet.mem_insertAll.mp hid with hid | hid
    · exact ((mem_keptOf (s := x.1)).mp hid).1
    · exact absurd hid SortedSet.not_mem_empty
  cases schedule with
  | nil => exact absurd hschedule (Nat.not_lt_zero _)
  | cons again schedule =>
      rw [List.length_cons] at hschedule
      -- the first execution creates the snapshot and settles one chunk
      have hchunk : Prog.Leads surroundings.exec
          ((Action.retryAllFailedJobs none none).processChunk none) x fun result y =>
            ∃ k, Chunked Q k ((∅ : SortedSet String ℚ).insertAll
              (pairs (x.1.sources "failed_jobs").entries)) ∅ result y := by
        rw [processChunk_none]
        refine (leads_createFromSortedSet (by decide) (by decide) hunused).bind fun k y hy => ?_
        exact (leads_processChunk hQ hy hT he).mono fun result z hz => ⟨k, hz⟩
      rw [Action.operation, ← hset, ← Set.empty_union {id | _ ∧ id ≠ ""}]
      refine (leads_execution hchunk).bind ?_
      rintro _ y ⟨result, rfl, k, hk,
        ⟨hcomplete, hdone⟩ | ⟨hcomplete, T', done', e', hy, he', hsub, hcard, h'⟩⟩
      · dsimp only
        rw [if_pos hcomplete]
        exact Prog.Leads.ret ⟨result, rfl, hcomplete, hdone⟩
      · -- fewer targets are left than executions
        dsimp only
        rw [hcomplete, if_neg Bool.false_ne_true, hk, ← h']
        exact leads_operation_some hQ (by omega) hy (fun id hid => hT id (hsub id hid)) he'

end BulkOperationSnapshot

end HorizonNewDawn

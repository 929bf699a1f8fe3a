import HorizonNewDawn.BulkOperations.Coverage

/-! # The count of affected jobs

The number of affected jobs is counted in the hash of an operation by a command of its own, apart
from the mutation and from the acknowledgement. A retry is counted after it has been dispatched and
before it is acknowledged, a cleared job likewise, and the cancellations of a chunk at its end. What a
failure does to the count depends on where it falls: a mutation that has taken effect may never be
counted, and a cleared job may be counted twice.

`affected_exact` says when the count that is reported on completion is right. -/

namespace HorizonNewDawn

open Program

namespace BulkOperationSnapshot

/-! ## Accounts -/

/-- The number of entries to be counted since the last one that settles them, the latest first. -/
def since {ε : Type} (settles counts : ε → Bool) : List ε → ℕ
  | [] => 0
  | e :: l =>
      if settles e then 0 else if counts e then since settles counts l + 1 else
        since settles counts l

/-- The job of an operation that a call has had an effect on. -/
def effect (k : OperationId) : Operation × Store → Option String
  | (.handle h k' id, s) =>
      if k' = k ∧ h.mutates (s.answers h) = true ∧ s.fate ≠ .unsent then some id else none
  | _ => none

/-- A count that has been carried out. -/
def counts (k : OperationId) : Operation × Store → Bool
  | (.hincrby k' _, s) => k' = k ∧ s.fate ≠ .unsent
  | _ => false

/-- An acknowledgement that has been carried out. -/
def acknowledges (k : OperationId) : Operation × Store → Bool
  | (.zrem k' _, s) => k' = k ∧ s.fate ≠ .unsent
  | _ => false

/-- The jobs of an operation a mutation has taken effect on. -/
def mutated (k : OperationId) (x : Traced) : List String := (x.2.filterMap (effect k)).dedup

/-- The mutations that have taken effect since the last count. -/
def uncounted (k : OperationId) (x : Traced) : ℕ :=
  since (counts k) (fun e => (effect k e).isSome) x.2

/-- The counts since the last acknowledgement. -/
def unacknowledged (k : OperationId) (x : Traced) : ℕ := since (acknowledges k) (counts k) x.2

/-- A call of a handler. -/
def Operation.IsCall : Operation → Prop
  | .handle _ _ _ => True
  | _ => False

/-- The circumstances under which a retry or a cancellation counts right: a mutation takes effect on
a job once, and not where the call fails; and no command fails while a mutation is not counted. -/
def CountsEffects (o : Operation) (x : Traced) : Prop :=
  (∀ k id, effect k (o, x.1) = some id → x.1.fate = .answered ∧ id ∉ mutated k x) ∧
  (x.1.fate ≠ .answered → ¬o.IsCall → ∀ k, uncounted k (traced o x).2 = 0)

/-- The circumstances under which a clearance counts right: one of the two deletions of a job has
taken effect when both have returned; and no command fails while a count is not acknowledged. -/
def CountsDeletions (o : Operation) (x : Traced) : Prop :=
  (∀ k id, o = .handle .forget k id → x.1.fate = .answered →
    x.1.answers .forget = true ∨ id ∈ mutated k x) ∧
  (x.1.fate ≠ .answered → ¬o.IsCall → ∀ k, unacknowledged k (traced o x).2 = 0)

/-- The circumstances under which an action counts right. -/
def Action.CountsRight : Action → Operation → Traced → Prop
  | .clearFailedJobs => CountsDeletions
  | _ => CountsEffects

variable {action : Action} {x y z : Traced} {k : OperationId} {id : String} {o : Operation}
  {s : Store}

/-! ## How the accounts change -/

/-- A command that is no call of a collaborator has no effect on a job. -/
theorem effect_eq_none (ho : ¬o.IsCall) : effect k (o, s) = none := by
  cases o <;> first | rfl | exact absurd trivial ho

/-- A command that calls no handler leaves the mutated jobs alone. -/
theorem mutated_cons (ho : effect k (o, x.1) = none) : mutated k (s, (o, x.1) :: x.2) =
    mutated k x := by
  rw [mutated, List.filterMap_cons, ho]
  rfl

/-- An entry that neither is an effect nor counts one leaves the uncounted effects as they are. -/
theorem uncounted_cons (ho : effect k (o, x.1) = none) (hcounts : counts k (o, x.1) = false) :
    uncounted k (s, (o, x.1) :: x.2) = uncounted k x := by
  simp [uncounted, since, ho, hcounts]

/-- An entry that neither counts nor acknowledges leaves what is unacknowledged as it is. -/
theorem unacknowledged_cons (hcounts : counts k (o, x.1) = false)
    (hack : acknowledges k (o, x.1) = false) :
    unacknowledged k (s, (o, x.1) :: x.2) = unacknowledged k x := by
  simp [unacknowledged, since, hcounts, hack]

/-- A mutation that takes effect on a job for the first time. -/
theorem mutated_effect (ho : effect k (o, x.1) = some id) (hid : id ∉ mutated k x) :
    (mutated k (s, (o, x.1) :: x.2)).length = (mutated k x).length + 1 := by
  rw [mutated, List.filterMap_cons, ho]
  simp only
  rw [List.dedup_cons_of_notMem (fun h => hid (List.mem_dedup.mpr h)), List.length_cons]
  rfl

/-- Neutral commands change no account. -/
theorem Later.accounts (h : Later x y) :
    mutated k y = mutated k x ∧ uncounted k y = uncounted k x ∧
      unacknowledged k y = unacknowledged k x := by
  obtain ⟨l, hl, hln⟩ := h.history
  rw [mutated, mutated, uncounted, uncounted, unacknowledged, unacknowledged, hl]
  clear hl
  induction l with
  | nil => exact ⟨rfl, rfl, rfl⟩
  | cons e l ih =>
      obtain ⟨o, s⟩ := e
      have ho := hln (o, s) List.mem_cons_self
      have heffect : effect k (o, s) = none := by
        cases o <;> first | rfl | exact ho.elim
      have hcounts : counts k (o, s) = false := by
        cases o <;> first | rfl | exact ho.elim
      have hack : acknowledges k (o, s) = false := by
        cases o <;> first | rfl | exact ho.elim
      obtain ⟨h₁, h₂, h₃⟩ := ih fun e he => hln e (List.mem_cons_of_mem _ he)
      rw [List.cons_append, List.filterMap_cons, heffect]
      refine ⟨h₁, ?_, ?_⟩
      · rw [since, if_neg (by simp [hcounts]), if_neg (by simp [heffect])]
        exact h₂
      · rw [since, if_neg (by simp [hack]), if_neg (by simp [hcounts])]
        exact h₃

/-- A command that has not been carried out changes no account. -/
theorem accounts_unsent (hfate : x.1.fate = .unsent) :
    mutated k (s, (o, x.1) :: x.2) = mutated k x ∧ uncounted k (s, (o, x.1) :: x.2) = uncounted k x ∧
      unacknowledged k (s, (o, x.1) :: x.2) = unacknowledged k x := by
  have heffect : effect k (o, x.1) = none := by
    cases o <;> first | rfl | simp [effect, hfate]
  have hcounts : counts k (o, x.1) = false := by
    cases o <;> first | rfl | simp [counts, hfate]
  have hack : acknowledges k (o, x.1) = false := by
    cases o <;> first | rfl | simp [acknowledges, hfate]
  exact ⟨mutated_cons heffect, uncounted_cons heffect hcounts, unacknowledged_cons hcounts hack⟩

/-! ## Operations that have not begun -/

/-- An operation nothing has been done for yet. -/
structure Untouched (k : OperationId) (x : Traced) : Prop where
  drawn : k < x.1.drawn
  mutated : mutated k x = []
  uncounted : uncounted k x = 0
  unacknowledged : unacknowledged k x = 0

/-- Nothing has been done for an id that has not been drawn. -/
def Fresh (x : Traced) : Prop :=
  ∀ k, x.1.drawn ≤ k → x.1.affected k = none ∧ mutated k x = [] ∧ uncounted k x = 0 ∧
    unacknowledged k x = 0

/-- A command that changes the count or an account of an operation. -/
def Operation.Touches (k : OperationId) : Operation → Prop
  | .hmset k' => k' = k
  | .hincrby k' _ => k' = k
  | .handle _ k' _ => k' = k
  | .zrem k' _ => k' = k
  | _ => False

/-- A command that does not concern an operation. -/
theorem accounts_of_not_touches (ho : ¬o.Touches k) :
    effect k (o, s) = none ∧ counts k (o, s) = false ∧ acknowledges k (o, s) = false := by
  cases o with
  | handle h k' id => exact ⟨if_neg fun hcond => ho hcond.1, rfl, rfl⟩
  | hincrby k' n => exact ⟨rfl, decide_eq_false fun hcond => ho hcond.1, rfl⟩
  | zrem k' ids => exact ⟨rfl, rfl, decide_eq_false fun hcond => ho hcond.1⟩
  | _ => exact ⟨rfl, rfl, rfl⟩

/-- What a command leaves of ids that have not been drawn. -/
theorem perform_fresh (ho : ¬o.Touches k) (hnone : s.affected k = none) :
    s.drawn ≤ (perform o s).2.drawn ∧ (perform o s).2.affected k = none := by
  cases o with
  | randomId => exact ⟨Nat.le_succ _, hnone⟩
  | hmset k' =>
      have hne : k ≠ k' := fun heq => ho heq.symm
      simp only [perform, Function.update_of_ne hne]
      exact ⟨Nat.le_refl _, hnone⟩
  | hincrby k' n =>
      have hne : k ≠ k' := fun heq => ho heq.symm
      simp only [perform, Function.update_of_ne hne]
      exact ⟨Nat.le_refl _, hnone⟩
  | del ks =>
      simp only [perform, hnone, ite_self]
      exact ⟨Nat.le_refl _, trivial⟩
  | _ => exact ⟨Nat.le_refl _, hnone⟩

/-- Commands concern drawn ids. -/
theorem Fresh.traced (hx : Fresh x) (ho : ∀ k, o.Touches k → k < x.1.drawn) :
    Fresh (traced o x).2 := by
  have hcons : ∀ s' : Store, (∀ k, ¬o.Touches k → x.1.affected k = none →
      x.1.drawn ≤ s'.drawn ∧ s'.affected k = none) → x.1.drawn ≤ s'.drawn →
      Fresh (s', (o, x.1) :: x.2) := by
    intro s' hs' hdrawn k hk
    have hk' : x.1.drawn ≤ k := hdrawn.trans hk
    have htouches : ¬o.Touches k := fun h => absurd (ho k h) (Nat.not_lt.mpr hk')
    obtain ⟨hnone, hm, hu, ha⟩ := hx k hk'
    obtain ⟨heffect, hcounts, hack⟩ := accounts_of_not_touches (s := x.1) htouches
    exact ⟨(hs' k htouches hnone).2, (mutated_cons heffect).trans hm,
      (uncounted_cons heffect hcounts).trans hu, (unacknowledged_cons hcounts hack).trans ha⟩
  have hperform := hcons (perform o x.1).2 (fun k h hn => perform_fresh h hn) (by
    cases o with
    | randomId => exact Nat.le_succ _
    | _ => exact Nat.le_refl _)
  simp only [BulkOperationSnapshot.traced, recording, exec, underFate]
  cases x.1.fate with
  | answered => exact hperform
  | unsent => exact hcons x.1 (fun _ _ h => ⟨Nat.le_refl _, h⟩) (Nat.le_refl _)
  | unanswered => exact hperform

/-- Fresh ids stay fresh. -/
theorem Fresh.later (hx : Fresh x) (h : Later x y) : Fresh y := by
  intro k hk
  obtain ⟨hm, hu, ha⟩ := h.accounts (k := k)
  rw [h.drawn] at hk
  rw [h.affected, hm, hu, ha]
  exact hx k hk

/-- A count belongs to an id that has been drawn. -/
theorem Fresh.drawn (hx : Fresh x) (hk : x.1.affected k ≠ none) : k < x.1.drawn := by
  by_contra hle
  exact hk (hx k (Nat.not_lt.mp hle)).1

/-! ## Retries and cancellations -/

/-- The counts, and what is yet to be counted, are the mutations that have taken effect. -/
def Balances (x : Traced) : Prop :=
  ∀ k n, x.1.affected k = some n → n + uncounted k x = (mutated k x).length

/-- When a retry or a cancellation may give a command. -/
def MayBalance : Operation → Traced → Prop
  | .hmset k, x => Untouched k x
  | .hincrby k n, x => k < x.1.drawn ∧ x.1.affected k ≠ none ∧ n = uncounted k x
  | .handle _ k _, x => k < x.1.drawn
  | .zrem k _, x => k < x.1.drawn
  | _, _ => True

/-- A balanced operation touches only ids that have been drawn. -/
theorem MayBalance.touches (h : MayBalance o x) (k : OperationId) (ho : o.Touches k) :
    k < x.1.drawn := by
  cases o with
  | hmset k' => exact ho ▸ h.drawn
  | hincrby k' n => exact ho ▸ h.1
  | handle handler k' id => exact ho ▸ h
  | zrem k' ids => exact ho ▸ h
  | _ => exact ho.elim

/-- A command that changes neither a counter nor an account. -/
theorem Balances.same (hx : Balances x) (hmutated : ∀ k, mutated k y = mutated k x)
    (huncounted : ∀ k, uncounted k y = uncounted k x)
    (haffected : ∀ k, y.1.affected k = x.1.affected k ∨ y.1.affected k = none) : Balances y := by
  intro k n hn
  rw [hmutated, huncounted]
  refine hx k n ?_
  rcases haffected k with h | h
  · rwa [h] at hn
  · rw [h] at hn
    exact nomatch hn

/-- A balance lasts. -/
theorem Balances.later (hx : Balances x) (h : Later x y) : Balances y :=
  hx.same (fun _ => h.accounts.1) (fun _ => h.accounts.2.1) fun k => Or.inl (by rw [h.affected])

/-- A call of a handler. -/
theorem Balances.handle {h : Handler} {k' : OperationId} (hx : Balances x)
    (hcounts : CountsEffects (.handle h k' id) x) :
    Balances (x.1, (.handle h k' id, x.1) :: x.2) := by
  intro k n hn
  have hbalance := hx k n hn
  cases heffect : effect k (.handle h k' id, x.1) with
  | none =>
      rw [mutated_cons heffect, uncounted_cons heffect rfl]
      exact hbalance
  | some id' =>
      have hnew := (hcounts.1 k id' heffect).2
      have huncounted : uncounted k (x.1, (.handle h k' id, x.1) :: x.2) = uncounted k x + 1 := by
        simp [uncounted, since, heffect, counts]
      rw [mutated_effect heffect hnew, huncounted]
      push_cast
      omega

/-- Counting what is to be counted. -/
theorem Balances.hincrby {k' : OperationId} {n : ℤ} (hx : Balances x) (hfate : x.1.fate ≠ .unsent)
    (hmay : MayBalance (.hincrby k' n) x) :
    Balances ((perform (.hincrby k' n) x.1).2, (.hincrby k' n, x.1) :: x.2) := by
  obtain ⟨-, hsome, rfl⟩ := hmay
  obtain ⟨m, hm⟩ := Option.ne_none_iff_exists'.mp hsome
  intro k n hn
  rw [mutated_cons rfl]
  by_cases hne : k = k'
  · subst hne
    simp only [BulkOperationSnapshot.perform, Function.update_self, Option.some.injEq, hm,
      Option.getD_some] at hn
    have hself : uncounted k ((perform (.hincrby k (uncounted k x)) x.1).2,
        (.hincrby k (uncounted k x), x.1) :: x.2) = 0 := by
      simp [uncounted, since, counts, hfate]
    have hbalance := hx k m hm
    rw [hself, ← hn]
    push_cast
    omega
  · simp only [BulkOperationSnapshot.perform, Function.update_of_ne hne] at hn
    rw [uncounted_cons rfl (by simp [counts, Ne.symm hne])]
    exact hx k n hn

/-- Starting a count. -/
theorem Balances.hmset {k' : OperationId} (hx : Balances x) (hmay : Untouched k' x) :
    Balances ((perform (.hmset k') x.1).2, (.hmset k', x.1) :: x.2) := by
  intro k n hn
  rw [mutated_cons rfl, uncounted_cons rfl rfl]
  by_cases hne : k = k'
  · subst hne
    simp only [BulkOperationSnapshot.perform, Function.update_self, Option.some.injEq] at hn
    rw [hmay.mutated, hmay.uncounted, ← hn]
    rfl
  · simp only [BulkOperationSnapshot.perform, Function.update_of_ne hne] at hn
    exact hx k n hn

/-- **Every command keeps the balance** under the circumstances that count right. -/
theorem Balances.traced (hx : Balances x) (hmay : MayBalance o x) (hcounts : CountsEffects o x) :
    Balances (traced o x).2 := by
  have hperform : x.1.fate ≠ .unsent → Balances ((perform o x.1).2, (o, x.1) :: x.2) := by
    intro hfate
    cases o with
    | handle h k' id => exact hx.handle hcounts
    | hincrby k' n => exact hx.hincrby hfate hmay
    | hmset k' => exact hx.hmset hmay
    | del ks =>
        refine hx.same (fun _ => mutated_cons rfl) (fun _ => uncounted_cons rfl rfl) fun k => ?_
        simp only [BulkOperationSnapshot.perform]
        split
        · exact Or.inr rfl
        · exact Or.inl rfl
    | _ =>
        exact hx.same (fun _ => mutated_cons rfl) (fun _ => uncounted_cons rfl rfl)
          fun _ => Or.inl rfl
  simp only [BulkOperationSnapshot.traced, recording, exec, underFate]
  cases hfate : x.1.fate with
  | answered => exact hperform (by simp [hfate])
  | unsent =>
      exact hx.same (fun _ => (accounts_unsent hfate).1) (fun _ => (accounts_unsent hfate).2.1)
        fun _ => Or.inl rfl
  | unanswered => exact hperform (by simp [hfate])

/-! ## Keeping books

What the accounts of the actions have in common: an invariant of all accounts, the number of entries
of an operation that are still to be settled, and what the two say about the count when nothing is
left. -/

/-- The world only lets time go on. -/
theorem World.later (h : World x y) : Later x y :=
  (discipline_admits .clearFailedJobs True).rely [] x y h

/-- The commands of a constructor. -/
def Creates (k : OperationId) : Operation → Prop
  | .zrangeWithScores k' _ => k' = k
  | .zadd k' _ _ => k' = k
  | .hmset k' => k' = k
  | .expire _ => True
  | _ => False

/-- An account of mutations under the circumstances that a discipline assumes. -/
structure Bookkeeping (D : Discipline Operation Empty Traced) where
  /-- The invariant. -/
  base : Traced → Prop
  /-- What is still to be settled. -/
  pending : OperationId → Traced → ℕ
  admits : Admits D
  base_later {x y : Traced} : base x → Later x y → base y
  pending_later {k : OperationId} {x y : Traced} : Later x y → pending k y = pending k x
  /-- Permitted commands keep the invariant. -/
  traced {o : Operation} {x : Traced} : base x → D.ok [] o x → D.assume [] o x → base (traced o x).2
  /-- The count is right where nothing is to be settled and no target is left. -/
  exact {k : OperationId} {x : Traced} : base x → pending k x = 0 →
    (∀ id ∈ x.1.targets k, id = "") → ∀ n, x.1.affected k = some n → n = (mutated k x).length
  /-- Deleting the keys of an operation. -/
  del_ok {k : OperationId} {x : Traced} : D.ok [] (.del (keys k)) x
  /-- Commands of a constructor, and the last one of an operation, settle nothing. -/
  pending_traced {k : OperationId} (k' : OperationId) (o : Operation) (x : Traced) :
    Creates k' o ∨ o = .randomId ∨ o = .del (keys k') →
      pending k (BulkOperationSnapshot.traced o x).2 = pending k x
  /-- Creating an operation. -/
  draw_ok {x : Traced} : D.ok [] .randomId x
  create_ok {k : OperationId} {o : Operation} {x : Traced} : Untouched k x → Creates k o →
    D.ok [] o x
  fresh {k : OperationId} {x : Traced} : base x → x.1.drawn ≤ k →
    mutated k x = [] ∧ uncounted k x = 0 ∧ unacknowledged k x = 0

/-- A constructor touches no account. -/
theorem Untouched.traced_creates (hx : Untouched k x) (ho : Creates k o) :
    Untouched k (BulkOperationSnapshot.traced o x).2 := by
  have hcall : ¬o.IsCall := by
    cases o <;> first | exact id | exact ho.elim
  have hcounts : counts k (o, x.1) = false := by
    cases o <;> first | rfl | exact ho.elim
  have hack : acknowledges k (o, x.1) = false := by
    cases o <;> first | rfl | exact ho.elim
  have hdrawn : (BulkOperationSnapshot.traced o x).2.1.drawn = x.1.drawn := by
    simp only [BulkOperationSnapshot.traced, recording, exec, underFate]
    cases x.1.fate <;> cases o <;> first | rfl | exact ho.elim
  constructor
  · rw [hdrawn]
    exact hx.drawn
  · exact (mutated_cons (effect_eq_none hcall)).trans hx.mutated
  · exact (uncounted_cons (effect_eq_none hcall) hcounts).trans hx.uncounted
  · exact (unacknowledged_cons hcounts hack).trans hx.unacknowledged

/-- What is untouched stays untouched while time goes on. -/
theorem Untouched.later (hx : Untouched k x) (h : Later x y) : Untouched k y := by
  obtain ⟨hm, hu, hn⟩ := h.accounts (k := k)
  exact ⟨h.drawn ▸ hx.drawn, hm.trans hx.mutated, hu.trans hx.uncounted, hn.trans hx.unacknowledged⟩

/-- A command obeys what permits it. -/
theorem obeys_request {e : BulkOperationFailure} {P : List Empty → Operation → Prop} (h : P [] o) :
    Obeys P (fun _ _ => True) (Prog.request e o : BulkProgram o.Answer) fun _ => True := by
  refine ⟨h, fun x _ => ?_⟩
  cases x with
  | some x => trivial
  | none => trivial

/-- A constructor gives its own commands only. -/
theorem obeys_creating (k : OperationId) (source : String) :
    Obeys (fun _ o => Creates k o) (fun _ _ => True)
      ((request (.zrangeWithScores k source) : BulkProgram (List (String × ℚ))) >>= fun members =>
        (Prog.forEach ((pairs members).arrayChunk chunkSize) fun chunk =>
          Prog.forEach chunk fun e => (request (.zadd k e.2 e.1) : BulkProgram Unit)) >>= fun _ =>
        initializeMeta k >>= fun _ => renew k >>= fun _ => (.ret k : BulkProgram OperationId))
      fun k' => k' = k := by
  refine Obeys.bind (obeys_request rfl) fun members _ => ?_
  refine Obeys.bind (Obeys.forEach fun chunk _ => Obeys.forEach fun e _ => obeys_request rfl)
    fun _ _ => ?_
  refine Obeys.bind (obeys_request rfl) fun _ _ => ?_
  exact Obeys.bind (Obeys.forEach fun key _ => obeys_request trivial) fun _ _ => rfl

namespace Bookkeeping

variable {D : Discipline Operation Empty Traced} (B : Bookkeeping D) {action : Action}

/-- Nothing is to be settled for any operation. -/
def Sound (x : Traced) : Prop := B.base x ∧ ∀ k, B.pending k x = 0

/-- What an execution that returns leaves behind. -/
def Reported (k : OperationId) (result : BulkOperationChunkResult) (z : Traced) : Prop :=
  result.operationId = k ∧ B.Sound z ∧
    (result.complete = true → result.totalAffected = (BulkOperationSnapshot.mutated k z).length)

variable {B}

/-- The books stay sound while time goes on. -/
theorem Sound.later (hx : B.Sound x) (h : Later x y) : B.Sound y :=
  ⟨B.base_later hx.1 h, fun k => (B.pending_later h).trans (hx.2 k)⟩

/-- Deleting the keys of an operation leaves the books sound. -/
theorem Sound.del (hx : B.Sound x) (ha : D.assume [] (.del (keys k)) x) :
    B.Sound (BulkOperationSnapshot.traced (.del (keys k)) x).2 :=
  ⟨B.traced hx.1 B.del_ok ha, fun k' => (B.pending_traced k _ _ (Or.inr (Or.inr rfl))).trans (hx.2 k')⟩

/-- An operation that is aborted leaves the books sound. -/
theorem Sound.aborts (hx : B.Sound x) (h : Aborts D k x z) : B.Sound z := hx.later h.1

/-- The books are sound after the keys have been deleted or not. -/
theorem Sound.tried_del (hx : B.Sound x) (h : Tried D (.del (keys k)) x z) : B.Sound z := by
  obtain ⟨y, hxy, ha, hyz, -⟩ := h
  exact ((hx.later hxy).del ha).later hyz

/-- Deleting the keys mutates nothing. -/
theorem Sound.wrote_del (hx : B.Sound x) (h : Wrote D (.del (keys k)) x () z) :
    B.Sound z ∧ mutated k z = mutated k x := by
  obtain ⟨y, hxy, ⟨hfate, ha⟩, -, hyz⟩ := h
  have hdel := (hx.later hxy).del ha
  rw [traced_of_answered hfate] at hdel
  exact ⟨hdel.later hyz, hyz.accounts.1.trans ((mutated_cons rfl).trans hxy.accounts.1)⟩

/-- The count, where no target is left. -/
theorem Sound.total (hx : B.Sound x) (hnone : ∀ id ∈ x.1.targets k, id = "") {n : ℤ}
    (hn : x.1.affected k = some n) : max 0 n = (mutated k x).length := by
  rw [B.exact hx.1 (hx.2 k) hnone n hn]
  exact max_eq_right (Int.natCast_nonneg _)

/-- A completed operation without targets has reported what it did. -/
theorem reported_completing (hx : B.Sound x) (hnone : ∀ id ∈ x.1.targets k, id = "") :
    wp BulkOperationSnapshot.traced D (completing k) (B.Reported k) (fun _ => B.Sound) x := by
  refine wp_bind_of (wp_mono (fun _ _ h => h) (fun _ z hz => ?_)
    (wp_finish B.admits fun _ _ => B.del_ok)) fun total z hz => ?_
  · rcases hz with hz | hz
    · exact hx.aborts hz
    · exact hx.tried_del hz
  · obtain ⟨⟨n, hn, rfl⟩, hw⟩ := hz
    obtain ⟨hz, hmutated⟩ := hx.wrote_del hw
    exact ⟨rfl, hz, fun _ => by rw [hmutated]; exact hx.total hnone hn⟩

/-- A snapshot without members holds no id. -/
theorem empty_of_card {T : SortedSet String ℚ} (h : ¬0 < T.card) : ∀ id ∈ T, id = "" :=
  fun id hid => absurd (SortedSet.card_pos_iff.mpr ⟨id, hid⟩) h

/-- A concluded operation has reported what it did, or goes on. -/
theorem reported_concluding (hx : B.Sound x) :
    wp BulkOperationSnapshot.traced D (concluding k) (B.Reported k) (fun _ => B.Sound) x := by
  refine wp_bind_of (wp_mono (fun _ _ h => h) (fun _ _ h => hx.aborts h)
    (wp_totalAffected B.admits)) fun total y hy => ?_
  have hy' := hx.later hy.1
  refine wp_bind_of (wp_mono (fun _ _ h => h) (fun _ _ h => hy'.aborts h)
    (wp_hasMore B.admits)) fun more z hz => ?_
  obtain ⟨hyz, -, rfl⟩ := hz
  split
  · exact ⟨rfl, hy'.later hyz, fun h => nomatch h⟩
  · rename_i hmore
    refine reported_completing (hy'.later hyz) (empty_of_card ?_)
    rw [hyz.targets]
    exact fun hpos => hmore (decide_eq_true hpos)

/-- Reading the ids of a chunk, and then either completing the operation or processing them. -/
theorem reported_chunk {body : List String → BulkProgram BulkOperationChunkResult}
    (hx : B.Sound x) (hbody : ∀ y, Later x y → y.1.affected k ≠ none → B.Sound y →
      wp BulkOperationSnapshot.traced D (body (page x k)) (B.Reported k) (fun _ => B.Sound) y) :
    wp BulkOperationSnapshot.traced D
      (nextChunk k >>= fun ids => if ids = [] then completing k else body ids) (B.Reported k)
      (fun _ => B.Sound) x := by
  refine wp_bind_of (wp_mono (fun _ _ h => h) (fun _ _ h => hx.aborts h)
    (wp_nextChunk B.admits)) fun ids y hy => ?_
  obtain ⟨hxy, haffected, hids⟩ := hy
  have hids : ids = page x k := hids
  split
  · rename_i hnil
    refine reported_completing (hx.later hxy) ?_
    rw [hxy.targets]
    exact empty_of_page (hids.symm.trans hnil)
  · rw [hids]
    exact hbody y hxy (by rwa [hxy.affected]) (hx.later hxy)

/-- Renewing the keys where the loop has failed. -/
theorem sound_renewing {α : Type} {body : BulkProgram α} {Q : α → Traced → Prop}
    (h : wp BulkOperationSnapshot.traced D body Q (fun _ => B.Sound) x) :
    wp BulkOperationSnapshot.traced D (renewing k body) Q (fun _ => B.Sound) x := by
  refine wp_tryCatch.mpr (wp_mono (fun _ _ h => h) (fun e y hy => ?_) h)
  exact wp_bind_of (wp_mono (fun _ _ h => h) (fun _ z hz => hy.later hz.1)
    (wp_renew B.admits)) fun _ z hz => hy.later hz

/-- Reading the jobs of a chunk. -/
theorem sound_getJobs {ids : List String} (hx : B.Sound x) (haffected : x.1.affected k ≠ none) :
    wp BulkOperationSnapshot.traced D (request (.getJobs k ids))
      (fun _ z => Later x z ∧ B.Sound z ∧ z.1.affected k ≠ none) (fun _ => B.Sound) x := by
  refine wp_neutral B.admits trivial (fun z hz hfate => ?_) fun z hz hthrown => hx.later hz
  have hlater := hz.trans (Later.perform (o := .getJobs k ids) trivial z)
  exact ⟨hlater, hx.later hlater, by rwa [hlater.affected]⟩

/-- Taking a snapshot. -/
theorem sound_createFromSortedSet {source : String} (hx : B.Sound x) :
    wp BulkOperationSnapshot.traced D (createFromSortedSet source) (fun _ => B.Sound)
      (fun _ => B.Sound) x := by
  rw [createFromSortedSet]
  split
  · exact hx
  have hdraw : ∀ y, Later x y → D.assume [] .randomId y →
      B.Sound (BulkOperationSnapshot.traced .randomId y).2 := fun y hxy ha =>
    ⟨B.traced (hx.later hxy).1 B.draw_ok ha,
      fun k => (B.pending_traced k _ _ (Or.inr (Or.inl rfl))).trans ((hx.later hxy).2 k)⟩
  refine wp_bind_of (wp_mono (fun _ _ h => h) (fun _ z hz => ?_)
    (wp_command B.admits fun _ _ => B.draw_ok)) fun k y hy => ?_
  · obtain ⟨w, hxw, ha, hwz, -⟩ := hz
    exact (hdraw w hxw ha).later hwz
  · obtain ⟨w, hxw, ⟨hfate, ha⟩, hk, hwy⟩ := hy
    have hk : k = w.1.drawn := hk
    have hdrawn := hdraw w hxw ha
    rw [traced_of_answered hfate] at hdrawn
    have huntouched : Untouched k y := by
      refine Untouched.later ?_ hwy
      obtain ⟨hm, hu, hn⟩ := B.fresh (hx.later hxw).1 (Nat.le_of_eq hk.symm)
      refine ⟨?_, (mutated_cons rfl).trans hm, (uncounted_cons rfl rfl).trans hu,
        (unacknowledged_cons rfl rfl).trans hn⟩
      rw [hk]
      exact Nat.lt_succ_self _
    have hstable : D.Stable fun z => B.Sound z ∧ Untouched k z := fun ls u v hr h =>
      ⟨h.1.later (B.admits.rely ls u v hr), h.2.later (B.admits.rely ls u v hr)⟩
    have hstep : ∀ ls o u, Creates k o → B.Sound u ∧ Untouched k u → D.assume ls o u →
        D.ok ls o u ∧ True ∧ B.Sound (BulkOperationSnapshot.traced o u).2 ∧
          Untouched k (BulkOperationSnapshot.traced o u).2 := by
      intro ls o u ho h ha
      -- There are no sections.
      have hls : ls = [] := List.eq_nil_iff_forall_not_mem.mpr fun l => l.elim
      subst hls
      have hok := B.create_ok h.2 ho
      exact ⟨hok, trivial, ⟨B.traced h.1.1 hok ha,
        fun k' => (B.pending_traced k _ _ (Or.inl ho)).trans (h.1.2 k')⟩, h.2.traced_creates ho⟩
    refine wp_mono (fun k' z hz => hz.2.1) (fun _ z hz => hz.1) (wp_of_obeys hstable hstep
      (obeys_creating k (Php.trim source)) ⟨hdrawn.later hwy, huntouched⟩)

/-- An execution, whatever becomes of it. -/
theorem reported_execution (hchunk : ∀ k x, B.Sound x →
      wp BulkOperationSnapshot.traced D (action.processChunk (some k)) (B.Reported k)
        (fun _ => B.Sound) x) {operationId : Option OperationId} (hx : B.Sound x) :
    wp BulkOperationSnapshot.traced D (action.execution operationId)
      (fun r z => B.Sound z ∧ ∀ result, r = some result → result.complete = true →
        result.totalAffected = (BulkOperationSnapshot.mutated result.operationId z).length)
      (fun _ _ => False) x := by
  refine wp_tryCatch.mpr ?_
  have hfailed : ∀ z, B.Sound z → B.Sound z ∧ ∀ result : BulkOperationChunkResult,
      none = some result → result.complete = true →
        result.totalAffected = (BulkOperationSnapshot.mutated result.operationId z).length :=
    fun z hz => ⟨hz, fun _ h => nomatch h⟩
  have hreturned : ∀ k z result, B.Reported k result z → B.Sound z ∧
      ∀ result' : BulkOperationChunkResult, some result = some result' →
        result'.complete = true →
        result'.totalAffected = (BulkOperationSnapshot.mutated result'.operationId z).length := by
    intro k z result hz
    refine ⟨hz.2.1, fun result' heq hcomplete => ?_⟩
    rw [← Option.some.inj heq] at hcomplete ⊢
    rw [hz.2.2 hcomplete, hz.1]
  cases operationId with
  | some k =>
      exact wp_bind_of (wp_mono (fun _ _ h => h) (fun _ z hz => hfailed z hz) (hchunk k x hx))
        fun result z hz => hreturned k z result hz
  | none =>
      have hcreate := @sound_createFromSortedSet x D B action.sourceKey hx
      rw [processChunk_none]
      generalize createFromSortedSet action.sourceKey = create at hcreate ⊢
      rw [bind_assoc]
      refine wp_bind_of (wp_mono (fun _ _ h => h) (fun _ z hz => hfailed z hz) hcreate)
        fun k y hy => ?_
      exact wp_bind_of (wp_mono (fun _ _ h => h) (fun _ z hz => hfailed z hz) (hchunk k y hy))
        fun result z hz => hreturned k z result hz

/-- **The count of an operation** is right when it completes. -/
theorem reported_operation (hchunk : ∀ k x, B.Sound x →
      wp BulkOperationSnapshot.traced D (action.processChunk (some k)) (B.Reported k)
        (fun _ => B.Sound) x) (schedule : List (Option OperationId))
    {operationId : Option OperationId} (hx : B.Sound x) :
    wp BulkOperationSnapshot.traced D (action.operation schedule operationId)
      (fun r z => ∀ result, r = some result →
        result.totalAffected = (BulkOperationSnapshot.mutated result.operationId z).length)
      (fun _ _ => False) x := by
  induction schedule generalizing x operationId with
  | nil => exact fun _ h => nomatch h
  | cons again schedule ih =>
      refine wp_bind_of (reported_execution hchunk hx) fun r z hz => ?_
      cases r with
      | none => exact ih hz.1
      | some result =>
          show wp BulkOperationSnapshot.traced D (if result.complete then .ret (some result)
            else action.operation schedule (some result.operationId)) _ _ z
          split
          · rename_i hcomplete
            intro result' heq
            rw [← Option.some.inj heq]
            exact hz.2 result rfl hcomplete
          · exact ih hz.1

end Bookkeeping

/-! ## Retries and cancellations keep books -/

/-- The discipline of an action that counts the mutations. -/
def balancing : Discipline Operation Empty Traced where
  rely _ := World
  assume _ := CountsEffects
  ok _ := MayBalance
  rely_refl := world_refl
  rely_trans := world_trans

/-- The account of mutations that are not counted. -/
def effectsBook : Bookkeeping balancing where
  base x := Fresh x ∧ Balances x
  pending := uncounted
  admits := {
    rely := fun _ _ _ h => h.later
    ok := fun _ o _ ho => by cases o <;> trivial }
  base_later hx h := ⟨hx.1.later h, hx.2.later h⟩
  pending_later h := h.accounts.2.1
  traced hx hok ha := ⟨hx.1.traced hok.touches, hx.2.traced hok ha⟩
  exact hx hpending _ n hn := by
    have hbalance := hx.2 _ n hn
    rw [hpending] at hbalance
    simpa using hbalance
  del_ok := trivial
  pending_traced k' o x ho := by
    cases o with
    | handle _ _ _ => simp [Creates] at ho
    | hincrby _ _ => simp [Creates] at ho
    | _ => exact uncounted_cons rfl rfl
  draw_ok := trivial
  create_ok hx ho := by
    rename_i k o x
    cases o with
    | hmset k' =>
        obtain rfl : k' = k := ho
        exact hx
    | handle _ _ _ => exact ho.elim
    | hincrby _ _ => exact ho.elim
    | zrem _ _ => exact ho.elim
    | _ => trivial
  fresh hx hk := (hx.1 _ hk).2

/-- A chunk that has a number of mutations to count. -/
structure Pending (k : OperationId) (n : ℕ) (x : Traced) : Prop where
  fresh : Fresh x
  balances : Balances x
  affected : x.1.affected k ≠ none
  uncounted : uncounted k x = n
  others : ∀ k', k' ≠ k → BulkOperationSnapshot.uncounted k' x = 0

variable {n : ℕ}

/-- What is pending stays pending while time goes on. -/
theorem Pending.later (hx : Pending k n x) (h : Later x y) : Pending k n y where
  fresh := hx.fresh.later h
  balances := hx.balances.later h
  affected := by rw [h.affected]; exact hx.affected
  uncounted := h.accounts.2.1.trans hx.uncounted
  others k' hk' := h.accounts.2.1.trans (hx.others k' hk')

/-- With nothing pending the books are sound. -/
theorem Pending.sound (hx : Pending k 0 x) : effectsBook.Sound x := by
  refine ⟨⟨hx.fresh, hx.balances⟩, fun k' => ?_⟩
  by_cases hk' : k' = k
  · exact hk' ▸ hx.uncounted
  · exact hx.others k' hk'

/-- Sound books have nothing pending. -/
theorem pending_of_sound (hx : effectsBook.Sound x) (haffected : x.1.affected k ≠ none) :
    Pending k 0 x := ⟨hx.1.1, hx.1.2, haffected, hx.2 k, fun k' _ => hx.2 k'⟩

/-- Nothing is uncounted where a command has failed. -/
theorem Thrown.uncounted (h : Thrown balancing x) : uncounted k x = 0 := by
  obtain ⟨ls, o, w, ho, ha, hfate, hlater⟩ := h
  have hcall : ¬o.IsCall := by
    cases o <;> first | exact id | exact ho.elim
  exact hlater.accounts.2.1.trans (ha.2 hfate hcall k)

/-- What an exception leaves behind. -/
theorem Pending.fails (hx : Pending k n x) (ho : ¬o.IsCall)
    (hmay : ∀ y, Later x y → MayBalance o y) (h : Fails balancing k o x z) :
    effectsBook.Sound z := by
  rcases h with ⟨hxz, hcause⟩ | ⟨y, hxy, ha, hyz, hcause⟩
  · have hthrown := hcause.resolve_right hx.affected
    exact ⟨⟨hx.fresh.later hxz, hx.balances.later hxz⟩, fun _ => hthrown.uncounted⟩
  · have hy := hx.later hxy
    refine ⟨⟨(hy.fresh.traced (hmay y hxy).touches).later hyz,
      (hy.balances.traced (hmay y hxy) ha).later hyz⟩, fun k' => ?_⟩
    rcases hcause with ⟨rfl, hfate⟩ | hthrown
    · exact ha.2 hfate ho k'
    · exact hthrown.uncounted

/-- A command that has been answered. -/
theorem Pending.wrote {a : o.Answer} {m : ℕ} (hx : Pending k n x)
    (hmay : ∀ y, Later x y → MayBalance o y) (h : Wrote balancing o x a z)
    (hothers : ∀ k', k' ≠ k → ¬o.Touches k')
    (haffected : ∀ s : Store, s.affected k ≠ none → (perform o s).2.affected k ≠ none)
    (huncounted : ∀ y : Traced, y.1.fate = .answered → BulkOperationSnapshot.uncounted k y = n →
      BulkOperationSnapshot.uncounted k ((perform o y.1).2, (o, y.1) :: y.2) = m) :
    Pending k m z := by
  obtain ⟨y, hxy, ⟨hfate, ha⟩, -, hyz⟩ := h
  have hy := hx.later hxy
  have hfresh := hy.fresh.traced (hmay y hxy).touches
  have hbalances := hy.balances.traced (hmay y hxy) ha
  rw [traced_of_answered hfate] at hfresh hbalances
  refine Pending.later ⟨hfresh, hbalances, haffected y.1 hy.affected,
    huncounted y hfate hy.uncounted, fun k' hk' => ?_⟩ hyz
  obtain ⟨heffect, hcounts, -⟩ := accounts_of_not_touches (s := y.1) (hothers k' hk')
  exact (uncounted_cons heffect hcounts).trans (hy.others k' hk')

/-- An acknowledgement leaves as much pending as before. -/
theorem pending_acknowledge (hx : Pending k n x) :
    wp traced balancing (acknowledge k [id]) (fun _ z => Pending k n z)
      (fun _ => effectsBook.Sound) x := by
  have hmay : ∀ y, Later x y → MayBalance (.zrem k [id]) y := fun y hxy =>
    (hx.later hxy).fresh.drawn (hx.later hxy).affected
  refine wp_mono (fun _ z hz => ?_) (fun _ z hz => hx.fails (o := .zrem k [id]) (fun h => h) hmay hz)
    (wp_acknowledge effectsBook.admits (by simp) hmay)
  exact hx.wrote hmay hz.2 (fun k' hk' => Ne.symm hk') (fun _ h => h) fun y _ hy =>
    (uncounted_cons rfl rfl).trans hy

/-- A call of a handler, with what is to be counted after it. -/
theorem pending_attempt {h : Handler} (hx : Pending k n x) :
    wp traced balancing (attempt (.handle h k id))
      (fun r z => match r with
        | some a => Pending k (n + if h.mutates a then 1 else 0) z
        | none => Pending k n z)
      (fun _ => effectsBook.Sound) x := by
  have hstep : ∀ y, World x y → CountsEffects (.handle h k id) y →
      Fresh (y.1, (.handle h k id, y.1) :: y.2) ∧ Balances (y.1, (.handle h k id, y.1) :: y.2) := by
    intro y hw ha
    have hy := hx.later hw.later
    refine ⟨?_, hy.balances.handle ha⟩
    have hfresh := hy.fresh.traced (o := .handle h k id) fun k' hk' =>
      hk' ▸ hy.fresh.drawn hy.affected
    simp only [traced, recording, exec, underFate] at hfresh
    cases hfate : y.1.fate <;> rw [hfate] at hfresh <;> exact hfresh
  refine wp_recording_attempt (fun y hw _ => ?_) (fun y hw ha hfate => ?_) fun y hw ha hfate => ?_
  · have hy := hx.later (World.later hw)
    exact hy.fresh.drawn hy.affected
  · obtain ⟨hfresh, hbalances⟩ := hstep y hw ha
    have hy := hx.later (World.later hw)
    refine ⟨hfresh, hbalances, hy.affected, ?_, fun k' hk' => ?_⟩
    rotate_left
    · have hnone := (accounts_of_not_touches (o := .handle h k id) (s := y.1)
        fun htouches => hk' (Eq.symm htouches)).1
      exact (uncounted_cons hnone rfl).trans (hy.others k' hk')
    have heffect : effect k (.handle h k id, y.1) =
        if h.mutates (y.1.answers h) = true then some id else none := by
      simp [effect, hfate]
    have hcount : uncounted k (y.1, (.handle h k id, y.1) :: y.2) =
        uncounted k y + if h.mutates (y.1.answers h) = true then 1 else 0 := by
      rw [uncounted, uncounted, since, if_neg (by simp [counts]), heffect]
      split <;> rfl
    refine hcount.trans ?_
    rw [hy.uncounted]
    rfl
  · obtain ⟨hfresh, hbalances⟩ := hstep y hw ha
    have hy := hx.later (World.later hw)
    have hstore : (traced (.handle h k id) y).2 = (y.1, (.handle h k id, y.1) :: y.2) := by
      simp only [traced, recording, exec, underFate]
      cases y.1.fate <;> rfl
    have heffect : ∀ k', effect k' (.handle h k id, y.1) = none := by
      intro k'
      by_contra hne
      obtain ⟨id', hid'⟩ := Option.ne_none_iff_exists'.mp hne
      exact hfate (ha.1 k' id' hid').1
    show Pending k n (traced (.handle h k id) y).2
    rw [hstore]
    exact ⟨hfresh, hbalances, hy.affected, (uncounted_cons (heffect k) rfl).trans hy.uncounted,
      fun k' hk' => (uncounted_cons (heffect k') rfl).trans (hy.others k' hk')⟩

/-- A call whose failure leaves the loop. -/
theorem pending_request {h : Handler} (hx : Pending k 0 x) :
    wp traced balancing (request (.handle h k id))
      (fun a z => Pending k (if h.mutates a then 1 else 0) z)
      (fun _ => effectsBook.Sound) x := by
  refine wp_bind_of (pending_attempt hx) fun r z hz => ?_
  cases r with
  | some a =>
      have hz : Pending k (0 + if h.mutates a then 1 else 0) z := hz
      rw [Nat.zero_add] at hz
      exact hz
  | none => exact Pending.sound hz

/-- Counting what is to be counted. -/
theorem pending_addAffected (hx : Pending k n x) :
    wp traced balancing (addAffected k n)
      (fun total z => Pending k 0 z ∧ ∃ m, z.1.affected k = some m ∧ total = max 0 m)
      (fun _ => effectsBook.Sound) x := by
  rcases Nat.eq_zero_or_pos n with rfl | hn
  · refine wp_mono (fun total z hz => ⟨hx.later hz.1, ?_⟩) (fun _ z hz => hx.sound.aborts hz)
      (wp_addAffected_zero effectsBook.admits)
    rw [hz.1.affected]
    exact hz.2
  · have hmay : ∀ y, Later x y → MayBalance (.hincrby k n) y := fun y hxy =>
      ⟨(hx.later hxy).fresh.drawn (hx.later hxy).affected, (hx.later hxy).affected,
        by rw [(hx.later hxy).uncounted]⟩
    refine wp_mono (fun total z hz => ?_) (fun _ z hz =>
      hx.fails (o := .hincrby k n) (fun h => h) hmay hz)
      (wp_addAffected_pos effectsBook.admits (by exact_mod_cast hn) hmay)
    have hz' : Pending k 0 z := hx.wrote hmay hz.2 (fun k' hk' => Ne.symm hk')
      (fun s _ => by simp [perform]) fun y hfate _ => by simp [uncounted, since, counts, hfate]
    refine ⟨hz', ?_⟩
    obtain ⟨y, -, -, rfl, hyz⟩ := hz.2
    obtain ⟨m, hm⟩ := Option.ne_none_iff_exists'.mp hz'.affected
    have hbalance := hz'.balances k m hm
    rw [hz'.uncounted] at hbalance
    rw [hyz.affected] at hm
    simp only [perform, Function.update_self, Option.some.injEq] at hm
    refine ⟨m, by rw [hyz.affected]; simp [perform, hm], ?_⟩
    show (y.1.affected k).getD 0 + (n : ℤ) = max 0 m
    rw [hm]
    omega

/-! ### The chunks of the two actions -/

/-- A chunk of a retry. -/
theorem reported_retry {connection queue : Option String} (hx : effectsBook.Sound x) :
    wp traced balancing (Action.processChunk (some k) (.retryAllFailedJobs connection queue))
      (effectsBook.Reported k) (fun _ => effectsBook.Sound) x := by
  refine Bookkeeping.reported_chunk hx fun y _ haffected hy => ?_
  refine wp_bind_of (Bookkeeping.sound_getJobs hy haffected) fun jobs z hz => ?_
  have hstart : Pending k 0 z := pending_of_sound hz.2.1 hz.2.2
  have hloop : ∀ (id : String) (_ : List String) (w : Traced), Pending k 0 w →
      wp traced balancing (RetryAllFailedJobs.settle connection queue k jobs id)
        (fun _ v => Pending k 0 v) (fun _ => effectsBook.Sound) w := by
    intro id _ w hw
    rw [RetryAllFailedJobs.settle]
    split
    · exact pending_acknowledge hw
    refine wp_bind_of (pending_request hw) fun retried v hv => ?_
    refine wp_bind_of (Q := fun _ u => Pending k 0 u) ?_ fun _ u hu => pending_acknowledge hu
    refine wp_ifThen (fun hretried => ?_) fun hretried => ?_
    · rw [hretried] at hv
      exact wp_bind_of (pending_addAffected hv) fun _ u hu => hu.1
    · rw [Bool.not_eq_true] at hretried
      rw [hretried] at hv
      exact hv
  refine wp_bind_of (Bookkeeping.sound_renewing (wp_forEach (I := fun _ => Pending k 0) hloop
    hstart)) fun _ w hw => ?_
  exact Bookkeeping.reported_concluding hw.sound

/-- A member of a cancellation. -/
theorem pending_cancel {queue : Option String} {jobs : List (Option Job)}
    {counts : CancelPendingJobs.Counts} (hx : Pending k counts.cancelled x) :
    wp traced balancing (CancelPendingJobs.settle queue k jobs counts id)
      (fun counts z => Pending k counts.cancelled z) (fun _ => effectsBook.Sound) x := by
  rw [CancelPendingJobs.settle]
  split
  · exact wp_bind_of (pending_acknowledge hx) fun _ z hz => hz
  refine wp_bind_of (Q := fun counts z => Pending k counts.cancelled z) ?_ fun counts' z hz => ?_
  rotate_left
  · refine wp_bind_of (pending_acknowledge hz) fun _ w hw => ?_
    exact hw
  refine wp_bind_of (pending_attempt hx) fun r y hy => ?_
  cases r with
  | some result =>
      have hy : Pending k (counts.cancelled + if Handler.cancel.mutates result then 1 else 0) y := hy
      cases result with
      | cancelled => exact hy
      | batched => exact hy
      | notCancellable => exact hy
  | none =>
      have hy : Pending k counts.cancelled y := hy
      refine wp_bind_of (wp_neutral effectsBook.admits (Q := fun _ z => Pending k counts.cancelled z)
        trivial (fun w hw _ => hy.later (hw.trans (Later.perform (o := .report k id) trivial w)))
        fun w hw hthrown => ?_) fun _ z hz => hz
      exact ⟨⟨hy.fresh.later hw, hy.balances.later hw⟩, fun _ => hthrown.uncounted⟩

/-- A chunk of a cancellation: the cancelled jobs are counted at its end. -/
theorem reported_cancel {queue : Option String} (hx : effectsBook.Sound x) :
    wp traced balancing (Action.processChunk (some k) (.cancelPendingJobs queue))
      (effectsBook.Reported k) (fun _ => effectsBook.Sound) x := by
  rw [cancel_processChunk_some]
  refine Bookkeeping.reported_chunk hx fun y _ haffected hy => ?_
  refine wp_bind_of (Bookkeeping.sound_getJobs hy haffected) fun jobs z hz => ?_
  have hstart : Pending k 0 z := pending_of_sound hz.2.1 hz.2.2
  refine wp_bind_of (Bookkeeping.sound_renewing (wp_fold (I := fun _ counts => Pending k counts.cancelled)
    (fun id _ counts w hw => pending_cancel hw) hstart)) fun counts w hw => ?_
  refine wp_bind_of (pending_addAffected hw) fun total v hv => ?_
  obtain ⟨hv, m, hm, rfl⟩ := hv
  refine wp_bind_of (wp_mono (fun _ _ h => h) (fun _ _ h => hv.sound.aborts h)
    (wp_hasMore effectsBook.admits)) fun more u hu => ?_
  obtain ⟨hvu, -, rfl⟩ := hu
  have hu := hv.sound.later hvu
  split
  · exact ⟨rfl, hu, fun h => nomatch h⟩
  · rename_i hmore
    refine wp_bind_of (wp_mono (fun _ _ h => h) (fun _ _ h => hu.tried_del h)
      (wp_command effectsBook.admits fun _ _ => trivial)) fun _ t ht => ?_
    obtain ⟨ht, hmutated⟩ := hu.wrote_del ht
    refine ⟨rfl, ht, fun _ => ?_⟩
    have hnone : ∀ id ∈ u.1.targets k, id = "" := by
      refine Bookkeeping.empty_of_card ?_
      rw [hvu.targets]
      exact fun hpos => hmore (decide_eq_true hpos)
    rw [hmutated]
    exact hu.total hnone (by rw [hvu.affected]; exact hm)

/-! ## Clearances -/

/-- The jobs of an operation that have been deleted and are still targets. -/
def outstanding (k : OperationId) (x : Traced) : ℕ :=
  ((mutated k x).filter fun id => id ∈ x.1.targets k).length

/-- The counts are the deleted jobs that are no targets any more, and a job that is counted and not
yet acknowledged. -/
structure Clears (x : Traced) : Prop where
  balance : ∀ k n, x.1.affected k = some n →
    n + outstanding k x = (mutated k x).length + unacknowledged k x
  nonempty : ∀ k, "" ∉ mutated k x

/-- When a clearance may give a command. -/
def MayClear : Operation → Traced → Prop
  | .hmset k, x => Untouched k x
  | .zadd k _ _, x => mutated k x = []
  | .hincrby k n, x => k < x.1.drawn ∧ x.1.affected k ≠ none ∧ n = 1
  | .handle _ k id, x => k < x.1.drawn ∧ id ∈ x.1.targets k ∧ id ≠ ""
  | .zrem k ids, x => k < x.1.drawn ∧ unacknowledged k x = 1 ∧
      ∃ id, ids = [id] ∧ id ∈ x.1.targets k ∧ id ∈ mutated k x
  | .del ks, _ => ∀ k, .targetsKey k ∈ ks → .metaKey k ∈ ks
  | _, _ => True

/-- A clearing operation touches only ids that have been drawn. -/
theorem MayClear.touches (h : MayClear o x) (k : OperationId) (ho : o.Touches k) :
    k < x.1.drawn := by
  cases o with
  | hmset k' => exact ho ▸ h.drawn
  | hincrby k' n => exact ho ▸ h.1
  | handle handler k' id => exact ho ▸ h.1
  | zrem k' ids => exact ho ▸ h.1
  | _ => exact ho.elim

/-- A command that changes neither a counter nor an account, and no targets that are counted. -/
theorem Clears.same (hx : Clears x) (hmutated : ∀ k, mutated k y = mutated k x)
    (hunacknowledged : ∀ k, unacknowledged k y = unacknowledged k x)
    (haffected : ∀ k, y.1.affected k = x.1.affected k ∧
      (mutated k x = [] ∨ y.1.targets k = x.1.targets k) ∨ y.1.affected k = none) : Clears y := by
  constructor
  · intro k n hn
    rcases haffected k with ⟨h, htargets⟩ | h
    · rw [outstanding, hmutated, hunacknowledged]
      rw [h] at hn
      have hbalance := hx.balance k n hn
      rw [outstanding] at hbalance
      rcases htargets with hnil | htargets
      · rw [hnil] at hbalance ⊢
        exact hbalance
      · rwa [htargets]
    · rw [h] at hn
      exact nomatch hn
  · intro k
    rw [hmutated]
    exact hx.nonempty k

/-- A clearing stays one while time goes on. -/
theorem Clears.later (hx : Clears x) (h : Later x y) : Clears y :=
  hx.same (fun _ => h.accounts.1) (fun _ => h.accounts.2.2) fun k =>
    Or.inl ⟨by rw [h.affected], Or.inr (by rw [h.targets])⟩

/-- A call of a handler. -/
theorem Clears.handle {h : Handler} {k' : OperationId} (hx : Clears x)
    (hmay : MayClear (.handle h k' id) x) : Clears (x.1, (.handle h k' id, x.1) :: x.2) := by
  have heffect : ∀ k, effect k (.handle h k' id, x.1) = none ∨
      k = k' ∧ effect k (.handle h k' id, x.1) = some id := by
    intro k
    simp only [effect]
    split
    · rename_i hcond
      exact Or.inr ⟨hcond.1.symm, rfl⟩
    · exact Or.inl rfl
  have hsame : ∀ k, unacknowledged k (x.1, (.handle h k' id, x.1) :: x.2) = unacknowledged k x :=
    fun k => unacknowledged_cons rfl rfl
  have hmutated : ∀ k, k = k' → effect k (.handle h k' id, x.1) = some id →
      mutated k (x.1, (.handle h k' id, x.1) :: x.2) =
        if id ∈ mutated k x then mutated k x else id :: mutated k x := by
    intro k _ hsome
    rw [mutated, List.filterMap_cons, hsome]
    simp only
    split
    · rename_i hmem
      exact List.dedup_cons_of_mem (List.mem_dedup.mp hmem)
    · rename_i hmem
      exact List.dedup_cons_of_notMem fun h => hmem (List.mem_dedup.mpr h)
  constructor
  · intro k n hn
    have hbalance := hx.balance k n hn
    rw [outstanding, hsame]
    rcases heffect k with hnone | ⟨hk, hsome⟩
    · rw [mutated_cons hnone]
      exact hbalance
    · rw [hmutated k hk hsome]
      split
      · exact hbalance
      · have htarget : id ∈ x.1.targets k := hk ▸ hmay.2.1
        rw [List.filter_cons_of_pos (by simpa using htarget), List.length_cons, List.length_cons]
        rw [outstanding] at hbalance
        push_cast
        omega
  · intro k
    rcases heffect k with hnone | ⟨hk, hsome⟩
    · rw [mutated_cons hnone]
      exact hx.nonempty k
    · rw [hmutated k hk hsome]
      split
      · exact hx.nonempty k
      · rw [List.mem_cons, not_or]
        exact ⟨hmay.2.2.symm, hx.nonempty k⟩

/-- Counting a deleted job. -/
theorem Clears.hincrby {k' : OperationId} {m : ℤ} (hx : Clears x) (hfate : x.1.fate ≠ .unsent)
    (hmay : MayClear (.hincrby k' m) x) :
    Clears ((perform (.hincrby k' m) x.1).2, (.hincrby k' m, x.1) :: x.2) := by
  obtain ⟨-, hsome, rfl⟩ := hmay
  obtain ⟨m, hm⟩ := Option.ne_none_iff_exists'.mp hsome
  refine ⟨fun k n hn => ?_, fun k => ?_⟩
  · rw [outstanding, mutated_cons rfl]
    by_cases hne : k = k'
    · subst hne
      simp only [BulkOperationSnapshot.perform, Function.update_self, Option.some.injEq, hm,
        Option.getD_some] at hn
      have hself : unacknowledged k ((perform (.hincrby k 1) x.1).2, (.hincrby k 1, x.1) :: x.2) =
          unacknowledged k x + 1 := by
        simp [unacknowledged, since, acknowledges, counts, hfate]
      have hbalance := hx.balance k m hm
      rw [outstanding] at hbalance
      rw [hself, ← hn]
      show m + 1 + (((mutated k x).filter fun id => id ∈ x.1.targets k).length : ℤ) = _
      push_cast
      omega
    · simp only [BulkOperationSnapshot.perform, Function.update_of_ne hne] at hn
      rw [unacknowledged_cons (by simp [counts, Ne.symm hne]) rfl]
      exact hx.balance k n hn
  · rw [mutated_cons rfl]
    exact hx.nonempty k

/-- Acknowledging a deleted job. -/
theorem Clears.zrem {k' : OperationId} {ids : List String} (hx : Clears x)
    (hfate : x.1.fate ≠ .unsent) (hmay : MayClear (.zrem k' ids) x) :
    Clears ((perform (.zrem k' ids) x.1).2, (.zrem k' ids, x.1) :: x.2) := by
  obtain ⟨-, hone, id, rfl, hid, hmutated⟩ := hmay
  refine ⟨fun k n hn => ?_, fun k => ?_⟩
  · have hbalance := hx.balance k n hn
    rw [outstanding, mutated_cons rfl]
    by_cases hne : k = k'
    · subst hne
      have hself : unacknowledged k ((perform (.zrem k [id]) x.1).2,
          (.zrem k [id], x.1) :: x.2) = 0 := by
        simp [unacknowledged, since, acknowledges, hfate]
      have hgone : ((mutated k x).filter fun id' => id' ∈ (x.1.targets k).eraseAll [id]) =
          ((mutated k x).filter fun id' => id' ∈ x.1.targets k).erase id := by
        have hnodup : ((mutated k x).filter fun id' => id' ∈ x.1.targets k).Nodup :=
          (List.nodup_dedup _).filter _
        rw [hnodup.erase_eq_filter, List.filter_filter]
        refine List.filter_congr fun id' _ => ?_
        simp [SortedSet.mem_eraseAll, bne, beq_eq_decide]
      have hmem : id ∈ (mutated k x).filter fun id' => id' ∈ x.1.targets k :=
        List.mem_filter.mpr ⟨hmutated, by simpa using hid⟩
      have hlength := List.length_erase_of_mem hmem
      have hpos := List.length_pos_of_mem hmem
      rw [outstanding, hone] at hbalance
      rw [hself]
      simp only [BulkOperationSnapshot.perform, Function.update_self]
      rw [hgone, hlength]
      push_cast [hpos]
      omega
    · simp only [BulkOperationSnapshot.perform, Function.update_of_ne hne]
      rw [unacknowledged_cons rfl (by simp [acknowledges, Ne.symm hne])]
      exact hbalance
  · rw [mutated_cons rfl]
    exact hx.nonempty k

/-- Starting a count. -/
theorem Clears.hmset {k' : OperationId} (hx : Clears x) (hmay : Untouched k' x) :
    Clears ((perform (.hmset k') x.1).2, (.hmset k', x.1) :: x.2) := by
  refine ⟨fun k n hn => ?_, fun k => ?_⟩
  · rw [outstanding, mutated_cons rfl, unacknowledged_cons rfl rfl]
    by_cases hne : k = k'
    · subst hne
      simp only [BulkOperationSnapshot.perform, Function.update_self, Option.some.injEq] at hn
      rw [hmay.mutated, hmay.unacknowledged, ← hn]
      rfl
    · simp only [BulkOperationSnapshot.perform, Function.update_of_ne hne] at hn
      exact hx.balance k n hn
  · rw [mutated_cons rfl]
    exact hx.nonempty k

/-- **Every command keeps the account of deleted jobs.** -/
theorem Clears.traced (hx : Clears x) (hmay : MayClear o x) : Clears (traced o x).2 := by
  have hperform : x.1.fate ≠ .unsent → Clears ((perform o x.1).2, (o, x.1) :: x.2) := by
    intro hfate
    cases o with
    | handle h k' id => exact hx.handle hmay
    | hincrby k' n => exact hx.hincrby hfate hmay
    | zrem k' ids => exact hx.zrem hfate hmay
    | hmset k' => exact hx.hmset hmay
    | zadd k' score id =>
        refine hx.same (fun _ => mutated_cons rfl) (fun _ => unacknowledged_cons rfl rfl)
          fun k => Or.inl ⟨rfl, ?_⟩
        by_cases hne : k = k'
        · exact Or.inl (hne ▸ hmay)
        · exact Or.inr (Function.update_of_ne hne _ _)
    | del ks =>
        refine hx.same (fun _ => mutated_cons rfl) (fun _ => unacknowledged_cons rfl rfl)
          fun k => ?_
        simp only [BulkOperationSnapshot.perform]
        by_cases hmeta : .metaKey k ∈ ks
        · exact Or.inr (if_pos hmeta)
        · rw [if_neg hmeta, if_neg fun htargets => hmeta (hmay k htargets)]
          exact Or.inl ⟨rfl, Or.inr rfl⟩
    | _ =>
        exact hx.same (fun _ => mutated_cons rfl) (fun _ => unacknowledged_cons rfl rfl)
          fun _ => Or.inl ⟨rfl, Or.inr rfl⟩
  simp only [BulkOperationSnapshot.traced, recording, exec, underFate]
  cases hfate : x.1.fate with
  | answered => exact hperform (by simp [hfate])
  | unsent =>
      exact hx.same (fun _ => (accounts_unsent hfate).1) (fun _ => (accounts_unsent hfate).2.2)
        fun _ => Or.inl ⟨rfl, Or.inr rfl⟩
  | unanswered => exact hperform (by simp [hfate])

/-- The discipline of an action that counts what it clears. -/
def clearing : Discipline Operation Empty Traced where
  rely _ := World
  assume _ := CountsDeletions
  ok _ := MayClear
  rely_refl := world_refl
  rely_trans := world_trans

/-- The account of counts that are not acknowledged. -/
def deletionsBook : Bookkeeping clearing where
  base x := Fresh x ∧ Clears x
  pending := unacknowledged
  admits := {
    rely := fun _ _ _ h => h.later
    ok := fun _ o _ ho => by cases o <;> trivial }
  base_later hx h := ⟨hx.1.later h, hx.2.later h⟩
  pending_later h := h.accounts.2.2
  traced hx hok _ := ⟨hx.1.traced hok.touches, hx.2.traced hok⟩
  exact hx hpending hnone n hn := by
    rename_i k x
    have hbalance := hx.2.balance k n hn
    have hout : outstanding k x = 0 := by
      rw [outstanding, List.length_eq_zero_iff, List.filter_eq_nil_iff]
      intro id hid htarget
      have hempty := hnone id (by simpa using htarget)
      exact hx.2.nonempty k (hempty ▸ hid)
    rw [hpending, hout] at hbalance
    simpa using hbalance
  del_ok := fun k hk => by
    rcases List.mem_cons.mp hk with heq | hk
    · rw [Key.targetsKey.inj heq]
      simp [keys]
    · exact absurd (List.mem_singleton.mp hk) (by simp)
  pending_traced k' o x ho := by
    cases o with
    | zrem _ _ => simp [Creates] at ho
    | hincrby _ _ => simp [Creates] at ho
    | _ => exact unacknowledged_cons rfl rfl
  draw_ok := trivial
  create_ok hx ho := by
    rename_i k o x
    cases o with
    | hmset k' =>
        obtain rfl : k' = k := ho
        exact hx
    | zadd k' score id =>
        obtain rfl : k' = k := ho
        exact hx.mutated
    | handle _ _ _ => exact ho.elim
    | hincrby _ _ => exact ho.elim
    | zrem _ _ => exact ho.elim
    | del _ => exact ho.elim
    | _ => trivial
  fresh hx hk := (hx.1 _ hk).2

/-- A chunk that has a number of counts to acknowledge. -/
structure Owing (k : OperationId) (n : ℕ) (x : Traced) : Prop where
  fresh : Fresh x
  clears : Clears x
  affected : x.1.affected k ≠ none
  unacknowledged : unacknowledged k x = n
  others : ∀ k', k' ≠ k → BulkOperationSnapshot.unacknowledged k' x = 0

/-- What is owed stays owed while time goes on. -/
theorem Owing.later (hx : Owing k n x) (h : Later x y) : Owing k n y where
  fresh := hx.fresh.later h
  clears := hx.clears.later h
  affected := by rw [h.affected]; exact hx.affected
  unacknowledged := h.accounts.2.2.trans hx.unacknowledged
  others k' hk' := h.accounts.2.2.trans (hx.others k' hk')

/-- With nothing owed the books are sound. -/
theorem Owing.sound (hx : Owing k 0 x) : deletionsBook.Sound x := by
  refine ⟨⟨hx.fresh, hx.clears⟩, fun k' => ?_⟩
  by_cases hk' : k' = k
  · exact hk' ▸ hx.unacknowledged
  · exact hx.others k' hk'

/-- Nothing is unacknowledged where a command has failed. -/
theorem Thrown.unacknowledged (h : Thrown clearing x) : unacknowledged k x = 0 := by
  obtain ⟨ls, o, w, ho, ha, hfate, hlater⟩ := h
  have hcall : ¬o.IsCall := by
    cases o <;> first | exact id | exact ho.elim
  exact hlater.accounts.2.2.trans (ha.2 hfate hcall k)

/-- What an exception leaves behind. -/
theorem Owing.fails (hx : Owing k n x) (ho : ¬o.IsCall) (hmay : ∀ y, Later x y → MayClear o y)
    (h : Fails clearing k o x z) : deletionsBook.Sound z := by
  rcases h with ⟨hxz, hcause⟩ | ⟨y, hxy, ha, hyz, hcause⟩
  · have hthrown := hcause.resolve_right hx.affected
    exact ⟨⟨hx.fresh.later hxz, hx.clears.later hxz⟩, fun _ => hthrown.unacknowledged⟩
  · have hy := hx.later hxy
    refine ⟨⟨(hy.fresh.traced (hmay y hxy).touches).later hyz,
      (hy.clears.traced (hmay y hxy)).later hyz⟩, fun k' => ?_⟩
    rcases hcause with ⟨rfl, hfate⟩ | hthrown
    · exact ha.2 hfate ho k'
    · exact hthrown.unacknowledged

/-- A command that has been answered. -/
theorem Owing.wrote {a : o.Answer} {m : ℕ} (hx : Owing k n x)
    (hmay : ∀ y, Later x y → MayClear o y) (h : Wrote clearing o x a z)
    (hothers : ∀ k', k' ≠ k → ¬o.Touches k')
    (haffected : ∀ s : Store, s.affected k ≠ none → (perform o s).2.affected k ≠ none)
    (hunacknowledged : ∀ y : Traced, y.1.fate = .answered →
      BulkOperationSnapshot.unacknowledged k y = n →
      BulkOperationSnapshot.unacknowledged k ((perform o y.1).2, (o, y.1) :: y.2) = m) :
    Owing k m z := by
  obtain ⟨y, hxy, ⟨hfate, ha⟩, -, hyz⟩ := h
  have hy := hx.later hxy
  have hfresh := hy.fresh.traced (hmay y hxy).touches
  have hclears := hy.clears.traced (hmay y hxy)
  rw [traced_of_answered hfate] at hfresh hclears
  refine Owing.later ⟨hfresh, hclears, haffected y.1 hy.affected,
    hunacknowledged y hfate hy.unacknowledged, fun k' hk' => ?_⟩ hyz
  obtain ⟨-, hcounts, hack⟩ := accounts_of_not_touches (s := y.1) (hothers k' hk')
  exact (unacknowledged_cons hcounts hack).trans (hy.others k' hk')

/-- The mutated jobs are those some recorded entry has an effect on. -/
theorem mem_mutated : id ∈ mutated k x ↔ ∃ e ∈ x.2, effect k e = some id := by
  rw [mutated, List.mem_dedup, List.mem_filterMap]

/-- A deletion, with what is known of it when it has returned. -/
theorem owing_request {h : Handler} (hx : Owing k 0 x) (hid : id ∈ x.1.targets k) (hne : id ≠ "") :
    wp traced clearing (request (.handle h k id))
      (fun _ z => Owing k 0 z ∧ z.1.targets k = x.1.targets k ∧
        (h = .forget → id ∈ mutated k z))
      (fun _ => deletionsBook.Sound) x := by
  have hstep : ∀ y, World x y → Owing k 0 (y.1, (.handle h k id, y.1) :: y.2) := by
    intro y hw
    have hy := hx.later hw.later
    have hdrawn := hy.fresh.drawn hy.affected
    have htarget : id ∈ y.1.targets k := by
      rw [hw.later.targets]
      exact hid
    have hfresh := hy.fresh.traced (o := .handle h k id) fun k' hk' => hk' ▸ hdrawn
    refine ⟨?_, hy.clears.handle ⟨hdrawn, htarget, hne⟩, hy.affected,
      (unacknowledged_cons rfl rfl).trans hy.unacknowledged,
      fun k' hk' => (unacknowledged_cons rfl rfl).trans (hy.others k' hk')⟩
    simp only [traced, recording, exec, underFate] at hfresh
    cases hfate : y.1.fate <;> rw [hfate] at hfresh <;> exact hfresh
  refine wp_recording_request (fun y hw _ => ?_) (fun y hw ha hfate => ?_) fun y hw _ _ => ?_
  · have hy := hx.later (World.later hw)
    refine ⟨hy.fresh.drawn hy.affected, ?_, hne⟩
    rw [(World.later hw).targets]
    exact hid
  · refine ⟨hstep y hw, congrFun (World.later hw).targets k, fun hforget => ?_⟩
    subst hforget
    rw [mem_mutated]
    rcases ha.1 k id rfl hfate with hanswer | hmem
    · refine ⟨_, List.mem_cons_self, ?_⟩
      simp [effect, Handler.mutates, hanswer, hfate]
    · obtain ⟨e, he, heffect⟩ := mem_mutated.mp hmem
      exact ⟨e, List.mem_cons_of_mem _ he, heffect⟩
  · have hstore : (traced (.handle h k id) y).2 = (y.1, (.handle h k id, y.1) :: y.2) := by
      simp only [traced, recording, exec, underFate]
      cases y.1.fate <;> rfl
    show deletionsBook.Sound (traced (.handle h k id) y).2
    rw [hstore]
    exact (hstep y hw).sound

/-- Counting a deleted job. -/
theorem owing_addAffected (hx : Owing k 0 x) :
    wp traced clearing (addAffected k 1)
      (fun _ z => Owing k 1 z ∧ z.1.targets k = x.1.targets k ∧ mutated k z = mutated k x)
      (fun _ => deletionsBook.Sound) x := by
  have hmay : ∀ y, Later x y → MayClear (.hincrby k 1) y := fun y hxy =>
    ⟨(hx.later hxy).fresh.drawn (hx.later hxy).affected, (hx.later hxy).affected, rfl⟩
  refine wp_mono (fun total z hz => ⟨?_, ?_, ?_⟩) (fun _ z hz =>
    hx.fails (o := .hincrby k 1) (fun h => h) hmay hz)
    (wp_addAffected_pos deletionsBook.admits Int.one_pos hmay)
  · exact hx.wrote hmay hz.2 (fun k' hk' => Ne.symm hk') (fun s _ => by simp [perform])
      fun y hfate hy => by
      rw [unacknowledged] at hy
      simp [unacknowledged, since, acknowledges, counts, hfate, hy]
  · obtain ⟨-, y, hxy, -, -, hyz⟩ := hz
    rw [hyz.targets]
    exact congrFun hxy.targets k
  · obtain ⟨-, y, hxy, -, -, hyz⟩ := hz
    exact hyz.accounts.1.trans ((mutated_cons rfl).trans hxy.accounts.1)

/-- Acknowledging the job that has been counted. -/
theorem owing_acknowledge (hx : Owing k 1 x) (hid : id ∈ x.1.targets k) (hmem : id ∈ mutated k x) :
    wp traced clearing (acknowledge k [id])
      (fun _ z => Owing k 0 z ∧ z.1.targets k = (x.1.targets k).eraseAll [id])
      (fun _ => deletionsBook.Sound) x := by
  have hmay : ∀ y, Later x y → MayClear (.zrem k [id]) y := by
    intro y hxy
    have hy := hx.later hxy
    refine ⟨hy.fresh.drawn hy.affected, hy.unacknowledged, id, rfl, ?_, ?_⟩
    · rw [hxy.targets]
      exact hid
    · rw [hxy.accounts.1]
      exact hmem
  refine wp_mono (fun _ z hz => ⟨?_, ?_⟩) (fun _ z hz =>
    hx.fails (o := .zrem k [id]) (fun h => h) hmay hz)
    (wp_acknowledge deletionsBook.admits (by simp) hmay)
  · exact hx.wrote hmay hz.2 (fun k' hk' => Ne.symm hk') (fun _ h => h) fun y hfate _ => by
      simp [unacknowledged, since, acknowledges, hfate]
  · obtain ⟨-, y, hxy, -, -, hyz⟩ := hz
    rw [hyz.targets]
    simp only [perform, Function.update_self]
    rw [hxy.targets]

/-- A job, from its deletions to its acknowledgement. -/
theorem owing_settle (hx : Owing k 0 x) (hid : id ∈ x.1.targets k) (hne : id ≠ "") :
    wp traced clearing (ClearFailedJobs.settle k id)
      (fun _ z => Owing k 0 z ∧ z.1.targets k = (x.1.targets k).eraseAll [id])
      (fun _ => deletionsBook.Sound) x := by
  refine wp_bind_of (owing_request (h := .deleteFailed) hx hid hne) fun _ u hu => ?_
  refine wp_bind_of (owing_request (h := .forget) hu.1 (hu.2.1 ▸ hid) hne) fun _ v hv => ?_
  have hvx : v.1.targets k = x.1.targets k := hv.2.1.trans hu.2.1
  refine wp_bind_of (owing_addAffected hv.1) fun _ w hw => ?_
  have hwx : w.1.targets k = x.1.targets k := hw.2.1.trans hvx
  refine wp_mono (fun _ z hz => ⟨hz.1, hz.2.trans (by rw [hwx])⟩) (fun _ _ h => h)
    (owing_acknowledge hw.1 (hwx ▸ hid) ?_)
  rw [hw.2.2]
  exact hv.2.2 rfl

/-- A chunk of a clearance. -/
theorem reported_clear (hx : deletionsBook.Sound x) :
    wp traced clearing (Action.processChunk (some k) .clearFailedJobs)
      (deletionsBook.Reported k) (fun _ => deletionsBook.Sound) x := by
  refine Bookkeeping.reported_chunk hx fun y hxy haffected hy => ?_
  have hstart : Owing k 0 y := ⟨hy.1.1, hy.1.2, haffected, hy.2 k, fun k' _ => hy.2 k'⟩
  have hloop : ∀ (id : String) (rest : List String) (w : Traced),
      (Owing k 0 w ∧ (id :: rest).Nodup ∧ ∀ id' ∈ id :: rest, id' ∈ w.1.targets k ∧ id' ≠ "") →
      wp traced clearing (ClearFailedJobs.settle k id)
        (fun _ v => Owing k 0 v ∧ rest.Nodup ∧ ∀ id' ∈ rest, id' ∈ v.1.targets k ∧ id' ≠ "")
        (fun _ => deletionsBook.Sound) w := by
    rintro id rest w ⟨hw, hnodup, hmem⟩
    obtain ⟨hid, hne⟩ := hmem id List.mem_cons_self
    refine wp_mono (fun _ v hv => ⟨hv.1, (List.nodup_cons.mp hnodup).2, fun id' hid' => ?_⟩)
      (fun _ _ h => h) (owing_settle hw hid hne)
    obtain ⟨htarget, hne'⟩ := hmem id' (List.mem_cons_of_mem _ hid')
    refine ⟨?_, hne'⟩
    rw [hv.2, SortedSet.mem_eraseAll]
    refine ⟨fun hsame => (List.nodup_cons.mp hnodup).1 ?_, htarget⟩
    rwa [← List.mem_singleton.mp hsame]
  refine wp_bind_of (Bookkeeping.sound_renewing (wp_forEach
    (I := fun rest v => Owing k 0 v ∧ rest.Nodup ∧ ∀ id ∈ rest, id ∈ v.1.targets k ∧ id ≠ "")
    hloop ⟨hstart, ?_, fun id hid => ?_⟩)) fun _ w hw => Bookkeeping.reported_concluding hw.1.sound
  · exact (List.Nodup.sublist (List.take_sublist _ _) (SortedSet.nodup _)).filter _
  · obtain ⟨hid, hne⟩ := List.mem_filter.mp hid
    refine ⟨?_, by simpa using hne⟩
    rw [hxy.targets]
    exact SortedSet.mem_iff_members.mpr (List.mem_of_mem_take hid)

/-! ## Operations -/

/-- Where no operation has left anything behind, nothing is counted. -/
theorem Unused.fresh (h : Unused s) : Fresh (s, []) := fun k _ => ⟨h.affected k, rfl, rfl, rfl⟩

/-- An unused store balances. -/
theorem Unused.balances (h : Unused s) : Balances (s, []) := by
  intro k n hn
  have hnone : s.affected k = some n := hn
  rw [h.affected k] at hnone
  exact nomatch hnone

/-- An unused store is clear. -/
theorem Unused.clears (h : Unused s) : Clears (s, []) := by
  refine ⟨fun k n hn => ?_, fun k => List.not_mem_nil⟩
  have hnone : s.affected k = some n := hn
  rw [h.affected k] at hnone
  exact nomatch hnone

/-- **The count of affected jobs**: however often calls fail and chunks are executed again, the total
that is reported on completion is the number of members a mutation has taken effect on, where every
command is given under the circumstances under which the action counts right. -/
theorem affected_exact (action : Action) (s₀ : Store) (h₀ : Unused s₀)
    (schedule : List (Option OperationId))
    (result : BulkOperationChunkResult) (x : Traced)
    (hrun : Run traced (fun _ => World) (fun _ => action.CountsRight)
      (action.operation schedule none, (s₀, [])) (.ret (some result), x)) :
    result.totalAffected = (mutated result.operationId x).length := by
  have hworld : ∀ (r : Option BulkOperationChunkResult) (y z : Traced), World y z →
      (∀ result, r = some result →
        result.totalAffected = (mutated result.operationId y).length) →
      ∀ result, r = some result →
        result.totalAffected = (mutated result.operationId z).length := by
    intro r y z hw h result hr
    rw [mutated, hw.2]
    exact h result hr
  have hbalance : action.CountsRight = CountsEffects → (∀ k x, effectsBook.Sound x →
      wp traced balancing (action.processChunk (some k)) (effectsBook.Reported k)
        (fun _ => effectsBook.Sound) x) →
      result.totalAffected = (mutated result.operationId x).length := by
    intro hcounts hchunk
    rw [hcounts] at hrun
    exact Run.sound (D := balancing) hworld (fun _ _ _ _ h => h) hrun
      (Bookkeeping.reported_operation hchunk schedule ⟨⟨h₀.fresh, h₀.balances⟩, fun _ => rfl⟩) result rfl
  cases action with
  | retryAllFailedJobs connection queue => exact hbalance rfl fun k x hx => reported_retry hx
  | cancelPendingJobs queue => exact hbalance rfl fun k x hx => reported_cancel hx
  | clearFailedJobs =>
      exact Run.sound (D := clearing) hworld (fun _ _ _ _ h => h) hrun
        (Bookkeeping.reported_operation (fun k x hx => reported_clear hx) schedule
          ⟨⟨h₀.fresh, h₀.clears⟩, fun _ => rfl⟩) result rfl

/-- Whether a handler has not been called yet. -/
def uncalled (h : Handler) (x : Traced) : Bool :=
  x.2.all fun e => match e.1 with
    | .handle h' _ _ => h' ≠ h
    | _ => true

/-- Before a command: the first of its kind fails, the others do not, and a handler has an effect
when it is called for the first time. -/
def failingOnce (fails : Operation → Bool) (o : Operation) (x : Traced) : Traced :=
  ({ x.1 with
    jobs := [some ⟨.str "job", .null, .null⟩]
    answers := fun
      | .handleBulk => uncalled .handleBulk x
      | .cancel => if uncalled .cancel x then .cancelled else .notCancellable
      | .deleteFailed => uncalled .deleteFailed x
      | .forget => uncalled .forget x
    fate := if fails o && x.2.all (fun e => !fails e.1) then .unsent else .answered }, x.2)

def Operation.isHincrby : Operation → Bool
  | .hincrby _ _ => true
  | _ => false

def Operation.isZrem : Operation → Bool
  | .zrem _ _ => true
  | _ => false

def failingRun (fails : Operation → Bool) (action : Action) :
    Outcome BulkOperationFailure (Option BulkOperationChunkResult) × Traced :=
  (action.operation [some 0, none] none).eval (fun o x => traced o (failingOnce fails o x)) (oneFailedJob, [])

/-- A job that was dispatched and not counted, and a job that was deleted and counted twice. -/
theorem affected_miscounted :
    (∃ result x, Runs False ((Action.retryAllFailedJobs none none).operation [some 0, none] none,
        (oneFailedJob, [])) (.ret (some result), x) ∧
      result.totalAffected = 0 ∧ (mutated result.operationId x).length = 1) ∧
    ∃ result x, Runs False (Action.clearFailedJobs.operation [some 0, none] none, (oneFailedJob, []))
        (.ret (some result), x) ∧
      result.totalAffected = 2 ∧ (mutated result.operationId x).length = 1 := by
  have hrun : ∀ fails action result, (failingRun fails action).1 = .returned (some result) →
      Runs False (action.operation [some 0, none] none, (oneFailedJob, []))
        (.ret (some result), (failingRun fails action).2) := by
    intro fails action result h
    exact Prog.run_eval_amid (failingOnce fails) (fun _ _ _ => ⟨rfl, rfl⟩)
      (fun _ _ _ h => h.elim) (Prod.ext h rfl)
  refine ⟨⟨⟨0, 0, true⟩, _, hrun Operation.isHincrby (.retryAllFailedJobs none none) _ rfl, rfl, ?_⟩,
    ⟨⟨0, 2, true⟩, _, hrun Operation.isZrem .clearFailedJobs _ rfl, rfl, ?_⟩⟩
  · decide
  · decide

/-- Whether a handler is called. -/
def Operation.isHandle : Operation → Bool
  | .handle _ _ _ => true
  | _ => false

/-- Before a command: the first call of a handler fails, and every other one has an effect. -/
def failingCall (o : Operation) (x : Traced) : Traced :=
  ({ x.1 with
    answers := oneFailedJob.answers
    fate := if o.isHandle && x.2.all (fun e => !e.1.isHandle) then .unsent else .answered }, x.2)

/-- A failing call of a handler does not spoil the count. -/
theorem countsRight_failingCall (o : Operation) (x : Traced) :
    Action.clearFailedJobs.CountsRight o (failingCall o x) := by
  constructor
  · exact fun _ _ _ _ => Or.inl rfl
  · intro hfate hcall
    -- Only a call fails.
    have hhandle : o.isHandle = false := by
      cases o <;> first | rfl | exact absurd trivial hcall
    simp [failingCall, hhandle] at hfate

/-- Clearing the two failed jobs among such commands. -/
def clearingAgain : Outcome BulkOperationFailure (Option BulkOperationChunkResult) × Traced :=
  (Action.clearFailedJobs.operation [some 0, none] none).eval (fun o x => traced o (failingCall o x))
    (twoFailedJobs, [])

/-- Two failed jobs that are cleared in two executions, since a handler fails at first. -/
theorem affected_exact_two : ∃ result x,
    Run traced (fun _ => World) (fun _ => Action.clearFailedJobs.CountsRight)
      (Action.clearFailedJobs.operation [some 0, none] none, (twoFailedJobs, []))
      (.ret (some result), x) ∧
    (∃ e ∈ x.2, e.2.fate = .unsent) ∧ result.totalAffected = 2 ∧
    result.totalAffected = (mutated result.operationId x).length := by
  have heval : clearingAgain.1 = .returned (some ⟨0, 2, true⟩) := rfl
  have hrun : Run traced (fun _ => World) (fun _ => Action.clearFailedJobs.CountsRight)
      (Action.clearFailedJobs.operation [some 0, none] none, (twoFailedJobs, []))
      (.ret (some ⟨0, 2, true⟩), clearingAgain.2) :=
    Prog.run_eval_amid failingCall (fun _ _ _ => ⟨rfl, rfl⟩)
      (fun _ o x => countsRight_failingCall o x) (Prod.ext heval rfl)
  have hfailed : clearingAgain.2.2[33]?.map (·.2.fate) = some .unsent := rfl
  obtain ⟨e, he, hfate⟩ := Option.map_eq_some_iff.mp hfailed
  exact ⟨_, _, hrun, ⟨e, List.mem_of_getElem? he, hfate⟩, rfl, affected_exact .clearFailedJobs
    twoFailedJobs ⟨fun _ => rfl, fun _ => rfl⟩ [some 0, none] _ _ hrun⟩

end BulkOperationSnapshot

end HorizonNewDawn

import HorizonNewDawn.BulkOperations.BulkOperationSnapshot
import HorizonNewDawn.Program.Obligations

/-! # State that expires

The keys of an operation are created by the first write to them, and their expiry is set by a later
command. Any number of processes use the class, and any of them may die between two commands.
`expiring` says that every key has one wherever no process is between the two, unless a process was
interrupted there. -/

namespace HorizonNewDawn

open Program

namespace BulkOperationSnapshot

/-! ## Processes that use the class -/

/-- A call of a method of the class. -/
inductive Method : {α : Type} → BulkProgram α → Prop
  | createFromSortedSet (sourceKey : String) : Method (createFromSortedSet sourceKey)
  | createFromIds (ids : List String) : Method (createFromIds ids)
  | nextChunk (operationId : OperationId) : Method (nextChunk operationId)
  | acknowledge (operationId : OperationId) (ids : List String) :
      Method (acknowledge operationId ids)
  | hasMore (operationId : OperationId) : Method (hasMore operationId)
  | totalAffected (operationId : OperationId) : Method (totalAffected operationId)
  | addAffected (operationId : OperationId) (affected : ℤ) :
      Method (addAffected operationId affected)
  | renew (operationId : OperationId) : Method (renew operationId)
  | cleanup (operationId : OperationId) : Method (cleanup operationId)
  | finish (operationId : OperationId) : Method (finish operationId)

/-- What a process does: one call after another, each chosen by what the earlier ones have returned or
thrown. -/
inductive Session : BulkProgram Unit → Prop
  | done : Session (.ret ())
  | call {α : Type} {method : BulkProgram α} {next : Option α → BulkProgram Unit}
      (h : Method method) (hnext : ∀ r, Session (next r)) :
      Session ((method >>= fun a => .ret (some a)).tryCatch (fun _ => .ret none) >>= next)

/-- Meanwhile keys that expire may be gone, and everything but the keys may change. -/
structure Passes (s s' : Store) : Prop where
  targets : ∀ k, s'.targets k = s.targets k ∨ s.expires (.targetsKey k) = true ∧ s'.targets k = ∅
  affected : ∀ k,
    s'.affected k = s.affected k ∨ s.expires (.metaKey k) = true ∧ s'.affected k = none
  expires : s'.expires = s.expires
  drawn : s'.drawn = s.drawn

/-- A key that exists and does not expire. -/
def Lasting (key : Key) (s : Store) : Prop := s.exists key = true ∧ s.expires key = false

/-- A command that writes to a key, and creates it where it does not exist. -/
def Operation.Writes : Operation → Key → Prop
  | .zadd k _ _, key => key = .targetsKey k
  | .hmset k, key => key = .metaKey k
  | .hincrby k _, key => key = .metaKey k
  | _, _ => False

/-- A command that sets the expiry of a key. -/
def Operation.Renews : Operation → Key → Prop
  | .expire key', key => key' = key
  | _, _ => False

variable {o : Operation} {s s' : Store} {key : Key} {operationId : OperationId}

/-! ## Commands -/

/-- A change of one key leaves the expiry of the others. -/
theorem touch_of_ne {key' : Key} (h : key ≠ key') : s.touch key' key = s.expires key := by
  rw [Keys.touch]
  split
  · rfl
  · exact Function.update_of_ne h _ _

/-- Fewer targets do not bring a key into existence. -/
theorem exists_of_card {s' : Store} {k : OperationId} (h : (Keys.exists s'.toKeys (.targetsKey k)) = true)
    (hsub : ∀ id ∈ s'.targets k, id ∈ s.targets k) : s.exists (.targetsKey k) = true := by
  have hpos : 0 < (s'.targets k).card := of_decide_eq_true h
  obtain ⟨id, hid⟩ := SortedSet.card_pos_iff.mp hpos
  exact decide_eq_true (SortedSet.card_pos_iff.mpr ⟨id, hsub id hid⟩)

/-- A command that leaves a lasting key has written to it, or has found it lasting. -/
theorem lasting_perform (h : Lasting key (perform o s).2) : o.Writes key ∨ Lasting key s := by
  by_cases hwrites : o.Writes key
  · exact Or.inl hwrites
  refine Or.inr ?_
  -- The command has not written the key, so that it existed without an expiry before.
  obtain ⟨hexists, hexpires⟩ := h
  cases o with
  | zadd k score id =>
      have hkey : key ≠ .targetsKey k := hwrites
      refine ⟨?_, (touch_of_ne hkey).symm.trans hexpires⟩
      cases key with
      | metaKey k' => exact hexists
      | targetsKey k' =>
          have hk : k' ≠ k := fun heq => hkey (by rw [heq])
          simpa only [perform, Keys.exists, Function.update_of_ne hk] using hexists
  | hmset k =>
      have hkey : key ≠ .metaKey k := hwrites
      refine ⟨?_, (touch_of_ne hkey).symm.trans hexpires⟩
      cases key with
      | targetsKey k' => exact hexists
      | metaKey k' =>
          have hk : k' ≠ k := fun heq => hkey (by rw [heq])
          simpa only [perform, Keys.exists, Function.update_of_ne hk] using hexists
  | hincrby k n =>
      have hkey : key ≠ .metaKey k := hwrites
      refine ⟨?_, (touch_of_ne hkey).symm.trans hexpires⟩
      cases key with
      | targetsKey k' => exact hexists
      | metaKey k' =>
          have hk : k' ≠ k := fun heq => hkey (by rw [heq])
          simpa only [perform, Keys.exists, Function.update_of_ne hk] using hexists
  -- an expiry only takes a key away from the lasting ones
  | expire key' =>
      refine ⟨hexists, ?_⟩
      simp only [perform] at hexpires
      split at hexpires
      · by_cases hkey : key = key'
        · rw [hkey, Function.update_self] at hexpires
          exact nomatch hexpires
        · rwa [Function.update_of_ne hkey] at hexpires
      · exact hexpires
  -- what is left after a removal was there before
  | zrem k ids =>
      refine ⟨?_, hexpires⟩
      cases key with
      | metaKey k' => exact hexists
      | targetsKey k' =>
          refine exists_of_card hexists fun id hid => ?_
          simp only [perform] at hid
          by_cases hk : k' = k
          · subst hk
            rw [Function.update_self, SortedSet.mem_eraseAll] at hid
            exact hid.2
          · rwa [Function.update_of_ne hk] at hid
  | del ks =>
      refine ⟨?_, hexpires⟩
      cases key with
      | metaKey k' =>
          simp only [perform, Keys.exists] at hexists
          split at hexists
          · exact nomatch hexists
          · exact hexists
      | targetsKey k' =>
          refine exists_of_card hexists fun id hid => ?_
          simp only [perform] at hid
          split at hid
          · exact absurd hid SortedSet.not_mem_empty
          · exact hid
  | _ => exact ⟨hexists, hexpires⟩

/-- Setting the expiry of a key. -/
theorem not_lasting_renews (h : o.Renews key) : ¬Lasting key (perform o s).2 := by
  cases o with
  | expire key' =>
      obtain rfl : key' = key := h
      rintro ⟨hexists, hexpires⟩
      have hexists : s.exists key' = true := hexists
      simp only [perform, hexists, if_true, Function.update_self] at hexpires
      exact nomatch hexpires
  | _ => exact h.elim

/-- The command of a process, whatever becomes of it. -/
theorem lasting_exec (h : Lasting key (exec o s).2) : o.Writes key ∨ Lasting key s :=
  underFate_store (P := fun s' => Lasting key s' → o.Writes key ∨ Lasting key s) Or.inr
    lasting_perform h

/-- A key whose expiry has been renewed is none without one. -/
theorem not_lasting_exec (hanswered : (exec o s).1 ≠ none) (h : o.Renews key) :
    ¬Lasting key (exec o s).2 := by
  unfold exec underFate at hanswered ⊢
  cases hfate : s.fate with
  | answered => exact not_lasting_renews h
  | unsent => exact absurd (by rw [hfate]) hanswered
  | unanswered => exact absurd (by rw [hfate]) hanswered

/-- Nobody else takes an expiry away. -/
theorem Passes.lasting (h : Passes s s') (hkey : Lasting key s') : Lasting key s := by
  obtain ⟨hexists, hexpires⟩ := hkey
  rw [h.expires] at hexpires
  refine ⟨?_, hexpires⟩
  cases key with
  | targetsKey k =>
      rcases h.targets k with htargets | ⟨hexpiring, -⟩
      · simpa only [Keys.exists, htargets] using hexists
      · rw [hexpires] at hexpiring
        exact nomatch hexpiring
  | metaKey k =>
      rcases h.affected k with haffected | ⟨hexpiring, -⟩
      · simpa only [Keys.exists, haffected] using hexists
      · rw [hexpires] at hexpiring
        exact nomatch hexpiring

/-! ## Methods -/

/-- Every write of a program to a key is followed by a command that sets its expiry, but for those
that are passed on to what follows the program. -/
abbrev Covering {α : Type} (P : Key → Prop) (p : BulkProgram α) : Prop :=
  p.Covers Operation.Writes Operation.Renews fun key _ => P key

/-- A program sets the expiry of a key, unless the obligation is passed on. -/
abbrev Renewing {α : Type} (key : Key) (P : Prop) (p : BulkProgram α) : Prop :=
  p.Settles (fun o => o.Renews key) fun _ => P

variable {α β : Type} {P P' : Key → Prop}

/-- Covering programs in a row. -/
theorem covering_bind {p : BulkProgram α} {f : α → BulkProgram β} (h : Covering P p)
    (hf : ∀ a, Covering P' (f a)) (hpass : ∀ key a, P key → Renewing key (P' key) (f a)) :
    Covering P' (p >>= f) := Prog.Covers.bind h hf hpass

/-- A program that passes nothing on, and another one. -/
theorem covering_bind_of {p : BulkProgram α} {f : α → BulkProgram β}
    (h : Covering (fun _ => False) p) (hf : ∀ a, Covering P (f a)) :
    Covering P (p >>= f) := Prog.Covers.bind h hf fun _ _ h => h.elim

/-- A command that writes nothing. -/
theorem covering_request (o : Operation) (h : ∀ key, ¬o.Writes key) :
    Covering P (request o) := Prog.Covers.request fun key _ hw => absurd hw (h key)

/-- A command that writes to a key of an operation. -/
theorem covering_write (o : Operation) (h : ∀ key, o.Writes key → key ∈ keys operationId) :
    Covering (fun key => key ∈ keys operationId) (request o) :=
  Prog.Covers.request fun key _ hw => h key hw

/-- A command that is answered passes on what it was passed. -/
theorem renewing_request (o : Operation) {c : Prop} (h : c) : Renewing key c (request o) :=
  Prog.Settles.request_of fun _ => h

/-- A renewal may be followed by more. -/
theorem renewing_bind {p : BulkProgram α} {f : α → BulkProgram β} {c c' : Prop}
    (h : Renewing key c p) (hf : ∀ a, c → Renewing key c' (f a)) : Renewing key c' (p >>= f) :=
  Prog.Settles.bind h fun a hc => hf a hc

/-- A renewal writes nothing. -/
theorem covering_renew : Covering P (renew operationId) :=
  Prog.Covers.forEach (C := P) (fun key _ => covering_request (.expire key) fun _ h => h)
    fun _ hkey key _ => renewing_request (.expire key) hkey

/-- Renewing sets the expiry of both keys. -/
theorem renewing_renew {c : Prop} (h : key ∈ keys operationId) :
    Renewing key c (renew operationId) :=
  Prog.Settles.forEach_of_mem h (Prog.Settles.request (o := Operation.expire key) rfl)
    fun key' _ => renewing_request (.expire key') trivial

/-- Nor does the check that the state exists. -/
theorem covering_ensureExists : Covering P (ensureExists operationId) := by
  refine covering_bind_of (covering_request (.existsKey (.metaKey operationId)) fun _ h => h)
    fun found => ?_
  cases found with
  | true => trivial
  | false => trivial

/-- Nor does the reading of the total. -/
theorem covering_totalAffected : Covering P (totalAffected operationId) :=
  covering_bind_of covering_ensureExists fun _ =>
    covering_bind_of (covering_request (.hget operationId) fun _ h => h) fun _ => trivial

/-- A deletion writes nothing either. -/
theorem covering_cleanup : Covering P (cleanup operationId) :=
  covering_request (.del (keys operationId)) fun _ h => h

/-- Setting the expiry of both keys after the last write to them. -/
theorem renewing_renew_ret {c : Prop} (h : key ∈ keys operationId) (a : α) :
    Renewing key c (renew operationId >>= fun _ => (.ret a : BulkProgram α)) :=
  renewing_bind (c := False) (renewing_renew h) fun _ h => h.elim

/-- A renewal at the end writes nothing. -/
theorem covering_renew_ret (a : α) :
    Covering P (renew operationId >>= fun _ => (.ret a : BulkProgram α)) :=
  covering_bind_of covering_renew fun _ => trivial

/-- A number that is added is followed by a renewal. -/
theorem covering_addAffected {affected : ℤ} : Covering P (addAffected operationId affected) := by
  rw [addAffected]
  split
  · trivial
  refine covering_bind_of covering_ensureExists fun _ => ?_
  split
  · exact covering_totalAffected
  · refine covering_bind (covering_write (.hincrby operationId affected) fun key hkey => ?_)
      (fun total => covering_renew_ret total) fun key total hkey => renewing_renew_ret hkey total
    rw [show key = _ from hkey]
    exact List.mem_cons_of_mem _ List.mem_cons_self

/-- The end of both constructors. -/
theorem covering_initializeMeta :
    Covering P (initializeMeta operationId >>= fun _ =>
      renew operationId >>= fun _ => (.ret operationId : BulkProgram OperationId)) := by
  refine covering_bind (covering_write (.hmset operationId) fun key hkey => ?_)
    (fun _ => covering_renew_ret operationId) fun key _ hkey => renewing_renew_ret hkey operationId
  rw [show key = _ from hkey]
  exact List.mem_cons_of_mem _ List.mem_cons_self

/-- The first state is followed by a renewal of all keys. -/
theorem renewing_initializeMeta {c : Prop} (h : key ∈ keys operationId) :
    Renewing key c (initializeMeta operationId >>= fun _ =>
      renew operationId >>= fun _ => (.ret operationId : BulkProgram OperationId)) :=
  renewing_bind (renewing_request (.hmset operationId) trivial) fun _ _ =>
    renewing_renew_ret h operationId

/-- A target that is added leaves its key to what follows. -/
theorem covering_zadd (score : ℚ) (id : String) :
    Covering (fun key => key ∈ keys operationId) (request (.zadd operationId score id)) := by
  refine covering_write _ fun key hkey => ?_
  rw [show key = _ from hkey]
  exact List.mem_cons_self

/-- **Creation from a sorted set** ends with a renewal. -/
theorem covering_createFromSortedSet {sourceKey : String} :
    Covering P (createFromSortedSet sourceKey) := by
  rw [createFromSortedSet]
  split
  · trivial
  refine covering_bind_of (covering_request .randomId fun _ h => h) fun operationId => ?_
  refine covering_bind_of
    (covering_request (.zrangeWithScores operationId _) fun _ h => h) fun members => ?_
  refine covering_bind (P := fun key => key ∈ keys operationId) ?_
    (fun _ => covering_initializeMeta) fun key _ hkey => renewing_initializeMeta hkey
  exact Prog.Covers.forEach (fun chunk _ => Prog.Covers.forEach (fun e _ => covering_zadd e.2 e.1)
    fun key hkey e _ => renewing_request (.zadd operationId e.2 e.1) hkey)
    fun key hkey chunk _ => Prog.Settles.forEach hkey fun e _ =>
      renewing_request (.zadd operationId e.2 e.1) hkey

/-- **Creation from ids** ends with a renewal. -/
theorem covering_createFromIds {ids : List String} : Covering P (createFromIds ids) := by
  refine covering_bind_of (covering_request .randomId fun _ h => h) fun operationId => ?_
  refine covering_bind (P := fun key => key ∈ keys operationId) ?_
    (fun _ => covering_initializeMeta) fun key _ hkey => renewing_initializeMeta hkey
  refine Prog.Covers.fold (C := fun key => key ∈ keys operationId) (fun counts id => ?_)
    fun key hkey counts id => ?_
  · split
    · trivial
    refine covering_bind (covering_zadd counts.1 id) (fun _ => ?_) fun key _ hkey => ?_
    · split
      · exact covering_renew_ret _
      · trivial
    · split
      · exact renewing_renew_ret hkey _
      · exact hkey
  · split
    · exact hkey
    refine renewing_bind (renewing_request (.zadd operationId counts.1 id) trivial) fun _ _ => ?_
    split
    · exact renewing_renew_ret hkey _
    · exact hkey

/-- **Every method sets the expiry of the keys it writes to**, as long as its commands are
answered. -/
theorem covering_method {method : BulkProgram α} (h : Method method) : Covering P method := by
  cases h with
  | createFromSortedSet sourceKey => exact covering_createFromSortedSet
  | createFromIds ids => exact covering_createFromIds
  | nextChunk operationId =>
      refine covering_bind_of covering_ensureExists fun _ => ?_
      refine covering_bind_of covering_renew fun _ => ?_
      exact covering_bind_of (covering_request (.zrange operationId 0 (chunkSize - 1)) fun _ h => h)
        fun _ => trivial
  | acknowledge operationId ids =>
      rw [acknowledge]
      split
      · trivial
      refine covering_bind_of covering_ensureExists fun _ => ?_
      exact covering_bind_of (covering_request (.zrem operationId ids) fun _ h => h)
        fun _ => covering_renew
  | hasMore operationId =>
      refine covering_bind_of covering_ensureExists fun _ => ?_
      exact covering_bind_of (covering_request (.zcard operationId) fun _ h => h) fun _ => trivial
  | totalAffected operationId => exact covering_totalAffected
  | addAffected operationId affected => exact covering_addAffected
  | renew operationId => exact covering_renew
  | cleanup operationId => exact covering_cleanup
  | finish operationId =>
      refine covering_bind_of covering_totalAffected fun _ => ?_
      exact covering_bind_of covering_cleanup fun _ => trivial

/-- A session of calls renews whatever it writes. -/
theorem covering_session {p : BulkProgram Unit} (h : Session p) : Covering (fun _ => False) p := by
  induction h with
  | done => trivial
  | call hmethod _ ih =>
      refine covering_bind_of ?_ ih
      exact Prog.Covers.tryCatch (covering_bind_of (covering_method hmethod) fun _ => trivial)
        fun _ => trivial

/-! ## Systems -/

variable {Pid : Type} [DecidableEq Pid]

/-- Processes that use the class, over one store. -/
abbrev System (Pid : Type) : Type :=
  Config Pid Operation (Reply Operation.Answer) Empty BulkOperationFailure Store Unit

/-- No process dies, and no command of it fails, that leaves behind a lasting key it had yet to set
the expiry of. -/
abbrev Unbroken (c : System Pid) (e : Event Pid) (c' : System Pid) : Prop :=
  c.Unbroken (fun _ => exec) Operation.Renews Lasting e c'

/-- A key that exists has an expiry set, or a process is about to set it. -/
theorem expires_or_renewing {c d : System Pid} (hsessions : ∀ i, Session (c.prog i))
    (hstart : ∀ key, c.store.exists key = true → c.store.expires key = true)
    (h : Reaches (fun _ => exec) Passes Unbroken c d) (key : Key)
    (hexists : d.store.exists key = true) :
    d.store.expires key = true ∨ ∃ i, Renewing key False (d.prog i) := by
  by_contra hnot
  rw [not_or, Bool.not_eq_true] at hnot
  have hnone : ∀ key, ¬Lasting key c.store := by
    intro key hkey
    rw [Lasting, hstart key hkey.1] at hkey
    exact nomatch hkey.2
  have hwrites : ∀ (i : Pid) (o : Operation) (s : Store) (key : Key),
      Lasting key (exec o s).2 → o.Writes key ∨ Lasting key s := fun _ _ _ _ h => lasting_exec h
  exact hnot.2 (h.attended hwrites
    (fun _ _ _ _ hanswered hrenews => not_lasting_exec hanswered hrenews)
    (fun _ _ _ hw h => hw.lasting h) (fun i => covering_session (hsessions i)) hnone key
    ⟨hexists, hnot.1⟩)

/-- A process is inside its window while a key exists without an expiry that it has yet to set. -/
def Inside (c : System Pid) (i : Pid) : Prop :=
  ∃ key, Lasting key c.store ∧ Renewing key False (c.prog i)

/-- A command that is answered leaves the next one to be answered. -/
theorem answered_exec (o : Operation) (h : s.fate = .answered) :
    (exec o s).1 ≠ none ∧ (exec o s).2.fate = .answered := by
  unfold exec underFate
  rw [h]
  refine ⟨Option.some_ne_none _, ?_⟩
  cases o <;> exact h

/-- A process that takes a snapshot of the failed jobs. -/
def snapshotting : BulkProgram Unit :=
  (createFromSortedSet "failed_jobs" >>= fun operationId => .ret (some operationId)).tryCatch
    (fun _ => .ret none) >>= fun _ => .ret ()

/-- The process of the example calls the methods one after the other. -/
theorem session_snapshotting : Session snapshotting :=
  .call (.createFromSortedSet "failed_jobs") fun _ => .done

/-- The process takes its snapshot, as far as a number of commands. -/
def snapshotted (commands : ℕ) : System Unit :=
  Config.play (fun _ => exec) ⟨fun _ => snapshotting, oneFailedJob⟩
    (List.replicate commands (.run ()))

end BulkOperationSnapshot

end HorizonNewDawn

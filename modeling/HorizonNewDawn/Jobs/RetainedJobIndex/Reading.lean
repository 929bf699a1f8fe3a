import HorizonNewDawn.Collections.Chunks
import HorizonNewDawn.Program.Scoped
import HorizonNewDawn.Redis.Command

/-! # The retained-job index: reading and transactions

The programs every part of the index is made of: single commands, the published state, the
generation the keys of an index belong to, transactions and the reads of sorted sets.

An index object keeps the generation it is working on while it synchronizes
(`workingGenerations`); here that memory is the argument `working`. Transactions and pipelines
resolve the generations of all types before they queue their commands. -/

namespace HorizonNewDawn

open Program

/-- Named sections of the source that statements refer to. -/
inductive Section
  /-- Between the acquisition of the synchronization lock with a token and the publication. -/
  | synchronizing (t : RetainedJobType) (token : Token)
  /-- Between the discovery that no state is published and the storing of the legacy state. -/
  | ensuring (t : RetainedJobType)
  /-- The inspection of the structure of the working generation, before anything is rebuilt. -/
  | inspecting (working : Option (RetainedJobType × Generation))
      (requiredFacets : List (FacetDimension × String))
      (requiredCatalogPartitions : List FacetDimension)
  deriving DecidableEq

/-- The exceptions of the index. -/
inductive Failure
  | connection
  | runtime (message : String)
  | retainedJobIndexWarming
  | invalidArgument (message : String)
  | typeError
  deriving DecidableEq

/-- A program of a process. -/
abbrev Redis (α : Type) : Type := Prog Command Command.Reply Section Failure α

/-- A program that registers temporary keys. -/
abbrev ScopedRedis (α : Type) : Type := Scoped Command Command.Reply Section Failure Token α

/-- Send one command; a failing connection throws. -/
def command (c : Command) : Redis c.Answer :=
  .op [] c fun
    | none => .fail .connection
    | some x => .ret x

section Rules

variable {scan : ScanOrder} {i : ProcessId} {D : Discipline Command Section Store} {c : Command}
  {Q : c.Answer → Store → Prop} {E : Failure → Store → Prop} {s : Store}

/-- One command: the connection fails, or the command answers and has its effect. -/
theorem wp_command : wp (exec scan i) D (command c) Q E s ↔
    ∀ s', D.rely [] s s' → D.assume [] c s' → D.ok [] c s' ∧
      (s'.failing = true → E .connection { s' with failing := false }) ∧
      (s'.failing = false → Q (c.answer scan i s') (c.effect i s')) := by
  rw [command, wp_op]
  refine forall_congr' fun s' => imp_congr_right fun _ => imp_congr_right fun _ =>
    and_congr_right fun _ => ?_
  cases hf : s'.failing <;> simp [exec, hf]

/-- One command, from a stable assertion. -/
theorem wp_command_of {Φ : Store → Prop} (hΦ : D.Stable Φ) (hs : Φ s)
    (hok : ∀ s, Φ s → D.assume [] c s → D.ok [] c s)
    (hfail : ∀ s, Φ s → E .connection { s with failing := false })
    (h : ∀ s, Φ s → D.assume [] c s → Q (c.answer scan i s) (c.effect i s)) :
    wp (exec scan i) D (command c) Q E s := by
  refine wp_command.mpr fun s' hr ha => ?_
  have hs' := hΦ [] s s' hr hs
  exact ⟨hok s' hs' ha, fun _ => hfail s' hs', fun _ => h s' hs' ha⟩

end Rules

/-- Throw an exception. -/
def throwRuntime {α : Type} (message : String) : Redis α := .fail (.runtime message)

/-! ## Single commands -/

/-- Queue writes as one atomic step. -/
def write (ws : List Write) : Redis Unit := command (.write ws)

/-- `EXPIRE`: whether the key existed. -/
def expire (k : SortedSetKey) (seconds : ℕ) : Redis Bool := command (.expire k seconds)

/-- `ZCARD` (`sortedSetCount`). -/
def sortedSetCount (k : SortedSetKey) : Redis ℕ := command (.zcard k)

/-- `SCARD` (`setCount`). -/
def setCount (k : CatalogKey) : Redis ℕ := command (.scard k)

/-- `SISMEMBER` (`setContains`). -/
def setContains (k : CatalogKey) (value : String) : Redis Bool := command (.sismember k value)

/-- `ZCOUNT` (`sortedSetCountBetween`). -/
def sortedSetCountBetween (k : SortedSetKey) (min max : ScoreBound) : Redis ℕ :=
  command (.zcount k min max)

/-- `ZSCORE`. -/
def zscore (k : SortedSetKey) (id : String) : Redis (Option ℚ) := command (.zscore k id)

/-- `ZRANGE` without the scores. -/
def zrange (k : SortedSetKey) (start stop : ℕ) : Redis (List String) := do
  let entries : List (String × ℚ) ← command (.zrange k start stop)
  return entries.map Prod.fst

/-- `random_bytes`. -/
def randomToken : Redis Token := command .random

/-- `microtime(true)`. -/
def microtime : Redis ℚ := command .microtime

/-! ## Integer-like array keys -/

/-- Whether a string is the canonical text of a 64-bit integer. As an array key such a string turns
into an integer. -/
def isIntegerKey (s : String) : Bool :=
  match s.toList with
  | ['0'] => true
  | '-' :: c :: cs =>
      c ≠ '0' && (c :: cs).all Char.isDigit && decide (digitsValue (c :: cs) ≤ 2 ^ 63)
  | c :: cs => c ≠ '0' && (c :: cs).all Char.isDigit && decide (digitsValue (c :: cs) < 2 ^ 63)
  | [] => false
where
  /-- The number a list of decimal digits denotes. -/
  digitsValue (cs : List Char) : ℕ := cs.foldl (fun n c => 10 * n + (c.toNat - 48)) 0

/-- An integer-like key is digits, or a minus sign and digits. -/
theorem digits_of_isIntegerKey {id : String} (h : isIntegerKey id = true) :
    ∃ ds : List Char, ds ≠ [] ∧ (∀ c ∈ ds, c.isDigit) ∧ (id.toList = ds ∨ id.toList = '-' :: ds) := by
  unfold isIntegerKey at h
  split at h
  · rename_i hzero
    exact ⟨['0'], by simp, by simp [Char.isDigit], Or.inl hzero⟩
  · rename_i c cs hlist
    rw [Bool.and_eq_true, Bool.and_eq_true, List.all_eq_true] at h
    exact ⟨c :: cs, by simp, h.1.2, Or.inr hlist⟩
  · rename_i c cs hzero hminus hlist
    rw [Bool.and_eq_true, Bool.and_eq_true, List.all_eq_true] at h
    exact ⟨c :: cs, by simp, h.1.2, Or.inl hlist⟩
  · exact nomatch h

/-- The members and scores of a range, as the array the source builds from them: members that are
integer-like keys are dropped because they are no strings any more. -/
def sortedSetScores (k : SortedSetKey) (start stop : ℕ) (reverse : Bool) :
    Redis (List (String × ℚ)) := do
  let entries : List (String × ℚ) ←
    if reverse then command (.zrevrange k start stop) else command (.zrange k start stop)
  return entries.filter fun e => !isIntegerKey e.1

namespace RetainedJobIndex

/-! ## Constants -/

/-- `SOURCE_CHUNK_SIZE` -/
def sourceChunkSize : ℕ := 1000

/-- `CATALOG_SCAN_CHUNK_SIZE` -/
def catalogScanChunkSize : ℕ := 500

/-- `TEMPORARY_KEY_TTL_SECONDS` -/
def temporaryKeyTtlSeconds : ℕ := 30

/-- `SYNCHRONIZATION_LOCK_SECONDS` -/
def synchronizationLockSeconds : ℕ := 120

/-- `CANDIDATE_SYNCHRONIZATION_ATTEMPTS` -/
def candidateSynchronizationAttempts : ℕ := 2

/-- `POST_REBUILD_RECONCILIATION_ATTEMPTS` -/
def postRebuildReconciliationAttempts : ℕ := 2

/-- `UNRESOLVED_REFERENCE_GRACE_SECONDS` -/
def unresolvedReferenceGraceSeconds : ℚ := 5

/-! ## The published state and the current generation -/

/-- The published state. The second read, which falls back to the legacy revision, stands in the
sections `fallback`. -/
def publishedStateIn (fallback : List Section) (t : RetainedJobType) :
    Redis (Option PublishedState) := do
  match (← command (.getPublished t) : Option PublishedState) with
  | some state => return some state
  | none =>
      let legacyRevision : Option Token ←
        fallback.foldr Prog.inside (command (.getRevision t))
      return legacyRevision.map (⟨.legacy, ·⟩)

/-- The published state. -/
def publishedState (t : RetainedJobType) : Redis (Option PublishedState) := publishedStateIn [] t

/-- The generation of a published state, legacy without one. -/
def generationFromPublishedState (state : Option PublishedState) : Generation :=
  state.elim .legacy (·.generation)

/-- The generation an index object is working on, while it synchronizes. -/
abbrev Working : Type := Option (RetainedJobType × Generation)

/-- The generation the keys of an index belong to: the working generation while there is one, the
published one otherwise. -/
def currentGeneration (working : Working) (t : RetainedJobType) : Redis Generation :=
  match working with
  | some (t', g) => if t' = t then return g else readPublished
  | none => readPublished
where
  /-- Read the generation off the published state. -/
  readPublished : Redis Generation := do return generationFromPublishedState (← publishedState t)

/-- The generations of all types, resolved before commands are queued. -/
def withAtomicGenerationSnapshot (working : Working) : Redis (RetainedJobType → Generation) := do
  let pending ← currentGeneration working .pending
  let completed ← currentGeneration working .completed
  let silenced ← currentGeneration working .silenced
  let failed ← currentGeneration working .failed
  return fun
    | .pending => pending
    | .completed => completed
    | .silenced => silenced
    | .failed => failed

/-- A `MULTI` block whose keys may depend on the generations. -/
def transaction (working : Working) (ws : (RetainedJobType → Generation) → List Write) :
    Redis Unit := do
  let generations ← withAtomicGenerationSnapshot working
  write (ws generations)

/-- A pipeline of reads: the commands are sent one after the other, not as one step. -/
def pipeline {α β : Type} (working : Working) (as : List α) (read : α → Redis β) :
    Redis (List β) := do
  let _ ← withAtomicGenerationSnapshot working
  Prog.collect as read

/-- The projection key of the current generation. -/
def projectionKey (working : Working) (t : RetainedJobType) : Redis SortedSetKey := do
  return .projection t (← currentGeneration working t)

/-- The key of the unresolved references of the current generation. -/
def unresolvedKey (working : Working) (t : RetainedJobType) : Redis SortedSetKey := do
  return .unresolved t (← currentGeneration working t)

/-- A facet key of the current generation. -/
def facetKey (working : Working) (t : RetainedJobType) (d : FacetDimension) (value : String) :
    Redis SortedSetKey := do
  return .facet t (← currentGeneration working t) d value

/-- A catalog key of the current generation. -/
def catalogKey (working : Working) (t : RetainedJobType) (d : FacetDimension) :
    Redis CatalogKey := do
  return ⟨t, ← currentGeneration working t, d⟩

/-! ## Temporary keys -/

/-- A fresh temporary key, named by its token. -/
def temporaryKey : Redis Token := randomToken

/-- Delete a temporary key; a failing connection is ignored. -/
def deleteQuietly (k : Token) : Redis Unit :=
  (write [.del (.sortedSet (.temporary k))]).tryCatch fun _ => return ()

/-- Store an intersection whose scores are the weighted sums. -/
def intersect (dst : Token) (keys : List (SortedSetKey × ℚ)) : Write :=
  .zinterstore (.temporary dst) keys

/-- Keep a temporary key alive, as part of a transaction. -/
def expireTemporary (k : Token) (seconds : ℕ) : Write := .expire (.temporary k) seconds

/-- Store a difference under a temporary key and count it. -/
def difference (working : Working) (destination : Token) (keys : List SortedSetKey) :
    Redis ℕ := do
  transaction working fun _ =>
    [.zdiffstore (.temporary destination) keys, expireTemporary destination temporaryKeyTtlSeconds]
  sortedSetCount (.temporary destination)

/-- A source snapshot with the count recorded for it (`sourceSnapshotCounts`). -/
structure SourceSnapshot where
  key : Token
  count : ℕ

/-- Keep a source snapshot alive. A snapshot that is gone is an error unless it was empty. -/
def renewSourceSnapshot (snapshot : SourceSnapshot) : Redis Unit := do
  if ← expire (.temporary snapshot.key) synchronizationLockSeconds then return
  if snapshot.count = 0 then return
  throwRuntime "The retained job synchronization source snapshot expired."

/-! ## Scanning a catalog -/

/-- Run the body on the values of a catalog, chunk by chunk, while the catalog is scanned. -/
def forCatalogChunks (fuel : ℕ) (k : CatalogKey) (body : List String → Redis Unit) : Redis Unit :=
  Prog.iterate fuel (fun cursor => do
    let result : ℕ × List String ← command (.sscan k cursor)
    Prog.forEach (result.2.arrayChunk catalogScanChunkSize) body
    return if result.1 = 0 then .inr () else .inl result.1) 0

/-- The metadata kept of some ids. -/
def existingMetadata (ids : List String) : Redis (String → Option RetainedJobMetadata) := do
  if ids = [] then return fun _ => none
  let size : ℕ ← command .hlen
  if size = 0 then return fun _ => none
  let found ← Prog.collect (ids.arrayChunk sourceChunkSize) fun chunk => do
    let values : List (Option RetainedJobMetadata) ← command (.hmget chunk)
    return chunk.zip values
  return fun id => (found.flatten.find? fun e => e.1 = id).bind Prod.snd

/-! ## Reading under a stable assertion -/

variable {scan : ScanOrder} {i : ProcessId} {D : Discipline Command Section Store}
  {Φ : Store → Prop} {E : Failure → Store → Prop} {s : Store} {t : RetainedJobType}
  {working : Working}

/-- A discipline under which reading is free while the stable assertion `Φ` holds. -/
structure Reads (scan : ScanOrder) (i : ProcessId) (D : Discipline Command Section Store)
    (Φ : Store → Prop) (E : Failure → Store → Prop) : Prop where
  stable : D.Stable Φ
  ok : ∀ c s, (∀ s, c.effect i s = s) → Φ s → D.assume [] c s → D.ok [] c s
  fail : ∀ c s, Φ s → D.assume [] c s → s.failing = true → E .connection { s with failing := false }

namespace Reads

/-- A stable assertion that says more. -/
theorem mono {Ψ : Store → Prop} (h : Reads scan i D Φ E) (hΨ : D.Stable Ψ) (hΦ : ∀ s, Ψ s → Φ s) :
    Reads scan i D Ψ E :=
  ⟨hΨ, fun c s hc hs => h.ok c s hc (hΦ s hs), fun c s hs => h.fail c s (hΦ s hs)⟩

/-- A command that only reads tells something about the store it leaves as it is. -/
theorem command {c : Command} (h : Reads scan i D Φ E) (hc : ∀ s, c.effect i s = s) (hs : Φ s) :
    wp (exec scan i) D (command c) (fun x s => x = c.answer scan i s ∧ Φ s) E s := by
  refine wp_command.mpr fun s' hr ha => ?_
  have hs' := h.stable [] s s' hr hs
  refine ⟨h.ok c s' hc hs' ha, h.fail c s' hs' ha, fun _ => ?_⟩
  rw [hc]
  exact ⟨rfl, hs'⟩

/-- The published state is read without a change. -/
theorem publishedState (h : Reads scan i D Φ E) (hs : Φ s) :
    wp (exec scan i) D (publishedState t) (fun _ => Φ) E s := by
  refine wp_bind_of (h.command (fun _ => rfl) hs) fun state s hs => ?_
  obtain ⟨-, hs⟩ := hs
  cases state with
  | some state => exact hs
  | none => exact wp_bind_of (h.command (c := .getRevision t) (fun _ => rfl) hs) fun _ s hs => hs.2

/-- The current generation is the working one, where the index works on the type. -/
theorem currentGeneration (h : Reads scan i D Φ E) (hs : Φ s) :
    wp (exec scan i) D (currentGeneration working t)
      (fun g' s => (∀ g, working = some (t, g) → g' = g) ∧ Φ s) E s := by
  have hread : (∀ g, working ≠ some (t, g)) → wp (exec scan i) D
      (currentGeneration.readPublished t)
        (fun g' s => (∀ g, working = some (t, g) → g' = g) ∧ Φ s) E s := fun hne =>
    wp_bind_of (h.publishedState hs) fun _ s hs => ⟨fun g hg => absurd hg (hne g), hs⟩
  unfold RetainedJobIndex.currentGeneration
  split
  · rename_i t' g
    split
    · subst t'
      exact ⟨fun g' hg' => by cases hg'; rfl, hs⟩
    · rename_i hne
      exact hread fun g' hg' => hne (by cases hg'; rfl)
  · exact hread fun g hg => by cases hg

/-- The working generation is in every snapshot of the generations. -/
theorem snapshot (h : Reads scan i D Φ E) (hs : Φ s) :
    wp (exec scan i) D (withAtomicGenerationSnapshot working)
      (fun generations s => (∀ t g, working = some (t, g) → generations t = g) ∧ Φ s) E s := by
  refine wp_bind_of (h.currentGeneration hs) fun pending s hp => ?_
  refine wp_bind_of (h.currentGeneration hp.2) fun completed s hc => ?_
  refine wp_bind_of (h.currentGeneration hc.2) fun silenced s hsil => ?_
  refine wp_bind_of (h.currentGeneration hsil.2) fun failed s hf => ⟨fun t g hg => ?_, hf.2⟩
  cases t with
  | pending => exact hp.1 g hg
  | completed => exact hc.1 g hg
  | silenced => exact hsil.1 g hg
  | failed => exact hf.1 g hg

/-- The sizes of sorted sets the assertion fixes. -/
theorem counts (h : Reads scan i D Φ E) {keys : List SortedSetKey} {n : SortedSetKey → ℕ}
    (hn : ∀ s, Φ s → ∀ k ∈ keys, (s.zset k).card = n k) (hs : Φ s) :
    wp (exec scan i) D (pipeline working keys sortedSetCount)
      (fun counts s => counts = keys.map n ∧ Φ s) E s := by
  refine wp_bind_of (h.snapshot hs) fun _ s hs => ?_
  have hcollect : ∀ ks ⊆ keys, ∀ s, Φ s → wp (exec scan i) D (Prog.collect ks sortedSetCount)
      (fun counts s => counts = ks.map n ∧ Φ s) E s := by
    intro ks
    induction ks with
    | nil => exact fun _ s hs => ⟨rfl, hs⟩
    | cons k ks ih =>
        intro hsub s hs
        refine wp_bind_of (h.command (c := .zcard k) (fun _ => rfl) hs) fun x s hx => ?_
        obtain ⟨hx, hs⟩ := hx
        refine wp_bind_of (ih (fun k hk => hsub (List.mem_cons_of_mem _ hk)) s hs)
          fun counts s hcounts => ⟨?_, hcounts.2⟩
        have hk : x = n k := hx.trans (hn _ hs k (hsub List.mem_cons_self))
        rw [hk, hcounts.1, List.map_cons]
  exact hcollect keys (fun _ hk => hk) s hs.2

/-- **Scanning a catalog** while the body takes values out of it: what the body establishes for the
values it is given, and what holds of every value that is not in the catalog, holds of every value
in the end. -/
theorem forCatalogChunks {k : CatalogKey} {fuel : ℕ} {body : List String → Redis Unit}
    (h : Reads scan i D Φ E) (Done : String → Store → Prop)
    (hDone : ∀ value, D.Stable (Done value))
    (habsent : ∀ s value, Φ s → value ∉ s.catalog k → Done value s)
    (hbody : ∀ (before : String → Prop) values s, (Φ s ∧ ∀ value, before value → Done value s) →
      wp (exec scan i) D (body values)
        (fun _ s => Φ s ∧ ∀ value, before value ∨ value ∈ values → Done value s) E s) (hs : Φ s) :
    wp (exec scan i) D (forCatalogChunks fuel k body)
      (fun _ s => Φ s ∧ ∀ value, Done value s) E s := by
  -- After the pages below `n` the values these pages are bound to show are done.
  let Shown (n : ℕ) (value : String) : Prop :=
    ∃ m < n, ∀ members, value ∈ members → value ∈ scan.page k m members
  refine wp_iterate (I := fun n s => Φ s ∧ ∀ value, Shown n value → Done value s) ?_ fuel
    ⟨hs, fun value hv => ?_⟩
  · intro n s hs
    have hstable : D.Stable fun s => Φ s ∧ ∀ value, Shown n value → Done value s :=
      h.stable.and fun ls s s' hr hd value hv => hDone value ls s s' hr (hd value hv)
    refine wp_bind_of ((h.mono hstable fun _ hs => hs.1).command (c := .sscan k n)
      (fun _ => rfl) hs) fun result s hresult => ?_
    obtain ⟨rfl, hs⟩ := hresult
    have hpage : ∀ value, Shown (n + 1) value → Done value s ∨
        value ∈ ((scan.page k n (s.catalog k)).arrayChunk catalogScanChunkSize).flatten := by
      rintro value ⟨m, hm, hcovers⟩
      by_cases hv : value ∈ s.catalog k
      · rcases Nat.lt_succ_iff_lt_or_eq.mp hm with hlt | rfl
        · exact Or.inl (hs.2 value ⟨m, hlt, hcovers⟩)
        · rw [List.flatten_arrayChunk]
          exact Or.inr (hcovers _ hv)
      · exact Or.inl (habsent s value hs.1 hv)
    refine wp_bind_of (wp_forEach (I := fun rest s => Φ s ∧ ∀ value, Shown (n + 1) value →
      Done value s ∨ value ∈ rest.flatten) ?_ ⟨hs.1, hpage⟩) fun _ s hs => ?_
    · intro chunk rest s hs
      refine wp_mono (fun _ s' hs' => ⟨hs'.1, fun value hv => ?_⟩) (fun _ _ he => he)
        (hbody (Done · s) chunk s ⟨hs.1, fun _ hd => hd⟩)
      rcases hs.2 value hv with hd | hin
      · exact Or.inl (hs'.2 value (Or.inl hd))
      · rw [List.flatten_cons, List.mem_append] at hin
        rcases hin with hin | hin
        · exact Or.inl (hs'.2 value (Or.inr hin))
        · exact Or.inr hin
    · have hdone : ∀ value, Shown (n + 1) value → Done value s := fun value hv =>
        (hs.2 value hv).resolve_right List.not_mem_nil
      have hnext : (Command.answer scan i s (.sscan k n) : ℕ × List String).1 =
        scan.nextCursor n := rfl
      by_cases hlast : n + 1 < scan.pages
      · have hcursor : scan.nextCursor n = n + 1 := if_pos hlast
        simp only [Command.answer, hcursor, Nat.add_eq_zero_iff, one_ne_zero, and_false, if_false]
        exact ⟨hs.1, hdone⟩
      · have hcursor : scan.nextCursor n = 0 := if_neg hlast
        simp only [Command.answer, hcursor, if_true]
        refine ⟨hs.1, fun value => hdone value ?_⟩
        obtain ⟨m, hm, hcovers⟩ := scan.covers k value
        exact ⟨m, by omega, hcovers⟩
  · obtain ⟨m, hm, -⟩ := hv
    exact absurd hm (Nat.not_lt_zero m)

end Reads

end RetainedJobIndex

end HorizonNewDawn

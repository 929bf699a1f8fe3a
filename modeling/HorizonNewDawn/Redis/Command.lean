import HorizonNewDawn.Redis.Store

/-! # The commands of the retained-job index

`Write` is one writing command as it may be queued in a `MULTI` block, `Command` is what a process
sends as one atomic step. `Command.answer` and `Command.effect` say what a command answers and what
it does to the store, and `exec` puts the two together with the failure of the connection. -/

namespace HorizonNewDawn

open Program

/-! ## Commands -/

/-- A writing command. -/
inductive Write
  | zadd (k : SortedSetKey) (score : ℚ) (id : String)
  | zrem (k : SortedSetKey) (ids : List String)
  | zinterstore (dst : SortedSetKey) (keys : List (SortedSetKey × ℚ))
  | zunionstore (dst : SortedSetKey) (keys : List SortedSetKey)
  | zdiffstore (dst : SortedSetKey) (keys : List SortedSetKey)
  | sadd (k : CatalogKey) (value : String)
  | srem (k : CatalogKey) (value : String)
  | hset (id : String) (m : RetainedJobMetadata)
  | hdel (id : String)
  | del (k : Key)
  | expire (k : SortedSetKey) (seconds : ℕ)

/-- One end of a score range of `ZCOUNT`. -/
inductive ScoreBound
  | negInf
  | inclusive (x : ℚ)
  | exclusive (x : ℚ)

/-- A command a process sends as one atomic step. -/
inductive Command
  /-- A `MULTI` block of writes, or a single write whose answer nobody reads. -/
  | write (ws : List Write)
  | expire (k : SortedSetKey) (seconds : ℕ)
  | setLockNx (t : RetainedJobType) (token : Token) (seconds : ℕ)
  | releaseLock (t : RetainedJobType) (token : Token)
  | renewLock (t : RetainedJobType) (token : Token) (seconds : ℕ)
  | setPublished (t : RetainedJobType) (state : PublishedState)
  | setRevision (t : RetainedJobType) (revision : Token)
  | setInitialized (t : RetainedJobType) (g : Generation)
  | setnxOwner (owner : String)
  | trimRecentJobs
  | trimFailedJobs
  | getPublished (t : RetainedJobType)
  | getRevision (t : RetainedJobType)
  | getLock (t : RetainedJobType)
  | getInitialized (t : RetainedJobType) (g : Generation)
  | getOwner
  | zcard (k : SortedSetKey)
  | zcount (k : SortedSetKey) (min max : ScoreBound)
  | zscore (k : SortedSetKey) (id : String)
  | zrange (k : SortedSetKey) (start stop : ℕ)
  | zrevrange (k : SortedSetKey) (start stop : ℕ)
  | scard (k : CatalogKey)
  | sismember (k : CatalogKey) (value : String)
  | smembers (k : CatalogKey)
  | sscan (k : CatalogKey) (cursor : ℕ)
  | hlen
  | hmget (ids : List String)
  /-- `random_bytes`. -/
  | random
  /-- `microtime(true)`. -/
  | microtime
  /-- `JobRepository::getJobs`. -/
  | getJobs (ids : List String)
  /-- The script that copies the structures of a queue, and the reading of the copies. -/
  | snapshotQueue (connection queue : String)

/-- What a command answers. -/
def Command.Answer : Command → Type
  | .expire _ _ => Bool
  | .setLockNx _ _ _ => Bool
  | .renewLock _ _ _ => Bool
  | .getPublished _ => Option PublishedState
  | .getRevision _ => Option Token
  | .getLock _ => Option Token
  | .getInitialized _ _ => Bool
  | .getOwner => Option String
  | .zcard _ => ℕ
  | .zcount _ _ _ => ℕ
  | .zscore _ _ => Option ℚ
  | .zrange _ _ _ => List (String × ℚ)
  | .zrevrange _ _ _ => List (String × ℚ)
  | .scard _ => ℕ
  | .sismember _ _ => Bool
  | .smembers _ => List String
  | .sscan _ _ => ℕ × List String
  | .hlen => ℕ
  | .hmget _ => List (Option RetainedJobMetadata)
  | .random => Token
  | .microtime => ℚ
  | .getJobs _ => List JobObject
  | .snapshotQueue _ _ => Option (PendingJobStateIndex.Queue ℚ × ℚ)
  | _ => Unit

/-- The answer a process gets: none when the connection fails. -/
abbrev Command.Reply (c : Command) : Type := Option c.Answer

/-! ## What commands do -/

/-- The key a write changes. -/
def Write.key : Write → Key
  | .zadd k _ _ => .sortedSet k
  | .zrem k _ => .sortedSet k
  | .zinterstore dst _ => .sortedSet dst
  | .zunionstore dst _ => .sortedSet dst
  | .zdiffstore dst _ => .sortedSet dst
  | .sadd k _ => .catalog k
  | .srem k _ => .catalog k
  | .hset _ _ => .metadata
  | .hdel _ => .metadata
  | .del k => k
  | .expire k _ => .sortedSet k

/-- The keys a command writes or deletes. Extending the lifetime of a key is not writing it. -/
def Command.writes : Command → List Key
  | .write ws => (ws.filter fun | .expire _ _ => false | _ => true).map Write.key
  | .setLockNx t _ _ => [.lock t]
  | .releaseLock t _ => [.lock t]
  | .setPublished t _ => [.published t]
  | .setRevision t _ => [.revision t]
  | .setInitialized t g => [.initialized t g]
  | .setnxOwner _ => [.owner]
  | _ => []

/-- Set or clear the initialization flag of a generation. -/
def Store.markInitialized (s : Store) (t : RetainedJobType) (g : Generation) (b : Bool) : Store :=
  let flags := Function.update (s.initialized t) g b
  { s with initialized := Function.update s.initialized t flags }

/-- Delete a key. -/
def Store.del (s : Store) : Key → Store
  | .sortedSet k => s.setZset k ∅
  | .catalog k => s.setCatalog k []
  | .metadata => { s with metadata := [] }
  | .lock t => { s with lock := Function.update s.lock t none }
  | .published t => { s with published := Function.update s.published t none }
  | .revision t => { s with revision := Function.update s.revision t none }
  | .initialized t g => s.markInitialized t g false
  | .owner => { s with owner := none }

/-- What a write does. -/
def Write.effect (s : Store) : Write → Store
  | .zadd k score id => s.setZset k ((s.zset k).insert id score)
  | .zrem k ids => s.setZset k ((s.zset k).eraseAll ids)
  | .zinterstore dst keys => s.setZset dst (interStore (keys.map fun k => (s.zset k.1, k.2)))
  | .zunionstore dst keys => s.setZset dst (unionStore (keys.map s.zset))
  | .zdiffstore dst keys => s.setZset dst (diffStore (keys.map s.zset))
  | .sadd k value =>
      if value ∈ s.catalog k then s else s.setCatalog k (s.catalog k ++ [value])
  | .srem k value => s.setCatalog k ((s.catalog k).filter (· ≠ value))
  | .hset id m => { s with metadata := (id, m) :: s.metadata.filter (·.1 ≠ id) }
  | .hdel id => { s with metadata := s.metadata.filter (·.1 ≠ id) }
  | .del k => s.del k
  | .expire _ _ => s

/-- What a block of writes does. -/
def Store.writeAll (s : Store) (ws : List Write) : Store := ws.foldl Write.effect s

/-- What a command does to the store, sent by the process `i`. Trimming the sources is left to the
world, which may change the sources at any time. -/
def Command.effect (i : ProcessId) (s : Store) : Command → Store
  | .write ws => s.writeAll ws
  | .setLockNx t token _ =>
      if (s.lock t).isSome then s else { s with lock := Function.update s.lock t (some token) }
  | .releaseLock t token =>
      if s.lock t = some token then { s with lock := Function.update s.lock t none } else s
  | .setPublished t state => { s with published := Function.update s.published t (some state) }
  | .setRevision t revision => { s with revision := Function.update s.revision t (some revision) }
  | .setInitialized t g => s.markInitialized t g true
  | .setnxOwner owner => if s.owner.isSome then s else { s with owner := some owner }
  | .random => { s with serial := Function.update s.serial i (s.serial i + 1) }
  | _ => s

/-- Whether a score lies above the lower end of a range. -/
def ScoreBound.isAbove (x : ℚ) : ScoreBound → Bool
  | .negInf => true
  | .inclusive y => y ≤ x
  | .exclusive y => y < x

/-- Whether a score lies below the upper end of a range. -/
def ScoreBound.isBelow (x : ℚ) : ScoreBound → Bool
  | .negInf => false
  | .inclusive y => x ≤ y
  | .exclusive y => x < y

/-- How Redis iterates over sets: a full iteration takes `pages` calls, and the page of a cursor is
read off the members the set has at that call. A member that stays in the set is on at least one
page; it may be on several. -/
structure ScanOrder where
  pages : ℕ
  page : CatalogKey → ℕ → List String → List String
  mem_of_mem_page : ∀ k n members v, v ∈ page k n members → v ∈ members
  covers : ∀ k v, ∃ n < pages, ∀ members, v ∈ members → v ∈ page k n members

namespace ScanOrder

/-- A scan has a page. -/
theorem pages_pos (scan : ScanOrder) : 0 < scan.pages := by
  obtain ⟨n, hn, -⟩ := scan.covers ⟨.pending, .legacy, .job⟩ ""
  omega

/-- What a full iteration over a set shows that stays as it is. -/
def shown (scan : ScanOrder) (k : CatalogKey) (members : List String) : List String :=
  (List.range scan.pages).flatMap fun n => scan.page k n members

/-- A scan shows the members and nothing else. -/
theorem mem_shown {scan : ScanOrder} {k : CatalogKey} {members : List String} {v : String} :
    v ∈ scan.shown k members ↔ v ∈ members := by
  rw [shown, List.mem_flatMap]
  constructor
  · rintro ⟨n, -, hv⟩
    exact scan.mem_of_mem_page k n members v hv
  · intro hv
    obtain ⟨n, hn, hcovers⟩ := scan.covers k v
    exact ⟨n, List.mem_range.mpr hn, hcovers members hv⟩

/-- The iteration order that shows a whole set in one page. -/
def single : ScanOrder where
  pages := 1
  page _ n members := if n = 0 then members else []
  mem_of_mem_page k n members v h := by
    split at h
    · exact h
    · cases h
  covers _ _ := ⟨0, by omega, fun members h => by simpa using h⟩

/-- The cursor that follows a page. -/
def nextCursor (scan : ScanOrder) (cursor : ℕ) : ℕ :=
  if cursor + 1 < scan.pages then cursor + 1 else 0

end ScanOrder

/-- What a command answers, sent by the process `i`. -/
def Command.answer (scan : ScanOrder) (i : ProcessId) (s : Store) : (c : Command) → c.Answer
  | .write _ => ()
  | .expire k _ => decide (0 < (s.zset k).card)
  | .setLockNx t _ _ => !(s.lock t).isSome
  | .releaseLock _ _ => ()
  | .renewLock t token _ => decide (s.lock t = some token)
  | .setPublished _ _ => ()
  | .setRevision _ _ => ()
  | .setInitialized _ _ => ()
  | .setnxOwner _ => ()
  | .trimRecentJobs => ()
  | .trimFailedJobs => ()
  | .getPublished t => s.published t
  | .getRevision t => s.revision t
  | .getLock t => s.lock t
  | .getInitialized t g => s.initialized t g
  | .getOwner => s.owner
  | .zcard k => (s.zset k).card
  | .zcount k min max =>
      (s.zset k).entries.countP fun e => min.isAbove e.2 && max.isBelow e.2
  | .zscore k id => (s.zset k).score id
  | .zrange k start stop => ((s.zset k).entries.drop start).take (stop + 1 - start)
  | .zrevrange k start stop => ((s.zset k).entries.reverse.drop start).take (stop + 1 - start)
  | .scard k => (s.catalog k).length
  | .sismember k value => decide (value ∈ s.catalog k)
  | .smembers k => s.catalog k
  | .sscan k cursor => (scan.nextCursor cursor, scan.page k cursor (s.catalog k))
  | .hlen => s.metadata.length
  | .hmget ids => ids.map s.metadataOf
  | .random => ⟨i, s.serial i⟩
  | .microtime => s.clock
  | .getJobs ids => s.repository ids
  | .snapshotQueue connection queue => s.queues connection queue

/-- One command of the process `i`: it answers and has its effect, or the connection fails. -/
def exec (scan : ScanOrder) (i : ProcessId) (c : Command) (s : Store) : c.Reply × Store :=
  if s.failing then (none, { s with failing := false })
  else (some (c.answer scan i s), c.effect i s)

/-! ## Frames -/

namespace Store

variable {s : Store} {k : Key}

/-- One sorted set is replaced. -/
@[simp] theorem setZset_zset {k k' : SortedSetKey} {z : ZSet} :
    (s.setZset k z).zset k' = if k' = k then z else s.zset k' := by
  simp [setZset, Function.update_apply]

/-- The catalogs stay as they are. -/
@[simp] theorem setZset_catalog {k : SortedSetKey} {z : ZSet} :
    (s.setZset k z).catalog = s.catalog := rfl

/-- The sorted sets stay as they are. -/
@[simp] theorem setCatalog_zset {k : CatalogKey} {c : List String} :
    (s.setCatalog k c).zset = s.zset := rfl

/-- One catalog is replaced. -/
@[simp] theorem setCatalog_catalog {k k' : CatalogKey} {c : List String} :
    (s.setCatalog k c).catalog k' = if k' = k then c else s.catalog k' := by
  simp [setCatalog, Function.update_apply]

/-- Every other key stays as it is. -/
theorem sameAt_setZset {k' : SortedSetKey} {z : ZSet} (h : k ≠ .sortedSet k') :
    s.SameAt (s.setZset k' z) k := by
  cases k with
  | sortedSet k =>
      have hne : k ≠ k' := fun heq => h (by rw [heq])
      simp [SameAt, hne]
  | _ => rfl

/-- Every other key stays as it is. -/
theorem sameAt_setCatalog {k' : CatalogKey} {c : List String} (h : k ≠ .catalog k') :
    s.SameAt (s.setCatalog k' c) k := by
  cases k with
  | catalog k =>
      have hne : k ≠ k' := fun heq => h (by rw [heq])
      simp [SameAt, hne]
  | _ => rfl

/-- Every other key stays as it is. -/
theorem sameAt_markInitialized {t : RetainedJobType} {g : Generation} {b : Bool}
    (h : k ≠ .initialized t g) : s.SameAt (s.markInitialized t g b) k := by
  cases k with
  | initialized t' g' =>
      by_cases ht : t' = t
      · subst ht
        have hg : g' ≠ g := fun heq => h (by rw [heq])
        simp [SameAt, markInitialized, hg]
      · simp [SameAt, markInitialized, ht]
  | _ => rfl

/-- Every other key stays as it is. -/
theorem sameAt_del {k' : Key} (h : k ≠ k') : s.SameAt (s.del k') k := by
  cases k' with
  | sortedSet k' => exact sameAt_setZset h
  | catalog k' => exact sameAt_setCatalog h
  | metadata =>
      cases k with
      | metadata => exact absurd rfl h
      | _ => rfl
  | owner =>
      cases k with
      | owner => exact absurd rfl h
      | _ => rfl
  | lock t =>
      cases k with
      | lock t' => simp_all [SameAt, del]
      | _ => rfl
  | published t =>
      cases k with
      | published t' => simp_all [SameAt, del]
      | _ => rfl
  | revision t =>
      cases k with
      | revision t' => simp_all [SameAt, del]
      | _ => rfl
  | initialized t g => exact sameAt_markInitialized h

/-- A write changes its key only. -/
theorem sameAt_write {w : Write} (h : k ≠ w.key) : s.SameAt (w.effect s) k := by
  cases w with
  | sadd k' value =>
      simp only [Write.effect]
      split
      · exact SameAt.refl s k
      · exact sameAt_setCatalog h
  | srem k' value => exact sameAt_setCatalog h
  | hset id m =>
      cases k with
      | metadata => exact absurd rfl h
      | _ => rfl
  | hdel id =>
      cases k with
      | metadata => exact absurd rfl h
      | _ => rfl
  | del k' => exact sameAt_del h
  | expire k' seconds => exact SameAt.refl s k
  | zadd k' score id => exact sameAt_setZset h
  | zrem k' ids => exact sameAt_setZset h
  | zinterstore dst keys => exact sameAt_setZset h
  | zunionstore dst keys => exact sameAt_setZset h
  | zdiffstore dst keys => exact sameAt_setZset h

/-- Several writes change their keys only. -/
theorem sameAt_writeAll {ws : List Write} (h : k ∉ (Command.write ws).writes) :
    s.SameAt (s.writeAll ws) k := by
  induction ws generalizing s with
  | nil => exact SameAt.refl s k
  | cons w ws ih =>
      have hws : k ∉ (Command.write ws).writes := by
        intro hk
        refine h ?_
        simp only [Command.writes, List.mem_map, List.mem_filter] at hk ⊢
        obtain ⟨w', ⟨hw', hne⟩, rfl⟩ := hk
        exact ⟨w', ⟨List.mem_cons_of_mem w hw', hne⟩, rfl⟩
      refine SameAt.trans ?_ (ih hws)
      cases w with
      | expire k' seconds => exact SameAt.refl s k
      | _ =>
          refine sameAt_write fun heq => h ?_
          rw [heq]
          simp [Command.writes]

end Store

/-- **Frame**: a command leaves every key alone that it does not write. -/
theorem Command.effect_sameAt {i : ProcessId} {s : Store} {c : Command} {k : Key}
    (h : k ∉ c.writes) : s.SameAt (c.effect i s) k := by
  cases c with
  | write ws => exact Store.sameAt_writeAll h
  | setLockNx t token seconds =>
      simp only [Command.effect]
      split
      · exact .refl s k
      · cases k with
        | lock t' => simp_all [Store.SameAt, Command.writes]
        | _ => rfl
  | releaseLock t token =>
      simp only [Command.effect]
      split
      · cases k with
        | lock t' => simp_all [Store.SameAt, Command.writes]
        | _ => rfl
      · exact .refl s k
  | setPublished t state =>
      cases k with
      | published t' => simp_all [Store.SameAt, Command.writes, Command.effect]
      | _ => rfl
  | setRevision t revision =>
      cases k with
      | revision t' => simp_all [Store.SameAt, Command.writes, Command.effect]
      | _ => rfl
  | setInitialized t g =>
      exact Store.sameAt_markInitialized fun heq => h (by simp [Command.writes, heq])
  | setnxOwner owner =>
      simp only [Command.effect]
      split
      · exact .refl s k
      · cases k with
        | owner => simp [Command.writes] at h
        | _ => rfl
  | random => cases k <;> rfl
  | _ => exact .refl s k

/-- A lock that holds a token after a command held it before, unless the command took the lock. -/
theorem Command.lock_of_effect {i : ProcessId} {s : Store} {c : Command} {t : RetainedJobType}
    {token : Token} (h : (c.effect i s).lock t = some token) :
    s.lock t = some token ∨ ∃ seconds, c = .setLockNx t token seconds := by
  have hwrite : ∀ (w : Write) (s : Store), (w.effect s).lock t = some token →
      s.lock t = some token := by
    intro w s hw
    by_cases hk : w = .del (.lock t)
    · subst hk
      simp [Write.effect, Store.del] at hw
    · have hsame : s.SameAt (w.effect s) (.lock t) := by
        cases w with
        | del k => exact Store.sameAt_del fun heq => hk (by rw [heq])
        | _ => exact Store.sameAt_write (by simp [Write.key])
      exact hsame.symm.trans hw
  cases c with
  | write ws =>
      refine Or.inl ?_
      induction ws generalizing s with
      | nil => exact h
      | cons w ws ih => exact hwrite w s (ih h)
  | setLockNx t' token' seconds =>
      simp only [Command.effect] at h
      split at h
      · exact Or.inl h
      · by_cases ht : t = t'
        · subst ht
          simp only [Function.update_self, Option.some.injEq] at h
          subst h
          exact Or.inr ⟨seconds, rfl⟩
        · exact Or.inl (by simpa [Function.update_of_ne ht] using h)
  | releaseLock t' token' =>
      simp only [Command.effect] at h
      split at h
      · by_cases ht : t = t'
        · subst ht
          simp at h
        · exact Or.inl (by simpa [Function.update_of_ne ht] using h)
      · exact Or.inl h
  | setnxOwner owner =>
      simp only [Command.effect] at h
      split at h <;> exact Or.inl h
  | _ => exact Or.inl h

/-- **Frame**: a command changes the keys it writes only. -/
theorem exec_sameAt {scan : ScanOrder} {i : ProcessId} {s : Store} {c : Command} {k : Key}
    (h : k ∉ c.writes) : s.SameAt (exec scan i c s).2 k := by
  unfold exec
  split
  · cases k <;> rfl
  · exact Command.effect_sameAt h

/-- Writes draw no tokens. -/
theorem Store.serial_writeAll {s : Store} {ws : List Write} :
    (s.writeAll ws).serial = s.serial := by
  induction ws generalizing s with
  | nil => rfl
  | cons w ws ih =>
      show ((w.effect s).writeAll ws).serial = s.serial
      rw [ih]
      cases w with
      | sadd k value => rw [Write.effect]; split <;> rfl
      | del k => cases k <;> rfl
      | _ => rfl

/-- Writes do not disturb the connection. -/
theorem Store.failing_writeAll {s : Store} {ws : List Write} :
    (s.writeAll ws).failing = s.failing := by
  induction ws generalizing s with
  | nil => rfl
  | cons w ws ih =>
      show ((w.effect s).writeAll ws).failing = s.failing
      rw [ih]
      cases w with
      | sadd k value => rw [Write.effect]; split <;> rfl
      | del k => cases k <;> rfl
      | _ => rfl

/-- No command gives a token back. -/
theorem Command.serial_le_effect {i j : ProcessId} {s : Store} (c : Command) :
    s.serial j ≤ (c.effect i s).serial j := by
  cases c with
  | write ws => exact (congrFun Store.serial_writeAll j).ge
  | random =>
      by_cases hj : j = i
      · subst hj
        simp [Command.effect]
      · simp [Command.effect, Function.update_of_ne hj]
  | setLockNx t token seconds => rw [Command.effect]; split <;> exact le_rfl
  | releaseLock t token => rw [Command.effect]; split <;> exact le_rfl
  | setnxOwner owner => rw [Command.effect]; split <;> exact le_rfl
  | _ => exact le_rfl

/-! ## Blocks of writes

What a block does to the members of one key, when all its writes of that key are of one kind. -/

namespace Store

variable {s : Store} {ws : List Write} {k : SortedSetKey} {c : CatalogKey} {id value : String}

/-- No writes change nothing. -/
@[simp] theorem writeAll_nil : s.writeAll [] = s := rfl

/-- Writes take effect one after the other. -/
@[simp] theorem writeAll_cons {w : Write} : s.writeAll (w :: ws) = (w.effect s).writeAll ws := rfl

/-- Writes take effect one after the other. -/
theorem writeAll_append {ws' : List Write} :
    s.writeAll (ws ++ ws') = (s.writeAll ws).writeAll ws' := List.foldl_append

/-- A block leaves a key alone that none of its writes is of. -/
theorem sameAt_writeAll_of_keys {k : Key} (h : ∀ w ∈ ws, w.key ≠ k) :
    s.SameAt (s.writeAll ws) k := by
  refine sameAt_writeAll fun hk => ?_
  simp only [Command.writes, List.mem_map, List.mem_filter] at hk
  obtain ⟨w, ⟨hw, -⟩, hkey⟩ := hk
  exact h w hw hkey

/-- A write of another key leaves a sorted set alone. -/
theorem zset_write_ne {w : Write} (h : w.key ≠ .sortedSet k) : (w.effect s).zset k = s.zset k :=
  sameAt_write (k := .sortedSet k) (Ne.symm h)

/-- A write of another key leaves a catalog alone. -/
theorem catalog_write_ne {w : Write} (h : w.key ≠ .catalog c) :
    (w.effect s).catalog c = s.catalog c :=
  sameAt_write (k := .catalog c) (Ne.symm h)

/-- Additions to a sorted set. -/
theorem mem_zset_writeAll_of_zadds
    (h : ∀ w ∈ ws, w.key = .sortedSet k → ∃ score id, w = .zadd k score id) :
    id ∈ (s.writeAll ws).zset k ↔ id ∈ s.zset k ∨ ∃ score, .zadd k score id ∈ ws := by
  induction ws generalizing s with
  | nil => simp
  | cons w ws ih =>
      rw [writeAll_cons, ih fun w' hw' => h w' (List.mem_cons_of_mem w hw')]
      by_cases hk : w.key = .sortedSet k
      · obtain ⟨score, id', rfl⟩ := h w List.mem_cons_self hk
        have hadd : id ∈ ((Write.zadd k score id').effect s).zset k ↔ id = id' ∨ id ∈ s.zset k := by
          rw [Write.effect, setZset_zset, if_pos rfl, SortedSet.mem_insert]
        rw [hadd]
        simp only [List.mem_cons, Write.zadd.injEq, true_and]
        constructor
        · rintro ((rfl | hid) | ⟨score', hmem⟩)
          · exact Or.inr ⟨score, Or.inl ⟨rfl, rfl⟩⟩
          · exact Or.inl hid
          · exact Or.inr ⟨score', Or.inr hmem⟩
        · rintro (hid | ⟨score', ⟨_, rfl⟩ | hmem⟩)
          · exact Or.inl (Or.inr hid)
          · exact Or.inl (Or.inl rfl)
          · exact Or.inr ⟨score', hmem⟩
      · rw [zset_write_ne hk]
        have hne : ∀ score, w ≠ .zadd k score id := fun score heq => hk (by rw [heq]; rfl)
        simp [fun score => (hne score).symm]

/-- Removals from a sorted set. -/
theorem mem_zset_writeAll_of_zrems
    (h : ∀ w ∈ ws, w.key = .sortedSet k → ∃ ids, w = .zrem k ids) :
    id ∈ (s.writeAll ws).zset k ↔ id ∈ s.zset k ∧ ∀ ids, .zrem k ids ∈ ws → id ∉ ids := by
  induction ws generalizing s with
  | nil => simp
  | cons w ws ih =>
      rw [writeAll_cons, ih fun w' hw' => h w' (List.mem_cons_of_mem w hw')]
      by_cases hk : w.key = .sortedSet k
      · obtain ⟨ids, rfl⟩ := h w List.mem_cons_self hk
        have hrem : id ∈ ((Write.zrem k ids).effect s).zset k ↔ id ∉ ids ∧ id ∈ s.zset k := by
          rw [Write.effect, setZset_zset, if_pos rfl, SortedSet.mem_eraseAll]
        rw [hrem]
        simp only [List.mem_cons, Write.zrem.injEq, true_and]
        constructor
        · rintro ⟨⟨hid, hmem⟩, hrest⟩
          refine ⟨hmem, ?_⟩
          rintro ids' (rfl | hin)
          · exact hid
          · exact hrest ids' hin
        · rintro ⟨hmem, hrest⟩
          exact ⟨⟨hrest ids (Or.inl rfl), hmem⟩, fun ids' hin => hrest ids' (Or.inr hin)⟩
      · rw [zset_write_ne hk]
        have hne : ∀ ids, w ≠ .zrem k ids := fun ids heq => hk (by rw [heq]; rfl)
        simp [fun ids => (hne ids).symm]

/-- Deletions of a sorted set. -/
theorem mem_zset_writeAll_of_dels
    (h : ∀ w ∈ ws, w.key = .sortedSet k → w = .del (.sortedSet k)) :
    id ∈ (s.writeAll ws).zset k ↔ id ∈ s.zset k ∧ .del (.sortedSet k) ∉ ws := by
  induction ws generalizing s with
  | nil => simp
  | cons w ws ih =>
      rw [writeAll_cons, ih fun w' hw' => h w' (List.mem_cons_of_mem w hw')]
      by_cases hk : w.key = .sortedSet k
      · obtain rfl := h w List.mem_cons_self hk
        have hdel : id ∉ ((Write.del (.sortedSet k)).effect s).zset k := by
          rw [Write.effect, del, setZset_zset, if_pos rfl]
          exact SortedSet.not_mem_empty
        simp [hdel]
      · rw [zset_write_ne hk]
        have hne : Write.del (.sortedSet k) ≠ w := fun heq => hk (by rw [← heq]; rfl)
        simp [hne]

/-- Deletions of keys, for the members of a sorted set. -/
theorem mem_zset_writeAll_del {keys : List Key} :
    id ∈ (s.writeAll (keys.map .del)).zset k ↔ id ∈ s.zset k ∧ .sortedSet k ∉ keys := by
  rw [mem_zset_writeAll_of_dels]
  · simp
  · intro w hw hkey
    obtain ⟨key, -, rfl⟩ := List.mem_map.mp hw
    rw [← hkey]
    rfl

/-- Deletions of keys, for the values of a catalog. -/
theorem mem_catalog_writeAll_del {keys : List Key} :
    value ∈ (s.writeAll (keys.map .del)).catalog c ↔ value ∈ s.catalog c ∧ .catalog c ∉ keys := by
  induction keys generalizing s with
  | nil => simp
  | cons key keys ih =>
      rw [List.map_cons, writeAll_cons, ih]
      by_cases hkey : key = .catalog c
      · subst hkey
        simp [Write.effect, del]
      · rw [catalog_write_ne (w := .del key) hkey]
        simp [Ne.symm hkey]

/-- Additions to a catalog. -/
theorem mem_catalog_writeAll_of_sadds
    (h : ∀ w ∈ ws, w.key = .catalog c → ∃ value, w = .sadd c value) :
    value ∈ (s.writeAll ws).catalog c ↔ value ∈ s.catalog c ∨ .sadd c value ∈ ws := by
  induction ws generalizing s with
  | nil => simp
  | cons w ws ih =>
      rw [writeAll_cons, ih fun w' hw' => h w' (List.mem_cons_of_mem w hw')]
      by_cases hk : w.key = .catalog c
      · obtain ⟨value', rfl⟩ := h w List.mem_cons_self hk
        have hadd : value ∈ ((Write.sadd c value').effect s).catalog c ↔
            value = value' ∨ value ∈ s.catalog c := by
          rw [Write.effect]
          split_ifs with hin
          · constructor
            · exact Or.inr
            · rintro (rfl | hmem)
              · exact hin
              · exact hmem
          · rw [setCatalog_catalog, if_pos rfl, List.mem_append, List.mem_singleton, or_comm]
        rw [hadd]
        simp only [List.mem_cons, Write.sadd.injEq, true_and]
        tauto
      · rw [catalog_write_ne hk]
        have hne : Write.sadd c value ≠ w := fun heq => hk (by rw [← heq]; rfl)
        simp [hne]

/-- Removals from a catalog. -/
theorem mem_catalog_writeAll_of_srems
    (h : ∀ w ∈ ws, w.key = .catalog c → ∃ value, w = .srem c value) :
    value ∈ (s.writeAll ws).catalog c ↔ value ∈ s.catalog c ∧ .srem c value ∉ ws := by
  induction ws generalizing s with
  | nil => simp
  | cons w ws ih =>
      rw [writeAll_cons, ih fun w' hw' => h w' (List.mem_cons_of_mem w hw')]
      by_cases hk : w.key = .catalog c
      · obtain ⟨value', rfl⟩ := h w List.mem_cons_self hk
        have hrem : value ∈ ((Write.srem c value').effect s).catalog c ↔
            value ∈ s.catalog c ∧ value ≠ value' := by
          rw [Write.effect, setCatalog_catalog, if_pos rfl, List.mem_filter, decide_eq_true_eq]
        rw [hrem]
        simp only [List.mem_cons, Write.srem.injEq, true_and]
        tauto
      · rw [catalog_write_ne hk]
        have hne : Write.srem c value ≠ w := fun heq => hk (by rw [← heq]; rfl)
        simp [hne]

/-- A block without deletions of the hash keeps what holds of every entry of the metadata, when it
holds of the entries it stores. -/
theorem metadata_writeAll {P : String × RetainedJobMetadata → Prop}
    (h : ∀ id m, .hset id m ∈ ws → P (id, m)) (hs : ∀ e ∈ s.metadata, P e) :
    ∀ e ∈ (s.writeAll ws).metadata, P e := by
  induction ws generalizing s with
  | nil => exact hs
  | cons w ws ih =>
      rw [writeAll_cons]
      refine ih (fun id m hm => h id m (List.mem_cons_of_mem w hm)) fun e he => ?_
      by_cases hk : w.key = .metadata
      · cases w with
        | hset id m =>
            rcases List.mem_cons.mp he with rfl | he
            · exact h id m List.mem_cons_self
            · exact hs e (List.mem_filter.mp he).1
        | hdel id => exact hs e (List.mem_filter.mp he).1
        | del k =>
            obtain rfl : k = .metadata := hk
            exact absurd he List.not_mem_nil
        | _ => cases hk
      · rw [show (w.effect s).metadata = s.metadata from
          sameAt_write (k := .metadata) (Ne.symm hk)] at he
        exact hs e he

end Store

end HorizonNewDawn

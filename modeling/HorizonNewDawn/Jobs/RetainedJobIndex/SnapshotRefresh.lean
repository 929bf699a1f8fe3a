import HorizonNewDawn.Jobs.RetainedJobIndex.Separation

/-! # The retained-job index: refreshing a source snapshot

A refresh brings a source snapshot up to date with the source as it stands in one transaction, which
stores what has been added and what has been removed under temporary keys. The two sets are then drained
chunk by chunk, and the snapshot key disappears and appears again as its set becomes empty and is filled.
The heartbeats take a missing key for an expired one unless the recorded count is zero; they never do so
wrongly, since the additions are drained first and no removal is applied before the heartbeat of its
chunk. -/

namespace HorizonNewDawn

open Program

namespace RetainedJobIndex

variable {t : RetainedJobType} {snapshot : SourceSnapshot} {i : ProcessId} {n : ℕ} {calm cut : Prop}
  {lock : Option Token} {scan : ScanOrder} {working : Working} {s s' : Store} {α : Type}
  {sets sets' : List (Token × ZSet)} {Φ : Store → Prop}

/-! ## What nobody else touches -/

/-- A sorted set of at most `n` members that are strings as array keys. -/
def Texts (n : ℕ) (z : ZSet) : Prop := z.card ≤ n ∧ ∀ id ∈ z, isIntegerKey id = false

/-- What the others do while the process `i` refreshes a snapshot: they leave the snapshot and the
temporary keys of the process alone, and the source, which they may change, keeps within bounds. Where
the connection is calm it does not fail. -/
structure Aside (t : RetainedJobType) (snapshot : SourceSnapshot) (i : ProcessId) (n : ℕ)
    (calm : Prop) (s s' : Store) : Prop where
  temporary : ∀ k : Token, k = snapshot.key ∨ k.pid = i →
    s'.zset (.temporary k) = s.zset (.temporary k)
  serial : s.serial i ≤ s'.serial i
  source : Texts n (s.zset (.source t)) → Texts n (s'.zset (.source t))
  calm : calm → s.failing = false → s'.failing = false

/-- The circumstances of a refresh. -/
def refreshing (t : RetainedJobType) (snapshot : SourceSnapshot) (i : ProcessId) (n : ℕ)
    (calm : Prop) : Discipline Command Section Store where
  rely _ := Aside t snapshot i n calm
  assume _ _ _ := True
  ok _ _ _ := True
  rely_refl _ _ := ⟨fun _ _ => rfl, le_rfl, id, fun _ => id⟩
  rely_trans _ _ _ _ h h' :=
    ⟨fun k hk => (h'.temporary k hk).trans (h.temporary k hk), h.serial.trans h'.serial,
      h'.source ∘ h.source, fun hcalm => h'.calm hcalm ∘ h.calm hcalm⟩

/-- What a refresh may throw: the exception of the connection, and with a lock the one that says that
the lock is lost. -/
def Raises (calm : Prop) (lock : Option Token) (e : Failure) : Prop :=
  (e = .connection ∧ ¬calm) ∨
    (lock.isSome ∧ e = .runtime "The retained job synchronization lock expired.")

/-- A lost connection is one of the exceptions that may be thrown. -/
theorem raises_connection (hcalm : calm → s.failing = false) (hfailing : s.failing = true) :
    Raises calm lock .connection := by
  refine Or.inl ⟨rfl, fun h => ?_⟩
  rw [hcalm h] at hfailing
  cases hfailing

/-- Some sets of the process, under keys that are drawn. -/
structure Holding (i : ProcessId) (calm : Prop) (sets : List (Token × ZSet)) (s : Store) : Prop where
  held : ∀ e ∈ sets, s.zset (.temporary e.1) = e.2
  drawn : ∀ e ∈ sets, e.1.pid = i → e.1.serial < s.serial i
  calm : calm → s.failing = false

/-- The keys nobody else touches. -/
def Own (snapshot : SourceSnapshot) (i : ProcessId) (sets : List (Token × ZSet)) : Prop :=
  ∀ e ∈ sets, e.1 = snapshot.key ∨ e.1.pid = i

/-- The sets of a token's own stay as they are. -/
theorem Own.stable (hown : Own snapshot i sets) :
    (refreshing t snapshot i n calm).Stable (Holding i calm sets) := fun _ _ _ hr h =>
  ⟨fun e he => (hr.temporary e.1 (hown e he)).trans (h.held e he),
    fun e he hpid => (h.drawn e he hpid).trans_le hr.serial,
    fun hcalm => hr.calm hcalm (h.calm hcalm)⟩

/-- The source keeps its text members. -/
theorem stable_source :
    (refreshing t snapshot i n calm).Stable fun s => Texts n (s.zset (.source t)) :=
  fun _ _ _ hr h => hr.source h

/-- Reading is free while the connection is calm where it has to be. -/
theorem reads_refreshing (hΦ : (refreshing t snapshot i n calm).Stable Φ)
    (hcalm : ∀ s, Φ s → calm → s.failing = false) :
    Reads scan i (refreshing t snapshot i n calm) Φ fun e _ => Raises calm lock e where
  stable := hΦ
  ok _ _ _ _ _ := trivial
  fail _ s hs _ hfailing := raises_connection (hcalm s hs) hfailing

/-- A block of writes on sets that are held. -/
theorem Holding.writeAll {ws : List Write} (h : Holding i calm sets s)
    (hkeys : sets'.map Prod.fst ⊆ sets.map Prod.fst)
    (hheld : ∀ e ∈ sets', (s.writeAll ws).zset (.temporary e.1) = e.2) :
    Holding i calm sets' (s.writeAll ws) := by
  refine ⟨hheld, fun e he hpid => ?_, fun hcalm => ?_⟩
  · obtain ⟨e', he', hkey⟩ := List.mem_map.mp (hkeys (List.mem_map_of_mem he))
    rw [Store.serial_writeAll, ← hkey]
    exact h.drawn e' he' (hkey ▸ hpid)
  · rw [Store.failing_writeAll]
    exact h.calm hcalm

/-! ## The steps of a refresh -/

/-- A program that halts, on the record. -/
theorem refreshing_recorded {p : Redis α} {Q : α → Store → Prop} {x : Recorded Command Store}
    (hp : cut ∨ Halting scan p)
    (h : wp (exec scan i) (refreshing t snapshot i n calm) p Q (fun e _ => Raises calm lock e) x.1) :
    wpCut cut (recording (exec scan i)) (refreshing t snapshot i n calm).recorded p
      (fun a y => Q a y.1 ∧ x.2 <:+ y.2) (fun e _ => Raises calm lock e) x :=
  wpCut_mono (fun _ _ h => h) (fun _ _ h => h.1)
    (wpCut_of_halts (fun c y => answers_exec c y.1) hp (wp_recording_suffix h))

/-- A drawn key is none of the keys that are held. -/
theorem refreshing_temporaryKey (hown : Own snapshot i sets) (hs : Holding i calm sets s)
    (hsource : Texts n (s.zset (.source t))) :
    wp (exec scan i) (refreshing t snapshot i n calm) temporaryKey
      (fun k s => k.pid = i ∧ (∀ e ∈ sets, e.1 ≠ k) ∧ Texts n (s.zset (.source t)) ∧
        ∃ z, Holding i calm ((k, z) :: sets) s) (fun e _ => Raises calm lock e) s := by
  have hΦ : (refreshing t snapshot i n calm).Stable
      fun s => Holding i calm sets s ∧ Texts n (s.zset (.source t)) := hown.stable.and stable_source
  refine wp_command.mpr fun s' hr _ => ?_
  obtain ⟨hs', hsource'⟩ := hΦ [] s s' hr ⟨hs, hsource⟩
  refine ⟨trivial, raises_connection hs'.calm, fun _ => ⟨rfl, fun e he hkey => ?_, hsource',
    s'.zset (.temporary ⟨i, s'.serial i⟩), fun e he => ?_, fun e he hpid => ?_, hs'.calm⟩⟩
  · have hlt := hs'.drawn e he (congrArg Token.pid hkey)
    rw [hkey] at hlt
    exact lt_irrefl _ hlt
  · rcases List.mem_cons.mp he with rfl | he
    · rfl
    · exact hs'.held e he
  · rw [Command.effect]
    simp only [Function.update_self]
    rcases List.mem_cons.mp he with rfl | he
    · exact Nat.lt_succ_self _
    · exact (hs'.drawn e he hpid).trans (Nat.lt_succ_self _)

/-- A transaction, with the store it is performed in. -/
theorem refreshing_transaction {ws : List Write} {Ψ : Store → Store → Prop}
    {x : Recorded Command Store} (hΦ : (refreshing t snapshot i n calm).Stable Φ)
    (hcalm : ∀ s, Φ s → calm → s.failing = false) (h : ∀ s, Φ s → Ψ s (s.writeAll ws)) (hx : Φ x.1) :
    wpCut cut (recording (exec scan i)) (refreshing t snapshot i n calm).recorded
      (transaction working fun _ => ws)
      (fun _ y => ∃ at₁, (.write ws, at₁) ∈ y.2 ∧ Ψ at₁ y.1 ∧ x.2 <:+ y.2)
      (fun e _ => Raises calm lock e) x := by
  refine wpCut_bind_of (refreshing_recorded (Or.inr halting_snapshot)
    ((reads_refreshing hΦ hcalm).snapshot hx)) ?_
  rintro generations y ⟨⟨-, hy⟩, hsuffix⟩
  refine wpCut_of_halts (fun c y => answers_exec c y.1) (Or.inr halting_command)
    (wp_command_recording fun s hr _ => ⟨trivial, ?_, fun _ => ?_⟩)
  · exact raises_connection (hcalm s (hΦ [] y.1 s hr hy))
  · have hs := hΦ [] y.1 s hr hy
    exact ⟨s, List.mem_cons_self, h s hs, hsuffix.trans (List.suffix_cons _ _)⟩

/-- The renewal of a snapshot that is there, or is known to be empty. -/
theorem refreshing_renewSourceSnapshot {source : SourceSnapshot}
    (hΦ : (refreshing t snapshot i n calm).Stable Φ) (hcalm : ∀ s, Φ s → calm → s.failing = false)
    (halive : ∀ s, Φ s → 0 < (s.zset (.temporary source.key)).card ∨ source.count = 0) (hs : Φ s) :
    wp (exec scan i) (refreshing t snapshot i n calm) (renewSourceSnapshot source) (fun _ => Φ)
      (fun e _ => Raises calm lock e) s := by
  refine wp_bind_of ((reads_refreshing hΦ hcalm).command
    (c := .expire (.temporary source.key) synchronizationLockSeconds) (fun _ => rfl) hs) ?_
  rintro _ s ⟨rfl, hs⟩
  rcases halive s hs with hcard | hcount
  · rw [if_pos (by simpa [Command.answer] using hcard)]
    exact hs
  · rw [if_pos hcount]
    split <;> exact hs

/-- The heartbeat of a refresh: the renewal of the snapshot, and with a lock that of the lock. -/
def refreshHeartbeat (t : RetainedJobType) (snapshot : SourceSnapshot) : Option Token → Redis Unit
  | none => renewSourceSnapshot snapshot
  | some token => renewSynchronizationState t token snapshot

/-- **A heartbeat** changes none of the sets. -/
theorem refreshing_heartbeat (hΦ : (refreshing t snapshot i n calm).Stable Φ)
    (hcalm : ∀ s, Φ s → calm → s.failing = false)
    (halive : ∀ s, Φ s → 0 < (s.zset (.temporary snapshot.key)).card ∨ snapshot.count = 0)
    (hs : Φ s) :
    wp (exec scan i) (refreshing t snapshot i n calm) (refreshHeartbeat t snapshot lock) (fun _ => Φ)
      (fun e _ => Raises calm lock e) s := by
  cases lock with
  | none => exact refreshing_renewSourceSnapshot hΦ hcalm halive hs
  | some token =>
      refine wp_bind_of (refreshing_renewSourceSnapshot hΦ hcalm halive hs) fun _ s hs => ?_
      refine wp_bind_of ((reads_refreshing hΦ hcalm).command
        (c := .renewLock t token synchronizationLockSeconds) (fun _ => rfl) hs) fun renewed s hs => ?_
      cases renewed with
      | false => exact Or.inr ⟨rfl, rfl⟩
      | true => exact hs.2

/-- A heartbeat ends. -/
theorem halting_refreshHeartbeat : Halting scan (refreshHeartbeat t snapshot lock) := by
  cases lock with
  | none => exact renews_renewSourceSnapshot.halts _
  | some token => exact renews_renewSynchronizationState.halts _

/-- Deleting a key of the process leaves the other sets as they are. -/
theorem refreshing_deleteQuietly {k : Token} (hown : Own snapshot i sets) (hk : ∀ e ∈ sets, e.1 ≠ k)
    (hs : Holding i calm sets s) :
    wp (exec scan i) (refreshing t snapshot i n calm) (deleteQuietly k)
      (fun _ => Holding i calm sets) (fun e _ => Raises calm lock e) s := by
  refine wp_tryCatch.mpr (wp_command.mpr fun s' hr _ => ?_)
  have hs' := hown.stable [] s s' hr hs
  refine ⟨trivial, fun _ => ⟨hs'.held, hs'.drawn, fun _ => rfl⟩, fun _ => hs'.writeAll (List.Subset.refl _) ?_⟩
  intro e he
  rw [zset_writeAll_of_keys, hs'.held e he]
  intro w hw hkey
  rw [List.mem_singleton.mp hw] at hkey
  cases hkey
  exact hk e he rfl

/-! ## Draining what has changed -/

/-- The keys of the two sets are drawn, and they are three keys together with that of the snapshot. -/
structure Drawn (i : ProcessId) (snapshot : SourceSnapshot) (additionsKey removalsKey : Token) :
    Prop where
  additions : additionsKey.pid = i
  removals : removalsKey.pid = i
  apart : additionsKey ≠ removalsKey
  additions_ne : additionsKey ≠ snapshot.key
  removals_ne : removalsKey ≠ snapshot.key

/-- The sets of a refresh: the snapshot, and what is still to be added to it and removed from it. -/
abbrev Draining (i : ProcessId) (calm : Prop) (snapshot : SourceSnapshot)
    (additionsKey removalsKey : Token) (snap additions removals : ZSet) : Store → Prop :=
  Holding i calm [(removalsKey, removals), (additionsKey, additions), (snapshot.key, snap)]

variable {additionsKey removalsKey : Token} {snap snap₀ additions removals : ZSet}

namespace Draining

variable (h : Draining i calm snapshot additionsKey removalsKey snap additions removals s)

include h

/-- The snapshot is what it was. -/
theorem snapshot_eq : s.zset (.temporary snapshot.key) = snap :=
  h.held (snapshot.key, snap) (by simp)

/-- So are the additions. -/
theorem additions_eq : s.zset (.temporary additionsKey) = additions :=
  h.held (additionsKey, additions) (by simp)

/-- So are the removals. -/
theorem removals_eq : s.zset (.temporary removalsKey) = removals :=
  h.held (removalsKey, removals) (by simp)

/-- What a block makes of the three sets. -/
theorem writeAll {ws : List Write} {snap' additions' removals' : ZSet}
    (hsnap : (s.writeAll ws).zset (.temporary snapshot.key) = snap')
    (hadditions : (s.writeAll ws).zset (.temporary additionsKey) = additions')
    (hremovals : (s.writeAll ws).zset (.temporary removalsKey) = removals') :
    Draining i calm snapshot additionsKey removalsKey snap' additions' removals' (s.writeAll ws) := by
  refine Holding.writeAll h (List.Subset.refl _) fun e he => ?_
  simp only [List.mem_cons, List.not_mem_nil, or_false] at he
  obtain rfl | rfl | rfl := he
  · exact hremovals
  · exact hadditions
  · exact hsnap

end Draining

namespace Drawn

variable (hkeys : Drawn i snapshot additionsKey removalsKey)
  (h : Draining i calm snapshot additionsKey removalsKey snap additions removals s)

include hkeys

/-- The three sets are the token's own. -/
theorem own : Own snapshot i
    [(removalsKey, removals), (additionsKey, additions), (snapshot.key, snap)] := by
  intro e he
  simp only [List.mem_cons, List.not_mem_nil, or_false] at he
  obtain rfl | rfl | rfl := he
  · exact Or.inr hkeys.removals
  · exact Or.inr hkeys.additions
  · exact Or.inl rfl

include h

/-- The delta transaction stores what is missing in the snapshot and what it has too much. -/
theorem delta {expirations : List Write} (hexpirations : ∀ s : Store, s.writeAll expirations = s) :
    Draining i calm snapshot additionsKey removalsKey snap
      (diffStore [s.zset (.source t), snap]) (diffStore [snap, s.zset (.source t)])
      (s.writeAll (.zdiffstore (.temporary additionsKey) [.source t, .temporary snapshot.key] ::
        .zdiffstore (.temporary removalsKey) [.temporary snapshot.key, .source t] ::
          expirations)) := by
  have hsnap := Draining.snapshot_eq h
  have hne := hkeys.apart
  have hne₁ := hkeys.additions_ne.symm
  have hne₂ := hkeys.removals_ne.symm
  refine Draining.writeAll h ?_ ?_ ?_ <;>
    simp only [Store.writeAll_cons, hexpirations, Write.effect, Store.setZset_zset,
      SortedSetKey.temporary.injEq, List.map_cons, List.map_nil, reduceCtorEq, if_false, if_true,
      hne, hne.symm, hne₁, hne₂, hsnap]

/-- A chunk of the additions goes over to the snapshot. -/
theorem add {scores : List (String × ℚ)} {expirations : List Write}
    (hexpirations : ∀ s : Store, s.writeAll expirations = s) :
    Draining i calm snapshot additionsKey removalsKey (snap.insertAll scores)
      (additions.eraseAll (scores.map Prod.fst)) removals
      (s.writeAll (scores.map (fun e => .zadd (.temporary snapshot.key) e.2 e.1) ++
        .zrem (.temporary additionsKey) (scores.map Prod.fst) :: expirations)) := by
  set zadds : List Write := scores.map fun e => .zadd (.temporary snapshot.key) e.2 e.1 with hzadds
  have hframe {k : Token} (hk : k ≠ snapshot.key) :
      (s.writeAll zadds).zset (.temporary k) = s.zset (.temporary k) := by
    refine zset_writeAll_of_keys fun w hw hkey => ?_
    rw [hzadds] at hw
    obtain ⟨e, -, rfl⟩ := List.mem_map.mp hw
    exact hk (SortedSetKey.temporary.inj (Key.sortedSet.inj hkey)).symm
  refine Draining.writeAll h ?_ ?_ ?_ <;>
    rw [Store.writeAll_append, Store.writeAll_cons, hexpirations, Write.effect, Store.setZset_zset]
  · rw [if_neg (by simpa using hkeys.additions_ne.symm), hzadds, zset_writeAll_zadds,
      Draining.snapshot_eq h]
  · rw [if_pos rfl, hframe hkeys.additions_ne, Draining.additions_eq h]
  · rw [if_neg (by simpa using hkeys.apart.symm), hframe hkeys.removals_ne, Draining.removals_eq h]

/-- A chunk of the removals is taken from the snapshot. -/
theorem remove {ids : List String} {expirations : List Write}
    (hexpirations : ∀ s : Store, s.writeAll expirations = s) :
    Draining i calm snapshot additionsKey removalsKey (snap.eraseAll ids) additions
      (removals.eraseAll ids)
      (s.writeAll (.zrem (.temporary snapshot.key) ids :: .zrem (.temporary removalsKey) ids ::
        expirations)) := by
  have hne := hkeys.apart
  have hne₁ := hkeys.additions_ne
  have hne₂ := hkeys.removals_ne
  refine Draining.writeAll h ?_ ?_ ?_ <;>
    simp only [Store.writeAll_cons, hexpirations, Write.effect, Store.setZset_zset,
      SortedSetKey.temporary.injEq, if_false, if_true, hne, hne₁, hne₂, hne₂.symm,
      Draining.snapshot_eq h, Draining.additions_eq h, Draining.removals_eq h]

end Drawn

/-- What is left of a set when nothing is left to take. -/
theorem mem_of_take_eq_nil {z : ZSet} {taken : List String}
    (h : (z.eraseAll taken).entries.take sourceChunkSize = []) {id : String} (hid : id ∈ z) :
    id ∈ taken := by
  by_contra hnot
  have hmem := SortedSet.mem_eraseAll.mpr ⟨hnot, hid⟩
  rw [SortedSet.mem_iff_members, SortedSet.members] at hmem
  rcases List.take_eq_nil_iff.mp h with hzero | hempty
  · cases hzero
  · rw [hempty] at hmem
    cases hmem

/-- Taking a chunk leaves fewer. -/
theorem card_eraseAll_chunk_lt {z : ZSet} (h : z.entries.take sourceChunkSize ≠ []) :
    (z.eraseAll ((z.entries.take sourceChunkSize).map Prod.fst)).card < z.card := by
  rw [List.map_take, ← SortedSet.members, SortedSet.card_eraseAll_take, sourceChunkSize]
  have hpos : 0 < z.card := by
    rw [Nat.pos_iff_ne_zero]
    intro hzero
    exact h (List.take_eq_nil_iff.mpr (Or.inr (List.length_eq_zero_iff.mp hzero)))
  omega

/-- The first `taken` additions are in the snapshot, with their scores. -/
structure Added (snap₀ additions : ZSet) (taken : List String) (snap : ZSet) : Prop where
  mem : ∀ id ∈ taken, id ∈ additions
  score : ∀ id, snap.score id = if id ∈ taken then additions.score id else snap₀.score id

/-- Before anything is added the snapshot is the old one. -/
theorem Added.nil : Added snap₀ additions [] snap₀ := ⟨by simp, by simp⟩

/-- A chunk more. -/
theorem Added.append {taken : List String} {scores : List (String × ℚ)}
    (h : Added snap₀ additions taken snap)
    (hscores : scores = (additions.eraseAll taken).entries.take sourceChunkSize) :
    Added snap₀ additions (taken ++ scores.map Prod.fst) (snap.insertAll scores) := by
  have hentry {e : String × ℚ} (he : e ∈ scores) : additions.score e.1 = some e.2 := by
    rw [hscores] at he
    have hscore := SortedSet.score_eq_some_iff.mpr (List.mem_of_mem_take he)
    rw [SortedSet.score_eraseAll] at hscore
    split at hscore
    · cases hscore
    · exact hscore
  have hnodup : (scores.map Prod.fst).Nodup := by
    rw [hscores, List.map_take]
    exact (additions.eraseAll taken).nodup.sublist (List.take_sublist _ _)
  refine ⟨fun id hid => ?_, fun id => ?_⟩
  · rcases List.mem_append.mp hid with hid | hid
    · exact h.mem id hid
    · obtain ⟨e, he, rfl⟩ := List.mem_map.mp hid
      exact SortedSet.mem_of_score (hentry he)
  · by_cases hid : id ∈ scores.map Prod.fst
    · obtain ⟨e, he, rfl⟩ := List.mem_map.mp hid
      rw [SortedSet.score_insertAll_of_mem hnodup he, if_pos (List.mem_append_right _ hid), hentry he]
    · rw [SortedSet.score_insertAll_of_not_mem hid, h.score]
      simp only [List.mem_append, hid, or_false]

/-- Adding members empties no snapshot. -/
theorem Added.alive {taken : List String} (h : Added snap₀ additions taken snap)
    (halive : 0 < snap₀.card ∨ n = 0) : 0 < snap.card ∨ n = 0 := by
  refine halive.imp_left fun hcard => ?_
  obtain ⟨id, hid⟩ := SortedSet.card_pos_iff.mp hcard
  refine SortedSet.card_pos_iff.mpr ⟨id, ?_⟩
  rw [← SortedSet.score_isSome_iff, h.score]
  split
  · exact SortedSet.score_isSome_iff.mpr (h.mem id ‹_›)
  · exact SortedSet.score_isSome_iff.mpr hid

/-! ## The two loops -/

section Loops

variable {fuel : ℕ} {expirations : List Write} {x : Recorded Command Store}
  (hkeys : Drawn i snapshot additionsKey removalsKey)
  (hexpirations : ∀ s : Store, s.writeAll expirations = s)

include hkeys

/-- What is left to drain stays. -/
theorem stable_draining : (refreshing t snapshot i n calm).Stable
    (Draining i calm snapshot additionsKey removalsKey snap additions removals) := hkeys.own.stable

/-- The first additions, as the array the source builds from them: none of them is an integer-like
key. -/
theorem refreshing_scores (hadditions : ∀ id ∈ additions, isIntegerKey id = false)
    (hs : Draining i calm snapshot additionsKey removalsKey snap additions removals s) :
    wp (exec scan i) (refreshing t snapshot i n calm)
      (sortedSetScores (.temporary additionsKey) 0 (sourceChunkSize - 1) false)
      (fun scores s => scores = additions.entries.take sourceChunkSize ∧
        Draining i calm snapshot additionsKey removalsKey snap additions removals s)
      (fun e _ => Raises calm lock e) s := by
  refine wp_bind_of ((reads_refreshing (stable_draining hkeys) fun _ h => h.calm).command
    (c := .zrange (.temporary additionsKey) 0 (sourceChunkSize - 1)) (fun _ => rfl) hs) ?_
  rintro _ s ⟨rfl, hs⟩
  refine ⟨?_, hs⟩
  rw [Command.answer, Draining.additions_eq hs, List.drop_zero]
  refine List.filter_eq_self.mpr fun e he => ?_
  have hmem : e.1 ∈ additions :=
    SortedSet.mem_iff_members.mpr (List.mem_map_of_mem (List.mem_of_mem_take he))
  simp [hadditions e.1 hmem]

/-- The first removals. -/
theorem refreshing_ids
    (hs : Draining i calm snapshot additionsKey removalsKey snap additions removals s) :
    wp (exec scan i) (refreshing t snapshot i n calm)
      (zrange (.temporary removalsKey) 0 (sourceChunkSize - 1))
      (fun ids s => ids = (removals.entries.take sourceChunkSize).map Prod.fst ∧
        Draining i calm snapshot additionsKey removalsKey snap additions removals s)
      (fun e _ => Raises calm lock e) s := by
  refine wp_bind_of ((reads_refreshing (stable_draining hkeys) fun _ h => h.calm).command
    (c := .zrange (.temporary removalsKey) 0 (sourceChunkSize - 1)) (fun _ => rfl) hs) ?_
  rintro _ s ⟨rfl, hs⟩
  refine ⟨?_, hs⟩
  rw [Command.answer, Draining.removals_eq hs, List.drop_zero]
  rfl

include hexpirations

/-- **The additions** go over to the snapshot, all of them. -/
theorem recorded_add (hcount : 0 < snap₀.card ∨ snapshot.count = 0)
    (hadditions : ∀ id ∈ additions, isIntegerKey id = false) (hfuel : cut ∨ additions.card < fuel)
    (hx : Draining i calm snapshot additionsKey removalsKey snap₀ additions removals x.1) :
    wpCut cut (recording (exec scan i)) (refreshing t snapshot i n calm).recorded
      (Prog.iterate fuel (fun _ => do
        let scores ← sortedSetScores (.temporary additionsKey) 0 (sourceChunkSize - 1) false
        if scores = [] then return .inr ()
        refreshHeartbeat t snapshot lock
        transaction working fun _ =>
          scores.map (fun e => .zadd (.temporary snapshot.key) e.2 e.1) ++
            .zrem (.temporary additionsKey) (scores.map Prod.fst) :: expirations
        return .inl ()) ())
      (fun _ y => ∃ snap taken additions', Added snap₀ additions taken snap ∧
        (∀ id ∈ additions, id ∈ taken) ∧
        Draining i calm snapshot additionsKey removalsKey snap additions' removals y.1 ∧ x.2 <:+ y.2)
      (fun e _ => Raises calm lock e) x := by
  -- The variant is the number of additions that are left.
  refine wpCut_iterate (I := fun _ m y => ∃ snap taken, Added snap₀ additions taken snap ∧
    Draining i calm snapshot additionsKey removalsKey snap (additions.eraseAll taken) removals y.1 ∧
      m = (additions.eraseAll taken).card ∧ x.2 <:+ y.2) ?_ hfuel ⟨snap₀, [], .nil, ?_, ?_,
        List.suffix_refl _⟩
  · rintro _ m y ⟨snap, taken, hadded, hy, rfl, hsuffix⟩
    have htexts : ∀ id ∈ additions.eraseAll taken, isIntegerKey id = false := fun id hid =>
      hadditions id (SortedSet.mem_eraseAll.mp hid).2
    refine wpCut_bind_of (refreshing_recorded (Or.inr (halting_command.bind fun _ => trivial))
      (refreshing_scores hkeys htexts hy)) ?_
    rintro scores y₁ ⟨⟨hscores, hy₁⟩, hsuffix₁⟩
    refine wpCut_ite (fun hnil => ?_) fun hnil => ?_
    · exact ⟨snap, taken, _, hadded, fun id => mem_of_take_eq_nil (hscores ▸ hnil), hy₁,
        hsuffix.trans hsuffix₁⟩
    refine wpCut_bind_of (refreshing_recorded (Or.inr halting_refreshHeartbeat)
      (refreshing_heartbeat (stable_draining hkeys) (fun _ h => h.calm) (fun s hs => ?_) hy₁)) ?_
    · rw [Draining.snapshot_eq hs]
      exact hadded.alive hcount
    rintro _ y₂ ⟨hy₂, hsuffix₂⟩
    refine wpCut_bind_of (refreshing_transaction (stable_draining hkeys) (fun _ h => h.calm)
      (fun s hs => hkeys.add hs hexpirations) hy₂) ?_
    rintro _ y₃ ⟨-, -, hy₃, hsuffix₃⟩
    rw [← SortedSet.eraseAll_append] at hy₃
    refine ⟨_, ?_, _, _, hadded.append hscores, hy₃, rfl,
      ((hsuffix.trans hsuffix₁).trans hsuffix₂).trans hsuffix₃⟩
    rw [SortedSet.eraseAll_append, hscores]
    exact card_eraseAll_chunk_lt (hscores ▸ hnil)
  · rw [SortedSet.eraseAll_nil]
    exact hx
  · rw [SortedSet.eraseAll_nil]

/-- **The removals** are taken from the snapshot, all of them. -/
theorem recorded_remove (hremovals : ∀ id ∈ removals, id ∈ snap) (hfuel : cut ∨ removals.card < fuel)
    (hx : Draining i calm snapshot additionsKey removalsKey snap additions removals x.1) :
    wpCut cut (recording (exec scan i)) (refreshing t snapshot i n calm).recorded
      (Prog.iterate fuel (fun _ => do
        let ids ← zrange (.temporary removalsKey) 0 (sourceChunkSize - 1)
        if ids = [] then return .inr ()
        refreshHeartbeat t snapshot lock
        transaction working fun _ =>
          .zrem (.temporary snapshot.key) ids :: .zrem (.temporary removalsKey) ids :: expirations
        return .inl ()) ())
      (fun _ y => ∃ removed removals', (∀ id, id ∈ removed ↔ id ∈ removals) ∧
        Draining i calm snapshot additionsKey removalsKey (snap.eraseAll removed) additions removals'
          y.1 ∧ x.2 <:+ y.2)
      (fun e _ => Raises calm lock e) x := by
  refine wpCut_iterate (I := fun _ m y => ∃ removed, (∀ id ∈ removed, id ∈ removals) ∧
    Draining i calm snapshot additionsKey removalsKey (snap.eraseAll removed) additions
      (removals.eraseAll removed) y.1 ∧ m = (removals.eraseAll removed).card ∧ x.2 <:+ y.2) ?_ hfuel
        ⟨[], by simp, ?_, ?_, List.suffix_refl _⟩
  · rintro _ m y ⟨removed, hremoved, hy, rfl, hsuffix⟩
    refine wpCut_bind_of (refreshing_recorded (Or.inr (halting_command.bind fun _ => trivial))
      (refreshing_ids hkeys hy)) ?_
    rintro ids y₁ ⟨⟨hids, hy₁⟩, hsuffix₁⟩
    refine wpCut_ite (fun hnil => ?_) fun hnil => ?_
    · exact ⟨removed, _, fun id => ⟨hremoved id, mem_of_take_eq_nil
        (List.map_eq_nil_iff.mp (hids ▸ hnil))⟩, hy₁, hsuffix.trans hsuffix₁⟩
    -- What is still to be removed is still in the snapshot, so the snapshot is not empty.
    have halive : 0 < (snap.eraseAll removed).card := by
      obtain ⟨id, hid⟩ := List.exists_mem_of_ne_nil ids hnil
      rw [hids] at hid
      obtain ⟨e, he, rfl⟩ := List.mem_map.mp hid
      have hmem : e.1 ∈ removals.eraseAll removed :=
        SortedSet.mem_iff_members.mpr (List.mem_map_of_mem (List.mem_of_mem_take he))
      obtain ⟨hnot, hmem⟩ := SortedSet.mem_eraseAll.mp hmem
      exact SortedSet.card_pos_iff.mpr ⟨e.1, SortedSet.mem_eraseAll.mpr ⟨hnot, hremovals e.1 hmem⟩⟩
    refine wpCut_bind_of (refreshing_recorded (Or.inr halting_refreshHeartbeat)
      (refreshing_heartbeat (stable_draining hkeys) (fun _ h => h.calm) (fun s hs => ?_) hy₁)) ?_
    · rw [Draining.snapshot_eq hs]
      exact Or.inl halive
    rintro _ y₂ ⟨hy₂, hsuffix₂⟩
    refine wpCut_bind_of (refreshing_transaction (stable_draining hkeys) (fun _ h => h.calm)
      (fun s hs => hkeys.remove hs hexpirations) hy₂) ?_
    rintro _ y₃ ⟨-, -, hy₃, hsuffix₃⟩
    rw [← SortedSet.eraseAll_append, ← SortedSet.eraseAll_append] at hy₃
    refine ⟨_, ?_, removed ++ ids, fun id hid => ?_, hy₃, rfl,
      ((hsuffix.trans hsuffix₁).trans hsuffix₂).trans hsuffix₃⟩
    · rw [SortedSet.eraseAll_append, hids]
      refine card_eraseAll_chunk_lt fun hzero => hnil ?_
      rw [hids, hzero, List.map_nil]
    · rcases List.mem_append.mp hid with hid | hid
      · exact hremoved id hid
      · rw [hids] at hid
        obtain ⟨e, he, rfl⟩ := List.mem_map.mp hid
        have hmem : e.1 ∈ removals.eraseAll removed :=
          SortedSet.mem_iff_members.mpr (List.mem_map_of_mem (List.mem_of_mem_take he))
        exact (SortedSet.mem_eraseAll.mp hmem).2
  · rw [SortedSet.eraseAll_nil, SortedSet.eraseAll_nil]
    exact hx
  · rw [SortedSet.eraseAll_nil]

end Loops

/-! ## A whole refresh -/

/-- The transaction that stores what has been added to the source and removed from it. -/
def deltaTransaction (t : RetainedJobType) (snapshot : SourceSnapshot)
    (additionsKey removalsKey : Token) : Command :=
  .write [.zdiffstore (.temporary additionsKey) [.source t, .temporary snapshot.key],
    .zdiffstore (.temporary removalsKey) [.temporary snapshot.key, .source t],
    expireTemporary additionsKey temporaryKeyTtlSeconds,
    expireTemporary removalsKey temporaryKeyTtlSeconds]

/-- A snapshot under a drawn key whose size is the recorded count. -/
structure Counted (snapshot : SourceSnapshot) (i : ProcessId) (s : Store) : Prop where
  count : snapshot.count = (s.zset (.temporary snapshot.key)).card
  drawn : snapshot.key.pid = i → snapshot.key.serial < s.serial i

/-- The snapshot has the members the source had in the store `at₁`: the ones it had before with their old
scores, the others with the scores of the source. -/
structure Refreshed (t : RetainedJobType) (snapshot : SourceSnapshot) (i : ProcessId) (snap₀ : ZSet)
    (at₁ : Store) (result : SourceSnapshot) (s : Store) : Prop where
  key : result.key = snapshot.key
  counted : Counted result i s
  score : ∀ id, (s.zset (.temporary snapshot.key)).score id =
    if id ∈ at₁.zset (.source t) then (snap₀.score id).or ((at₁.zset (.source t)).score id) else none

/-- Adding the one difference and removing the other one leaves the members of the source. -/
theorem Added.score_refreshed {src : ZSet} {taken removed : List String}
    (h : Added snap₀ (diffStore [src, snap₀]) taken snap)
    (htaken : ∀ id ∈ diffStore [src, snap₀], id ∈ taken)
    (hremoved : ∀ id, id ∈ removed ↔ id ∈ diffStore [snap₀, src]) (id : String) :
    (snap.eraseAll removed).score id =
      if id ∈ src then (snap₀.score id).or (src.score id) else none := by
  have hadded : id ∈ taken ↔ id ∈ src ∧ id ∉ snap₀ := by
    refine ⟨fun hid => ?_, fun hid => htaken id ?_⟩
    · simpa [mem_diffStore] using h.mem id hid
    · simpa [mem_diffStore] using hid
  have hgone : id ∈ removed ↔ id ∈ snap₀ ∧ id ∉ src := by simp [hremoved, mem_diffStore]
  rw [SortedSet.score_eraseAll, h.score]
  by_cases hsrc : id ∈ src <;> by_cases hsnap : id ∈ snap₀
  · obtain ⟨y, hy⟩ := SortedSet.exists_score hsnap
    simp [hadded, hgone, hsrc, hsnap, hy]
  · have hnone : snap₀.score id = none := SortedSet.score_eq_none_iff.mpr hsnap
    simp [hadded, hgone, hsrc, hsnap, hnone, score_diffStore]
  · simp [hgone, hsrc, hsnap]
  · have hnone : snap₀.score id = none := SortedSet.score_eq_none_iff.mpr hsnap
    simp [hadded, hgone, hsrc, hsnap, hnone]

variable (index : RetainedJobIndex)

/-- **The refresh** along every run, with a record of its commands. -/
theorem recorded_refreshSourceSnapshot {x : Recorded Command Store} (hcounted : Counted snapshot i x.1)
    (hcalm : calm → x.1.failing = false) (hsource : Texts n (x.1.zset (.source t)))
    (hfuel : cut ∨ n < index.fuel ∧ snapshot.count < index.fuel) :
    wpCut cut (recording (exec scan i)) (refreshing t snapshot i n calm).recorded
      (index.refreshSourceSnapshot working t snapshot (refreshHeartbeat t snapshot lock))
      (fun result y => ∃ additionsKey removalsKey at₁,
        (deltaTransaction t snapshot additionsKey removalsKey, at₁) ∈ y.2 ∧
          Refreshed t snapshot i (x.1.zset (.temporary snapshot.key)) at₁ result y.1)
      (fun e _ => Raises calm lock e) x := by
  set snap₀ := x.1.zset (.temporary snapshot.key) with hsnap₀
  have hfirst : Holding i calm [(snapshot.key, snap₀)] x.1 :=
    ⟨by simp [hsnap₀], by simpa using hcounted.drawn, hcalm⟩
  have hown₁ : Own snapshot i [(snapshot.key, snap₀)] := by simp [Own]
  unfold refreshSourceSnapshot
  -- the two keys of the deltas are drawn, and differ from each other and from the snapshot
  refine wpCut_bind_of (refreshing_recorded (Or.inr halting_command)
    (refreshing_temporaryKey hown₁ hfirst hsource)) ?_
  rintro additionsKey y₁ ⟨⟨hpid₁, hne₁, hsource₁, z₁, hy₁⟩, hsuffix₁⟩
  have hown₂ : Own snapshot i [(additionsKey, z₁), (snapshot.key, snap₀)] := by
    simp [Own, hpid₁]
  refine wpCut_bind_of (refreshing_recorded (Or.inr halting_command)
    (refreshing_temporaryKey hown₂ hy₁ hsource₁)) ?_
  rintro removalsKey y₂ ⟨⟨hpid₂, hne₂, hsource₂, z₂, hy₂⟩, hsuffix₂⟩
  have hkeys : Drawn i snapshot additionsKey removalsKey := by
    refine ⟨hpid₁, hpid₂, ?_, ?_, ?_⟩
    · exact hne₂ (additionsKey, z₁) (by simp)
    · exact (hne₁ (snapshot.key, snap₀) (by simp)).symm
    · exact (hne₂ (snapshot.key, snap₀) (by simp)).symm
  have hexpirations : ∀ s : Store, s.writeAll [expireTemporary additionsKey temporaryKeyTtlSeconds,
      expireTemporary removalsKey temporaryKeyTtlSeconds] = s := fun _ => rfl
  refine wpCut_tryFinally_of (Q := fun result y => ∃ at₁ snap additions' removals',
    (deltaTransaction t snapshot additionsKey removalsKey, at₁) ∈ y.2 ∧
      result = ⟨snapshot.key, snap.card⟩ ∧
      (∀ id, snap.score id = if id ∈ at₁.zset (.source t) then
        (snap₀.score id).or ((at₁.zset (.source t)).score id) else none) ∧
      Draining i calm snapshot additionsKey removalsKey snap additions' removals' y.1)
    (E := fun e _ => Raises calm lock e) ?_ ?_ ?_
  · -- the delta transaction fixes the source `at₁` the refresh goes by
    refine wpCut_bind_of (refreshing_transaction (Ψ := fun at₁ s => Texts n (at₁.zset (.source t)) ∧
      Draining i calm snapshot additionsKey removalsKey snap₀
        (diffStore [at₁.zset (.source t), snap₀]) (diffStore [snap₀, at₁.zset (.source t)]) s)
      ((stable_draining hkeys).and stable_source) (fun _ h => h.1.calm)
      (fun s hs => ⟨hs.2, hkeys.delta hs.1 hexpirations⟩) ⟨hy₂, hsource₂⟩) ?_
    rintro _ y₃ ⟨at₁, hdelta, ⟨htexts, hy₃⟩, -⟩
    set src := at₁.zset (.source t) with hsrc
    have halive : 0 < snap₀.card ∨ snapshot.count = 0 := by
      rw [hcounted.count, ← hsnap₀]
      exact (Nat.eq_zero_or_pos snap₀.card).symm
    refine wpCut_bind_of (refreshing_recorded (Or.inr halting_refreshHeartbeat)
      (refreshing_heartbeat (stable_draining hkeys) (fun _ h => h.calm)
        (fun s hs => by rwa [Draining.snapshot_eq hs]) hy₃)) ?_
    rintro _ y₄ ⟨hy₄, hsuffix₄⟩
    -- what the source has gained is added first
    refine wpCut_bind_of (recorded_add hkeys (fun _ => rfl) halive
      (fun id hid => htexts.2 id (mem_diffStore.mp hid).1)
      (hfuel.imp_right fun hfuel => (card_diffStore_le.trans htexts.1).trans_lt hfuel.1) hy₄) ?_
    rintro _ y₅ ⟨snap, taken, additions', hadded, htaken, hy₅, hsuffix₅⟩
    refine wpCut_bind_of (recorded_remove hkeys (fun _ => rfl) (fun id hid => ?_)
      (hfuel.imp_right fun hfuel => card_diffStore_le.trans_lt (hcounted.count ▸ hfuel.2)) hy₅) ?_
    · -- A removal was in the snapshot before, and adding takes nothing away.
      have hmem := (mem_diffStore.mp hid).1
      rw [← SortedSet.score_isSome_iff, hadded.score]
      split
      · exact SortedSet.score_isSome_iff.mpr (hadded.mem id ‹_›)
      · exact SortedSet.score_isSome_iff.mpr hmem
    rintro _ y₆ ⟨removed, removals', hremoved, hy₆, hsuffix₆⟩
    -- the members that are left are counted, and the snapshot is renewed
    refine wpCut_bind_of (refreshing_recorded (Or.inr halting_command)
      ((reads_refreshing (stable_draining hkeys) fun _ h => h.calm).command
        (c := .zcard (.temporary snapshot.key)) (fun _ => rfl) hy₆)) ?_
    rintro count y₇ ⟨⟨hcount, hy₇⟩, hsuffix₇⟩
    have hcard : count = (snap.eraseAll removed).card := by
      rw [hcount, Command.answer, Draining.snapshot_eq hy₇]
    refine wpCut_bind_of (refreshing_recorded (Or.inr (renews_renewSourceSnapshot.halts _))
      (refreshing_renewSourceSnapshot (stable_draining hkeys) (fun _ h => h.calm)
        (fun s hs => ?_) hy₇)) ?_
    · rw [Draining.snapshot_eq hs, hcard]
      exact (Nat.eq_zero_or_pos _).symm
    rintro _ y₈ ⟨hy₈, hsuffix₈⟩
    refine ⟨at₁, _, _, _, ?_, by rw [hcard], hadded.score_refreshed htaken hremoved, hy₈⟩
    exact ((((hsuffix₄.trans hsuffix₅).trans hsuffix₆).trans hsuffix₇).trans hsuffix₈).subset hdelta
  · -- the deltas are deleted where the refresh has returned
    rintro result y ⟨at₁, snap, additions', removals', hdelta, rfl, hscore, hy⟩
    have hown : Own snapshot i [(snapshot.key, snap)] := by simp [Own]
    have hown' : Own snapshot i [(removalsKey, removals'), (snapshot.key, snap)] := by
      simp [Own, hpid₂]
    have hheld : Holding i calm [(removalsKey, removals'), (snapshot.key, snap)] y.1 :=
      ⟨fun e he => hy.held e (by simp_all; tauto), fun e he => hy.drawn e (by simp_all; tauto), hy.calm⟩
    refine wpCut_bind_of (refreshing_recorded (Or.inr halting_deleteQuietly)
      (refreshing_deleteQuietly (k := additionsKey) hown' ?_ hheld)) ?_
    · simp [hkeys.apart.symm, hkeys.additions_ne.symm]
    rintro _ y' ⟨hy', hsuffix⟩
    have hheld' : Holding i calm [(snapshot.key, snap)] y'.1 :=
      ⟨fun e he => hy'.held e (List.mem_cons_of_mem _ he),
        fun e he => hy'.drawn e (List.mem_cons_of_mem _ he), hy'.calm⟩
    refine wpCut_mono (fun _ y'' h => ?_) (fun _ _ h => h)
      (refreshing_recorded (Or.inr halting_deleteQuietly)
        (refreshing_deleteQuietly (k := removalsKey) hown ?_ hheld'))
    · obtain ⟨hy'', hsuffix'⟩ := h
      have hsnap : y''.1.zset (.temporary snapshot.key) = snap :=
        hy''.held (snapshot.key, snap) (by simp)
      refine ⟨additionsKey, removalsKey, at₁, (hsuffix.trans hsuffix').subset hdelta, rfl, ⟨?_, ?_⟩, ?_⟩
      · rw [hsnap]
      · exact hy''.drawn (snapshot.key, snap) (by simp)
      · rw [hsnap]
        exact hscore
    · simp [hkeys.removals_ne.symm]
  · -- and where it has thrown, which the deletions do not change
    intro e y he
    have hquiet (k : Token) (y : Recorded Command Store) :
        wpCut cut (recording (exec scan i)) (refreshing t snapshot i n calm).recorded (deleteQuietly k)
          (fun _ _ => True) (fun e _ => Raises calm lock e) y :=
      wpCut_mono (fun _ _ _ => trivial) (fun _ _ h => h)
        (refreshing_recorded (Q := fun _ _ => True) (Or.inr halting_deleteQuietly)
          (wp_tryCatch.mpr (wp_command.mpr fun _ _ _ => ⟨trivial, fun _ => trivial, fun _ => trivial⟩)))
    exact wpCut_bind_of (hquiet additionsKey y) fun _ y' _ =>
      wpCut_mono (fun _ _ _ => he) (fun _ _ h => h) (hquiet removalsKey y')

/-- A snapshot is counted as soon as it is there. -/
theorem materializeSourceSnapshot_counted (hcalm : calm → s.failing = false)
    (hsource : Texts n (s.zset (.source t))) :
    wp (exec scan i) (refreshing t snapshot i n calm) (materializeSourceSnapshot working t)
      (fun result s => Counted result i s) (fun e _ => Raises calm lock e) s := by
  have hnone : Own snapshot i [] := fun _ he => absurd he List.not_mem_nil
  refine wp_bind_of (refreshing_temporaryKey hnone ⟨by simp, by simp, hcalm⟩ hsource) ?_
  rintro key s ⟨hpid, -, -, z, hs⟩
  have hown {z : ZSet} : Own snapshot i [(key, z)] := by simp [Own, hpid]
  refine wp_bind_of (Q := fun _ s => ∃ z, Holding i calm [(key, z)] s) ?_ ?_
  · refine wp_bind_of ((reads_refreshing hown.stable fun _ h => h.calm).snapshot hs) ?_
    rintro _ s ⟨-, hs⟩
    refine wp_command.mpr fun s' hr _ => ?_
    have hs' := hown.stable [] s s' hr hs
    have hwritten (ws : List Write) :
        Holding i calm [(key, (s'.writeAll ws).zset (.temporary key))] (s'.writeAll ws) := by
      refine hs'.writeAll (List.Subset.refl _) fun e he => ?_
      obtain rfl := List.mem_singleton.mp he
      rfl
    exact ⟨trivial, raises_connection hs'.calm, fun _ => ⟨_, hwritten _⟩⟩
  · rintro _ s ⟨z, hs⟩
    refine wp_bind_of ((reads_refreshing hown.stable fun _ h => h.calm).command
      (c := .zcard (.temporary key)) (fun _ => rfl) hs) ?_
    rintro count s ⟨hcount, hs⟩
    exact ⟨hcount, hs.drawn (key, z) (by simp)⟩

/-- The runs of a refresh among the others, on the record. -/
abbrev RefreshRun (index : RetainedJobIndex) (scan : ScanOrder) (i : ProcessId) (t : RetainedJobType)
    (working : Working) (snapshot : SourceSnapshot) (lock : Option Token) (n : ℕ) (calm : Prop)
    (s : Store) (y : Redis SourceSnapshot × Recorded Command Store) : Prop :=
  Run (recording (exec scan i)) (refreshing t snapshot i n calm).recorded.rely
    (refreshing t snapshot i n calm).recorded.assume
    (index.refreshSourceSnapshot working t snapshot (refreshHeartbeat t snapshot lock), (s, [])) y

/-- **A refresh** is never cut off and never takes the snapshot for an expired one: where it throws, the
connection has failed or the lock is lost. Where it returns, the snapshot has exactly the members the
source had in the delta transaction, the ones it had before with their old scores and the others with
those of the source, and the recorded count is its size. -/
theorem refreshSourceSnapshot_refreshes (index : RetainedJobIndex) (scan : ScanOrder) (i : ProcessId)
    (t : RetainedJobType) (working : Working) (snapshot : SourceSnapshot) (lock : Option Token) (n : ℕ)
    (calm : Prop) (s : Store) (hcounted : Counted snapshot i s) (hcalm : calm → s.failing = false)
    (hsource : Texts n (s.zset (.source t))) :
    (n < index.fuel ∧ snapshot.count < index.fuel →
      ∀ y, RefreshRun index scan i t working snapshot lock n calm s y → y.1 ≠ .stopped) ∧
    (∀ e y, RefreshRun index scan i t working snapshot lock n calm s (.fail e, y) →
      Raises calm lock e ∧
        e ≠ .runtime "The retained job synchronization source snapshot expired.") ∧
    ∀ result y, RefreshRun index scan i t working snapshot lock n calm s (.ret result, y) →
      ∃ additionsKey removalsKey at₁,
        (deltaTransaction t snapshot additionsKey removalsKey, at₁) ∈ y.2 ∧
          Refreshed t snapshot i (s.zset (.temporary snapshot.key)) at₁ result y.1 := by
  have hstable (result : SourceSnapshot) : (refreshing t snapshot i n calm).recorded.Stable
      fun y => ∃ additionsKey removalsKey at₁,
        (deltaTransaction t snapshot additionsKey removalsKey, at₁) ∈ y.2 ∧
          Refreshed t snapshot i (s.zset (.temporary snapshot.key)) at₁ result y.1 := by
    rintro _ y y' ⟨hr, hhistory⟩ ⟨additionsKey, removalsKey, at₁, hdelta, hkey, hcount, hscore⟩
    have hsnap := hr.temporary snapshot.key (Or.inl rfl)
    rw [hhistory]
    refine ⟨additionsKey, removalsKey, at₁, hdelta, hkey, ⟨?_, ?_⟩, ?_⟩
    · rw [hcount.count, hkey, hsnap]
    · exact fun hpid => (hcount.drawn hpid).trans_le hr.serial
    · rw [hsnap]
      exact hscore
  have hsound (cut : Prop) (hfuel : cut ∨ n < index.fuel ∧ snapshot.count < index.fuel)
      {y : Redis SourceSnapshot × Recorded Command Store}
      (hrun : RefreshRun index scan i t working snapshot lock n calm s y) :
      wpCut cut (recording (exec scan i)) (refreshing t snapshot i n calm).recorded y.1
        (fun result y => ∃ additionsKey removalsKey at₁,
          (deltaTransaction t snapshot additionsKey removalsKey, at₁) ∈ y.2 ∧
            Refreshed t snapshot i (s.zset (.temporary snapshot.key)) at₁ result y.1)
        (fun e _ => Raises calm lock e) y.2 :=
    Run.sound_cut (D := (refreshing t snapshot i n calm).recorded)
      (fun result y y' hr hy => hstable result [] y y' hr hy) (fun e _ _ _ h => h) hrun
      (recorded_refreshSourceSnapshot index (x := (s, [])) hcounted hcalm hsource hfuel)
  -- A cut run is ruled out by the fuel, the other two clauses hold of cut runs as well.
  refine ⟨fun hfuel y hrun hstopped => ?_, fun e y hrun => ?_, fun result y hrun => ?_⟩
  · have hcut := hsound False (Or.inr hfuel) hrun
    rw [hstopped] at hcut
    exact hcut
  · have hraises : Raises calm lock e := hsound True (Or.inl trivial) hrun
    refine ⟨hraises, fun he => ?_⟩
    subst he
    obtain ⟨h, -⟩ | ⟨-, h⟩ := hraises
    · cases h
    · exact absurd (Failure.runtime.inj h) (by decide)
  · exact hsound True (Or.inl trivial) hrun

deriving instance DecidableEq for SourceSnapshot

/-- A snapshot of two jobs, of which the source has kept one. -/
def outdatedSnapshot : SourceSnapshot := ⟨⟨1, 0⟩, 2⟩

/-- The source has also got a new job, and the score of the one it has kept has changed. -/
def outdatedStore : Store :=
  (Store.empty.setZset (.temporary outdatedSnapshot.key)
    ((∅ : ZSet).insertAll [("a", 1), ("b", 2)])).setZset (.source .completed)
      ((∅ : ZSet).insertAll [("b", 5), ("c", 3)])

/-- A snapshot that is out of date is refreshed. -/
theorem refreshSourceSnapshot_refreshes_outdated : ∃ result, ∃ y : Recorded Command Store,
    ∃ additionsKey removalsKey at₁,
      (deltaTransaction .completed outdatedSnapshot additionsKey removalsKey, at₁) ∈ y.2 ∧
        Refreshed .completed outdatedSnapshot 0 (outdatedStore.zset (.temporary outdatedSnapshot.key))
          at₁ result y.1 :=
  ⟨_, _, (refreshSourceSnapshot_refreshes ⟨10, 10⟩ .single 0 .completed none outdatedSnapshot none 2 True
    outdatedStore ⟨by decide, fun h => absurd h (by decide)⟩ (fun _ => rfl)
    ⟨by decide, by decide⟩).2.2 _ _
      (Prog.run_eval (C := fun _ _ => True) (fun _ _ _ _ => trivial) (Prod.ext (by decide +kernel) rfl)
        (Prog.along_true _ _))⟩

end RetainedJobIndex

end HorizonNewDawn

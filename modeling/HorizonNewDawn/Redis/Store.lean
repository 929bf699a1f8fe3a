import HorizonNewDawn.Collections.SortedSet
import HorizonNewDawn.Jobs.RetainedJobMetadata
import HorizonNewDawn.Program.Interleaving
import HorizonNewDawn.Redis.QueueStructures
import Mathlib.Data.String.Basic
import Mathlib.Algebra.Order.Ring.Rat

/-! # The Redis store of the retained-job index

The keys the retained-job index works with, the commands it sends and what they do. Every command
is atomic, a `MULTI` block is one command (`Command.write`), and so is each of the two Lua scripts
on the synchronization lock.

The store also holds what a process reads from elsewhere: the job repository, the live queue
structures, the clock and the random tokens. Random tokens are numbered for every process, so that
two draws never agree. A command fails with an exception, and then has no effect, where the store
says so (`Store.failing`); whoever models the world decides when that happens. -/

namespace HorizonNewDawn

/-- A Redis sorted set: string members with scores. -/
abbrev ZSet := SortedSet String ℚ

/-- A process of the application. -/
abbrev ProcessId := ℕ

/-- A random token: the process that drew it and how many that process had drawn before. -/
structure Token where
  pid : ProcessId
  serial : ℕ
  deriving DecidableEq, Repr

/-- The slots an index may be stored in: the legacy keys and the two generations (`GENERATIONS`). -/
inductive Generation
  | legacy
  | a
  | b
  deriving DecidableEq, Repr

/-- The published state of an index, `generation:revision`. -/
structure PublishedState where
  generation : Generation
  revision : Token
  deriving DecidableEq, Repr

/-! ## Keys -/

/-- The sorted sets. -/
inductive SortedSetKey
  | source (t : RetainedJobType)
  | projection (t : RetainedJobType) (g : Generation)
  | unresolved (t : RetainedJobType) (g : Generation)
  | facet (t : RetainedJobType) (g : Generation) (d : FacetDimension) (value : String)
  | temporary (token : Token)
  deriving DecidableEq

/-- A catalog: the set of the values of a dimension. -/
structure CatalogKey where
  type : RetainedJobType
  generation : Generation
  dimension : FacetDimension
  deriving DecidableEq

/-- Every key a command may write. -/
inductive Key
  | sortedSet (k : SortedSetKey)
  | catalog (k : CatalogKey)
  | metadata
  | lock (t : RetainedJobType)
  | published (t : RetainedJobType)
  | revision (t : RetainedJobType)
  | initialized (t : RetainedJobType) (g : Generation)
  | owner
  deriving DecidableEq

/-- The projection, unresolved, facet and catalog keys of a generation slot. -/
def Key.InSlot (t : RetainedJobType) (g : Generation) : Key → Prop
  | .sortedSet (.projection t' g') => t' = t ∧ g' = g
  | .sortedSet (.unresolved t' g') => t' = t ∧ g' = g
  | .sortedSet (.facet t' g' _ _) => t' = t ∧ g' = g
  | .catalog k => k.type = t ∧ k.generation = g
  | _ => False

/-- The keys of a retained index: its slots, its lock and its published state. -/
def Key.OfIndex (t : RetainedJobType) (k : Key) : Prop :=
  (∃ g, k.InSlot t g) ∨ k = .lock t ∨ k = .published t ∨ k = .revision t

instance (t : RetainedJobType) (g : Generation) (k : Key) : Decidable (k.InSlot t g) := by
  unfold Key.InSlot
  split <;> infer_instance

/-! ## The store -/

/-- The keys of the index, and what processes read from elsewhere. -/
structure Store where
  zset : SortedSetKey → ZSet
  catalog : CatalogKey → List String
  /-- The metadata hash, shared by the types; a later entry of an id does not count. -/
  metadata : List (String × RetainedJobMetadata)
  lock : RetainedJobType → Option Token
  published : RetainedJobType → Option PublishedState
  /-- The revision stored before generations existed (`synchronize-revision`). -/
  revision : RetainedJobType → Option Token
  initialized : RetainedJobType → Generation → Bool
  owner : Option String
  /-- How many tokens each process has drawn. -/
  serial : ProcessId → ℕ
  clock : ℚ
  /-- The next command fails with an exception. -/
  failing : Bool
  /-- What the job repository answers for a list of ids. -/
  repository : List String → List JobObject
  /-- The structures of the queue with a name on a connection, and the time of its server; nothing on a
  connection whose queues are no Redis queues. -/
  queues : String → String → Option (PendingJobStateIndex.Queue ℚ × ℚ)

namespace Store

/-- A store without any key. -/
def empty : Store where
  zset _ := ∅
  catalog _ := []
  metadata := []
  lock _ := none
  published _ := none
  revision _ := none
  initialized _ _ := false
  owner := none
  serial _ := 0
  clock := 0
  failing := false
  repository _ := []
  queues _ _ := none

/-- Change one sorted set. -/
def setZset (s : Store) (k : SortedSetKey) (z : ZSet) : Store :=
  { s with zset := Function.update s.zset k z }

/-- Change one catalog. -/
def setCatalog (s : Store) (k : CatalogKey) (c : List String) : Store :=
  { s with catalog := Function.update s.catalog k c }

/-- The metadata kept of an id. -/
def metadataOf (s : Store) (id : String) : Option RetainedJobMetadata :=
  (s.metadata.find? fun e => e.1 = id).map Prod.snd

/-- The published state, read off both keys: a missing published state falls back to the legacy
generation when a revision is stored. -/
def publishedState (s : Store) (t : RetainedJobType) : Option PublishedState :=
  s.published t <|> (s.revision t).map (⟨.legacy, ·⟩)

/-- The generation readers of an index use. -/
def publishedGeneration (s : Store) (t : RetainedJobType) : Generation :=
  (s.publishedState t).elim .legacy (·.generation)

/-- Two stores agree at a key. -/
def SameAt (s s' : Store) : Key → Prop
  | .sortedSet k => s'.zset k = s.zset k
  | .catalog k => s'.catalog k = s.catalog k
  | .metadata => s'.metadata = s.metadata
  | .lock t => s'.lock t = s.lock t
  | .published t => s'.published t = s.published t
  | .revision t => s'.revision t = s.revision t
  | .initialized t g => s'.initialized t g = s.initialized t g
  | .owner => s'.owner = s.owner

/-- The published state is told by two keys. -/
theorem publishedState_congr {s s' : Store} {t : RetainedJobType}
    (hp : s.SameAt s' (.published t)) (hr : s.SameAt s' (.revision t)) :
    s'.publishedState t = s.publishedState t := by
  rw [publishedState, publishedState, show s'.published t = s.published t from hp,
    show s'.revision t = s.revision t from hr]

/-- A key is the same in the same store. -/
theorem SameAt.refl (s : Store) (k : Key) : s.SameAt s k := by
  cases k <;> rfl

/-- A key that stays twice stays. -/
theorem SameAt.trans {s s' s'' : Store} {k : Key} (h : s.SameAt s' k) (h' : s'.SameAt s'' k) :
    s.SameAt s'' k := by
  cases k <;> exact Eq.trans h' h

end Store

/-! ## Operations on sorted sets over several keys -/

/-- The score of a member in an intersection: the weighted sum, where it is in every set. -/
def interScore (zs : List (ZSet × ℚ)) (id : String) : Option ℚ :=
  zs.foldr (fun z x => (z.1.score id).bind fun y => x.map fun x => z.2 * y + x) (some 0)

/-- The intersection of weighted sorted sets. -/
def interStore (zs : List (ZSet × ℚ)) : ZSet :=
  match zs with
  | [] => ∅
  | z :: zs => .ofFun z.1.members (interScore (z :: zs))

/-- The score of a member in a union: the sum over the sets it is in. -/
def unionScore (zs : List ZSet) (id : String) : Option ℚ :=
  zs.foldr (fun z x => match z.score id with
    | none => x
    | some y => some (y + x.getD 0)) none

/-- The union of sorted sets. -/
def unionStore (zs : List ZSet) : ZSet := .ofFun (zs.flatMap SortedSet.members) (unionScore zs)

/-- The members of the first sorted set that are in none of the others. -/
def diffStore (zs : List ZSet) : ZSet :=
  match zs with
  | [] => ∅
  | z :: zs => z.filter fun id _ => ∀ z' ∈ zs, id ∉ z'

/-- An intersection lacks what one of the sets lacks. -/
theorem interScore_eq_none_iff {zs : List (ZSet × ℚ)} {id : String} :
    interScore zs id = none ↔ ∃ z ∈ zs, id ∉ z.1 := by
  induction zs with
  | nil => simp [interScore]
  | cons z zs ih =>
      have hcons : interScore (z :: zs) id =
          (z.1.score id).bind fun y => (interScore zs id).map fun x => z.2 * y + x := rfl
      rw [hcons]
      cases hz : z.1.score id with
      | none =>
          have hnot : id ∉ z.1 := SortedSet.score_eq_none_iff.mp hz
          simp [hnot]
      | some y =>
          have hmem : id ∈ z.1 := SortedSet.mem_of_score hz
          simp [hmem, ← ih]

/-- **The intersection** has what all the sets have. -/
theorem mem_interStore {z : ZSet × ℚ} {zs : List (ZSet × ℚ)} {id : String} :
    id ∈ interStore (z :: zs) ↔ ∀ z' ∈ z :: zs, id ∈ z'.1 := by
  rw [← SortedSet.score_isSome_iff, interStore, SortedSet.score_ofFun]
  have hiff : ¬interScore (z :: zs) id = none ↔ ¬∃ z' ∈ z :: zs, id ∉ z'.1 :=
    interScore_eq_none_iff.not
  push Not at hiff
  by_cases h : id ∈ z.1
  · rw [if_pos (SortedSet.mem_iff_members.mp h), ← hiff, Option.isSome_iff_ne_none]
  · rw [if_neg (mt SortedSet.mem_iff_members.mpr h)]
    simp [h]

/-- With weight one on the first set and zero on the others, an intersection keeps the scores of
the first set. -/
theorem score_interStore_first {z : ZSet} {zs : List ZSet} {id : String} :
    (interStore ((z, 1) :: zs.map (·, 0))).score id =
      if ∀ z' ∈ zs, id ∈ z' then z.score id else none := by
  have hzero : interScore (zs.map (·, (0 : ℚ))) id = if ∀ z' ∈ zs, id ∈ z' then some 0 else none := by
    induction zs with
    | nil => rfl
    | cons z zs ih =>
        have hcons : interScore ((z :: zs).map (·, (0 : ℚ))) id =
            (z.score id).bind fun y =>
              (interScore (zs.map (·, (0 : ℚ))) id).map fun x => 0 * y + x := rfl
        rw [hcons, ih]
        cases hz : z.score id with
        | none =>
            have hnot : id ∉ z := SortedSet.score_eq_none_iff.mp hz
            simp [hnot]
        | some y =>
            have hmem : id ∈ z := SortedSet.mem_of_score hz
            by_cases h : ∀ z' ∈ zs, id ∈ z' <;> simp [hmem, h]
  have hcons : interScore ((z, 1) :: zs.map (·, (0 : ℚ))) id =
      (z.score id).bind fun y => (interScore (zs.map (·, (0 : ℚ))) id).map fun x => 1 * y + x := rfl
  rw [interStore, SortedSet.score_ofFun_of_forall, hcons, hzero]
  · cases hz : z.score id with
    | none => simp
    | some y => by_cases h : ∀ z' ∈ zs, id ∈ z' <;> simp [h]
  · intro i x hi
    by_contra hnot
    have hnone : interScore ((z, 1) :: zs.map (·, (0 : ℚ))) i = none :=
      interScore_eq_none_iff.mpr ⟨(z, 1), List.mem_cons_self, hnot⟩
    rw [hi] at hnone
    cases hnone

/-- A union has a score for what one of the sets has. -/
theorem unionScore_isSome_iff {zs : List ZSet} {id : String} :
    (unionScore zs id).isSome ↔ ∃ z ∈ zs, id ∈ z := by
  induction zs with
  | nil => simp [unionScore]
  | cons z zs ih =>
      have hcons : unionScore (z :: zs) id = match z.score id with
          | none => unionScore zs id
          | some y => some (y + (unionScore zs id).getD 0) := rfl
      rw [hcons]
      cases hz : z.score id with
      | none =>
          have hnot : id ∉ z := SortedSet.score_eq_none_iff.mp hz
          simp [hnot, ih]
      | some y =>
          have hmem : id ∈ z := SortedSet.mem_of_score hz
          simp [hmem]

/-- The scores of a union. -/
theorem score_unionStore {zs : List ZSet} {id : String} :
    (unionStore zs).score id = unionScore zs id := by
  rw [unionStore, SortedSet.score_ofFun_of_forall]
  intro i x hi
  obtain ⟨z, hz, hmem⟩ := unionScore_isSome_iff.mp (by rw [hi]; rfl)
  exact List.mem_flatMap.mpr ⟨z, hz, hmem⟩

/-- **The union** has what one of the sets has. -/
theorem mem_unionStore {zs : List ZSet} {id : String} : id ∈ unionStore zs ↔ ∃ z ∈ zs, id ∈ z := by
  rw [← SortedSet.score_isSome_iff, score_unionStore, unionScore_isSome_iff]

/-- The union of one sorted set is that set. -/
theorem unionStore_singleton (z : ZSet) : unionStore [z] = z := by
  refine SortedSet.ext fun id => ?_
  rw [score_unionStore]
  have hcons : unionScore [z] id = match z.score id with
      | none => none
      | some y => some (y + (0 : ℚ)) := rfl
  rw [hcons]
  cases z.score id with
  | none => rfl
  | some y => simp

/-- The sum of two scores, where a member may be in one set only. -/
def addScores : Option ℚ → Option ℚ → Option ℚ
  | none, y => y
  | some x, y => some (x + y.getD 0)

/-- Scores are added in any order. -/
theorem addScores_assoc (x y z : Option ℚ) :
    addScores (addScores x y) z = addScores x (addScores y z) := by
  cases x with
  | none => rfl
  | some x =>
      cases y with
      | none => simp [addScores]
      | some y => simp [addScores, add_assoc]

/-- One more set adds its score. -/
theorem unionScore_cons (z : ZSet) (zs : List ZSet) (id : String) :
    unionScore (z :: zs) id = addScores (z.score id) (unionScore zs id) := by
  have hcons : unionScore (z :: zs) id = match z.score id with
      | none => unionScore zs id
      | some y => some (y + (unionScore zs id).getD 0) := rfl
  rw [hcons]
  cases z.score id <;> rfl

/-- The scores of two unions are added. -/
theorem unionScore_append (zs zs' : List ZSet) (id : String) :
    unionScore (zs ++ zs') id = addScores (unionScore zs id) (unionScore zs' id) := by
  induction zs with
  | nil => rfl
  | cons z zs ih => rw [List.cons_append, unionScore_cons, unionScore_cons, ih, addScores_assoc]

/-- **A union in pieces**: the union of unions is the union of all the sets. -/
theorem unionStore_map_unionStore (zss : List (List ZSet)) :
    unionStore (zss.map unionStore) = unionStore zss.flatten := by
  refine SortedSet.ext fun id => ?_
  rw [score_unionStore, score_unionStore]
  induction zss with
  | nil => rfl
  | cons zs zss ih =>
      rw [List.map_cons, unionScore_cons, score_unionStore, ih, List.flatten_cons,
        unionScore_append]

/-- The scores of a difference are those of the first set. -/
theorem score_diffStore {z : ZSet} {zs : List ZSet} {id : String} :
    (diffStore (z :: zs)).score id = if ∀ z' ∈ zs, id ∉ z' then z.score id else none := by
  rw [diffStore, SortedSet.score_filter_members]
  by_cases h : ∀ z' ∈ zs, id ∉ z' <;> simp [h]

/-- **The difference** has what only the first set has. -/
theorem mem_diffStore {z : ZSet} {zs : List ZSet} {id : String} :
    id ∈ diffStore (z :: zs) ↔ id ∈ z ∧ ∀ z' ∈ zs, id ∉ z' := by
  rw [← SortedSet.score_isSome_iff, score_diffStore, ← SortedSet.score_isSome_iff]
  by_cases h : ∀ z' ∈ zs, id ∉ z'
  · simp [if_pos h]; exact fun _ => h
  · simp [if_neg h]; exact fun _ => by simpa using h

end HorizonNewDawn

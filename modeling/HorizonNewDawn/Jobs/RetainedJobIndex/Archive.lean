import HorizonNewDawn.Jobs.RetainedJobIndex.FilteredPages
import Mathlib

/-! # The retained-job index: what a publication holds

A slot stays as it is while it is published, and a revision is published once. So there is one answer to
the question what a publication holds, the `Archive`, and a result that is read off the published index
is read off the archive of one publication, one that was published after the reading began and before it
ended (`withPublishedCandidateKey_archived`). A reader who finds the same publication before and after
has therefore read off that one (`Later.eq_of_between`). Nobody keeps an archive, but every run of a
reader has one (`exists_archive`). -/

namespace HorizonNewDawn

open Program SortedSet

namespace RetainedJobIndex

variable {rank : Option PublishedState → ℕ} {i : ProcessId} {t : RetainedJobType} {scan : ScanOrder}
  {s s' : Store} {state state' state'' : Option PublishedState} {α β : Type}

/-! ## The order of the publications -/

/-- The same published state, or a later one. -/
def Later (rank : Option PublishedState → ℕ) (state state' : Option PublishedState) : Prop :=
  state' = state ∨ rank state < rank state'

/-- A state is as late as itself. -/
theorem Later.refl (state : Option PublishedState) : Later rank state state := Or.inl rfl

/-- Being later is transitive. -/
theorem Later.trans (h : Later rank state state') (h' : Later rank state' state'') :
    Later rank state state'' := by
  rcases h with rfl | hlt
  · exact h'
  · rcases h' with rfl | hlt'
    · exact Or.inr hlt
    · exact Or.inr (hlt.trans hlt')

/-- **Nothing lies between** a published state and itself. -/
theorem Later.eq_of_between (h : Later rank state state') (h' : Later rank state' state) :
    state' = state := by
  rcases h with heq | hlt
  · exact heq
  · rcases h' with heq | hlt'
    · exact heq.symm
    · exact absurd (hlt.trans hlt') (lt_irrefl _)

/-- While a store advances, its published state gets later. -/
theorem Advances.later (h : Advances rank i t s s') :
    Later rank (s.publishedState t) (s'.publishedState t) :=
  h.state.imp And.left id

/-! ## The archive -/

/-- What the sets of a slot hold while it is published. -/
abbrev Archive : Type := RetainedJobType → PublishedState → SortedSetKey → ZSet

/-- The sets of a slot that readers are shown. -/
def IsShown (t : RetainedJobType) (g : Generation) : SortedSetKey → Prop
  | .projection t' g' => t' = t ∧ g' = g
  | .facet t' g' _ _ => t' = t ∧ g' = g
  | _ => False

/-- The published slots hold what the archive says. -/
def Archived (archive : Archive) (s : Store) : Prop :=
  ∀ t p, s.publishedState t = some p → ∀ k, IsShown t p.generation k → s.zset k = archive t p k

/-- The result of the callback on a set that holds the members of a publication that are in all the
facets and among the ids that are given, with the scores of the first key. -/
def ArchivedReadOn (archive : Archive) (scan : ScanOrder) (i : ProcessId) (t : RetainedJobType)
    (facets : List (FacetDimension × String)) (additionalIds : Option IdSet)
    (callback : SortedSetKey → Redis α) (p : PublishedState) (a : α) : Prop :=
  ∃ k z, ResultOn scan i k z (callback k) a ∧ ∀ id x, z.score id = some x ↔
    (∃ k₀ ∈ (slotKeys t p.generation facets).head?, (archive t p k₀).score id = some x) ∧
      (∀ f ∈ facets, id ∈ archive t p (.facet t p.generation f.1 f.2)) ∧
      ∀ ids ∈ additionalIds, id ∈ ids.ids

variable {archive : Archive} {facets : List (FacetDimension × String)} {additionalIds : Option IdSet}
  {callback : SortedSetKey → Redis α} {p : PublishedState} {a : α}

/-- What a candidate is made of is shown. -/
theorem isShown_of_slotKeys {g : Generation} {k : SortedSetKey} (hk : k ∈ slotKeys t g facets) :
    IsShown t g k := by
  unfold slotKeys at hk
  split at hk
  · rw [List.mem_singleton.mp hk]
    exact ⟨rfl, rfl⟩
  · obtain ⟨f, -, rfl⟩ := List.mem_map.mp hk
    exact ⟨rfl, rfl⟩

/-- What is read off a published slot is read off the archive. -/
theorem PublishedReadOn.archived (hs : s.publishedState t = some p) (hshows : Archived archive s)
    (h : PublishedReadOn scan i t facets additionalIds callback s a) :
    ArchivedReadOn archive scan i t facets additionalIds callback p a := by
  obtain ⟨k, z, hresult, hz⟩ := h
  have hgeneration : s.publishedGeneration t = p.generation := congrArg generationFromPublishedState hs
  rw [hgeneration] at hz
  refine ⟨k, z, hresult, fun id x => (hz id x).trans ?_⟩
  apply and_congr
  · apply exists_congr
    intro k₀
    apply and_congr_right
    intro hk₀
    rw [hshows t p hs k₀ (isShown_of_slotKeys (List.mem_of_mem_head? hk₀))]
  · apply and_congr_left'
    apply forall₂_congr
    intro f _
    rw [hshows t p hs (.facet t p.generation f.1 f.2) ⟨rfl, rfl⟩]

/-- The candidate of one facet is the set of the facet. -/
theorem ArchivedReadOn.of_facet {d : FacetDimension} {value : String}
    (h : ArchivedReadOn archive scan i t [(d, value)] none callback p a) :
    ∃ k, ResultOn scan i k (archive t p (.facet t p.generation d value)) (callback k) a := by
  obtain ⟨k, z, hresult, hz⟩ := h
  have heq : z = archive t p (.facet t p.generation d value) := by
    ext id x
    have hid := hz id x
    simp only [slotKeys, List.cons_ne_nil, if_false, List.map_cons, List.map_nil, List.head?_cons,
      List.forall_mem_cons, List.not_mem_nil, Option.mem_def, Option.some.injEq, reduceCtorEq,
      false_implies, implies_true, and_true, exists_eq_left'] at hid
    rw [hid, and_iff_left_of_imp fun hx => mem_of_score hx]
  exact ⟨k, heq ▸ hresult⟩

/-! ## What is read between two moments -/

/-- A command that writes temporary keys only. -/
def Quiet (c : Command) (_ : Store) : Prop := ∀ k ∈ c.writes, Key.IsTemporary k

/-- The circumstances of a reader of the published indexes, who writes temporary keys only: every
published state is replaced by later ones only, and holds what the archive says. -/
def reading (rank : RetainedJobType → Option PublishedState → ℕ) (archive : Archive) (i : ProcessId) :
    Discipline Command Section Store where
  rely _ s s' := ∀ t, Advances (rank t) i t s s'
  assume _ c s := (∀ t, Settled (rank t) t s) ∧ Unused i c s ∧ Archived archive s ∧ Quiet c s
  ok _ _ _ := True
  rely_refl _ s _ := .refl s
  rely_trans _ _ _ _ h h' t := (h t).trans (h' t)

/-- Something that was true of a publication that was published between two moments. -/
def Between (rank : Option PublishedState → ℕ) (t : RetainedJobType) (s s' : Store)
    (R : PublishedState → Prop) : Prop :=
  ∃ p, Later rank (s.publishedState t) (some p) ∧ Later rank (some p) (s'.publishedState t) ∧ R p

/-- The later moment may be taken later. -/
theorem Between.later {s'' : Store} {R : PublishedState → Prop} (h : Between rank t s s' R)
    (hlater : Later rank (s'.publishedState t) (s''.publishedState t)) : Between rank t s s'' R := by
  obtain ⟨p, hfrom, hto, hR⟩ := h
  exact ⟨p, hfrom, hto.trans hlater, hR⟩

/-- The earlier moment may be taken earlier. -/
theorem Between.earlier {s₀ : Store} {R : PublishedState → Prop} (h : Between rank t s s' R)
    (hlater : Later rank (s₀.publishedState t) (s.publishedState t)) : Between rank t s₀ s' R := by
  obtain ⟨p, hfrom, hto, hR⟩ := h
  exact ⟨p, hlater.trans hfrom, hto, hR⟩

/-- What follows from something true between two moments is true between them. -/
theorem Between.imp {R R' : PublishedState → Prop} (h : Between rank t s s' R)
    (hR : ∀ p, R p → R' p) : Between rank t s s' R' := by
  obtain ⟨p, hfrom, hto, hp⟩ := h
  exact ⟨p, hfrom, hto, hR p hp⟩

variable {ranks : RetainedJobType → Option PublishedState → ℕ} {q : Redis α}

/-- A temporary key says nothing about what is published. -/
theorem publishedState_of_temporary {c : Command} (hc : Quiet c s)
    (t : RetainedJobType) : (exec scan i c s).2.publishedState t = s.publishedState t :=
  Store.publishedState_congr (exec_sameAt fun hk => hc _ hk) (exec_sameAt fun hk => hc _ hk)

/-- The published states got later since `s`, and did so from one recorded moment to the present. -/
structure Passing (ranks : RetainedJobType → Option PublishedState → ℕ) (archive : Archive) (s : Store)
    (y : Recorded Command Store) : Prop where
  later : ∀ t, Later (ranks t) (s.publishedState t) (y.1.publishedState t)
  archived : ∀ m ∈ y.2, Archived archive m.2
  between : ∀ m ∈ y.2, ∀ t, Later (ranks t) (s.publishedState t) (m.2.publishedState t) ∧
    Later (ranks t) (m.2.publishedState t) (y.1.publishedState t)

/-- The moments of the run of a reader lie between its start and its end. -/
theorem wp_passing :
    wp (recording (exec scan i)) (reading ranks archive i).recorded q
      (fun _ => Passing ranks archive s) (fun _ => Passing ranks archive s) (s, []) := by
  have hpassing : wp (recording (exec scan i)) (reading ranks archive i).recorded q
      (fun _ y => True ∧ Passing ranks archive s y) (fun _ => Passing ranks archive s) (s, []) := by
    apply wp_of_obeys (A := fun _ _ => True) _ _ (.of_true q) ⟨fun t => .refl _, by simp, by simp⟩
    · intro _ y y' hr hy
      have hlater : ∀ t, Later (ranks t) (y.1.publishedState t) (y'.1.publishedState t) := fun t =>
        (hr.1 t).later
      refine ⟨fun t => (hy.later t).trans (hlater t), by rw [hr.2]; exact hy.archived, ?_⟩
      rw [hr.2]
      intro m hm t
      exact ⟨(hy.between m hm t).1, (hy.between m hm t).2.trans (hlater t)⟩
    · intro _ c y _ hy ha
      have hsame : ∀ t, (recording (exec scan i) c y).2.1.publishedState t = y.1.publishedState t :=
        publishedState_of_temporary ha.2.2.2
      refine ⟨trivial, trivial, ?_, ?_, ?_⟩
      · intro t
        rw [hsame]
        exact hy.later t
      · exact List.forall_mem_cons.mpr ⟨ha.2.2.1, hy.archived⟩
      · simp only [hsame]
        exact List.forall_mem_cons.mpr ⟨fun t => ⟨hy.later t, .refl _⟩, hy.between⟩
  exact wp_mono (fun _ _ h => h.2) (fun _ _ h => h) hpassing

/-- While a reader runs, the published states get later. -/
theorem wp_later :
    wp (exec scan i) (reading ranks archive i) q
      (fun _ s' => ∀ t, Later (ranks t) (s.publishedState t) (s'.publishedState t))
      (fun _ s' => ∀ t, Later (ranks t) (s.publishedState t) (s'.publishedState t)) s :=
  wp_of_recording (x := (s, []))
    (wp_mono (fun _ _ h => h.later) (fun _ _ h => h.later) wp_passing)

/-- A published candidate is read with temporary keys only. -/
theorem withPublishedCandidateKey_writes (hcallback : ∀ k, ReadsKey k (callback k)) :
    Writes Key.IsTemporary (withPublishedCandidateKey t facets additionalIds callback) := by
  apply publishedState_writes.bind
  intro state
  cases state with
  | none => exact .fail
  | some p =>
      apply ScopedWrites.scope _ fun k => deleteQuietly_writes (fun _ => trivial)
      apply (publishedKey_writes fun _ => trivial).bind
      intro k
      apply ScopedWrites.lift
      apply (hcallback k).writes.bind
      intro a
      apply publishedState_writes.bind
      intro state
      exact .ite .fail .ret

/-- **A published candidate is read off the archive** of one publication that was published in the
course of the reading. -/
theorem withPublishedCandidateKey_archived (hcallback : ∀ k, ReadsKey k (callback k)) :
    wp (exec scan i) (reading ranks archive i)
      (withPublishedCandidateKey t facets additionalIds callback)
      (fun a s' => Between (ranks t) t s s' fun p =>
        ArchivedReadOn archive scan i t facets additionalIds callback p a) (fun _ _ => True) s := by
  have hpublished : wp (recording (exec scan i)) (advancingUnused (ranks t) i t).recorded
      (withPublishedCandidateKey t facets additionalIds callback)
      (fun a y => PublishedRead scan i t facets additionalIds callback a y.2) (fun _ _ => True)
      (s, []) := withPublishedCandidateKey_read hcallback
  have hread : wp (recording (exec scan i)) (reading ranks archive i).recorded
      (withPublishedCandidateKey t facets additionalIds callback)
      (fun a y => PublishedRead scan i t facets additionalIds callback a y.2) (fun _ _ => True)
      (s, []) := by
    apply wp_mono_discipline _ _ _ hpublished
    · intro _ _ _ hr
      exact ⟨hr.1 t, hr.2⟩
    · intro _ _ _ ha
      exact ⟨ha.1 t, ha.2.1⟩
    · intro _ _ _ _ _
      exact trivial
  have hpassing : wp (recording (exec scan i)) (reading ranks archive i).recorded
      (withPublishedCandidateKey t facets additionalIds callback)
      (fun _ => Passing ranks archive s) (fun _ => Passing ranks archive s) (s, []) :=
    wp_passing
  apply wp_of_recording (x := (s, []))
  apply wp_mono _ (fun _ _ _ => trivial) (wp_and hread hpassing)
  rintro a y ⟨⟨c, at₁, hc, hpublished, hresult⟩, hy⟩
  obtain ⟨p, hp⟩ := Option.isSome_iff_exists.mp hpublished
  obtain ⟨hfrom, hto⟩ := hy.between _ hc t
  simp only [hp] at hfrom hto
  exact ⟨p, hfrom, hto, hresult.archived hp (hy.archived _ hc)⟩

/-! ## Every run has an archive -/

/-- The circumstances of a reader, without an archive. -/
def readers (ranks : RetainedJobType → Option PublishedState → ℕ) (i : ProcessId) :
    Discipline Command Section Store where
  rely _ s s' := ∀ t, Advances (ranks t) i t s s'
  assume _ c s := (∀ t, Settled (ranks t) t s) ∧ Unused i c s
  ok _ _ _ := True
  rely_refl _ s _ := .refl s
  rely_trans _ _ _ _ h h' t := (h t).trans (h' t)

/-- Two archives that agree on everything that has been published so far. -/
def AgreeUpTo (ranks : RetainedJobType → Option PublishedState → ℕ) (s : Store)
    (archive archive' : Archive) : Prop :=
  ∀ t p, ranks t (some p) ≤ ranks t (s.publishedState t) → archive' t p = archive t p

/-- An archive may be replaced by one that agrees on what has been published. -/
theorem Archived.agree {archive' : Archive} (h : Archived archive s)
    (hagree : AgreeUpTo ranks s archive archive') : Archived archive' s := by
  intro t p hp k hk
  rw [hagree t p (le_of_eq (congrArg (ranks t) hp.symm))]
  exact h t p hp k hk

/-- A slot that stays shows the same. -/
theorem SameSlot.zset_eq {g : Generation} {k : SortedSetKey} (h : SameSlot t g s s')
    (hk : IsShown t g k) : s'.zset k = s.zset k := by
  cases k with
  | projection t' g' =>
      obtain ⟨rfl, rfl⟩ := hk
      exact h.projection
  | facet t' g' d value =>
      obtain ⟨rfl, rfl⟩ := hk
      exact h.facet d value
  | _ => exact hk.elim

/-- What is shown is not temporary. -/
theorem IsShown.not_temporary {g : Generation} {k : SortedSetKey} (hk : IsShown t g k) :
    ¬(Key.sortedSet k).IsTemporary := by
  cases k <;> first | exact id | exact hk.elim

/-- While a store advances, the rank grows. -/
theorem Advances.rank_le (h : Advances rank i t s s') :
    rank (s.publishedState t) ≤ rank (s'.publishedState t) := by
  rcases h.state with ⟨hsame, -⟩ | hlt
  · rw [hsame]
  · exact hlt.le

/-- The archive in which the publications of a later store are entered. -/
def entered (ranks : RetainedJobType → Option PublishedState → ℕ) (archive : Archive)
    (s s' : Store) : Archive := fun t p =>
  if ranks t (some p) ≤ ranks t (s.publishedState t) then archive t p else s'.zset

/-- Old publications stay in the archive. -/
theorem entered_old {p : PublishedState} (h : ranks t (some p) ≤ ranks t (s.publishedState t)) :
    entered ranks archive s s' t p = archive t p := if_pos h

/-- New ones are taken from the store. -/
theorem entered_new {p : PublishedState} (h : ranks t (s.publishedState t) < ranks t (some p)) :
    entered ranks archive s s' t p = s'.zset := if_neg (not_le.mpr h)

/-- With the new publications entered the later store is archived. -/
theorem Archived.entered (h : Archived archive s) (hadvances : ∀ t, Advances (ranks t) i t s s') :
    Archived (entered ranks archive s s') s' := by
  intro t p hp k hk
  rcases (hadvances t).state with ⟨hsame, hslot⟩ | hlt
  · have hps : s.publishedState t = some p := hsame.symm.trans hp
    have hgeneration : s.publishedGeneration t = p.generation :=
      congrArg generationFromPublishedState hps
    rw [hgeneration] at hslot
    rw [entered_old (le_of_eq (congrArg (ranks t) hps.symm)), hslot.zset_eq hk]
    exact h t p hps k hk
  · rw [hp] at hlt
    rw [entered_new hlt]

/-- What is published in the course of a run is entered in an archive when it is published. Nothing that
has been published before is touched, since it is not published again. -/
theorem run_archived {x y : Redis α × Recorded Command Store}
    (hrun : Run (recording (exec scan i)) ((readers ranks i).assuming Quiet).recorded.rely
      ((readers ranks i).assuming Quiet).recorded.assume x y) :
    ∃ archive, Archived archive y.2.1 ∧
      ∀ archive', AgreeUpTo ranks y.2.1 archive archive' →
        Run (recording (exec scan i)) (reading ranks archive' i).recorded.rely
          (reading ranks archive' i).recorded.assume x y := by
  induction hrun with
  | refl => exact ⟨fun _ _ k => x.2.1.zset k, fun _ _ _ _ _ => rfl, fun _ _ => .refl x⟩
  | @own ls c next s _ hc ih =>
      obtain ⟨archive, harchived, hruns⟩ := ih
      have hstate : ∀ t, (recording (exec scan i) c s).2.1.publishedState t = s.1.publishedState t :=
        publishedState_of_temporary hc.2
      refine ⟨archive, fun t p hp k hk => ?_, fun archive' hagree => ?_⟩
      · rw [hstate] at hp
        have hsame : (exec scan i c s.1).2.zset k = s.1.zset k :=
          exec_sameAt (k := .sortedSet k) fun hmem => hk.not_temporary (hc.2 _ hmem)
        exact hsame.trans (harchived t p hp k hk)
      · -- The reader publishes nothing, so that the same publications are old.
        have hagree' : AgreeUpTo ranks s.1 archive archive' := by
          intro t p hle
          apply hagree
          rwa [hstate]
        exact .own (hruns archive' hagree') ⟨hc.1.1, hc.1.2, harchived.agree hagree', hc.2⟩
  | @world q s s' _ hr ih =>
      obtain ⟨archive, harchived, hruns⟩ := ih
      -- What is newly published is entered; the run so far has not looked at it.
      refine ⟨entered ranks archive s.1 s'.1, harchived.entered hr.1,
        fun archive' hagree => ?_⟩
      have hagree' : AgreeUpTo ranks s.1 archive archive' := by
        intro t p hle
        rw [hagree t p (hle.trans (hr.1 t).rank_le), entered_old hle]
      exact .world (hruns archive' hagree') hr

/-- A program that writes temporary keys only has quiet runs. -/
theorem run_quiet {x y : Redis α × Recorded Command Store} (hx : Writes Key.IsTemporary x.1)
    (hrun : Run (recording (exec scan i)) (readers ranks i).recorded.rely
      (readers ranks i).recorded.assume x y) :
    Run (recording (exec scan i)) ((readers ranks i).assuming Quiet).recorded.rely
      ((readers ranks i).assuming Quiet).recorded.assume x y :=
  (Run.and_of_obeys (A := fun c x => Quiet c x.1) (fun _ _ _ hc => hc) hx hrun).1

/-- **Every run of a reader has an archive.** -/
theorem exists_archive {x y : Redis α × Recorded Command Store}
    (hrun : Run (recording (exec scan i)) ((readers ranks i).assuming Quiet).recorded.rely
      ((readers ranks i).assuming Quiet).recorded.assume x y) :
    ∃ archive, Run (recording (exec scan i)) (reading ranks archive i).recorded.rely
      (reading ranks archive i).recorded.assume x y := by
  obtain ⟨archive, -, hruns⟩ := run_archived hrun
  exact ⟨archive, hruns archive fun _ _ _ => rfl⟩

/-! ## The published state -/

/-- What is taken for the published state was published, or is not published any more. -/
theorem publishedState_reading :
    wp (exec scan i) (reading ranks archive i) (publishedState t)
      (fun st s' => Later (ranks t) st (s'.publishedState t)) (fun _ _ => True) s := by
  have hstate : wp (exec scan i) (advancing (ranks t) i t) (publishedState t)
      (fun st s' => Later (ranks t) st (s'.publishedState t)) (fun _ _ => True) s :=
    publishedState_advancing
  exact wp_mono_discipline (fun _ _ _ hr => hr t) (fun _ _ _ ha => ha.1 t)
    (fun _ _ _ _ _ => trivial) hstate

/-- **A state that is read again** was published all the time. -/
theorem publishedState_again (hs : Later (ranks t) state (s.publishedState t)) :
    wp (exec scan i) (reading ranks archive i) (publishedState t)
      (fun st _ => st = state → s.publishedState t = state) (fun _ _ => True) s := by
  rcases hs with hsame | hstale
  · exact wp_mono (fun _ _ _ _ => hsame) (fun _ _ _ => trivial) (publishedState_reading (s := s))
  · have hagain : wp (exec scan i) (reading ranks archive i) (publishedState t)
        (fun st _ => st ≠ state) (fun _ _ => True) s :=
      wp_mono_discipline (fun _ _ _ hr => hr t) (fun _ _ _ ha => ha.1 t)
        (fun _ _ _ _ _ => trivial) (publishedState_stale hstale)
    exact wp_mono (fun _ _ hne heq => absurd heq hne) (fun _ _ _ => trivial) hagain

/-! ## The total of a page -/

/-- A program that reads one sorted set leaves the store as it is. -/
theorem ReadsKey.eval_store {k : SortedSetKey} (hq : ReadsKey k q) (hs : s.failing = false) :
    (q.eval (exec scan i) s).2 = s := by
  induction q with
  | ret a => rfl
  | fail e => rfl
  | stopped => rfl
  | op ls c next ih =>
      obtain ⟨hc, -, hnext⟩ := hq
      have hexec : exec scan i c s = (some (c.answer scan i s), s) := by
        simp [exec, hs, hc.effect]
      rw [Prog.eval_op, hexec]
      exact ih _ (hnext _)

/-- The total of a page is the size of the set it is read off. -/
theorem ResultOn.total {k : SortedSetKey} {z : ZSet} {after : Option RetainedJobPosition} {limit : ℕ}
    {page : ScoredPage} (h : ResultOn scan i k z (sourcePage t k after limit) page) :
    page.total = z.card := by
  have hzset : (Store.empty.setZset k z).zset k = z := (Store.setZset_zset).trans (if_pos rfl)
  have heval : (sourcePage t k after limit).eval (exec scan i) (Store.empty.setZset k z) =
      (.returned page, Store.empty.setZset k z) := h.eval
  obtain ⟨entries, s', hentries, hrest⟩ := Prog.eval_of_bind_returned heval
  have hstore : s' = Store.empty.setZset k z := by
    have hsame : ((pageEntries k after (limit + 1) (!t.newestFirst)).eval (exec scan i)
        (Store.empty.setZset k z)).2 = Store.empty.setZset k z :=
      (ReadsKey.pageEntries _ _ _).eval_store rfl
    rwa [hentries] at hsame
  rw [hstore, Prog.eval_bind_of (eval_sortedSetCount rfl), hzset, Prog.pure_eq_ret, Prog.eval_ret,
    Prod.mk.injEq, Outcome.returned.injEq] at hrest
  exact congrArg ScoredPage.total hrest.1.symm

end RetainedJobIndex

end HorizonNewDawn

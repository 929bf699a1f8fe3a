import HorizonNewDawn.Assets.AssetsPublisher.Comparison
import Mathlib

/-! # A publication alone

A run that returns has left the build at the destination, and a run that throws has left the previous
build, or has put it aside where the exception says. It is so for every failure of every operation
(`publish_atomic_iff`), but for a publication that is taken for the same although it differs below a
directory that is not listed. -/

namespace HorizonNewDawn

open Program

namespace AssetsPublisher

variable {sha256 : String → String} {isVcs : String → Bool} {x y z : Traced} {o : Operation}

/-! ## The sweep -/

/-- No staging or backup beside the destination is old enough to be swept. -/
def Quiet (s : Store) : Prop :=
  ∀ place ∈ s.siblings, (s.directories place).isSome →
    s.clock - abandonedStagingAfterSeconds < s.lastModified place

/-- In a quiet store the sweep removes nothing that is in use. -/
theorem ends_removeIfAbandoned {place : Place} (hquiet : Quiet x.1) (hplace : place ∈ x.1.siblings)
    (hxy : Read x y) :
    Prog.Ends (traced sha256 isVcs)
      (removeIfAbandoned (x.1.clock - abandonedStagingAfterSeconds) place) y
      (fun _ z => Read x z) (fun _ z => Read x z) := by
  refine Prog.Ends.bind (Prog.Ends.mono (ends_read (o := .isDirectory place) trivial
    (P := fun found => found = (x.1.directories place).isSome) ?_) (fun _ _ h => h)
    fun _ _ h => hxy.trans h) ?_
  · intro verdict n found hfound
    rw [← hxy.directories]
    exact (Option.some.inj hfound).symm
  · rintro found z ⟨hyz, rfl⟩
    have hxz := hxy.trans hyz
    cases hfound : (x.1.directories place).isSome with
    | false => exact hxz
    | true =>
        refine Prog.Ends.bind (Prog.Ends.mono (ends_read (o := .lastModified place) trivial
          (P := fun modified => modified = x.1.lastModified place) ?_) (fun _ _ h => h)
          fun _ _ h => hxz.trans h) ?_
        · intro verdict n modified hmodified
          rw [operate, Verdict.read] at hmodified
          split_ifs at hmodified
          rw [← hxz.lastModified]
          exact (Option.some.inj hmodified).symm
        · rintro modified w ⟨hzw, rfl⟩
          rw [if_pos (hquiet place hplace hfound)]
          exact hxz.trans hzw

/-- So it goes through all directories. -/
theorem ends_removeAbandonedStagingDirectories (hquiet : Quiet x.1) (hxy : Read x y) :
    Prog.Ends (traced sha256 isVcs) removeAbandonedStagingDirectories y (fun _ z => Read x z)
      (fun _ z => Read x z) := by
  refine Prog.Ends.bind (Prog.Ends.mono (ends_read (o := .time) trivial
    (P := fun now => now = x.1.clock) ?_) (fun _ _ h => h) fun _ _ h => hxy.trans h) ?_
  · intro verdict n now hnow
    rw [← hxy.clock]
    exact (Option.some.inj hnow).symm
  · rintro now z ⟨hyz, rfl⟩
    refine Prog.Ends.forEach (I := fun _ w => Read x w) (fun backups _ w hxw => ?_) (hxy.trans hyz)
    refine Prog.Ends.bind (Prog.Ends.mono (ends_read (o := .glob backups) trivial
      (P := fun places => ∀ place ∈ places, place ∈ x.1.siblings) ?_) (fun _ _ h => h)
      fun _ _ h => hxw.trans h) ?_
    · intro verdict n places hplaces place hplace
      rw [operate, Verdict.read] at hplaces
      cases hverdict : verdict.isSuccess with
      | false =>
          rw [hverdict, if_neg Bool.false_ne_true] at hplaces
          cases hplaces
      | true =>
          rw [hverdict, if_pos rfl] at hplaces
          rw [← Option.some.inj hplaces] at hplace
          rw [← hxw.siblings]
          exact List.mem_of_mem_filter hplace
    · rintro places v ⟨hwv, hplaces⟩
      refine Prog.Ends.mono (Prog.Ends.forEach
        (I := fun rest u => Read x u ∧ ∀ place ∈ rest, place ∈ x.1.siblings) ?_
        ⟨hxw.trans hwv, hplaces⟩) (fun _ _ h => h.1) fun _ _ h => h
      rintro place rest u ⟨hxu, hrest⟩
      refine Prog.Ends.mono (ends_removeIfAbandoned hquiet (hrest place List.mem_cons_self) hxu)
        (fun _ t hxt => ⟨hxt, fun place hplace => hrest place ?_⟩) fun _ _ h => h
      exact List.mem_cons_of_mem _ hplace

/-! ## The replacement -/

/-- A run that has thrown `e` has left the previous build where it was, or under the name of the
backup that `e` gives. -/
def KeepsPrevious (x : Traced) (e : PublishFailure) (y : Traced) : Prop :=
  y.1.directories .destination = x.1.directories .destination ∨
    ∃ random, e = .unableToRestore (.backup random) ∧
      x.1.directories .destination ≠ none ∧
      y.1.directories (.backup random) = x.1.directories .destination

/-- Random names have not been used yet. -/
def Fresh (s : Store) : Prop :=
  ∀ n, s.directories (.staging (s.random n)) = none ∧ s.directories (.backup (s.random n)) = none

/-- The random name that is drawn. -/
theorem ends_random (x : Traced) :
    Prog.Ends (traced sha256 isVcs) (request .random) x
      (fun random y => Read x y ∧ ∃ n, random = x.1.random n) (fun _ y => Read x y) := by
  refine ends_read (o := .random) trivial fun verdict n random hrandom => ?_
  exact ⟨n, (Option.some.inj hrandom).symm⟩

/-- The stagings of other runs, and of this one, are no more than they were. -/
def NoMoreStagings (x y : Traced) : Prop :=
  ∀ random, y.1.directories (.staging random) ≠ none → x.1.directories (.staging random) ≠ none

/-- A directory that is no staging adds none. -/
theorem NoMoreStagings.of_update {directories : Place → Option Tree} {place : Place}
    {tree : Option Tree} (hplace : ∀ random, place = .staging random → tree = none)
    (h : ∀ random, directories (.staging random) ≠ none → x.1.directories (.staging random) ≠ none)
    {random : String} (hne : Function.update directories place tree (.staging random) ≠ none) :
    x.1.directories (.staging random) ≠ none := by
  by_cases hsame : .staging random = place
  · rw [← hsame, Function.update_self, hplace random hsame.symm] at hne
    exact absurd rfl hne
  · rw [Function.update_of_ne hsame] at hne
    exact h random hne

/-- **The replacement**: the staged build takes the place of the previous one. -/
theorem ends_replacePublishedDirectory (staged : Tree) {r : String}
    (hstaged : x.1.directories (.staging r) = some staged)
    (hfresh : ∀ n, x.1.directories (.backup (x.1.random n)) = none) :
    Prog.Ends (traced sha256 isVcs) (replacePublishedDirectory (.staging r)) x
      (fun _ y => Later x y ∧ y.1.directories .destination = some staged ∧ NoMoreStagings x y)
      (fun e y => Later x y ∧ KeepsPrevious x e y ∧ NoMoreStagings x y) := by
  have hsame : ∀ {y : Traced} {e : PublishFailure}, Later x y →
      y.1.directories = x.1.directories → Later x y ∧ KeepsPrevious x e y ∧ NoMoreStagings x y := by
    intro y e hlater hy
    exact ⟨hlater, Or.inl (by rw [hy]), fun random => by rw [hy]; exact id⟩
  refine Prog.Ends.bind (Prog.Ends.mono (ends_isDirectory .destination x) (fun _ _ h => h)
    fun _ _ h => h.elim) ?_
  rintro found y ⟨hxy, rfl⟩
  cases hprevious : x.1.directories .destination with
  | none =>
      -- one move, from the staging to the destination
      refine Prog.Ends.bind (Prog.Ends.mono (ends_moveDirectory staged ?_ ?_)
        (fun _ _ h => h) fun _ _ h => h.elim) ?_
      · rw [hxy.directories, hstaged]
      · rw [hxy.directories, hprevious]
      · rintro moved z ⟨hyz, ⟨rfl, hz⟩ | ⟨rfl, hz⟩⟩
        · refine ⟨hxy.toLater.trans hyz, by rw [hz, Function.update_self], fun random hne => ?_⟩
          rw [hz, hxy.directories] at hne
          exact NoMoreStagings.of_update (by rintro _ ⟨⟩) (fun _ =>
            NoMoreStagings.of_update (fun _ _ => rfl) fun _ => id) hne
        · exact hsame (hxy.toLater.trans hyz) (hz.trans hxy.directories)
  | some previous =>
      refine Prog.Ends.bind (Prog.Ends.mono (ends_random y) (fun _ _ h => h)
        fun _ _ h => hsame (hxy.trans h).toLater (hxy.trans h).directories) ?_
      rintro _ z ⟨hyz, n, rfl⟩
      have hxz := hxy.trans hyz
      rw [hxy.random]
      refine Prog.Ends.bind (Prog.Ends.mono (ends_moveDirectory previous ?_ ?_)
        (fun _ _ h => h) fun _ _ h => h.elim) ?_
      · rw [hxz.directories, hprevious]
      · rw [hxz.directories, hfresh n]
      · rintro moved w ⟨hzw, ⟨rfl, hw⟩ | ⟨rfl, hw⟩⟩
        · -- the previous build has been moved aside
          have hxw := hxz.toLater.trans hzw
          rw [hxz.directories] at hw
          have hfree : w.1.directories .destination = none := by
            simp [hw]
          have haside : w.1.directories (.backup (x.1.random n)) = some previous := by
            simp [hw]
          have hstagings : NoMoreStagings x w := by
            intro random hne
            rw [hw] at hne
            exact NoMoreStagings.of_update (by rintro _ ⟨⟩) (fun _ =>
              NoMoreStagings.of_update (by rintro _ ⟨⟩) fun _ => id) hne
          refine Prog.Ends.bind (Prog.Ends.mono (ends_moveDirectory staged ?_ hfree)
            (fun _ _ h => h) fun _ _ h => h.elim) ?_
          · simp [hw, hstaged]
          · rintro published v ⟨hwv, ⟨rfl, hv⟩ | ⟨rfl, hv⟩⟩
            · -- the staged build is at the destination, and the previous one is deleted
              refine Prog.Ends.bind (Prog.Ends.mono (ends_deleteDirectory previous ?_)
                (fun _ _ h => h) fun _ _ h => h.elim) ?_
              · simp [hv, haside]
              · rintro _ u ⟨hvu, remains, hu, -⟩
                refine ⟨(hxw.trans hwv).trans hvu, ?_, fun random hne => ?_⟩
                · simp [hu, hv]
                · rw [hu, hv] at hne
                  exact NoMoreStagings.of_update (by rintro _ ⟨⟩) (fun _ => NoMoreStagings.of_update (by rintro _ ⟨⟩)
                    fun _ => NoMoreStagings.of_update (fun _ _ => rfl) hstagings) hne
            · -- the second move has failed, and the previous build is moved back
              refine Prog.Ends.bind (Prog.Ends.mono (ends_moveDirectory previous ?_ ?_)
                (fun _ _ h => h) fun _ _ h => h.elim) ?_
              · rw [hv, haside]
              · rw [hv, hfree]
              · rintro restored u ⟨hvu, ⟨rfl, hu⟩ | ⟨rfl, hu⟩⟩
                · refine ⟨(hxw.trans hwv).trans hvu, Or.inl ?_, fun random hne => ?_⟩
                  · rw [hu, Function.update_self, hprevious]
                  · rw [hu, hv] at hne
                    exact NoMoreStagings.of_update (by rintro _ ⟨⟩) (fun _ =>
                      NoMoreStagings.of_update (by rintro _ ⟨⟩) hstagings) hne
                · -- moving it back has failed too: it is whole in its backup
                  refine ⟨(hxw.trans hwv).trans hvu, Or.inr ⟨_, rfl, ?_, ?_⟩, fun random hne => ?_⟩
                  · rw [hprevious]
                    exact Option.some_ne_none _
                  · rw [hu, hv, haside, hprevious]
                  · rw [hu, hv] at hne
                    exact hstagings random hne
        · -- the first move has failed
          exact hsame (hxz.toLater.trans hzw) (hw.trans hxz.directories)

/-! ## A run -/

/-- The stagings are no more than they were, but for the one under the name `r`. -/
def OnlyStaging (r : String) (x y : Traced) : Prop :=
  ∀ random, y.1.directories (.staging random) ≠ none →
    random = r ∨ x.1.directories (.staging random) ≠ none

/-- **The staging** ends with a copy of the source or an exception. -/
theorem ends_stage (source : Tree) {r : String} (hsource : x.1.directories .source = some source)
    (hfresh : ∀ n, x.1.directories (.backup (x.1.random n)) = none) :
    Prog.Ends (traced sha256 isVcs) (stage (.staging r)) x
      (fun _ y => Later x y ∧ y.1.directories .destination = some source ∧ OnlyStaging r x y)
      (fun e y => Later x y ∧ KeepsPrevious x e y ∧ OnlyStaging r x y) := by
  have hplaced : ∀ {y : Traced} {tree : Option Tree},
      y.1.directories = Function.update x.1.directories (.staging r) tree → OnlyStaging r x y := by
    intro y tree hy random hne
    by_cases hrandom : random = r
    · exact Or.inl hrandom
    · rw [hy, Function.update_of_ne (fun h => hrandom (Place.staging.inj h))] at hne
      exact Or.inr hne
  have hkept : ∀ {y : Traced} {e : PublishFailure} {tree : Option Tree}, Later x y →
      y.1.directories = Function.update x.1.directories (.staging r) tree →
        Later x y ∧ KeepsPrevious x e y ∧ OnlyStaging r x y :=
    fun hlater hy => ⟨hlater, Or.inl (by simp [hy]), hplaced hy⟩
  refine Prog.Ends.bind (Prog.Ends.mono (ends_copyDirectory hsource) (fun _ _ h => h) ?_) ?_
  · rintro e y ⟨hxy, remains, hy⟩
    exact hkept hxy hy
  · rintro copied y ⟨hxy, ⟨rfl, hy⟩ | ⟨rfl, remains, hy⟩⟩
    · refine Prog.Ends.bind (Prog.Ends.mono
        ((readOnly_hasCompletePublishedAssets (.staging r)).ends y) (fun _ _ h => h)
        fun _ z h => hkept (hxy.trans h.toLater) (h.directories.trans hy)) fun complete z hyz => ?_
      have hxz := hxy.trans hyz.toLater
      have hz := hyz.directories.trans hy
      have hstagings : ∀ {w : Traced}, NoMoreStagings z w → OnlyStaging r x w :=
        fun h random hne => hplaced hz random (h random hne)
      cases complete with
      | false => exact hkept hxz hz
      | true =>
          refine Prog.Ends.mono (ends_replacePublishedDirectory source ?_ ?_) ?_ ?_
          · simp [hz]
          · intro n
            rw [hz, hxz.random]
            simpa using hfresh n
          · rintro _ w ⟨hzw, hpublished, hw⟩
            exact ⟨hxz.trans hzw, hpublished, hstagings hw⟩
          · rintro e w ⟨hzw, hprevious, hw⟩
            have hdestination : z.1.directories .destination = x.1.directories .destination := by
              simp [hz]
            rw [KeepsPrevious, hdestination] at hprevious
            exact ⟨hxz.trans hzw, hprevious, hstagings hw⟩
    · exact hkept hxy hy

/-- The clean-up removes the staging, or has failed to. -/
theorem ends_removeStaging (r : String) (x : Traced) :
    Prog.Ends (traced sha256 isVcs) (removeStaging (.staging r)) x
      (fun _ y => Later x y ∧
        (∀ place, place ≠ .staging r → y.1.directories place = x.1.directories place) ∧
          (y.1.directories (.staging r) = none ∨ DeletionFailed y (.staging r)))
      (fun _ _ => False) := by
  refine Prog.Ends.bind (ends_isDirectory (.staging r) x) ?_
  rintro found y ⟨hxy, rfl⟩
  cases hleft : x.1.directories (.staging r) with
  | none =>
      refine ⟨hxy.toLater, fun place _ => by rw [hxy.directories], Or.inl ?_⟩
      rw [hxy.directories, hleft]
  | some tree =>
      refine Prog.Ends.bind (ends_deleteDirectory tree ?_) ?_
      · rw [hxy.directories, hleft]
      · rintro _ z ⟨hyz, remains, hz, hremains⟩
        refine ⟨hxy.toLater.trans hyz, fun place hplace => ?_, ?_⟩
        · rw [hz, Function.update_of_ne hplace, hxy.directories]
        · rw [hz, Function.update_self]
          exact hremains

/-- No staging is left that was not there before, unless its deletion has failed. -/
def LeavesNoStaging (x y : Traced) : Prop :=
  ∀ random, y.1.directories (.staging random) ≠ none →
    x.1.directories (.staging random) ≠ none ∨ DeletionFailed y (.staging random)

/-- What a publication is to do: a run that returns has left a destination with the file map of the
source. A run that throws has left the destination as it was, or else the previous build unchanged under
the name of the backup that the exception gives. Either way no staging of the run is left, unless its
deletion has failed. -/
structure Atomic (sha256 : String → String) (isVcs : String → Bool) (ksort : KeySort) (force : Bool)
    (source : Tree) (s : Store) : Prop where
  ends : Prog.Ends (traced sha256 isVcs) (publish ksort force) (s, [])
    (fun _ y => (∃ tree, y.1.directories .destination = some tree ∧ SameFiles tree source) ∧
      LeavesNoStaging (s, []) y)
    (fun e y => KeepsPrevious (s, []) e y ∧ LeavesNoStaging (s, []) y)

/-- What the comparison takes for the same is the same. It is not asked where the publication is forced;
else the previous build and the source must not differ in files that are not listed alone. -/
def Discerns (isVcs : String → Bool) (ksort : KeySort) (force : Bool) (source : Tree)
    (previous : Option Tree) : Prop :=
  force = false → ∀ tree, previous = some tree → TakenForSame isVcs ksort source tree →
    SameFiles tree source

/-- Where the comparison is right, every run is atomic, whatever fails. -/
theorem atomic_of_discerns {ksort : KeySort} (hksort : ∀ keys, (ksort keys).Perm keys) {force : Bool}
    {s : Store} {source : Tree} (hsource : s.directories .source = some source)
    (hhash : ∀ tree, s.directories .destination = some tree → Collisionless sha256 source tree)
    (hdiscerns : Discerns isVcs ksort force source (s.directories .destination))
    (hquiet : Quiet s) (hfresh : Fresh s) : Atomic sha256 isVcs ksort force source s := by
  constructor
  -- Until the build is staged the run only reads, and leaves everything as it was.
  have hread : ∀ {y : Traced} {e : PublishFailure}, Read (s, []) y →
      KeepsPrevious (s, []) e y ∧ LeavesNoStaging (s, []) y := by
    intro y e hy
    refine ⟨Or.inl (by rw [hy.directories]), fun random hne => Or.inl ?_⟩
    rwa [hy.directories] at hne
  have hensure : ReadOnly (request .ensureDirectoryExists) :=
    ReadOnly.request (o := .ensureDirectoryExists) trivial
  refine Prog.Ends.bind (Prog.Ends.mono (hensure.ends (s, [])) (fun _ _ h => h)
    fun _ _ h => hread h) fun _ x₁ hx₁ => ?_
  refine Prog.Ends.bind (Prog.Ends.mono
    (ends_removeAbandonedStagingDirectories (x := (s, [])) hquiet hx₁) (fun _ _ h => h)
    fun _ _ h => hread h) fun _ x₂ hx₂ => ?_
  -- the comparison, which is left out where the publication is forced
  have hcompare : Prog.Ends (traced sha256 isVcs)
      (if force then pure false else hasExactPublishedAssets ksort) x₂
      (fun same y => Read (s, []) y ∧ (same = true →
        ∃ tree, s.directories .destination = some tree ∧ SameFiles tree source))
      (fun _ y => Read (s, []) y) := by
    split_ifs with hforce
    · exact ⟨hx₂, nofun⟩
    · have hdestination : x₂.1.directories .destination = s.directories .destination := by
        rw [hx₂.directories]
      have hsource₂ : x₂.1.directories .source = some source := by
        rw [hx₂.directories]
        exact hsource
      refine Prog.Ends.mono (ends_hasExactPublishedAssets hksort hsource₂ ?_) ?_
        fun _ _ h => hx₂.trans h.1
      · rw [hdestination]
        exact hhash
      · rintro same y ⟨hy, hsame⟩
        rw [hdestination] at hsame
        refine ⟨hx₂.trans hy, fun htrue => ?_⟩
        obtain ⟨tree, htree, htaken⟩ := hsame.mp htrue
        exact ⟨tree, htree, hdiscerns (by simpa using hforce) tree htree htaken⟩
  refine Prog.Ends.bind (Prog.Ends.mono hcompare (fun _ _ h => h) fun _ _ h => hread h) ?_
  rintro unchanged x₃ ⟨hx₃, hsame⟩
  split_ifs with hunchanged
  · -- nothing to do: the destination has the files of the source
    obtain ⟨tree, htree, hfiles⟩ := hsame hunchanged
    refine ⟨⟨tree, ?_, hfiles⟩, ?_⟩
    · rw [hx₃.directories]
      exact htree
    · exact (hread (e := .thrown) hx₃).2
  · refine Prog.Ends.bind (Prog.Ends.mono (ends_random x₃) (fun _ _ h => h)
      fun _ _ h => hread (hx₃.trans h)) ?_
    rintro _ x₄ ⟨hx₄, n, rfl⟩
    have hx := hx₃.trans hx₄
    -- what the deletion of the staging directory leaves behind
    have hcleaned : ∀ {y z : Traced}, OnlyStaging (x₃.1.random n) x₄ y →
        ((∀ place, place ≠ .staging (x₃.1.random n) →
            z.1.directories place = y.1.directories place) ∧
          (z.1.directories (.staging (x₃.1.random n)) = none ∨
            DeletionFailed z (.staging (x₃.1.random n)))) → LeavesNoStaging (s, []) z := by
      rintro y z hy ⟨hothers, hown⟩ random hne
      by_cases hrandom : random = x₃.1.random n
      · subst hrandom
        exact Or.inr (hown.resolve_left hne)
      · rw [hothers _ fun h => hrandom (Place.staging.inj h)] at hne
        have hbefore := (hy random hne).resolve_left hrandom
        rw [hx.directories] at hbefore
        exact Or.inl hbefore
    refine Prog.Ends.tryFinally (ends_stage source ?_ ?_) ?_ ?_
    · rw [hx.directories]
      exact hsource
    · intro m
      rw [hx.directories, hx.random]
      exact (hfresh m).2
    · -- the build is published
      rintro _ y ⟨hy, hpublished, hstaging⟩
      refine Prog.Ends.mono (ends_removeStaging _ y) ?_ fun _ _ h => h.elim
      rintro _ z ⟨hz, hothers, hown⟩
      refine ⟨⟨source, ?_, fun _ => rfl⟩, hcleaned hstaging ⟨hothers, hown⟩⟩
      rw [hothers .destination nofun, hpublished]
    · -- staging or replacing has failed
      rintro e y ⟨hy, hprevious, hstaging⟩
      refine Prog.Ends.mono (ends_removeStaging _ y) ?_ fun _ _ h => h.elim
      rintro _ z ⟨hz, hothers, hown⟩
      refine ⟨?_, hcleaned hstaging ⟨hothers, hown⟩⟩
      rw [KeepsPrevious, hx.directories] at hprevious
      rcases hprevious with hkept | ⟨random, rfl, hne, hbackup⟩
      · left
        rw [hothers .destination nofun, hkept]
      · exact Or.inr ⟨random, rfl, hne, by rw [hothers (.backup random) nofun, hbackup]⟩

/-! ## What is taken for the same -/

/-- The directories before a run none of whose operations fails. -/
def undisturbed (source : Tree) (previous : Option Tree) : Store where
  directories
    | .source => some source
    | .destination => previous
    | _ => none
  lastModified _ := 0
  siblings := []
  clock := 0
  random n := toString n
  verdict _ := .succeeds
  performed := 0

/-- Nothing fails there. -/
theorem not_disturbed_undisturbed {source : Tree} {previous : Option Tree}
    (hx : x.1.verdict = (undisturbed source previous).verdict) : ¬Disturbed x := by
  rintro ⟨n, hn⟩
  rw [hx] at hn
  cases hn

/-- No sibling is there to be swept. -/
theorem quiet_undisturbed (source : Tree) (previous : Option Tree) :
    Quiet (undisturbed source previous) :=
  fun _ hplace => absurd hplace List.not_mem_nil

/-- No random name is used. -/
theorem fresh_undisturbed (source : Tree) (previous : Option Tree) :
    Fresh (undisturbed source previous) :=
  fun _ => ⟨rfl, rfl⟩

/-- **What is taken for the same is left as it is.** -/
theorem ends_publish_of_takenForSame {ksort : KeySort} (hksort : ∀ keys, (ksort keys).Perm keys)
    {source tree : Tree} (hhash : Collisionless sha256 source tree)
    (htaken : TakenForSame isVcs ksort source tree) :
    Prog.Ends (traced sha256 isVcs) (publish ksort false) (undisturbed source (some tree), [])
      (fun _ y => y.1.directories .destination = some tree) (fun _ _ => False) := by
  refine Prog.Ends.bind (Q := fun _ y => y =
    (traced sha256 isVcs .ensureDirectoryExists (undisturbed source (some tree), [])).2) rfl ?_
  rintro _ _ rfl
  -- there is nothing to sweep
  refine Prog.Ends.bind (Q := fun _ y => Read (undisturbed source (some tree), []) y)
    (Read.mk (Later.mk rfl rfl rfl rfl rfl (List.nil_subset _)) rfl) fun _ x hx => ?_
  have hdestination : x.1.directories .destination = some tree := by
    rw [hx.directories]
    rfl
  have hexact : Prog.Ends (traced sha256 isVcs) (hasExactPublishedAssets ksort) x
      (fun same y => Read x y ∧ same = true) (fun _ _ => False) := by
    have hhash' : ∀ tree', x.1.directories .destination = some tree' →
        Collisionless sha256 source tree' := by
      intro tree' htree'
      rw [hdestination, Option.some.injEq] at htree'
      rw [← htree']
      exact hhash
    have hsource : x.1.directories .source = some source := by
      rw [hx.directories]
      rfl
    refine Prog.Ends.mono (ends_hasExactPublishedAssets hksort hsource hhash') ?_ ?_
    · rintro same y ⟨hy, hsame⟩
      exact ⟨hy, hsame.mpr ⟨tree, hdestination, htaken⟩⟩
    · rintro e y ⟨-, hdisturbed | hnone⟩
      · exact not_disturbed_undisturbed hx.verdict hdisturbed
      · exact hnone ⟨tree, hdestination, htaken⟩
  refine Prog.Ends.bind hexact ?_
  rintro _ y ⟨hy, rfl⟩
  show y.1.directories .destination = some tree
  rw [hy.directories, hdestination]

/-- So such a run is atomic only where nothing was to be done. -/
theorem sameFiles_of_atomic {ksort : KeySort} (hksort : ∀ keys, (ksort keys).Perm keys)
    {source tree : Tree} (hhash : Collisionless sha256 source tree)
    (htaken : TakenForSame isVcs ksort source tree)
    (hatomic : Atomic sha256 isVcs ksort false source (undisturbed source (some tree))) :
    SameFiles tree source := by
  have hends := (Prog.Ends.and hatomic.ends (ends_publish_of_takenForSame hksort hhash htaken)).exists_of
  obtain ⟨-, y, ⟨⟨tree', htree', hfiles⟩, -⟩, hdestination⟩ | ⟨-, -, -, hfalse⟩ := hends
  · rw [hdestination, Option.some.injEq] at htree'
    rw [htree']
    exact hfiles
  · exact hfalse.elim

/-- **Publishing is atomic** in every run, whatever fails in it, exactly where the comparison of a
publication that is not forced does not take a destination for the same that differs from the source in
files it does not list. -/
theorem publish_atomic_iff {ksort : KeySort} (hksort : ∀ keys, (ksort keys).Perm keys) (force : Bool)
    {source : Tree} {previous : Option Tree}
    (hhash : ∀ tree, previous = some tree → Collisionless sha256 source tree) :
    (∀ s : Store, s.directories .source = some source → s.directories .destination = previous →
      Quiet s → Fresh s → Atomic sha256 isVcs ksort force source s) ↔
        Discerns isVcs ksort force source previous := by
  constructor
  · rintro h rfl tree rfl htaken
    exact sameFiles_of_atomic hksort (hhash tree rfl) htaken (h (undisturbed source (some tree)) rfl
      rfl (quiet_undisturbed source _) (fresh_undisturbed source _))
  · rintro hdiscerns s hsource rfl hquiet hfresh
    exact atomic_of_discerns hksort hsource hhash hdiscerns hquiet hfresh

/-- The finder does not enter a directory of git. -/
def isGit (name : String) : Bool := name = ".git"

/-- The keys in the order of their spelling. -/
def sortedKeys : KeySort := List.insertionSort fun key key' => key ≤ key'

/-- The files of the small build beside a directory of git. -/
def leftoverFiles : List (String × String) := smallFiles ++ [(".git/config", "")]

/-- They are distinct. -/
theorem leftoverFiles_nodup : (leftoverFiles.map Prod.fst).Nodup := by decide +kernel

/-- The small build with a directory of git that somebody has left there. -/
def leftover : Tree := ⟨leftoverFiles, leftoverFiles_nodup⟩

/-- Only the files of the build are listed. -/
theorem allFiles_leftover : leftover.allFiles isGit = smallBuild.allFiles isGit := by
  decide +kernel

/-- It is taken for the build. -/
theorem takenForSame_leftover : TakenForSame isGit sortedKeys smallBuild leftover where
  complete := look_smallManifest rfl rfl
  keys := by rw [Tree.listedMap, Tree.listedMap, allFiles_leftover]
  contents relativePath := by
    rw [Tree.listedContents, Tree.listedContents, Tree.listedMap, allFiles_leftover, ← Tree.listedMap]
    cases hlookup : (smallBuild.listedMap isGit).lookup relativePath with
    | none => rfl
    | some path =>
        -- a listed file is a file of the build
        have hlisted : path ∈ smallBuild.allFiles isGit :=
          (mem_of_lookup_foldl_insert hlookup).resolve_right (by simp)
        have hpath : path = manifestName ∨ path = "app.js" := by
          simpa [smallBuild, smallFiles] using List.mem_of_mem_filter hlisted
        obtain rfl | rfl := hpath <;> rfl

/-- **A directory of git is left in the publication**: the run returns, and the destination has a file
the source has not. -/
theorem not_atomic_leftover :
    Quiet (undisturbed smallBuild (some leftover)) ∧ Fresh (undisturbed smallBuild (some leftover)) ∧
      ¬Atomic id isGit sortedKeys false smallBuild (undisturbed smallBuild (some leftover)) := by
  refine ⟨quiet_undisturbed _ _, fresh_undisturbed _ _, fun hatomic => ?_⟩
  have hfiles : SameFiles leftover smallBuild := sameFiles_of_atomic
    (fun keys => List.perm_insertionSort _ keys) (fun _ _ _ _ h => h) takenForSame_leftover hatomic
  have hnone : smallBuild.relativeContents ".git/config" = none := by decide +kernel
  have hsome : leftover.relativeContents ".git/config" = some "" := by decide +kernel
  have hcontents := hfiles ".git/config"
  rw [hnone, hsome] at hcontents
  cases hcontents

/-- The files of an older build, with another script. -/
def staleFiles : List (String × String) :=
  [(manifestName, String.ofList smallManifest.spell), ("app.js", "0")]

/-- They are distinct. -/
theorem staleFiles_nodup : (staleFiles.map Prod.fst).Nodup := by decide +kernel

/-- An older build. -/
def stale : Tree := ⟨staleFiles, staleFiles_nodup⟩

/-- The script of the build is not that of the older one. -/
theorem not_takenForSame_stale : ¬TakenForSame isGit sortedKeys smallBuild stale := by
  intro htaken
  have hscript := htaken.contents "app.js"
  have hold : stale.listedContents isGit "app.js" = some "0" := by decide +kernel
  have hnew : smallBuild.listedContents isGit "app.js" = some "" := by decide +kernel
  rw [hold, hnew] at hscript
  exact absurd hscript (by decide)

/-- A build beside an older publication. The move of the staged build, which is the 22nd operation after
the first, is going to fail when the older build has been moved aside. -/
def unlucky : Store where
  directories
    | .source => some smallBuild
    | .destination => some stale
    | _ => none
  lastModified _ := 0
  siblings := []
  clock := 1700000000
  random n := toString n
  verdict n := if n = 22 then .fails none else .succeeds
  performed := 0

/-- A publication that does not come about leaves the older build. -/
theorem publish_atomic_unlucky : Atomic id isGit sortedKeys false smallBuild unlucky := by
  have hhash : ∀ tree, some stale = some tree → Collisionless id smallBuild tree :=
    fun _ _ _ _ _ _ hsame => hsame
  have hdiscerns : Discerns isGit sortedKeys false smallBuild (some stale) := by
    rintro - tree htree htaken
    rw [← Option.some.inj htree] at htaken
    exact absurd htaken not_takenForSame_stale
  have hquiet : Quiet unlucky := fun _ hplace => absurd hplace List.not_mem_nil
  exact (publish_atomic_iff (fun keys => List.perm_insertionSort _ keys) false hhash).mpr hdiscerns
    unlucky rfl rfl hquiet fun _ => ⟨rfl, rfl⟩

end AssetsPublisher

end HorizonNewDawn

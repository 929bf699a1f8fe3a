import HorizonNewDawn.FailedJobs.FailedJobRetryEligibility
import HorizonNewDawn.Jobs.RetainedJobIndex.Reading
import HorizonNewDawn.Php.Document
import HorizonNewDawn.Php.Text
import HorizonNewDawn.Program.Faults
import Mathlib.Data.List.AList
import Mathlib.Data.List.SplitBy

/-! # Publishing the assets

A build is published by copying it into a staging directory beside the destination, checking the
copy, and moving it into the place of the previous build, which is moved aside first and moved back
where that fails. Nothing is done where the destination is found to be the same already.

A directory stands for the files below it. A copy, a move or a deletion may fail, and a read may
throw, by a verdict that is drawn for every operation. -/

namespace HorizonNewDawn

open Program

namespace AssetsPublisher

/-- A directory: the relative pathnames of the files below it, hidden ones included, with the
contents. -/
structure Tree where
  files : List (String × String)
  distinct : (files.map Prod.fst).Nodup

/-- The contents of a file. -/
def Tree.contents (tree : Tree) (path : String) : Option String :=
  (tree.files.find? fun file => file.1 = path).map Prod.snd

/-- Whether a file lies below a directory of a version control system. -/
def belowVcs (isVcs : String → Bool) (path : String) : Bool :=
  (path.toList.splitOn '/').dropLast.any fun segment => isVcs (String.ofList segment)

/-- The files that `allFiles` lists when it is asked for the hidden ones too. Its finder still does not
enter the directories of version control systems; which names those have is the finder's affair. -/
def Tree.allFiles (isVcs : String → Bool) (tree : Tree) : List String :=
  (tree.files.map Prod.fst).filter fun path => !belowVcs isVcs path

/-- The directories a run deals with. Those of a staging or of a backup lie beside the destination,
`.<destination>-<random>.tmp` and `.<destination>-<random>.bak`. -/
inductive Place
  | source
  | destination
  | staging (random : String)
  | backup (random : String)
  deriving DecidableEq

/-- What becomes of the next operation. A copy or a deletion that fails leaves something behind. -/
inductive Verdict
  | succeeds
  | fails (remains : Option Tree)
  | throws (remains : Option Tree)

/-- The directories there are, when they were modified, the names `glob` finds, the clock, the random
names and the verdicts by the number of operations that have been performed. -/
structure Store where
  directories : Place → Option Tree
  lastModified : Place → ℤ
  siblings : List Place
  clock : ℤ
  random : ℕ → String
  verdict : ℕ → Verdict
  performed : ℕ

inductive Operation
  | ensureDirectoryExists
  /-- `glob` of the stagings, or of the backups. -/
  | glob (backups : Bool)
  | time
  | lastModified (place : Place)
  | isDirectory (place : Place)
  | isFile (place : Place) (path : String)
  | get (place : Place) (path : String)
  | allFiles (place : Place)
  | hash (place : Place) (path : String)
  | random
  | copyDirectory (directory target : Place)
  | moveDirectory (from' target : Place)
  | deleteDirectory (place : Place)

/-- The answers of the operations. -/
abbrev Operation.Answer : Operation → Type
  | .ensureDirectoryExists => Unit
  | .glob _ => List Place
  | .time => ℤ
  | .lastModified _ => ℤ
  | .isDirectory _ => Bool
  | .isFile _ _ => Bool
  | .get _ _ => String
  | .allFiles _ => List String
  | .hash _ _ => String
  | .random => String
  | .copyDirectory _ _ => Bool
  | .moveDirectory _ _ => Bool
  | .deleteDirectory _ => Bool

/-- Whether a name ends in `.bak`. -/
def Place.isBackup : Place → Bool
  | .backup _ => true
  | _ => false

/-- Whether a name ends in `.tmp`. -/
def Place.isStaging : Place → Bool
  | .staging _ => true
  | _ => false

def Verdict.isSuccess : Verdict → Bool
  | .succeeds => true
  | _ => false

/-- A read: it throws unless its verdict is favourable. -/
def Verdict.read {α : Type} (verdict : Verdict) (answer : Option α) : Option α :=
  if verdict.isSuccess then answer else none

/-- Put a directory in a place, or leave the place empty. -/
def Store.place (s : Store) (place : Place) (tree : Option Tree) : Store :=
  { s with directories := Function.update s.directories place tree }

/-- `copyDirectory` into a new place -/
def Store.copy (s : Store) (verdict : Verdict) (directory target : Place) : Option Bool × Store :=
  match s.directories directory, verdict with
  | none, _ => (some false, s)
  | some tree, .succeeds => (some true, s.place target (some tree))
  | some _, .fails remains => (some false, s.place target remains)
  | some _, .throws remains => (none, s.place target remains)

/-- `moveDirectory`: a rename, which needs its source and does not replace a directory. -/
def Store.move (s : Store) (verdict : Verdict) (from' target : Place) : Option Bool × Store :=
  match s.directories from', s.directories target, verdict with
  | some tree, none, .succeeds => (some true, (s.place from' none).place target (some tree))
  | _, _, _ => (some false, s)

/-- `deleteDirectory` -/
def Store.delete (s : Store) (verdict : Verdict) (place : Place) : Option Bool × Store :=
  match s.directories place, verdict with
  | none, _ => (some false, s)
  | some _, .succeeds => (some true, s.place place none)
  | some _, .fails remains => (some false, s.place place remains)
  | some _, .throws remains => (some false, s.place place remains)

variable (sha256 : String → String) (isVcs : String → Bool)

/-- An operation on the directories under its verdict; `none` is an exception. -/
def operate (verdict : Verdict) : (o : Operation) → Store → Reply Operation.Answer o × Store
  | .ensureDirectoryExists, s => (verdict.read (some ()), s)
  | .glob backups, s =>
      (verdict.read (some (s.siblings.filter
        (if backups then Place.isBackup else Place.isStaging))), s)
  | .time, s => (some s.clock, s)
  | .lastModified place, s => (verdict.read (some (s.lastModified place)), s)
  | .isDirectory place, s => (some (s.directories place).isSome, s)
  | .isFile place path, s =>
      (some ((s.directories place).bind (·.contents path)).isSome, s)
  | .get place path, s => (verdict.read ((s.directories place).bind (·.contents path)), s)
  | .allFiles place, s =>
      (verdict.read ((s.directories place).map (Tree.allFiles isVcs)), s)
  | .hash place path, s =>
      (verdict.read (((s.directories place).bind (·.contents path)).map sha256), s)
  | .random, s => (some (s.random s.performed), s)
  | .copyDirectory directory target, s => s.copy verdict directory target
  | .moveDirectory from' target, s => s.move verdict from' target
  | .deleteDirectory place, s => s.delete verdict place

/-- The next operation. -/
def exec (o : Operation) (s : Store) : Reply Operation.Answer o × Store :=
  operate sha256 isVcs (s.verdict s.performed) o { s with performed := s.performed + 1 }

/-! ## The methods -/

/-- The exceptions. -/
inductive PublishFailure
  /-- An operation has thrown. -/
  | thrown
  | unableToStage
  | unableToStageComplete
  | unableToPublish
  | unableToRestore (backupDirectory : Place)

/-- The texts of the exceptions of the class, given the paths of the places. -/
def PublishFailure.message (path : Place → String) : PublishFailure → Option String
  | .thrown => none
  | .unableToStage => some "Unable to stage Horizon New Dawn assets."
  | .unableToStageComplete => some "Unable to stage a complete Horizon New Dawn asset build."
  | .unableToPublish => some ("Unable to publish " ++ path .destination ++ ".")
  | .unableToRestore backupDirectory =>
      some ("Unable to publish " ++ path .destination ++ " and restore the previous build from " ++
        path backupDirectory ++ ".")

/-- Programs over the operations; there are no sections. -/
abbrev AssetsProgram (α : Type) : Type :=
  Prog Operation (Reply Operation.Answer) Empty PublishFailure α

/-- One operation, or its exception. -/
abbrev request (o : Operation) : AssetsProgram o.Answer := Prog.request .thrown o

/-- `ABANDONED_STAGING_AFTER_SECONDS` -/
def abandonedStagingAfterSeconds : ℤ := 3600

/-- `MANIFEST` -/
def manifestName : String := "manifest.json"

/-- `str_replace('\\', '/', …)` -/
def slashed (path : String) : String := path.map fun c => if c = '\\' then '/' else c

/-- The body of the sweep. -/
def removeIfAbandoned (abandonedBefore : ℤ) (stagingDirectory : Place) : AssetsProgram Unit := do
  let found ← (request (.isDirectory stagingDirectory) : AssetsProgram Bool)
  if found then do
    let modified ← (request (.lastModified stagingDirectory) : AssetsProgram ℤ)
    if modified > abandonedBefore then return ()
    else do
      let _ ← (request (.deleteDirectory stagingDirectory) : AssetsProgram Bool)
      return ()
  else return ()

/-- `removeAbandonedStagingDirectories` -/
def removeAbandonedStagingDirectories : AssetsProgram Unit := do
  let now ← (request .time : AssetsProgram ℤ)
  Prog.forEach [false, true] fun backups => do
    let stagingDirectories ← (request (.glob backups) : AssetsProgram (List Place))
    Prog.forEach stagingDirectories (removeIfAbandoned (now - abandonedStagingAfterSeconds))

/-- `relativeFileMap`: the pathnames of the listed files by their relative paths. -/
def relativeFileMap (directory : Place) : AssetsProgram (AList fun _ : String => String) := do
  let files ← (request (.allFiles directory) : AssetsProgram (List String))
  return files.foldl (fun map file => map.insert (slashed file) file) ∅

/-- `publishedFilesMatch` -/
def publishedFilesMatch (sourcePath destinationPath : String) : AssetsProgram Bool := do
  let found ← (request (.isFile .destination destinationPath) : AssetsProgram Bool)
  if found then do
    let sourceHash ← (request (.hash .source sourcePath) : AssetsProgram String)
    let destinationHash ← (request (.hash .destination destinationPath) : AssetsProgram String)
    return decide (sourceHash = destinationHash)
  else return false

/-- `normalizeRelativeAssetPath` -/
def normalizeRelativeAssetPath (path : String) : Option String :=
  let normalized := slashed (Php.trim path)
  let drive : Bool := match normalized.toList with
    | letter :: ':' :: '/' :: _ => letter.isAlpha
    | _ => false
  if normalized = "" ∨ normalized.startsWith "/" ∨ drive then none
  else
    let segments := (normalized.toList.splitOn '/').map String.ofList
    if segments.any fun segment => segment = "" ∨ segment = "." ∨ segment = ".." then none
    else some ("/".intercalate segments)

/-- `publishedAssetPath` -/
def publishedAssetPath (directory : Place) (path : Php) : AssetsProgram (Option String) :=
  match path with
  | .str path =>
      match normalizeRelativeAssetPath path with
      | none => return none
      | some relativePath => do
          let found ← (request (.isFile directory relativePath) : AssetsProgram Bool)
          return if found then some relativePath else none
  | _ => return none

/-- A loop that collects lists, and ends with `null` where its body does. -/
def collectAll {α : Type} : List α → (α → AssetsProgram (Option (List String))) →
    AssetsProgram (Option (List String))
  | [], _ => return some []
  | a :: as, body => do
      let some paths ← body a | return none
      let some rest ← collectAll as body | return none
      return some (paths ++ rest)

/-- `$entry[$collection] ?? []`, where it is an array. -/
def collectionOf (entry : List (String × Php)) (collection : String) :
    Option (List (String × Php)) :=
  match Php.entry collection entry with
  | .null => some []
  | .array values => some values
  | _ => none

/-- Whether the imports of an entry are keys of the manifest. -/
def importsExist (manifest entry : List (String × Php)) : Bool :=
  ["imports", "dynamicImports"].all fun collection =>
    match collectionOf entry collection with
    | none => false
    | some imports => imports.all fun value =>
        match value.2 with
        | .str name => (Php.get name manifest).isSome
        | _ => false

/-- The loop over `css` and `assets`. -/
def collectionPaths (directory : Place) (entry : List (String × Php)) (collection : String) :
    AssetsProgram (Option (List String)) :=
  match collectionOf entry collection with
  | none => return none
  | some values => collectAll values fun value => do
      let path ← publishedAssetPath directory value.2
      return path.map fun path => [path]

/-- The body of the loop over the manifest. -/
def entryAssetPaths (directory : Place) (manifest : List (String × Php)) (member : String × Php) :
    AssetsProgram (Option (List String)) :=
  match member.2 with
  | .array entry =>
      if isIntegerKey member.1 then return none
      else do
        let some file ← publishedAssetPath directory (Php.entry "file" entry) | return none
        let some paths ← collectAll ["css", "assets"] (collectionPaths directory entry)
          | return none
        return if importsExist manifest entry then some (file :: paths) else none
  | _ => return none

/-- `manifestAssetPaths` -/
def manifestAssetPaths (directory : Place) : AssetsProgram (Option (List String)) := do
  let found ← (request (.isFile directory manifestName) : AssetsProgram Bool)
  if found then do
    let text ← (request (.get directory manifestName) : AssetsProgram String)
    match FailedJobRetryEligibility.decode text with
    | some (.array manifest) =>
        if Php.keys manifest = Php.listKeys manifest.length ∨
            Php.get "resources/js/app.tsx" manifest = none then return none
        else do
          let paths ← collectAll manifest (entryAssetPaths directory manifest)
          return paths.map List.eraseDups
    | _ => return none
  else return none

/-- `hasCompletePublishedAssets` -/
def hasCompletePublishedAssets (directory : Place) : AssetsProgram Bool := do
  let found ← (request (.isDirectory directory) : AssetsProgram Bool)
  if found then do
    let paths ← manifestAssetPaths directory
    return paths.isSome
  else return false

/-- The order `ksort` gives the keys of an array. -/
abbrev KeySort : Type := List String → List String

/-- `hasExactPublishedAssets` -/
def hasExactPublishedAssets (ksort : KeySort) : AssetsProgram Bool := do
  let complete ← hasCompletePublishedAssets .destination
  if complete then do
    let sourceFiles ← relativeFileMap .source
    let destinationFiles ← relativeFileMap .destination
    if ksort sourceFiles.keys ≠ ksort destinationFiles.keys then return false
    else do
      let mismatch ← Prog.firstSome (ksort sourceFiles.keys) fun relativePath => do
        let same ← publishedFilesMatch ((sourceFiles.lookup relativePath).getD "")
          ((destinationFiles.lookup relativePath).getD "")
        return if same then none else some ()
      return mismatch.isNone
  else return false

/-- `replacePublishedDirectory` -/
def replacePublishedDirectory (stagingDirectory : Place) : AssetsProgram Unit := do
  let found ← (request (.isDirectory .destination) : AssetsProgram Bool)
  if found then do
    let random ← (request .random : AssetsProgram String)
    let moved ← (request (.moveDirectory .destination (.backup random)) : AssetsProgram Bool)
    if moved then do
      let published ← (request (.moveDirectory stagingDirectory .destination) : AssetsProgram Bool)
      if published then do
        let _ ← (request (.deleteDirectory (.backup random)) : AssetsProgram Bool)
        return ()
      else do
        let restored ←
          (request (.moveDirectory (.backup random) .destination) : AssetsProgram Bool)
        if restored then .fail .unableToPublish else .fail (.unableToRestore (.backup random))
    else .fail .unableToPublish
  else do
    let published ← (request (.moveDirectory stagingDirectory .destination) : AssetsProgram Bool)
    if published then return () else .fail .unableToPublish

/-- The body of `try` in `publish`. -/
def stage (stagingDirectory : Place) : AssetsProgram Unit := do
  let copied ← (request (.copyDirectory .source stagingDirectory) : AssetsProgram Bool)
  if copied then do
    let complete ← hasCompletePublishedAssets stagingDirectory
    if complete then replacePublishedDirectory stagingDirectory
    else .fail .unableToStageComplete
  else .fail .unableToStage

/-- The clean-up of `publish`. -/
def removeStaging (stagingDirectory : Place) : AssetsProgram Unit := do
  let found ← (request (.isDirectory stagingDirectory) : AssetsProgram Bool)
  if found then do
    let _ ← (request (.deleteDirectory stagingDirectory) : AssetsProgram Bool)
    return ()
  else return ()

/-- `publish` -/
def publish (ksort : KeySort) (force : Bool) : AssetsProgram Unit := do
  (request .ensureDirectoryExists : AssetsProgram Unit)
  removeAbandonedStagingDirectories
  let unchanged ← (if force then pure false else hasExactPublishedAssets ksort :
    AssetsProgram Bool)
  if unchanged then return ()
  else do
    let random ← (request .random : AssetsProgram String)
    (stage (.staging random)).tryFinally (removeStaging (.staging random))

/-! ## What an operation does -/

/-- A store with the operations performed so far, each with the store it was performed in. -/
abbrev Traced : Type := Recorded Operation Store

abbrev traced (o : Operation) (x : Traced) : Reply Operation.Answer o × Traced :=
  recording (exec sha256 isVcs) o x

/-- Between two moments the directories are all that may have changed. -/
structure Later (x y : Traced) : Prop where
  random : y.1.random = x.1.random
  verdict : y.1.verdict = x.1.verdict
  siblings : y.1.siblings = x.1.siblings
  lastModified : y.1.lastModified = x.1.lastModified
  clock : y.1.clock = x.1.clock
  history : x.2 ⊆ y.2

/-- Between two moments nothing has changed. -/
structure Read (x y : Traced) : Prop extends Later x y where
  directories : y.1.directories = x.1.directories

variable {sha256 isVcs} {x y z : Traced} {o : Operation}

/-- Later moments may be taken one after the other. -/
theorem Later.trans (h : Later x y) (h' : Later y z) : Later x z where
  random := h'.random.trans h.random
  verdict := h'.verdict.trans h.verdict
  siblings := h'.siblings.trans h.siblings
  lastModified := h'.lastModified.trans h.lastModified
  clock := h'.clock.trans h.clock
  history := List.Subset.trans h.history h'.history

/-- Reading nothing is a reading. -/
theorem Read.refl (x : Traced) : Read x x := ⟨⟨rfl, rfl, rfl, rfl, rfl, List.Subset.refl _⟩, rfl⟩

/-- Readings may be taken one after the other. -/
theorem Read.trans (h : Read x y) (h' : Read y z) : Read x z :=
  ⟨h.toLater.trans h'.toLater, h'.directories.trans h.directories⟩

/-- The operations that change no directory. -/
def Operation.IsRead : Operation → Prop
  | .copyDirectory _ _ => False
  | .moveDirectory _ _ => False
  | .deleteDirectory _ => False
  | _ => True

/-- A reading operation leaves the store as it is. -/
theorem operate_of_isRead (ho : o.IsRead) (verdict : Verdict) (s : Store) :
    (operate sha256 isVcs verdict o s).2 = s := by
  cases o <;> first | rfl | exact absurd ho not_false

/-- A copy changes directories only. -/
theorem Store.copy_eq (s : Store) (verdict : Verdict) (directory target : Place) :
    ∃ directories, (s.copy verdict directory target).2 = { s with directories } := by
  unfold copy
  split <;> exact ⟨_, rfl⟩

/-- A move changes directories only. -/
theorem Store.move_eq (s : Store) (verdict : Verdict) (from' target : Place) :
    ∃ directories, (s.move verdict from' target).2 = { s with directories } := by
  unfold move
  split <;> exact ⟨_, rfl⟩

/-- A deletion changes directories only. -/
theorem Store.delete_eq (s : Store) (verdict : Verdict) (place : Place) :
    ∃ directories, (s.delete verdict place).2 = { s with directories } := by
  unfold delete
  split <;> exact ⟨_, rfl⟩

/-- Whatever becomes of an operation, it changes nothing but directories. -/
theorem operate_eq (verdict : Verdict) (o : Operation) (s : Store) :
    ∃ directories, (operate sha256 isVcs verdict o s).2 = { s with directories } := by
  cases o with
  | copyDirectory directory target => exact s.copy_eq verdict directory target
  | moveDirectory from' target => exact s.move_eq verdict from' target
  | deleteDirectory place => exact s.delete_eq verdict place
  | _ => exact ⟨s.directories, rfl⟩

/-- An operation leads to a later moment. -/
theorem later_traced (o : Operation) (x : Traced) : Later x (traced sha256 isVcs o x).2 := by
  obtain ⟨directories, hstore⟩ := @operate_eq sha256 isVcs (x.1.verdict x.1.performed) o
    { x.1 with performed := x.1.performed + 1 }
  have htraced : (traced sha256 isVcs o x).2 = ({ x.1 with
      performed := x.1.performed + 1
      directories }, (o, x.1) :: x.2) := by
    rw [traced, recording, exec, hstore]
  rw [htraced]
  exact ⟨rfl, rfl, rfl, rfl, rfl, List.subset_cons_self _ _⟩

/-- The store when `n` operations have been performed. -/
def Store.after (s : Store) (n : ℕ) : Store := { s with performed := n }

/-- An operation, from what it does under its verdict. -/
theorem ends_operate {Q : o.Answer → Traced → Prop} {E : PublishFailure → Traced → Prop}
    (h : ∀ (n : ℕ) (y : Traced), Later x y → (o, x.1) ∈ y.2 → ∀ answer s',
      operate sha256 isVcs (x.1.verdict x.1.performed) o (x.1.after n) = (answer, s') →
        y.1.directories = s'.directories →
          (∀ a, answer = some a → Q a y) ∧ (answer = none → E .thrown y)) :
    Prog.Ends (traced sha256 isVcs) (request o) x Q E := by
  have hspec := h (x.1.performed + 1) (traced sha256 isVcs o x).2 (later_traced o x) List.mem_cons_self
    _ _ rfl rfl
  exact Prog.Ends.request hspec.1 hspec.2

/-- A read, with what is known of its answer. -/
theorem ends_read (ho : o.IsRead) {P : o.Answer → Prop}
    (hP : ∀ verdict n a, (operate sha256 isVcs verdict o (x.1.after n)).1 = some a → P a) :
    Prog.Ends (traced sha256 isVcs) (request o) x (fun a y => Read x y ∧ P a) (fun _ y => Read x y) := by
  refine ends_operate fun n y hlater _ answer s' hoperate hy => ?_
  have hsame : s' = x.1.after n := by
    have := @operate_of_isRead sha256 isVcs o ho (x.1.verdict x.1.performed) (x.1.after n)
    rwa [hoperate] at this
  have hread : Read x y := ⟨hlater, by rw [hy, hsame]; rfl⟩
  refine ⟨fun a ha => ⟨hread, hP (x.1.verdict x.1.performed) n a ?_⟩, fun _ => hread⟩
  rw [hoperate]
  exact ha

/-- One of the operations to come fails. -/
def Disturbed (x : Traced) : Prop := ∃ n, (x.1.verdict n).isSuccess = false

/-- A read that answers from the directories: where it throws, there is nothing to answer, or it has
failed. -/
theorem ends_answer {a : Option o.Answer}
    (h : ∀ verdict n, operate sha256 isVcs verdict o (x.1.after n) =
      (verdict.read a, x.1.after n)) :
    Prog.Ends (traced sha256 isVcs) (request o) x (fun b y => Read x y ∧ a = some b)
      (fun _ y => Read x y ∧ (a = none ∨ Disturbed x)) := by
  refine ends_operate fun n y hlater _ answer s' hoperate hy => ?_
  rw [h] at hoperate
  obtain ⟨rfl, rfl⟩ := Prod.mk.inj hoperate
  have hread : Read x y := ⟨hlater, hy⟩
  cases hverdict : (x.1.verdict x.1.performed).isSuccess with
  | false => exact ⟨by simp [Verdict.read, hverdict], fun _ => ⟨hread, Or.inr ⟨_, hverdict⟩⟩⟩
  | true =>
      constructor
      · intro b hb
        exact ⟨hread, by simpa [Verdict.read, hverdict] using hb⟩
      · intro hnone
        exact ⟨hread, Or.inl (by simpa [Verdict.read, hverdict] using hnone)⟩

/-- Whether a place is a directory is told without fail. -/
theorem ends_isDirectory (place : Place) (x : Traced) :
    Prog.Ends (traced sha256 isVcs) (request (.isDirectory place)) x
      (fun found y => Read x y ∧ found = (x.1.directories place).isSome) (fun _ _ => False) := by
  refine ends_operate fun n y hlater _ answer s' hoperate hy => ?_
  cases hoperate
  exact ⟨fun found hfound => ⟨⟨hlater, hy⟩, (Option.some.inj hfound).symm⟩, nofun⟩

/-- A copy of a directory that exists. -/
theorem Store.copy_of_some {s : Store} {directory target : Place} {tree : Tree}
    (h : s.directories directory = some tree) (verdict : Verdict) :
    s.copy verdict directory target =
      match verdict with
      | .succeeds => (some true, s.place target (some tree))
      | .fails remains => (some false, s.place target remains)
      | .throws remains => (none, s.place target remains) := by
  cases verdict <;> simp only [copy, h]

/-- A copy into a new place: all of it, or some remains. -/
theorem ends_copyDirectory {directory target : Place} {tree : Tree}
    (htree : x.1.directories directory = some tree) :
    Prog.Ends (traced sha256 isVcs) (request (.copyDirectory directory target)) x
      (fun copied y => Later x y ∧ (copied = true ∧
          y.1.directories = Function.update x.1.directories target (some tree) ∨
        copied = false ∧ ∃ remains,
          y.1.directories = Function.update x.1.directories target remains))
      (fun _ y => Later x y ∧ ∃ remains,
        y.1.directories = Function.update x.1.directories target remains) := by
  refine ends_operate fun n y hlater _ answer s' hoperate hy => ?_
  rw [operate, Store.copy_of_some (s := x.1.after n) htree] at hoperate
  cases hverdict : x.1.verdict x.1.performed with
  | succeeds =>
      rw [hverdict] at hoperate
      cases hoperate
      exact ⟨fun a ha => ⟨hlater, Or.inl ⟨(Option.some.inj ha).symm, hy⟩⟩, nofun⟩
  | fails remains =>
      rw [hverdict] at hoperate
      cases hoperate
      exact ⟨fun a ha => ⟨hlater, Or.inr ⟨(Option.some.inj ha).symm, remains, hy⟩⟩, nofun⟩
  | throws remains =>
      rw [hverdict] at hoperate
      cases hoperate
      exact ⟨nofun, fun _ => ⟨hlater, remains, hy⟩⟩

/-- A move of a directory to a free place. -/
theorem Store.move_of_some {s : Store} {from' target : Place} {tree : Tree}
    (h : s.directories from' = some tree) (h' : s.directories target = none) (verdict : Verdict) :
    s.move verdict from' target =
      match verdict with
      | .succeeds => (some true, (s.place from' none).place target (some tree))
      | _ => (some false, s) := by
  cases verdict <;> simp only [move, h, h']

/-- A move into a place that is free: the directory is moved, or everything is as it was. -/
theorem ends_moveDirectory (tree : Tree) {from' target : Place}
    (htree : x.1.directories from' = some tree) (hfree : x.1.directories target = none) :
    Prog.Ends (traced sha256 isVcs) (request (.moveDirectory from' target)) x
      (fun moved y => Later x y ∧ (moved = true ∧ y.1.directories =
          Function.update (Function.update x.1.directories from' none) target (some tree) ∨
        moved = false ∧ y.1.directories = x.1.directories))
      (fun _ _ => False) := by
  refine ends_operate fun n y hlater _ answer s' hoperate hy => ?_
  rw [operate, Store.move_of_some (s := x.1.after n) htree hfree] at hoperate
  cases hverdict : x.1.verdict x.1.performed with
  | succeeds =>
      rw [hverdict] at hoperate
      cases hoperate
      exact ⟨fun a ha => ⟨hlater, Or.inl ⟨(Option.some.inj ha).symm, hy⟩⟩, nofun⟩
  | fails remains =>
      rw [hverdict] at hoperate
      cases hoperate
      exact ⟨fun a ha => ⟨hlater, Or.inr ⟨(Option.some.inj ha).symm, hy⟩⟩, nofun⟩
  | throws remains =>
      rw [hverdict] at hoperate
      cases hoperate
      exact ⟨fun a ha => ⟨hlater, Or.inr ⟨(Option.some.inj ha).symm, hy⟩⟩, nofun⟩

/-- A deletion of a place has failed. -/
def DeletionFailed (y : Traced) (place : Place) : Prop :=
  ∃ s, (.deleteDirectory place, s) ∈ y.2 ∧ (s.verdict s.performed).isSuccess = false

/-- The deletion of a directory that exists. -/
theorem Store.delete_of_some {s : Store} {place : Place} {tree : Tree}
    (h : s.directories place = some tree) (verdict : Verdict) :
    s.delete verdict place =
      match verdict with
      | .succeeds => (some true, s.place place none)
      | .fails remains | .throws remains => (some false, s.place place remains) := by
  cases verdict <;> simp only [delete, h]

/-- A deletion: nothing is left, or it has failed. -/
theorem ends_deleteDirectory (tree : Tree) {place : Place}
    (htree : x.1.directories place = some tree) :
    Prog.Ends (traced sha256 isVcs) (request (.deleteDirectory place)) x
      (fun _ y => Later x y ∧ ∃ remains,
        y.1.directories = Function.update x.1.directories place remains ∧
          (remains = none ∨ DeletionFailed y place))
      (fun _ _ => False) := by
  refine ends_operate fun n y hlater hmem answer s' hoperate hy => ?_
  rw [operate, Store.delete_of_some (s := x.1.after n) htree] at hoperate
  cases hverdict : x.1.verdict x.1.performed with
  | succeeds =>
      rw [hverdict] at hoperate
      cases hoperate
      exact ⟨fun a _ => ⟨hlater, none, hy, Or.inl rfl⟩, nofun⟩
  | fails remains =>
      rw [hverdict] at hoperate
      cases hoperate
      exact ⟨fun a _ => ⟨hlater, remains, hy, Or.inr ⟨x.1, hmem, by rw [hverdict]; rfl⟩⟩, nofun⟩
  | throws remains =>
      rw [hverdict] at hoperate
      cases hoperate
      exact ⟨fun a _ => ⟨hlater, remains, hy, Or.inr ⟨x.1, hmem, by rw [hverdict]; rfl⟩⟩, nofun⟩

/-! ## Reading -/

/-- Every operation of a program is a read, and it comes to an end. -/
def ReadOnly {α : Type} : AssetsProgram α → Prop
  | .ret _ => True
  | .fail _ => True
  | .stopped => False
  | .op _ o next => o.IsRead ∧ ∀ a, ReadOnly (next a)

namespace ReadOnly

variable {α β : Type} {p : AssetsProgram α}

/-- Programs that only read, one after the other. -/
theorem bind {f : α → AssetsProgram β} (h : ReadOnly p) (hf : ∀ a, ReadOnly (f a)) :
    ReadOnly (p >>= f) := by
  induction p with
  | ret a => exact hf a
  | fail e => trivial
  | stopped => exact h
  | op ls o next ih => exact ⟨h.1, fun a => ih a (h.2 a)⟩

/-- A reading operation only reads. -/
theorem request (ho : o.IsRead) : ReadOnly (request o) := by
  refine bind (p := Prog.attempt o) ⟨ho, fun _ => trivial⟩ fun a => ?_
  cases a <;> trivial

/-- A collection of what only reads only reads. -/
theorem collectAll {as : List α} {body : α → AssetsProgram (Option (List String))}
    (h : ∀ a, ReadOnly (body a)) : ReadOnly (collectAll as body) := by
  induction as with
  | nil => trivial
  | cons a as ih =>
      refine bind (h a) fun r => ?_
      cases r with
      | none => trivial
      | some paths =>
          refine bind ih fun r => ?_
          cases r <;> trivial

/-- Such a program changes nothing. -/
theorem ends (h : ReadOnly p) (x : Traced) :
    Prog.Ends (traced sha256 isVcs) p x (fun _ y => Read x y) (fun _ y => Read x y) := by
  induction p generalizing x with
  | ret a => exact Read.refl x
  | fail e => exact Read.refl x
  | stopped => exact h
  | op ls o next ih =>
      have hread : Read x (traced sha256 isVcs o x).2 := by
        refine ⟨later_traced o x, ?_⟩
        rw [traced, recording, exec, operate_of_isRead h.1]
      exact Prog.Ends.mono (ih _ (h.2 _) _) (fun _ _ hy => hread.trans hy)
        fun _ _ hy => hread.trans hy

end ReadOnly

/-- The path of an asset is found by reading. -/
theorem readOnly_publishedAssetPath (directory : Place) (path : Php) :
    ReadOnly (publishedAssetPath directory path) := by
  unfold publishedAssetPath
  split
  · split
    · trivial
    · exact ReadOnly.bind (ReadOnly.request trivial) fun _ => trivial
  · trivial

/-- So are the paths of an entry of the manifest. -/
theorem readOnly_entryAssetPaths (directory : Place) (manifest : List (String × Php))
    (member : String × Php) : ReadOnly (entryAssetPaths directory manifest member) := by
  unfold entryAssetPaths
  split
  case h_1 entry _ =>
    split
    · trivial
    · refine ReadOnly.bind (readOnly_publishedAssetPath directory _) fun file => ?_
      cases file with
      | none => trivial
      | some file =>
          refine ReadOnly.bind (ReadOnly.collectAll fun collection => ?_) fun paths => ?_
          · unfold collectionPaths
            split
            · trivial
            · exact ReadOnly.collectAll fun value =>
                ReadOnly.bind (readOnly_publishedAssetPath directory _) fun _ => trivial
          · cases paths <;> trivial
  case h_2 => trivial

/-- Whether a build is complete is found by reading. -/
theorem readOnly_hasCompletePublishedAssets (directory : Place) :
    ReadOnly (hasCompletePublishedAssets directory) := by
  refine ReadOnly.bind (ReadOnly.request trivial) fun found => ?_
  cases found with
  | false => trivial
  | true =>
      refine ReadOnly.bind (ReadOnly.bind (ReadOnly.request trivial) fun found => ?_) fun _ => trivial
      cases found with
      | false => trivial
      | true =>
          refine ReadOnly.bind (ReadOnly.request trivial) fun text => ?_
          split
          · split_ifs
            · trivial
            · exact ReadOnly.bind (ReadOnly.collectAll (readOnly_entryAssetPaths directory _))
                fun _ => trivial
          · trivial

end AssetsPublisher

end HorizonNewDawn

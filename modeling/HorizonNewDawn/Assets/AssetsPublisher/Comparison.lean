import HorizonNewDawn.Assets.AssetsPublisher

/-! # What the publisher takes for the same

A publication that is not forced is left alone where its manifest is complete and the listed files of
the build and of the destination have the same names and hashes. The listing passes over the directories
of version control systems: files in them are neither seen by the comparison nor removed. -/

namespace HorizonNewDawn

open Program

namespace AssetsPublisher

variable {sha256 : String → String} {isVcs : String → Bool} {x y z : Traced} {o : Operation}

/-! ## Complete builds -/

/-- What is seen of a tree. -/
def seen (tree : Tree) : (o : Operation) → Option o.Answer
  | .isDirectory _ => some true
  | .isFile _ path => some (tree.contents path).isSome
  | .get _ path => tree.contents path
  | _ => none

/-- What a program that looks at a tree comes to. -/
def look {α : Type} (tree : Tree) : AssetsProgram α → Option α
  | .ret a => some a
  | .fail _ => none
  | .stopped => none
  | .op _ o next =>
      match seen tree o with
      | none => none
      | some answer => look tree (next (some answer))

/-- A complete build, wherever it lies. -/
def Complete (tree : Tree) : Prop :=
  ∃ directory, look tree (hasCompletePublishedAssets directory) = some true

/-- A program looks at one directory only, and ends where an operation throws. -/
def Looks {α : Type} (directory : Place) : AssetsProgram α → Prop
  | .ret _ => True
  | .fail _ => True
  | .stopped => True
  | .op _ o next =>
      (o = .isDirectory directory ∨ (∃ path, o = .isFile directory path) ∨
        ∃ path, o = .get directory path) ∧
      (∃ e, next none = .fail e) ∧ ∀ answer, Looks directory (next (some answer))

namespace Looks

variable {α β : Type} {directory : Place} {p : AssetsProgram α}

/-- Programs that look at one directory, one after the other. -/
theorem bind {f : α → AssetsProgram β} (h : Looks directory p) (hf : ∀ a, Looks directory (f a)) :
    Looks directory (p >>= f) := by
  induction p with
  | ret a => exact hf a
  | fail e => trivial
  | stopped => trivial
  | op ls o next ih =>
      obtain ⟨ho, ⟨e, he⟩, hnext⟩ := h
      refine ⟨ho, ⟨e, ?_⟩, fun answer => ih (some answer) (hnext answer)⟩
      show (next none >>= f) = .fail e
      rw [he]
      rfl

/-- Whether it is there is a look at it. -/
theorem isDirectory : Looks directory (request (.isDirectory directory)) :=
  ⟨Or.inl rfl, ⟨.thrown, rfl⟩, fun _ => trivial⟩

/-- So is whether a file of it is there. -/
theorem isFile (path : String) : Looks directory (request (.isFile directory path)) :=
  ⟨Or.inr (Or.inl ⟨path, rfl⟩), ⟨.thrown, rfl⟩, fun _ => trivial⟩

/-- So is what a file of it holds. -/
theorem get (path : String) : Looks directory (request (.get directory path)) :=
  ⟨Or.inr (Or.inr ⟨path, rfl⟩), ⟨.thrown, rfl⟩, fun _ => trivial⟩

/-- A collection of looks at a directory looks at it. -/
theorem collectAll {as : List α} {body : α → AssetsProgram (Option (List String))}
    (h : ∀ a, Looks directory (body a)) : Looks directory (collectAll as body) := by
  induction as with
  | nil => trivial
  | cons a as ih =>
      apply bind (h a)
      intro r
      cases r with
      | none => trivial
      | some paths =>
          apply bind ih
          intro r
          cases r <;> trivial

/-- The path of an asset is found by looking at the directory. -/
theorem publishedAssetPath (path : Php) : Looks directory (publishedAssetPath directory path) := by
  unfold AssetsPublisher.publishedAssetPath
  split
  · split
    · trivial
    · exact bind (isFile _) fun _ => trivial
  · trivial

/-- So are the paths of a collection. -/
theorem collectionPaths (entry : List (String × Php)) (collection : String) :
    Looks directory (collectionPaths directory entry collection) := by
  unfold AssetsPublisher.collectionPaths
  split
  · trivial
  · exact collectAll fun value => bind (publishedAssetPath value.2) fun _ => trivial

/-- So are the paths of an entry. -/
theorem entryAssetPaths (manifest : List (String × Php)) (member : String × Php) :
    Looks directory (entryAssetPaths directory manifest member) := by
  unfold AssetsPublisher.entryAssetPaths
  split
  · split
    · trivial
    · apply bind (publishedAssetPath _)
      intro file
      cases file with
      | none => trivial
      | some file =>
          apply bind (collectAll (collectionPaths _))
          intro paths
          cases paths <;> trivial
  · trivial

/-- So are the paths of the manifest. -/
theorem manifestAssetPaths : Looks directory (manifestAssetPaths directory) := by
  apply bind (isFile manifestName)
  intro found
  cases found with
  | false => trivial
  | true =>
      apply bind (get manifestName)
      intro text
      split
      · split_ifs
        · trivial
        · exact bind (collectAll (entryAssetPaths _)) fun _ => trivial
      · trivial

/-- Whether the build is complete is found by looking at it. -/
theorem hasCompletePublishedAssets : Looks directory (hasCompletePublishedAssets directory) := by
  apply bind isDirectory
  intro found
  cases found with
  | false => trivial
  | true => exact bind manifestAssetPaths fun _ => trivial

/-- A program that looks at a directory finds what is there, unless one of its reads fails. -/
theorem ends (h : Looks directory p) (hread : ReadOnly p) {tree : Tree} {x : Traced}
    (htree : x.1.directories directory = some tree) :
    Prog.Ends (traced sha256 isVcs) p x (fun a y => Read x y ∧ look tree p = some a)
      (fun _ y => Read x y ∧ (look tree p = none ∨ Disturbed x)) := by
  induction p generalizing x with
  | ret a => exact ⟨Read.refl x, rfl⟩
  | fail e => exact ⟨Read.refl x, Or.inl rfl⟩
  | stopped => exact hread
  | op ls o next ih =>
      obtain ⟨ho, ⟨e, he⟩, hnext⟩ := h
      -- what the operation answers, and that an exception has its reasons
      have hseen : Read x (traced sha256 isVcs o x).2 ∧
          (∀ answer, (traced sha256 isVcs o x).1 = some answer → seen tree o = some answer) ∧
            ((traced sha256 isVcs o x).1 = none → seen tree o = none ∨ Disturbed x) := by
        have hsame : Read x (traced sha256 isVcs o x).2 := by
          refine ⟨later_traced o x, ?_⟩
          rw [traced, recording, exec, operate_of_isRead hread.1]
        refine ⟨hsame, ?_⟩
        rcases ho with rfl | ⟨path, rfl⟩ | ⟨path, rfl⟩
        · simp [traced, recording, exec, operate, seen, htree]
        · simp [traced, recording, exec, operate, seen, htree]
        · cases hverdict : (x.1.verdict x.1.performed).isSuccess with
          | false =>
              have hdisturbed : Disturbed x := ⟨_, hverdict⟩
              simp [traced, recording, exec, operate, Verdict.read, hverdict, hdisturbed]
          | true =>
              simp only [traced, recording, exec, operate, Verdict.read, hverdict, seen, htree,
                Option.bind_some, if_true]
              exact ⟨fun _ h => h, Or.inl⟩
      obtain ⟨hxy, hanswer, hthrown⟩ := hseen
      show Prog.Ends _ (next (traced sha256 isVcs o x).1) (traced sha256 isVcs o x).2 _ _
      cases hresult : (traced sha256 isVcs o x).1 with
      | none =>
          rw [he]
          refine ⟨hxy, (hthrown hresult).imp (fun hnone => ?_) id⟩
          rw [look, hnone]
      | some answer =>
          have hrest := ih (some answer) (hnext answer) (hread.2 _)
            (show (traced sha256 isVcs o x).2.1.directories directory = some tree by
              rw [hxy.directories, htree])
          have heq : look tree (.op ls o next) = look tree (next (some answer)) := by
            rw [look, hanswer answer hresult]
          rw [heq]
          refine Prog.Ends.mono hrest (fun _ _ hy => ⟨hxy.trans hy.1, hy.2⟩) ?_
          rintro e' y ⟨hyz, hnone | ⟨n, hn⟩⟩
          · exact ⟨hxy.trans hyz, Or.inl hnone⟩
          · exact ⟨hxy.trans hyz, Or.inr ⟨n, by rw [← hxy.verdict]; exact hn⟩⟩

end Looks

/-! ## The file maps -/

/-- The pathnames of the files by their relative paths. -/
def Tree.fileMap (tree : Tree) : AList fun _ : String => String :=
  (tree.files.map Prod.fst).foldl (fun map file => map.insert (slashed file) file) ∅

/-- The contents of the file with a relative path. -/
def Tree.relativeContents (tree : Tree) (relativePath : String) : Option String :=
  (tree.fileMap.lookup relativePath).bind tree.contents

/-- Two directories have the same file map: the same relative paths with the same contents. -/
def SameFiles (tree tree' : Tree) : Prop :=
  ∀ relativePath, tree.relativeContents relativePath = tree'.relativeContents relativePath

/-- Files whose names have no backslashes, filed under their own names. -/
theorem lookup_foldl_insert {files : List String} (h : ∀ file ∈ files, slashed file = file)
    (map : AList fun _ : String => String) (path : String) :
    (files.foldl (fun map file => map.insert (slashed file) file) map).lookup path =
      if path ∈ files then some path else map.lookup path := by
  induction files generalizing map with
  | nil => rfl
  | cons file files ih =>
      obtain ⟨hfile, hfiles⟩ := List.forall_mem_cons.mp h
      rw [List.foldl_cons, ih hfiles, hfile]
      by_cases hpath : path = file
      · subst hpath
        rw [if_pos List.mem_cons_self, AList.lookup_insert, ite_self]
      · simp only [List.mem_cons, hpath, false_or, AList.lookup_insert_ne hpath]

/-- With forward slashes a path is that of the file. -/
theorem Tree.relativeContents_eq {tree : Tree} (h : ∀ file ∈ tree.files, slashed file.1 = file.1)
    (path : String) : tree.relativeContents path = tree.contents path := by
  have hnames : ∀ file ∈ tree.files.map Prod.fst, slashed file = file := by
    intro name hname
    obtain ⟨file, hfile, rfl⟩ := List.mem_map.mp hname
    exact h file hfile
  rw [relativeContents, fileMap, lookup_foldl_insert hnames]
  by_cases hpath : path ∈ tree.files.map Prod.fst
  · rw [if_pos hpath, Option.bind_some]
  · rw [if_neg hpath, AList.lookup_empty, Option.bind_none, contents, eq_comm,
      Option.map_eq_none_iff, List.find?_eq_none]
    intro file hfile hname
    exact hpath (List.mem_map.mpr ⟨file, hfile, of_decide_eq_true hname⟩)

/-- Without backslashes in the names, the same file map means the same files. -/
theorem SameFiles.contents_eq {tree tree' : Tree} (h : SameFiles tree tree')
    (hnames : ∀ file ∈ tree.files, slashed file.1 = file.1)
    (hnames' : ∀ file ∈ tree'.files, slashed file.1 = file.1) (path : String) :
    tree.contents path = tree'.contents path := by
  rw [← Tree.relativeContents_eq hnames, ← Tree.relativeContents_eq hnames']
  exact h path

/-- The pathnames of the listed files by their relative paths. -/
def Tree.listedMap (isVcs : String → Bool) (tree : Tree) : AList fun _ : String => String :=
  (tree.allFiles isVcs).foldl (fun map file => map.insert (slashed file) file) ∅

/-- The contents of the listed file with a relative path. -/
def Tree.listedContents (isVcs : String → Bool) (tree : Tree) (relativePath : String) :
    Option String :=
  ((tree.listedMap isVcs).lookup relativePath).bind tree.contents

/-- What is found in a file map is one of the files. -/
theorem mem_of_lookup_foldl_insert {files : List String} {map : AList fun _ : String => String}
    {key file : String}
    (h : (files.foldl (fun map file => map.insert (slashed file) file) map).lookup key = some file) :
    file ∈ files ∨ map.lookup key = some file := by
  induction files generalizing map with
  | nil => exact Or.inr h
  | cons first rest ih =>
      rcases ih h with hmem | hlookup
      · exact Or.inl (List.mem_cons_of_mem _ hmem)
      · by_cases hkey : key = slashed first
        · subst hkey
          rw [AList.lookup_insert, Option.some.injEq] at hlookup
          exact Or.inl (by simp [hlookup])
        · rw [AList.lookup_insert_ne hkey] at hlookup
          exact Or.inr hlookup

/-- A file that is listed has contents. -/
theorem Tree.contents_of_listed {tree : Tree} {relativePath path : String}
    (h : (tree.listedMap isVcs).lookup relativePath = some path) :
    ∃ contents, tree.contents path = some contents := by
  have hlisted : path ∈ tree.allFiles isVcs := by
    rcases mem_of_lookup_foldl_insert h with hmem | hlookup
    · exact hmem
    · simp at hlookup
  obtain ⟨file, hfile, rfl⟩ := List.mem_map.mp (List.mem_of_mem_filter hlisted)
  apply Option.isSome_iff_exists.mp
  rw [Tree.contents, Option.isSome_map, List.find?_isSome]
  exact ⟨file, hfile, by simp⟩

/-- The file map of a directory, which is there unless an operation fails. -/
theorem ends_relativeFileMap {directory : Place} {tree : Tree}
    (htree : x.1.directories directory = some tree) :
    Prog.Ends (traced sha256 isVcs) (relativeFileMap directory) x
      (fun map y => Read x y ∧ map = tree.listedMap isVcs) (fun _ y => Read x y ∧ Disturbed x) := by
  have hlist : Prog.Ends (traced sha256 isVcs) (request (.allFiles directory)) x
      (fun files y => Read x y ∧ some (tree.allFiles isVcs) = some files)
      (fun _ y => Read x y ∧ (some (tree.allFiles isVcs) = none ∨ Disturbed x)) := by
    apply ends_answer
    intro verdict n
    simp [operate, Store.after, htree]
  refine Prog.Ends.bind (Prog.Ends.mono hlist (fun _ _ h => h) ?_) ?_
  · rintro e y ⟨hread, hnone | hdisturbed⟩
    · cases hnone
    · exact ⟨hread, hdisturbed⟩
  · rintro files y ⟨hread, hfiles⟩
    refine ⟨hread, ?_⟩
    rw [← Option.some.inj hfiles]
    rfl

/-- Two files with one hash. -/
def SameHash (sha256 : String → String) (source tree : Tree) (sourcePath destinationPath : String) :
    Prop :=
  ∃ contents contents', source.contents sourcePath = some contents ∧
    tree.contents destinationPath = some contents' ∧ sha256 contents = sha256 contents'

/-- The hash of a file. -/
theorem ends_hash {place : Place} {tree : Tree} (path : String)
    (htree : x.1.directories place = some tree) :
    Prog.Ends (traced sha256 isVcs) (request (.hash place path)) x
      (fun hash y => Read x y ∧ (tree.contents path).map sha256 = some hash)
      (fun _ y => Read x y ∧ ((tree.contents path).map sha256 = none ∨ Disturbed x)) := by
  apply ends_answer
  intro verdict n
  simp [operate, Store.after, htree]

/-- **Two files are compared** by their hashes. The comparison comes to an end unless an operation fails,
or the file of the build is not there. -/
theorem ends_publishedFilesMatch {source tree : Tree} (sourcePath destinationPath : String)
    (hsource : x.1.directories .source = some source)
    (htree : x.1.directories .destination = some tree) :
    Prog.Ends (traced sha256 isVcs) (publishedFilesMatch sourcePath destinationPath) x
      (fun same y => Read x y ∧ (same = true ↔ SameHash sha256 source tree sourcePath destinationPath))
      (fun _ y => Read x y ∧ (source.contents sourcePath = none ∨ Disturbed x)) := by
  have hfound : Prog.Ends (traced sha256 isVcs) (request (.isFile .destination destinationPath)) x
      (fun found y => Read x y ∧ found = (tree.contents destinationPath).isSome)
      (fun _ _ => False) := by
    refine ends_operate fun n y hlater _ answer s' hoperate hy => ?_
    cases hoperate
    refine ⟨fun found hanswer => ⟨⟨hlater, hy⟩, ?_⟩, nofun⟩
    simpa [Store.after, htree] using hanswer.symm
  refine Prog.Ends.bind (Prog.Ends.mono hfound (fun _ _ h => h) fun _ _ h => h.elim) ?_
  rintro found y ⟨hxy, rfl⟩
  -- nothing is hashed where the destination has no such file
  cases hcontents' : tree.contents destinationPath with
  | none =>
      refine ⟨hxy, ?_⟩
      constructor
      · rintro ⟨⟩
      · rintro ⟨_, _, -, hthere, -⟩
        rw [hcontents'] at hthere
        cases hthere
  | some contents' =>
      have hsource' : y.1.directories .source = some source := by rw [hxy.directories, hsource]
      refine Prog.Ends.bind (Prog.Ends.mono (ends_hash sourcePath hsource') (fun _ _ h => h) ?_) ?_
      · rintro e z ⟨hyz, hnone | ⟨n, hn⟩⟩
        · exact ⟨hxy.trans hyz, Or.inl (Option.map_eq_none_iff.mp hnone)⟩
        · exact ⟨hxy.trans hyz, Or.inr ⟨n, by rw [← hxy.verdict]; exact hn⟩⟩
      · rintro hash z ⟨hyz, hhash⟩
        have hxz := hxy.trans hyz
        have htree' : z.1.directories .destination = some tree := by rw [hxz.directories, htree]
        refine Prog.Ends.bind (Prog.Ends.mono (ends_hash destinationPath htree')
          (fun _ _ h => h) ?_) ?_
        · rintro e w ⟨hzw, hnone | ⟨n, hn⟩⟩
          · rw [hcontents'] at hnone
            cases hnone
          · exact ⟨hxz.trans hzw, Or.inr ⟨n, by rw [← hxz.verdict]; exact hn⟩⟩
        · rintro hash' w ⟨hzw, hhash'⟩
          obtain ⟨contents, hcontents, rfl⟩ := Option.map_eq_some_iff.mp hhash
          rw [hcontents', Option.map_some, Option.some.injEq] at hhash'
          subst hhash'
          refine ⟨hxz.trans hzw, ?_⟩
          show decide (sha256 contents = sha256 contents') = true ↔ _
          rw [decide_eq_true_iff]
          constructor
          · intro hsame
            exact ⟨contents, contents', hcontents, hcontents', hsame⟩
          · rintro ⟨_, _, hthere, hthere', hsame⟩
            rw [hcontents, Option.some.injEq] at hthere
            rw [hcontents', Option.some.injEq] at hthere'
            rw [hthere, hthere', hsame]

/-- The contents of a file are those of one of the files. -/
theorem Tree.exists_file {tree : Tree} {path contents : String}
    (h : tree.contents path = some contents) : ∃ file ∈ tree.files, file.2 = contents := by
  obtain ⟨file, hfile, rfl⟩ := Option.map_eq_some_iff.mp h
  exact ⟨file, List.mem_of_find?_eq_some hfile, rfl⟩

/-- The hash tells the contents of two directories apart. -/
def Collisionless (sha256 : String → String) (tree tree' : Tree) : Prop :=
  ∀ file ∈ tree.files, ∀ file' ∈ tree'.files, sha256 file.2 = sha256 file'.2 → file.2 = file'.2

/-- What the loop of the comparison finds of a relative path that both directories list. -/
theorem sameHash_iff {source tree : Tree} (hhash : Collisionless sha256 source tree)
    {relativePath : String} (hkey : relativePath ∈ source.listedMap isVcs)
    (hkey' : relativePath ∈ tree.listedMap isVcs) :
    SameHash sha256 source tree (((source.listedMap isVcs).lookup relativePath).getD "")
      (((tree.listedMap isVcs).lookup relativePath).getD "") ↔
        tree.listedContents isVcs relativePath = source.listedContents isVcs relativePath := by
  obtain ⟨path, hpath⟩ := Option.isSome_iff_exists.mp (AList.lookup_isSome.mpr hkey)
  obtain ⟨path', hpath'⟩ := Option.isSome_iff_exists.mp (AList.lookup_isSome.mpr hkey')
  obtain ⟨contents, hcontents⟩ := Tree.contents_of_listed hpath
  obtain ⟨contents', hcontents'⟩ := Tree.contents_of_listed hpath'
  rw [Tree.listedContents, Tree.listedContents, hpath, hpath', Option.getD_some, Option.getD_some,
    Option.bind_some, Option.bind_some, hcontents, hcontents', Option.some.injEq]
  constructor
  · rintro ⟨_, _, hthere, hthere', hsame⟩
    rw [hcontents, Option.some.injEq] at hthere
    rw [hcontents', Option.some.injEq] at hthere'
    rw [← hthere, ← hthere'] at hsame
    obtain ⟨file, hfile, rfl⟩ := Tree.exists_file hcontents
    obtain ⟨file', hfile', rfl⟩ := Tree.exists_file hcontents'
    exact (hhash file hfile file' hfile' hsame).symm
  · rintro rfl
    exact ⟨contents', contents', hcontents, hcontents', rfl⟩

/-! ## The comparison -/

/-- What the comparison takes for the same: the manifest of the destination is complete, and the files
that both directories list have the same relative paths, in the order they are sorted into, with the
same contents. -/
structure TakenForSame (isVcs : String → Bool) (ksort : KeySort) (source tree : Tree) : Prop where
  complete : look tree (hasCompletePublishedAssets .destination) = some true
  keys : ksort (source.listedMap isVcs).keys = ksort (tree.listedMap isVcs).keys
  contents : ∀ relativePath,
    tree.listedContents isVcs relativePath = source.listedContents isVcs relativePath

/-- The loop of the comparison. -/
theorem ends_mismatch {ksort : KeySort} (hksort : ∀ keys, (ksort keys).Perm keys)
    {source tree : Tree} (hsource : x.1.directories .source = some source)
    (htree : x.1.directories .destination = some tree) (hhash : Collisionless sha256 source tree)
    (hkeys : ksort (source.listedMap isVcs).keys = ksort (tree.listedMap isVcs).keys) :
    Prog.Ends (traced sha256 isVcs)
      (Prog.firstSome (ksort (source.listedMap isVcs).keys) fun relativePath => do
        let same ← publishedFilesMatch (((source.listedMap isVcs).lookup relativePath).getD "")
          (((tree.listedMap isVcs).lookup relativePath).getD "")
        return if same then none else some ()) x
      (fun mismatch y => Read x y ∧ (mismatch.isNone = true ↔ ∀ relativePath,
        tree.listedContents isVcs relativePath = source.listedContents isVcs relativePath))
      (fun _ y => Read x y ∧ Disturbed x) := by
  have hmem : ∀ {relativePath}, relativePath ∈ ksort (source.listedMap isVcs).keys ↔
      relativePath ∈ source.listedMap isVcs := (hksort _).mem_iff
  have hmem' : ∀ {relativePath}, relativePath ∈ ksort (source.listedMap isVcs).keys ↔
      relativePath ∈ tree.listedMap isVcs := by
    intro relativePath
    rw [hkeys]
    exact (hksort _).mem_iff
  -- The loop has compared the paths that are not among the rest.
  apply Prog.Ends.firstSome
    (I := fun rest v => Read x v ∧ (∀ relativePath ∈ rest, relativePath ∈ source.listedMap isVcs) ∧
      ∀ relativePath ∈ source.listedMap isVcs, relativePath ∈ rest ∨
        tree.listedContents isVcs relativePath = source.listedContents isVcs relativePath)
  · rintro relativePath rest v ⟨hxv, hrest, hdone⟩
    have hkey := hrest relativePath List.mem_cons_self
    have hiff := sameHash_iff hhash hkey (hmem'.mp (hmem.mpr hkey))
    refine Prog.Ends.bind (Prog.Ends.mono (ends_publishedFilesMatch _ _
      (by rw [hxv.directories, hsource]) (by rw [hxv.directories, htree])) (fun _ _ h => h) ?_) ?_
    · -- the read of a listed file fails only where an operation does
      rintro e u ⟨hvu, hnone | ⟨n, hn⟩⟩
      · obtain ⟨path, hpath⟩ := Option.isSome_iff_exists.mp (AList.lookup_isSome.mpr hkey)
        obtain ⟨contents, hcontents⟩ := Tree.contents_of_listed hpath
        rw [hpath, Option.getD_some, hcontents] at hnone
        cases hnone
      · exact ⟨hxv.trans hvu, n, by rw [← hxv.verdict]; exact hn⟩
    · rintro same u ⟨hvu, hsame⟩
      have hxu := hxv.trans hvu
      rw [hiff] at hsame
      cases same with
      | false =>
          refine ⟨hxu, ?_⟩
          constructor
          · rintro ⟨⟩
          · intro hall
            exact absurd (hsame.mpr (hall relativePath)) Bool.false_ne_true
      | true =>
          refine ⟨hxu, fun path hpath => hrest path (List.mem_cons_of_mem _ hpath), ?_⟩
          intro path hpath
          rcases hdone path hpath with hpath | hpath
          · rcases List.mem_cons.mp hpath with rfl | hpath
            · exact Or.inr (hsame.mp rfl)
            · exact Or.inl hpath
          · exact Or.inr hpath
  · rintro v ⟨hxv, -, hdone⟩
    refine ⟨hxv, ?_⟩
    simp only [Option.isNone_none, true_iff]
    intro relativePath
    by_cases hkey : relativePath ∈ source.listedMap isVcs
    · exact (hdone relativePath hkey).resolve_left List.not_mem_nil
    · -- a path that neither directory lists
      have hkey' : relativePath ∉ tree.listedMap isVcs := fun h => hkey (hmem.mp (hmem'.mpr h))
      rw [Tree.listedContents, Tree.listedContents, AList.lookup_eq_none.mpr hkey,
        AList.lookup_eq_none.mpr hkey']
      rfl
  · exact ⟨Read.refl x, fun _ h => hmem.mp h, fun _ h => Or.inl (hmem.mpr h)⟩

/-- **The comparison** says what `TakenForSame` says, unless one of its reads fails. -/
theorem ends_hasExactPublishedAssets {ksort : KeySort} (hksort : ∀ keys, (ksort keys).Perm keys)
    {source : Tree} (hsource : x.1.directories .source = some source)
    (hhash : ∀ tree, x.1.directories .destination = some tree → Collisionless sha256 source tree) :
    Prog.Ends (traced sha256 isVcs) (hasExactPublishedAssets ksort) x
      (fun same y => Read x y ∧ (same = true ↔ ∃ tree,
        x.1.directories .destination = some tree ∧ TakenForSame isVcs ksort source tree))
      (fun _ y => Read x y ∧ (Disturbed x ∨ ¬∃ tree,
        x.1.directories .destination = some tree ∧ TakenForSame isVcs ksort source tree)) := by
  cases htree : x.1.directories .destination with
  -- an absent destination is not complete
  | none =>
      refine Prog.Ends.bind (p := hasCompletePublishedAssets .destination)
        (Q := fun complete y => Read x y ∧ complete = false) ?_ ?_
      · refine Prog.Ends.bind (Prog.Ends.mono (ends_isDirectory .destination x) (fun _ _ h => h)
          fun _ _ h => h.elim) ?_
        rintro found y ⟨hxy, rfl⟩
        rw [htree]
        exact ⟨hxy, rfl⟩
      · rintro _ y ⟨hxy, rfl⟩
        exact ⟨hxy, by simp⟩
  | some tree =>
      have hcollisionless := hhash tree htree
      have hunique : (∃ tree', some tree = some tree' ∧ TakenForSame isVcs ksort source tree') ↔
          TakenForSame isVcs ksort source tree := by simp
      rw [hunique]
      -- the manifest of the destination, whose assets have to be there
      refine Prog.Ends.bind (Prog.Ends.mono (Looks.hasCompletePublishedAssets.ends
        (readOnly_hasCompletePublishedAssets .destination) htree) (fun _ _ h => h) ?_) ?_
      · rintro e y ⟨hxy, hnone | hdisturbed⟩
        · refine ⟨hxy, Or.inr fun htaken => ?_⟩
          rw [htaken.complete] at hnone
          cases hnone
        · exact ⟨hxy, Or.inl hdisturbed⟩
      rintro complete y ⟨hxy, hlook⟩
      cases complete with
      | false =>
          refine ⟨hxy, ?_⟩
          constructor
          · rintro ⟨⟩
          · intro htaken
            rw [htaken.complete] at hlook
            cases hlook
      | true =>
          have hdisturbed : ∀ {w : Traced}, Read x w → Disturbed w → Disturbed x := by
            rintro w hxw ⟨n, hn⟩
            exact ⟨n, by rw [← hxw.verdict]; exact hn⟩
          have hsource' : y.1.directories .source = some source := by rw [hxy.directories, hsource]
          -- the file maps of both sides, first their keys and then the files
          refine Prog.Ends.bind (Prog.Ends.mono (ends_relativeFileMap hsource') (fun _ _ h => h)
            fun _ _ h => ⟨hxy.trans h.1, Or.inl (hdisturbed hxy h.2)⟩) ?_
          rintro _ z ⟨hyz, rfl⟩
          have hxz := hxy.trans hyz
          have htree' : z.1.directories .destination = some tree := by rw [hxz.directories, htree]
          refine Prog.Ends.bind (Prog.Ends.mono (ends_relativeFileMap htree') (fun _ _ h => h)
            fun _ _ h => ⟨hxz.trans h.1, Or.inl (hdisturbed hxz h.2)⟩) ?_
          rintro _ w ⟨hzw, rfl⟩
          have hxw := hxz.trans hzw
          split_ifs with hkeys
          · refine ⟨hxw, ?_⟩
            constructor
            · rintro ⟨⟩
            · intro htaken
              exact absurd htaken.keys hkeys
          · rw [not_not] at hkeys
            refine Prog.Ends.bind (Prog.Ends.mono (ends_mismatch hksort (x := w)
              (by rw [hxw.directories, hsource]) (by rw [hxw.directories, htree]) hcollisionless hkeys)
              (fun _ _ h => h) fun _ _ h => ⟨hxw.trans h.1, Or.inl (hdisturbed hxw h.2)⟩) ?_
            rintro mismatch v ⟨hwv, hsame⟩
            refine ⟨hxw.trans hwv, ?_⟩
            rw [hsame]
            exact ⟨fun hcontents => ⟨hlook, hkeys, hcontents⟩, fun htaken => htaken.contents⟩

/-- A manifest with one entry, which imports nothing. -/
def smallManifest : Json := .obj [("resources/js/app.tsx", .obj [("file", .str "app.js")])]

/-- The files of a build. -/
def smallFiles : List (String × String) :=
  [(manifestName, String.ofList smallManifest.spell), ("app.js", "")]

/-- Its files are distinct. -/
theorem smallFiles_nodup : (smallFiles.map Prod.fst).Nodup := by
  simp [smallFiles, manifestName]

/-- A build of a manifest and the script it names. -/
def smallBuild : Tree := ⟨smallFiles, smallFiles_nodup⟩

/-- The manifest is read back. -/
theorem decode_smallManifest :
    FailedJobRetryEligibility.decode (String.ofList smallManifest.spell) =
      some (Php.jsonDecode smallManifest) := by
  have hspellable : Json.Spellable 512 smallManifest := by
    refine .obj fun m hm => ?_
    rw [List.mem_singleton.mp hm]
    refine .obj fun m hm => ?_
    rw [List.mem_singleton.mp hm]
    exact .str _
  rw [FailedJobRetryEligibility.decode, String.toList_ofList, Json.read_spell hspellable]
  rfl

/-- The path of the script is in order. -/
theorem normalize_app : normalizeRelativeAssetPath "app.js" = some "app.js" := by
  decide +kernel

/-- A tree with the manifest and its script is complete. -/
theorem look_smallManifest {tree : Tree} {contents : String}
    (hmanifest : tree.contents manifestName = some (String.ofList smallManifest.spell))
    (hscript : tree.contents "app.js" = some contents) :
    look tree (hasCompletePublishedAssets .destination) = some true := by
  have hdecode : Php.jsonDecode smallManifest =
    .array [("resources/js/app.tsx", .array [("file", .str "app.js")])] := by rfl
  have hkey : ("resources/js/app.tsx" : String) ≠ Nat.repr 0 := by decide
  simp [hasCompletePublishedAssets, manifestAssetPaths, entryAssetPaths, publishedAssetPath,
    collectionPaths, collectionOf, collectAll, importsExist, isIntegerKey, request, Prog.request,
    Prog.attempt, Prog.perform, look, seen, hmanifest, hscript, hdecode, hkey, decode_smallManifest,
    normalize_app, Php.entry, Php.get, Php.keys, Php.listKeys]

/-- The small build is complete. -/
theorem complete_smallBuild : Complete smallBuild := ⟨.destination, look_smallManifest rfl rfl⟩

end AssetsPublisher

end HorizonNewDawn

import HorizonNewDawn.Php.Document
import HorizonNewDawn.Php.PrettyJson
import HorizonNewDawn.Php.RoundTrip
import HorizonNewDawn.Program.Faults
import Mathlib

/-! # The Composer hook of the assets

The installation adds a script to the `post-autoload-dump` entries of `composer.json`. The file is read
and decoded, the script is appended, and the document is written to a temporary file that is moved into
the place of the old one. Reads, writes, moves and deletions may fail, by a verdict that is drawn for
every operation.

Whatever fails, the file holds its old contents or the whole of the new ones at every moment
(`ensure_atomic`). What the new ones say is `ensure_document`: decoding and encoding makes a list of
every object that has the keys of one, and apart from that the scripts are all that changes. A document
with a float that is not finite cannot be encoded, and the call fails. -/

namespace HorizonNewDawn

open Program Assignments

/-- `ComposerAssetHookResult` -/
inductive ComposerAssetHookResult
  | added
  | alreadyPresent
  | missing
  | malformed
  | failed
  deriving DecidableEq

namespace ComposerAssetHook

/-- `SCRIPT` -/
def script : String := "@php artisan horizon-new-dawn:assets --ansi"

/-! ## The document -/

/-- `containsAssetHook` -/
def containsAssetHook (entries : List String) : Bool :=
  entries.any fun entry => decide ("horizon-new-dawn:assets".toList <:+: entry.toList)

/-- A PHP list of strings. -/
def listOf (entries : List String) : Php :=
  .array ((Php.listKeys entries.length).zip (entries.map Php.str))

/-- A string of a list of entries; any other value is malformed. -/
def entryOf : Php → Option String
  | .str entry => some entry
  | _ => none

/-- The scripts of a document; `none` where they are malformed. -/
def scriptsOf (composer : List (String × Php)) : Option (List (String × Php)) :=
  match Php.entry "scripts" composer with
  | .null => some []
  | .array scripts =>
      if scripts ≠ [] ∧ Php.keys scripts = Php.listKeys scripts.length then none else some scripts
  | _ => none

/-- The `post-autoload-dump` entries; `none` where they are malformed. -/
def entriesOf (scripts : List (String × Php)) : Option (List String) :=
  match Php.entry "post-autoload-dump" scripts with
  | .null => some []
  | .str entry => some [entry]
  | .array values =>
      if Php.keys values = Php.listKeys values.length then
        values.mapM fun value => entryOf value.2
      else none
  | _ => none

/-- The document with the script, or the result where there is nothing to write. -/
def withScript (composer : Php) : Except ComposerAssetHookResult (List (String × Php)) :=
  match composer with
  | .array members =>
      if Php.keys members = Php.listKeys members.length then .error .malformed
      else
        match scriptsOf members with
        | none => .error .malformed
        | some scripts =>
            match entriesOf scripts with
            | none => .error .malformed
            | some entries =>
                if containsAssetHook entries then .error .alreadyPresent
                else .ok (Php.set "scripts" (.array
                  (Php.set "post-autoload-dump" (listOf (entries ++ [script])) scripts)) members)
  | _ => .error .malformed

/-- `json_encode` over several lines, with a line feed at the end; `none` is its exception. -/
def prettyBytes (floats : FloatWriter) (composer : List (String × Php)) : Option (List UInt8) :=
  (Php.jsonEncode floats (.array composer)).map fun document =>
    Php.bytes (String.ofList (Json.pretty 0 document ++ ['\n']))

/-! ## The files -/

/-- What becomes of the next operation. A write that fails may leave anything. -/
inductive Verdict
  | succeeds
  | fails (remains : Option (List UInt8))
  | throws (remains : Option (List UInt8))

/-- The files, the random strings and the verdicts by the number of operations that have been
performed. -/
structure Store where
  files : String → Option (List UInt8)
  random : ℕ → String
  verdict : ℕ → Verdict
  performed : ℕ

inductive Operation
  | isFile (path : String)
  | get (path : String)
  | random
  | put (path : String) (contents : List UInt8)
  | move (path target : String)
  | exists (path : String)
  | delete (path : String)

/-- The answers of the operations. -/
abbrev Operation.Answer : Operation → Type
  | .isFile _ => Bool
  | .get _ => List UInt8
  | .random => String
  | .put _ _ => Bool
  | .move _ _ => Bool
  | .exists _ => Bool
  | .delete _ => Bool

/-- Leave contents under a path, or nothing. -/
def Store.leave (s : Store) (path : String) (contents : Option (List UInt8)) : Store :=
  { s with files := Function.update s.files path contents }

/-- An operation under its verdict; `none` is an exception. -/
def operate : Verdict → (o : Operation) → Store → Reply Operation.Answer o × Store
  | _, .isFile path, s => (some (s.files path).isSome, s)
  | .succeeds, .get path, s => (s.files path, s)
  | _, .get _, s => (none, s)
  | _, .random, s => (some (s.random s.performed), s)
  | .succeeds, .put path contents, s => (some true, s.leave path (some contents))
  | .fails remains, .put path _, s => (some false, s.leave path remains)
  | .throws remains, .put path _, s => (none, s.leave path remains)
  | .succeeds, .move path target, s =>
      if (s.files path).isSome then (some true, (s.leave target (s.files path)).leave path none)
      else (some false, s)
  | .fails _, .move _ _, s => (some false, s)
  | .throws _, .move _ _, s => (none, s)
  | _, .exists path, s => (some (s.files path).isSome, s)
  | .succeeds, .delete path, s => (some (s.files path).isSome, s.leave path none)
  | _, .delete _, s => (some false, s)

/-- The next operation. -/
def exec (o : Operation) (s : Store) : Reply Operation.Answer o × Store :=
  operate (s.verdict s.performed) o { s with performed := s.performed + 1 }

/-- The exceptions: one that an operation has thrown, and those of the class. -/
inductive Failure
  | thrown
  | unableToWrite (temporaryPath : String)
  | unableToUpdate (path : String)

/-- The texts of the exceptions of the class. -/
def Failure.message : Failure → Option String
  | .thrown => none
  | .unableToWrite temporaryPath =>
      some ("Unable to write temporary composer.json at " ++ temporaryPath ++ ".")
  | .unableToUpdate path => some ("Unable to update composer.json at " ++ path ++ ".")

/-- Programs over the files; there are no sections. -/
abbrev HookProgram (α : Type) : Type := Prog Operation (Reply Operation.Answer) Empty Failure α

/-- One operation, or its exception. -/
abbrev request (o : Operation) : HookProgram o.Answer := Prog.request .thrown o

/-! ## The methods -/

/-- The path of the temporary file. -/
def temporaryPathOf (path random : String) : String := path ++ "." ++ random ++ ".tmp"

/-- The body of `try` in `writeAtomically`. -/
def writeAndMove (temporaryPath path : String) (contents : List UInt8) : HookProgram Unit := do
  let written ← (request (.put temporaryPath contents) : HookProgram Bool)
  if written then do
    let moved ← (request (.move temporaryPath path) : HookProgram Bool)
    if moved then return () else .fail (.unableToUpdate path)
  else .fail (.unableToWrite temporaryPath)

/-- The clean-up of `writeAtomically`. -/
def removeTemporary (temporaryPath : String) : HookProgram Unit := do
  let found ← (request (.exists temporaryPath) : HookProgram Bool)
  if found then do
    let _ ← (request (.delete temporaryPath) : HookProgram Bool)
    return ()
  else return ()

/-- `writeAtomically` -/
def writeAtomically (path : String) (contents : List UInt8) : HookProgram Unit := do
  let random ← (request .random : HookProgram String)
  (writeAndMove (temporaryPathOf path random) path contents).tryFinally
    (removeTemporary (temporaryPathOf path random))

/-- Decoding the contents, appending the script and encoding the document again. -/
def edited (floats : FloatWriter) (contents : List UInt8) :
    Except ComposerAssetHookResult (List UInt8) :=
  match Php.jsonParse contents with
  | none => .error .malformed
  | some composer =>
      match withScript composer with
      | .error result => .error result
      | .ok composer =>
          match prettyBytes floats composer with
          | some encoded => .ok encoded
          | none => .error .failed

/-- `ensure` -/
def ensure (floats : FloatWriter) (composerJsonPath : String) :
    HookProgram ComposerAssetHookResult := do
  let found ← (request (.isFile composerJsonPath) : HookProgram Bool)
  if found then do
    let contents ← (Prog.attempt (Operation.get composerJsonPath) : HookProgram (Option (List UInt8)))
    match contents with
    | none => return .failed
    | some contents =>
        match edited floats contents with
        | .error result => return result
        | .ok encoded =>
            ((do writeAtomically composerJsonPath encoded
                 return .added) : HookProgram ComposerAssetHookResult).tryCatch
              fun _ => return .failed
  else return .missing

/-! ## Every moment of a run -/

/-- A store with the operations performed so far, each with the store it was performed in. -/
abbrev Traced : Type := Recorded Operation Store

abbrev traced (o : Operation) (x : Traced) : Reply Operation.Answer o × Traced :=
  recording exec o x

/-- A moment at which the file holds `target`, and held that or its old contents before; no other file
has changed but the temporary one. -/
structure Writing (s : Store) (path temporaryPath : String) (target : Option (List UInt8))
    (y : Traced) : Prop where
  target_eq : y.1.files path = target
  moments : ∀ m ∈ y.2, m.2.files path = s.files path ∨ m.2.files path = target
  others : ∀ other, other ≠ path → other ≠ temporaryPath → y.1.files other = s.files other

/-- The deletion of a file has failed. -/
def DeletionFailed (y : Traced) (path : String) : Prop :=
  ∃ m ∈ y.2, m.1 = .delete path ∧ ∀ v, m.2.verdict m.2.performed = v → v ≠ .succeeds

variable {floats : FloatWriter} {s : Store} {path temporaryPath : String}
  {target : Option (List UInt8)} {x y : Traced}

/-- An operation, from what it does under each verdict. -/
theorem ends_request {o : Operation} {Q : o.Answer → Traced → Prop} {E : Failure → Traced → Prop}
    (h : ∀ verdict answer s', x.1.verdict x.1.performed = verdict →
      operate verdict o { x.1 with performed := x.1.performed + 1 } = (answer, s') →
        (∀ a, answer = some a → Q a (s', (o, x.1) :: x.2)) ∧
          (answer = none → E .thrown (s', (o, x.1) :: x.2))) :
    Prog.Ends traced (request o) x Q E := by
  have hspec := h _ _ _ rfl rfl
  exact Prog.Ends.request hspec.1 hspec.2

/-- One more moment. -/
theorem Writing.step (h : Writing s path temporaryPath target y) {o : Operation} {s' : Store}
    {target' : Option (List UInt8)} (htarget : target = s.files path ∨ target = target')
    (hpath : s'.files path = target')
    (hothers : ∀ other, other ≠ path → other ≠ temporaryPath → s'.files other = y.1.files other) :
    Writing s path temporaryPath target' (s', (o, y.1) :: y.2) where
  target_eq := hpath
  moments := by
    intro m hm
    rcases List.mem_cons.mp hm with rfl | hm
    · rwa [h.target_eq]
    · rcases h.moments m hm with hm | hm
      · exact Or.inl hm
      · rwa [hm]
  others other hpath htemporary := (hothers other hpath htemporary).trans (h.others other hpath htemporary)

/-- One file is replaced. -/
theorem Store.leave_files {other : String} {contents : Option (List UInt8)} :
    (s.leave path contents).files other = if other = path then contents else s.files other := by
  show Function.update s.files path contents other = _
  rw [Function.update_apply]

/-- A moment after the temporary file has changed. -/
theorem Writing.temporary (h : Writing s path temporaryPath target y)
    (hne : temporaryPath ≠ path) {o : Operation} {s' : Store} (contents : Option (List UInt8)) (hs' : s'.files = y.1.files) :
    Writing s path temporaryPath target
      (s'.leave temporaryPath contents, (o, y.1) :: y.2) := by
  apply h.step (Or.inr rfl)
  · rw [Store.leave_files, if_neg hne.symm, hs', h.target_eq]
  · intro other _ htemporary
    rw [Store.leave_files, if_neg htemporary, hs']

/-- The write leaves the file alone. -/
theorem ends_put (hne : temporaryPath ≠ path) {contents : List UInt8}
    (h : Writing s path temporaryPath (s.files path) y) :
    Prog.Ends traced (request (.put temporaryPath contents)) y
      (fun written z => Writing s path temporaryPath (s.files path) z ∧
        (written = true → z.1.files temporaryPath = some contents))
      (fun _ z => Writing s path temporaryPath (s.files path) z) := by
  apply ends_request
  intro verdict answer s' _ hoperate
  cases verdict with
  | succeeds =>
      cases hoperate
      refine ⟨?_, nofun⟩
      rintro _ ⟨⟩
      exact ⟨h.temporary hne _ rfl, fun _ => by rw [Store.leave_files, if_pos rfl]⟩
  | fails remains =>
      cases hoperate
      refine ⟨?_, nofun⟩
      rintro _ ⟨⟩
      exact ⟨h.temporary hne _ rfl, nofun⟩
  | throws remains =>
      cases hoperate
      exact ⟨nofun, fun _ => h.temporary hne _ rfl⟩

/-- The move gives the file the new contents, or changes nothing. -/
theorem ends_move (hne : temporaryPath ≠ path) {contents : List UInt8}
    (h : Writing s path temporaryPath (s.files path) y)
    (hcontents : y.1.files temporaryPath = some contents) :
    Prog.Ends traced (request (.move temporaryPath path)) y
      (fun moved z => if moved then Writing s path temporaryPath (some contents) z ∧
          z.1.files temporaryPath = none
        else Writing s path temporaryPath (s.files path) z)
      (fun _ z => Writing s path temporaryPath (s.files path) z) := by
  apply ends_request
  intro verdict answer s' _ hoperate
  cases verdict with
  | succeeds =>
      rw [operate] at hoperate
      simp only [hcontents, Option.isSome_some, if_true] at hoperate
      cases hoperate
      refine ⟨?_, nofun⟩
      rintro _ ⟨⟩
      rw [if_pos rfl]
      refine ⟨h.step (Or.inl rfl) ?_ ?_, by rw [Store.leave_files, if_pos rfl]⟩
      · rw [Store.leave_files, if_neg hne.symm, Store.leave_files, if_pos rfl]
      · intro other hpath htemporary
        rw [Store.leave_files, if_neg htemporary, Store.leave_files, if_neg hpath]
  | fails remains =>
      cases hoperate
      refine ⟨?_, nofun⟩
      rintro _ ⟨⟩
      rw [if_neg Bool.false_ne_true]
      exact h.step (Or.inl rfl) h.target_eq fun _ _ _ => rfl
  | throws remains =>
      cases hoperate
      exact ⟨nofun, fun _ => h.step (Or.inl rfl) h.target_eq fun _ _ _ => rfl⟩

/-- The body of the write. -/
theorem ends_writeAndMove (hne : temporaryPath ≠ path) {contents : List UInt8}
    (h : Writing s path temporaryPath (s.files path) y) :
    Prog.Ends traced (writeAndMove temporaryPath path contents) y
      (fun _ z => Writing s path temporaryPath (some contents) z ∧
        z.1.files temporaryPath = none)
      (fun _ z => Writing s path temporaryPath (s.files path) z) := by
  apply Prog.Ends.bind (ends_put hne h)
  rintro written z ⟨hz, hwritten⟩
  cases written with
  | false => exact hz
  | true =>
      apply Prog.Ends.bind (ends_move hne hz (hwritten rfl))
      intro moved w hw
      cases moved with
      | false => exact hw
      | true => exact hw

/-- The clean-up removes the temporary file, or has failed to. -/
theorem ends_removeTemporary (hne : temporaryPath ≠ path)
    (h : Writing s path temporaryPath target y) :
    Prog.Ends traced (removeTemporary temporaryPath) y
      (fun _ z => Writing s path temporaryPath target z ∧
        (z.1.files temporaryPath = none ∨ DeletionFailed z temporaryPath))
      (fun _ _ => False) := by
  have hexists : Prog.Ends traced (request (.exists temporaryPath)) y
      (fun found z => Writing s path temporaryPath target z ∧
        found = (z.1.files temporaryPath).isSome) (fun _ _ => False) := by
    apply ends_request
    intro verdict answer s' _ hoperate
    cases verdict <;>
      · cases hoperate
        refine ⟨?_, nofun⟩
        rintro _ ⟨⟩
        exact ⟨h.step (Or.inr rfl) h.target_eq fun _ _ _ => rfl, rfl⟩
  apply Prog.Ends.bind hexists
  rintro found z ⟨hz, rfl⟩
  cases hleft : z.1.files temporaryPath with
  | none => exact ⟨hz, Or.inl hleft⟩
  | some contents =>
      have hdelete : Prog.Ends traced (request (.delete temporaryPath)) z
          (fun _ w => Writing s path temporaryPath target w ∧
            (w.1.files temporaryPath = none ∨ DeletionFailed w temporaryPath))
          (fun _ _ => False) := by
        apply ends_request
        intro verdict answer s' hverdict hoperate
        -- A deletion that did not succeed is a moment of the history.
        have hfailed : verdict ≠ .succeeds → DeletionFailed
            (s', (.delete temporaryPath, z.1) :: z.2) temporaryPath := by
          intro hne
          refine ⟨_, List.mem_cons_self, rfl, ?_⟩
          rintro v rfl
          rwa [← hverdict] at hne
        cases verdict with
        | succeeds =>
            cases hoperate
            refine ⟨?_, nofun⟩
            rintro _ ⟨⟩
            exact ⟨hz.temporary hne _ rfl, Or.inl (by rw [Store.leave_files, if_pos rfl])⟩
        | fails remains =>
            cases hoperate
            refine ⟨?_, nofun⟩
            rintro _ ⟨⟩
            exact ⟨hz.step (Or.inr rfl) hz.target_eq fun _ _ _ => rfl, Or.inr (hfailed nofun)⟩
        | throws remains =>
            cases hoperate
            refine ⟨?_, nofun⟩
            rintro _ ⟨⟩
            exact ⟨hz.step (Or.inr rfl) hz.target_eq fun _ _ _ => rfl, Or.inr (hfailed nofun)⟩
      exact Prog.Ends.bind hdelete fun _ _ hw => hw

/-- No random string names a file that is there. -/
def Fresh (path : String) (s : Store) : Prop :=
  ∀ n, s.files (temporaryPathOf path (s.random n)) = none

/-- The temporary file is another one. -/
theorem temporaryPathOf_ne (path random : String) : temporaryPathOf path random ≠ path := by
  intro heq
  have hlength := congrArg String.length heq
  simp only [temporaryPathOf, String.length_append] at hlength
  have hdot : ".tmp".length = 4 := rfl
  omega

/-- Of a run that has written nothing yet. -/
structure Reading (s : Store) (y : Traced) : Prop where
  files : y.1.files = s.files
  random : y.1.random = s.random
  moments : ∀ m ∈ y.2, m.2.files = s.files

/-- What a run leaves: at every moment the file had its old contents or those it has in the end, and
no other file has changed, unless the deletion of the temporary file has failed. -/
structure Leaves (s : Store) (path : String) (target : Option (List UInt8)) (y : Traced) : Prop where
  target_eq : y.1.files path = target
  moments : ∀ m ∈ y.2, m.2.files path = s.files path ∨ m.2.files path = target
  others : ∀ other, other ≠ path → y.1.files other = s.files other ∨ DeletionFailed y other

/-- Reading leaves the file with what it holds. -/
theorem Reading.leaves (h : Reading s y) (path : String) : Leaves s path (s.files path) y where
  target_eq := by rw [h.files]
  moments m hm := Or.inl (by rw [h.moments m hm])
  others other _ := Or.inl (by rw [h.files])

/-- Writing leaves the file with the target, and no temporary one unless its deletion fails. -/
theorem Writing.leaves (h : Writing s path temporaryPath target y)
    (hfresh : s.files temporaryPath = none)
    (htemporary : y.1.files temporaryPath = none ∨ DeletionFailed y temporaryPath) :
    Leaves s path target y where
  target_eq := h.target_eq
  moments := h.moments
  others other hne := by
    by_cases hother : other = temporaryPath
    · rw [hother, hfresh]
      exact htemporary
    · exact Or.inl (h.others other hne hother)

/-- The write replaces the contents of the file, or leaves it alone. -/
theorem ends_writeAtomically (hfresh : Fresh path s) (h : Reading s y) (contents : List UInt8) :
    Prog.Ends traced (writeAtomically path contents) y
      (fun _ z => Leaves s path (some contents) z) (fun _ z => Leaves s path (s.files path) z) := by
  have hrandom : Prog.Ends traced (request .random) y
      (fun random z => s.files (temporaryPathOf path random) = none ∧ Reading s z)
      (fun _ _ => False) := by
    apply ends_request
    intro verdict answer s' _ hoperate
    have hanswer : s'.files = y.1.files ∧ s'.random = y.1.random ∧
        answer = some (y.1.random (y.1.performed + 1)) := by
      cases verdict <;> cases hoperate <;> exact ⟨rfl, rfl, rfl⟩
    obtain ⟨hfiles, hnames, rfl⟩ := hanswer
    refine ⟨?_, nofun⟩
    rintro _ ⟨⟩
    refine ⟨by rw [h.random]; exact hfresh _, hfiles.trans h.files, hnames.trans h.random, ?_⟩
    intro m hm
    rcases List.mem_cons.mp hm with rfl | hm
    · exact h.files
    · exact h.moments m hm
  apply Prog.Ends.bind (Prog.Ends.mono hrandom (fun _ _ h => h) fun _ _ h => h.elim)
  rintro random z ⟨hnone, hz⟩
  have hne : temporaryPathOf path random ≠ path := temporaryPathOf_ne path random
  have hwriting : Writing s path (temporaryPathOf path random) (s.files path) z :=
    ⟨by rw [hz.files], fun m hm => Or.inl (by rw [hz.moments m hm]), fun _ _ _ => by rw [hz.files]⟩
  apply Prog.Ends.tryFinally (ends_writeAndMove hne hwriting)
  · rintro _ w ⟨hw, -⟩
    exact Prog.Ends.mono (ends_removeTemporary hne hw) (fun _ _ h => h.1.leaves hnone h.2)
      fun _ _ h => h.elim
  · intro _ w hw
    exact Prog.Ends.mono (ends_removeTemporary hne hw) (fun _ _ h => h.1.leaves hnone h.2)
      fun _ _ h => h.elim

/-- A document that is not written is not said to be. -/
theorem withScript_ne_added (composer : Php) : withScript composer ≠ .error .added := by
  cases composer with
  | array members =>
      simp only [withScript]
      split
      · nofun
      · split
        · nofun
        · split
          · nofun
          · split <;> nofun
  | _ => nofun

/-- Where the document is not written, the result is not that the script is added. -/
theorem edited_ne_added (floats : FloatWriter) (contents : List UInt8) :
    edited floats contents ≠ .error .added := by
  rw [edited]
  cases Php.jsonParse contents with
  | none => simp
  | some composer =>
      have hscript := withScript_ne_added composer
      simp only
      cases hcomposer : withScript composer with
      | ok members => cases hpretty : prettyBytes floats members <;> simp [hpretty]
      | error result =>
          rintro ⟨⟩
          exact hscript hcomposer

/-- How a run ends: the edited document is in the place of the file, or the file is left alone and the
result says why. -/
def EndsWith (floats : FloatWriter) (s : Store) (path : String) (result : ComposerAssetHookResult) (y : Traced) : Prop :=
  (result = .added ∧ ∃ contents new, s.files path = some contents ∧ edited floats contents = .ok new ∧
    Leaves s path (some new) y) ∨
  (Leaves s path (s.files path) y ∧ (result = .failed ∨ (result = .missing ∧ s.files path = none) ∨
    ∃ contents, s.files path = some contents ∧ edited floats contents = .error result))

/-- How every run ends. -/
theorem ends_ensure (hfresh : Fresh path s) :
    Prog.Ends traced (ensure floats path) (s, []) (EndsWith floats s path) (fun _ _ => False) := by
  have hfound : Prog.Ends traced (request (.isFile path)) (s, [])
      (fun found y => Reading s y ∧ found = (s.files path).isSome) (fun _ _ => False) := by
    apply ends_request
    intro verdict answer s' _ hoperate
    cases verdict <;>
      · cases hoperate
        constructor
        · rintro _ ⟨⟩
          exact ⟨⟨rfl, rfl, by simp⟩, rfl⟩
        · simp
  apply Prog.Ends.bind hfound
  rintro found y ⟨hy, hisFile⟩
  cases found with
  | false =>
      have hnone : s.files path = none := Option.not_isSome_iff_eq_none.mp (by simp [← hisFile])
      exact Or.inr ⟨hy.leaves path, Or.inr (Or.inl ⟨rfl, hnone⟩)⟩
  | true =>
      -- Only the fact that the answer is the file's contents is carried on; a failed read answers nothing.
      have hget : Prog.Ends traced
          (Prog.attempt (Operation.get path) : HookProgram (Option (List UInt8))) y
          (fun answer z => Reading s z ∧ ∀ contents, answer = some contents →
            s.files path = some contents) (fun _ _ => False) := by
        have hfiles : y.1.files path = s.files path := by rw [hy.files]
        have hmoments : ∀ m ∈ (Operation.get path, y.1) :: y.2, m.2.files = s.files :=
          List.forall_mem_cons.mpr ⟨hy.files, hy.moments⟩
        show Reading s (traced (.get path) y).2 ∧ ∀ contents, (traced (.get path) y).1 = some contents →
          s.files path = some contents
        simp only [traced, recording, exec]
        cases y.1.verdict y.1.performed with
        | succeeds =>
            refine ⟨⟨hy.files, hy.random, hmoments⟩, ?_⟩
            intro contents hcontents
            exact hfiles.symm.trans hcontents
        | fails remains => exact ⟨⟨hy.files, hy.random, hmoments⟩, by rintro _ ⟨⟩⟩
        | throws remains => exact ⟨⟨hy.files, hy.random, hmoments⟩, by rintro _ ⟨⟩⟩
      apply Prog.Ends.bind hget
      rintro answer z ⟨hz, hanswer⟩
      cases answer with
      | none => exact Or.inr ⟨hz.leaves path, Or.inl rfl⟩
      | some contents =>
          have hcontents : s.files path = some contents := hanswer contents rfl
          simp only
          cases hedited : edited floats contents with
          | error result =>
              exact Or.inr ⟨hz.leaves path, Or.inr (Or.inr ⟨contents, hcontents, hedited⟩)⟩
          | ok new =>
              have hwrite := ends_writeAtomically hfresh hz new
              apply Prog.Ends.tryCatch (Q := fun result w => result = .added ∧
                Leaves s path (some new) w) (E := fun _ w => Leaves s path (s.files path) w)
              · exact Prog.Ends.bind hwrite fun _ _ hw => ⟨rfl, hw⟩
              · rintro result w ⟨rfl, hw⟩
                exact Or.inl ⟨rfl, contents, new, hcontents, hedited, hw⟩
              · intro _ w hw
                exact Or.inr ⟨hw, Or.inl rfl⟩

/-- **Adding the script is atomic.** The call throws nothing. Where it says that the script is added,
the file holds the edited document; otherwise it holds what it held. At every moment of the run it held
one of the two, and no other file is changed or left, unless a deletion has failed. -/
theorem ensure_atomic (hfresh : Fresh path s) :
    Prog.Ends traced (ensure floats path) (s, [])
      (fun result y =>
        (result = .added → ∃ contents new, s.files path = some contents ∧ edited floats contents = .ok new ∧
          Leaves s path (some new) y) ∧
        (result ≠ .added → Leaves s path (s.files path) y))
      (fun _ _ => False) := by
  apply Prog.Ends.mono (ends_ensure hfresh) _ fun _ _ h => h
  rintro result y (⟨rfl, hadded⟩ | ⟨hleaves, hresult⟩)
  · exact ⟨fun _ => hadded, fun hne => absurd rfl hne⟩
  · refine ⟨?_, fun _ => hleaves⟩
    rintro rfl
    rcases hresult with hfailed | ⟨hmissing, -⟩ | ⟨contents, -, hedited⟩
    · cases hfailed
    · cases hmissing
    · exact absurd hedited (edited_ne_added floats contents)

/-- A read of the file has failed. -/
def ReadFailed (y : Traced) (path : String) : Prop :=
  ∃ m ∈ y.2, m.1 = .get path ∧ ∀ v, m.2.verdict m.2.performed = v → v ≠ .succeeds

/-- A run over a file that is there: it goes on with the contents, unless the read has failed. -/
theorem ends_ensure_of_some {contents : List UInt8} (hcontents : s.files path = some contents)
    {Q : ComposerAssetHookResult → Traced → Prop}
    (hfailed : ∀ y, Reading s y → ReadFailed y path → Q .failed y)
    (hread : ∀ y, Reading s y → Prog.Ends traced
      (match edited floats contents with
        | .error result => return result
        | .ok encoded =>
            ((do writeAtomically path encoded
                 return .added) : HookProgram ComposerAssetHookResult).tryCatch
              fun _ => return .failed) y Q fun _ _ => False) :
    Prog.Ends traced (ensure floats path) (s, []) Q (fun _ _ => False) := by
  have hfound : Prog.Ends traced (request (.isFile path)) (s, [])
      (fun found y => Reading s y ∧ found = true) (fun _ _ => False) := by
    apply ends_request
    intro verdict answer s' _ hoperate
    cases verdict <;>
      · cases hoperate
        constructor
        · rintro _ ⟨⟩
          exact ⟨⟨rfl, rfl, by simp⟩, by simp [hcontents]⟩
        · simp
  apply Prog.Ends.bind hfound
  rintro _ y ⟨hy, rfl⟩
  have hreading : Reading s (traced (.get path) y).2 := by
    have hmoments : ∀ m ∈ (Operation.get path, y.1) :: y.2, m.2.files = s.files :=
      List.forall_mem_cons.mpr ⟨hy.files, hy.moments⟩
    simp only [traced, recording, exec]
    cases y.1.verdict y.1.performed <;> exact ⟨hy.files, hy.random, hmoments⟩
  have hfiles : y.1.files path = some contents := by rw [hy.files, hcontents]
  -- The read gives the contents, or it is itself the operation that did not succeed.
  have hget : Prog.Ends traced
      (Prog.attempt (Operation.get path) : HookProgram (Option (List UInt8))) y
      (fun answer z => Reading s z ∧
        (answer = some contents ∨ answer = none ∧ ReadFailed z path)) (fun _ _ => False) := by
    refine ⟨hreading, ?_⟩
    have hmoment : ∀ v, v ≠ .succeeds → y.1.verdict y.1.performed = v →
        ReadFailed (traced (.get path) y).2 path := by
      rintro v hne rfl
      refine ⟨(Operation.get path, y.1), List.mem_cons_self, rfl, ?_⟩
      rintro v rfl
      exact hne
    cases hverdict : y.1.verdict y.1.performed with
    | succeeds =>
        left
        simp only [traced, recording, exec, hverdict, operate]
        exact hfiles
    | fails remains =>
        right
        exact ⟨by simp only [traced, recording, exec, hverdict, operate],
          hmoment _ (by simp) hverdict⟩
    | throws remains =>
        right
        exact ⟨by simp only [traced, recording, exec, hverdict, operate],
          hmoment _ (by simp) hverdict⟩
  apply Prog.Ends.bind hget
  rintro answer z ⟨hz, rfl | ⟨rfl, hfail⟩⟩
  · exact hread z hz
  · exact hfailed z hz hfail

/-- A run over a file that is not to be written says why, unless its read fails. -/
theorem ends_ensure_of_error {contents : List UInt8} {result : ComposerAssetHookResult}
    (hcontents : s.files path = some contents) (hedited : edited floats contents = .error result) :
    Prog.Ends traced (ensure floats path) (s, [])
      (fun result' y => (result' = result ∨ result' = .failed ∧ ReadFailed y path) ∧
        y.1.files = s.files) (fun _ _ => False) := by
  apply ends_ensure_of_some hcontents
  · exact fun y hy hfailed => ⟨Or.inr ⟨rfl, hfailed⟩, hy.files⟩
  · intro y hy
    rw [hedited]
    exact ⟨Or.inl rfl, hy.files⟩

/-! ## Runs over one file -/

/-- A moment of a run over `composer.json`, with what is under the temporary path, what becomes of the
operations and how many have been performed. -/
def storeOf (contents : List UInt8) (temporary : Option (List UInt8)) (verdict : ℕ → Verdict)
    (performed : ℕ) : Store where
  files path :=
    if path = "composer.json" then some contents
    else if path = "composer.json.0.tmp" then temporary
    else none
  random _ := "0"
  verdict := verdict
  performed := performed

section Run

variable {contents new : List UInt8} {temporary : Option (List UInt8)} {verdict : ℕ → Verdict} {n : ℕ}

/-- The file is there. -/
@[simp] theorem storeOf_files :
    (storeOf contents temporary verdict n).files "composer.json" = some contents := by
  simp [storeOf]

/-- What is under the temporary path. -/
@[simp] theorem storeOf_temporary :
    (storeOf contents temporary verdict n).files "composer.json.0.tmp" = temporary := by
  simp [storeOf]

/-- No temporary file is there at the start. -/
theorem fresh_storeOf : Fresh "composer.json" (storeOf contents none verdict n) := by
  intro m
  simp [storeOf, temporaryPathOf_ne]

/-- The temporary file has been written, or removed. -/
theorem leave_storeOf (found left : Option (List UInt8)) :
    (storeOf contents found verdict n).leave "composer.json.0.tmp" left =
      storeOf contents left verdict n := by
  simp only [Store.leave, storeOf, Store.mk.injEq, and_self, and_true]
  funext path
  rw [Function.update_apply]
  split_ifs with htemporary hpath <;> simp_all

/-- The temporary file has been moved into the place of the file. -/
theorem move_storeOf (found : List UInt8) :
    ((storeOf found (some new) verdict n).leave "composer.json" (some new)).leave
      "composer.json.0.tmp" none = storeOf new none verdict n := by
  simp only [Store.leave, storeOf, Store.mk.injEq, and_self, and_true]
  funext path
  rw [Function.update_apply, Function.update_apply]
  split_ifs with htemporary hpath <;> simp_all

/-- An operation, whatever is known of its answer. -/
theorem ends_attempted {o : Operation} {answer : Option o.Answer} {s' : Store} {α : Type}
    {next : Option o.Answer → HookProgram α} {Q : α → Traced → Prop} {E : Failure → Traced → Prop}
    (hanswer : exec o x.1 = (answer, s'))
    (hnext : Prog.Ends traced (next answer) (s', (o, x.1) :: x.2) Q E) :
    Prog.Ends traced (Prog.attempt o >>= next) x Q E := by
  show Prog.Ends traced (next (exec o x.1).1) ((exec o x.1).2, (o, x.1) :: x.2) Q E
  rwa [hanswer]

/-- An operation that is answered. -/
theorem ends_answered {o : Operation} {a : o.Answer} {s' : Store} {α : Type}
    {next : o.Answer → HookProgram α} {Q : α → Traced → Prop} {E : Failure → Traced → Prop}
    (hanswer : exec o x.1 = (some a, s'))
    (hnext : Prog.Ends traced (next a) (s', (o, x.1) :: x.2) Q E) :
    Prog.Ends traced (request o >>= next) x Q E := by
  have hrequest : Prog.Ends traced (request o) x (fun b y => b = a ∧ y = (s', (o, x.1) :: x.2)) E :=
    ends_attempted hanswer ⟨rfl, rfl⟩
  apply Prog.Ends.bind hrequest
  rintro b y ⟨rfl, rfl⟩
  exact hnext

variable {Q : ComposerAssetHookResult → Traced → Prop} {log : List (Operation × Store)}

/-- A run that reads the file and has something to write comes to the write. -/
theorem ends_ensure_writes (hverdict : verdict 1 = .succeeds)
    (hedited : edited floats contents = .ok new)
    (h : ∀ log, Prog.Ends traced (writeAtomically "composer.json" new)
      (storeOf contents none verdict 2, log) (fun _ y => Q .added y) fun _ y => Q .failed y) :
    Prog.Ends traced (ensure floats "composer.json") (storeOf contents none verdict 0, []) Q
      (fun _ _ => False) := by
  have hfound : exec (.isFile "composer.json") (storeOf contents none verdict 0) =
      (some true, storeOf contents none verdict 1) := by
    simp [exec, operate, storeOf]
  have hget : exec (.get "composer.json") (storeOf contents none verdict 1) =
      (some contents, storeOf contents none verdict 2) := by
    simp [exec, operate, storeOf, hverdict]
  apply ends_answered hfound
  rw [if_pos rfl]
  apply ends_attempted hget
  simp only [hedited]
  apply Prog.Ends.tryCatch (Q := Q) (E := fun _ y => Q .failed y)
  · exact Prog.Ends.bind (h _) fun _ _ hy => hy
  · exact fun _ _ hy => hy
  · exact fun _ _ hy => hy

/-- The body of a write whose operations succeed. -/
theorem ends_writeAndMove_succeeds (hput : verdict 3 = .succeeds) (hmove : verdict 4 = .succeeds) :
    Prog.Ends traced (writeAndMove "composer.json.0.tmp" "composer.json" new)
      (storeOf contents none verdict 3, log) (fun _ y => y.1 = storeOf new none verdict 5)
      (fun _ _ => False) := by
  have hwritten : exec (.put "composer.json.0.tmp" new) (storeOf contents none verdict 3) =
      (some true, storeOf contents (some new) verdict 4) := by
    rw [← leave_storeOf none (some new)]
    simp only [exec, storeOf, hput, operate]
  have hmoved : exec (.move "composer.json.0.tmp" "composer.json")
      (storeOf contents (some new) verdict 4) = (some true, storeOf new none verdict 5) := by
    rw [← move_storeOf contents]
    simp [exec, storeOf, hmove, operate]
  apply ends_answered hwritten
  rw [if_pos rfl]
  apply ends_answered hmoved
  rw [if_pos rfl]
  rfl

/-- The body of a write whose move fails. -/
theorem ends_writeAndMove_fails (hput : verdict 3 = .succeeds) (hmove : verdict 4 = .fails none) :
    Prog.Ends traced (writeAndMove "composer.json.0.tmp" "composer.json" new)
      (storeOf contents none verdict 3, log) (fun _ _ => False)
      (fun _ y => y.1 = storeOf contents (some new) verdict 5) := by
  have hwritten : exec (.put "composer.json.0.tmp" new) (storeOf contents none verdict 3) =
      (some true, storeOf contents (some new) verdict 4) := by
    rw [← leave_storeOf none (some new)]
    simp only [exec, storeOf, hput, operate]
  have hmoved : exec (.move "composer.json.0.tmp" "composer.json")
      (storeOf contents (some new) verdict 4) = (some false, storeOf contents (some new) verdict 5) := by
    simp [exec, storeOf, hmove, operate]
  apply ends_answered hwritten
  rw [if_pos rfl]
  apply ends_answered hmoved
  rw [if_neg Bool.false_ne_true]
  rfl

/-- The clean-up behind a write: nothing is under the temporary path any more. -/
theorem ends_removeTemporary_storeOf (hdelete : verdict 6 = .succeeds) :
    Prog.Ends traced (removeTemporary "composer.json.0.tmp")
      (storeOf contents temporary verdict 5, log)
      (fun _ y => ∃ n, y.1 = storeOf contents none verdict n) (fun _ _ => False) := by
  have hfound : exec (.exists "composer.json.0.tmp") (storeOf contents temporary verdict 5) =
      (some temporary.isSome, storeOf contents temporary verdict 6) := by
    simp [exec, operate, storeOf]
  have hdeleted : exec (.delete "composer.json.0.tmp") (storeOf contents temporary verdict 6) =
      (some temporary.isSome, storeOf contents none verdict 7) := by
    rw [← leave_storeOf temporary none]
    simp [exec, operate, storeOf, hdelete]
  apply ends_answered hfound
  cases temporary with
  | none => exact ⟨6, rfl⟩
  | some left =>
      rw [Option.isSome_some, if_pos rfl]
      apply ends_answered hdeleted
      exact ⟨7, rfl⟩

/-- The write draws the name of the temporary file. -/
theorem ends_writeAtomically_storeOf {Q E : Traced → Prop}
    (h : ∀ log, Prog.Ends traced ((writeAndMove "composer.json.0.tmp" "composer.json" new).tryFinally
      (removeTemporary "composer.json.0.tmp")) (storeOf contents none verdict 3, log)
        (fun _ y => Q y) fun _ y => E y) :
    Prog.Ends traced (writeAtomically "composer.json" new) (storeOf contents none verdict 2, log)
      (fun _ y => Q y) (fun _ y => E y) := by
  have hrandom : exec .random (storeOf contents none verdict 2) =
      (some "0", storeOf contents none verdict 3) := by
    simp [exec, operate, storeOf]
  exact ends_answered hrandom (h _)

/-- **A run none of whose operations fails** adds the script where there is something to write. -/
theorem ends_ensure_succeeds (hedited : edited floats contents = .ok new) :
    Prog.Ends traced (ensure floats "composer.json") (storeOf contents none (fun _ => .succeeds) 0, [])
      (fun result y => result = .added ∧ ∃ n, y.1 = storeOf new none (fun _ => .succeeds) n)
      (fun _ _ => False) := by
  apply ends_ensure_writes rfl hedited
  intro log
  apply ends_writeAtomically_storeOf
  intro log
  apply Prog.Ends.tryFinally (ends_writeAndMove_succeeds rfl rfl)
  · rintro _ ⟨_, log⟩ rfl
    exact Prog.Ends.mono (ends_removeTemporary_storeOf rfl) (fun _ _ hy => ⟨rfl, hy⟩) fun _ _ h => h.elim
  · exact fun _ _ h => h.elim

/-- **A run whose move fails** has written the edited document under the temporary path, and leaves
everything as it was. -/
theorem ends_ensure_fails (hedited : edited floats contents = .ok new) {verdict : ℕ → Verdict}
    (hverdict : ∀ n, verdict n = if n = 4 then .fails none else .succeeds) :
    Prog.Ends traced (ensure floats "composer.json") (storeOf contents none verdict 0, [])
      (fun result y => result = .failed ∧ ∃ n, y.1 = storeOf contents none verdict n)
      (fun _ _ => False) := by
  apply ends_ensure_writes (hverdict 1) hedited
  intro log
  apply ends_writeAtomically_storeOf
  intro log
  apply Prog.Ends.tryFinally (ends_writeAndMove_fails (hverdict 3) (hverdict 4))
  · exact fun _ _ h => h.elim
  · rintro _ ⟨_, log⟩ rfl
    exact Prog.Ends.mono (ends_removeTemporary_storeOf (hverdict 6)) (fun _ _ hy => ⟨rfl, hy⟩)
      fun _ _ h => h.elim

end Run

/-- A document with a name, an empty object and no scripts. -/
def bareDocument : Json := .obj [("name", .str "acme/app"), ("extra", .obj [])]

/-- It can be written. -/
theorem spellable_bareDocument : Json.Spellable 512 bareDocument := by
  refine .obj fun m hm => ?_
  simp only [List.mem_cons, List.not_mem_nil, or_false] at hm
  rcases hm with rfl | rfl
  · exact .str _
  · exact .obj (by simp)

/-- The contents of a file that holds the document. -/
@[irreducible]
def bareContents : List UInt8 := Php.bytes (String.ofList (Json.spell bareDocument))

/-- The file is read as the document. -/
theorem jsonParse_bareContents : Php.jsonParse bareContents = some (Php.jsonDecode bareDocument) := by
  rw [Php.jsonParse, bareContents, Php.ofBytes_bytes]
  simp [Json.read_spell spellable_bareDocument]

/-- There is something to write. -/
theorem edited_bareContents : ∃ new, edited .verbatim bareContents = .ok new := by
  have hscript : withScript (Php.jsonDecode bareDocument) = .ok
      [("name", .str "acme/app"), ("extra", .array []),
        ("scripts", .array [("post-autoload-dump", listOf [script])])] := by
    rfl
  rw [edited, jsonParse_bareContents]
  simp only [hscript]
  exact ⟨_, rfl⟩

/-- Adding the script to this file, where the move fails and where nothing does. -/
theorem ensure_atomic_bare :
    (∀ verdict : ℕ → Verdict, (∀ n, verdict n = if n = 4 then .fails none else .succeeds) →
      Prog.Ends traced (ensure .verbatim "composer.json") (storeOf bareContents none verdict 0, [])
        (fun result y => result = .failed ∧ y.1.files "composer.json" = some bareContents ∧
          y.1.files "composer.json.0.tmp" = none ∧
          Leaves (storeOf bareContents none verdict 0) "composer.json" (some bareContents) y)
        (fun _ _ => False)) ∧
    Prog.Ends traced (ensure .verbatim "composer.json")
      (storeOf bareContents none (fun _ => .succeeds) 0, [])
      (fun result y => result = .added ∧ ∃ new, edited .verbatim bareContents = .ok new ∧
        y.1.files "composer.json" = some new ∧
        Leaves (storeOf bareContents none (fun _ => .succeeds) 0) "composer.json" (some new) y)
      (fun _ _ => False) := by
  obtain ⟨new, hnew⟩ := edited_bareContents
  constructor
  · intro verdict hverdict
    apply Prog.Ends.mono ((ends_ensure_fails hnew hverdict).and (ensure_atomic fresh_storeOf)) _
      fun _ _ h => h.1
    rintro result y ⟨⟨rfl, n, hy⟩, -, hleaves⟩
    have hkept := hleaves (by simp)
    rw [storeOf_files] at hkept
    exact ⟨rfl, hkept.target_eq, by rw [hy, storeOf_temporary], hkept⟩
  · apply Prog.Ends.mono ((ends_ensure_succeeds hnew).and (ensure_atomic fresh_storeOf)) _
      fun _ _ h => h.1
    rintro result y ⟨⟨rfl, n, hy⟩, hadded, -⟩
    obtain ⟨contents, new', hcontents, hnew', hleaves⟩ := hadded rfl
    rw [storeOf_files, Option.some.injEq] at hcontents
    subst hcontents
    exact ⟨rfl, new', hnew', hleaves.target_eq, hleaves⟩

end ComposerAssetHook

end HorizonNewDawn

import WaferRun.Lib.Fallible
import WaferRun.Lib.Text

/-!
# Paths of a storage root

`LocalStorageService` joins a folder and a key onto its root, normalises the result lexically and
accepts it if it stays under the root and does not begin with the directory writes are staged in.
Where a path leads is the filesystem's affair: links, second names and case folds make several
paths lead to one directory. `FileSystem` is its answer, and `isStaging` asks for it.
-/

namespace WaferRun

open Text

abbrev PathName := List Char

/-- What an operating-system call may fail with. -/
inductive OsError
  | notFound
  | crossesDevices
  | other (code : ℕ)
  deriving DecidableEq, Repr

/-- What the service was doing when a call failed; its error texts say so. -/
inductive Attempt
  | canonicalizeRoot
  | createDirs
  | createStagingDirectory
  | createTemp
  | write
  | flushTemp
  | fsyncTemp
  | rename
  | fsyncDirectory
  | readDir
  | metadata
  | openFile
  | read
  | delete
  | createFolder
  | deleteFolder
  deriving DecidableEq, Repr

/-- `StorageError`; `β` is the error a streamed body ends in. -/
inductive StorageError (β : Type)
  | notFound
  | invalidArgument (message : String)
  | tooLarge (path : List PathName) (len : ℕ)
  | internal (attempt : Attempt) (error : OsError)
  | body (error : β)
  deriving DecidableEq, Repr

/-! ## Components -/

/-- `std::path::Component` on Unix. -/
inductive Component
  | rootDir
  | curDir
  | parentDir
  | normal (name : PathName)
  deriving DecidableEq, Repr

def component (piece : List Char) : Option Component :=
  if piece = [] then none
  else if piece = ['.'] then none
  else if piece = ['.', '.'] then some .parentDir
  else some (.normal piece)

/-- `Path::components`: a dot counts only at the front of a relative path. -/
def components (path : List Char) : List Component :=
  (if path.head? = some '/' then [.rootDir]
    else if path = ['.'] ∨ ['.', '/'] <+: path then [.curDir] else []) ++
    (path.splitOn '/').filterMap component

def Component.name? : Component → Option PathName
  | .normal name => some name
  | _ => none

/-- `Path::join`: an absolute path replaces what it is joined to. -/
def joinPath (base path : List Char) : List Char :=
  if path.head? = some '/' then path
  else if base = [] ∨ base.getLast? = some '/' then base ++ path
  else base ++ '/' :: path

/-- `normalize_lexical` from the components already put out. -/
def normalizeFrom : List Component → List Component → Option (List Component)
  | out, [] => some out
  | out, .curDir :: rest => normalizeFrom out rest
  | out, .parentDir :: rest =>
    match out.getLast? with
    | some (.normal _) => normalizeFrom out.dropLast rest
    | _ => none
  | out, c :: rest => normalizeFrom (out ++ [c]) rest

/-- `normalize_lexical`: resolve dots without asking the filesystem, or fail above its root. -/
def normalizeLexical (path : List Component) : Option (List Component) := normalizeFrom [] path

/-! ## Where paths lead -/

def stagingDir : PathName := ".wafer-staging".toList

/-- The name `staged_temp_path` makes of the process id and the sequence number. -/
def stagedTempName (pid seq : ℕ) : PathName :=
  Nat.toDigits 10 pid ++ '.' :: (Nat.toDigits 10 seq ++ ".tmp".toList)

/-- The filesystem a storage root lives on, and where it leads the paths below the root: which
directory a path names, all links, second names and folds resolved, for directories that a call
has yet to make as well. No call of the service changes that. `fold` is the spelling under which
a directory keeps a name. -/
structure FileSystem where
  root : List PathName
  dirAt : List PathName → Option ℕ
  fold : PathName → PathName
  maxLinks : ℕ
  staging : ℕ
  /-- The staging directory is found under its own name. -/
  dirAt_stagingDir : dirAt [stagingDir] = some staging
  /-- The root is not a directory in itself. -/
  dirAt_nil_ne : dirAt [] ≠ some staging
  /-- Digits, dots and small letters are not folded. -/
  fold_stagedTempName : ∀ pid seq, fold (stagedTempName pid seq) = stagedTempName pid seq

/-- A place for a file: a directory and a name in it. -/
structure Slot where
  dir : ℕ
  name : PathName
  deriving DecidableEq, Repr

namespace FileSystem

variable (fs : FileSystem)

def slot (path : List PathName) : Option Slot :=
  match path.getLast?, fs.dirAt path.dropLast with
  | some name, some dir => some ⟨dir, fs.fold name⟩
  | _, _ => none

/-- `staging_path` and a temp name in it. -/
def stagedSlot (pid seq : ℕ) : Slot := ⟨fs.staging, stagedTempName pid seq⟩

/-- `is_staging`: the name is compared, then the filesystem is asked for the identity, which
counts as another directory if the call fails (`identified` is false). -/
def isStaging (identified : Bool) (path : List PathName) : Bool :=
  path.getLast?.any (eqIgnoreAsciiCase · stagingDir) ||
    (identified && decide (fs.dirAt path = some fs.staging))

def rootPath : List Char :=
  if fs.root = [] then ['/'] else fs.root.flatMap fun name ↦ '/' :: name

def rootComponents : List Component := .rootDir :: fs.root.map .normal

def folderPath (folder : List Char) : List Char := joinPath fs.rootPath folder

def objectPath (folder key : List Char) : List Char := joinPath (fs.folderPath folder) key

variable {β : Type}

def escapesRoot : StorageError β :=
  .invalidArgument "path traversal: resolved path escapes storage root"

def reservedForStaging : StorageError β :=
  .invalidArgument ".wafer-staging is reserved for staged writes"

/-- `validate_path`, with the filesystem's answers: `canonical` to the canonicalisation of the
root and `identified` to the identity question. An accepted path is given by its names below the
root. -/
def validatePath (canonical : Except OsError Unit) (identified : Bool) (path : List Char) :
    Except (StorageError β) (List PathName) :=
  match canonical with
  | .error e => .error (.internal .canonicalizeRoot e)
  | .ok () =>
    let absolute := if path.head? = some '/' then path else joinPath fs.rootPath path
    match normalizeLexical (components absolute) with
    | none => .error escapesRoot
    | some normalized =>
      if ¬fs.rootComponents <+: normalized then .error escapesRoot
      else
        let relative := (normalized.drop fs.rootComponents.length).filterMap Component.name?
        if relative.head?.any fun first ↦ fs.isStaging identified [first] then
          .error reservedForStaging
        else .ok relative

variable {fs}

theorem not_isStaging_of_validatePath {canonical : Except OsError Unit} {identified : Bool}
    {path : List Char} {first : PathName} {rest : List PathName}
    (h : fs.validatePath (β := β) canonical identified path = .ok (first :: rest)) :
    fs.isStaging identified [first] = false := by
  unfold validatePath at h
  split at h
  · exact absurd h nofun
  · dsimp only at h
    split at h
    · exact absurd h nofun
    · split at h
      · exact absurd h nofun
      · split at h
        · exact absurd h nofun
        · rename_i hstaging
          rw [Except.ok.inj h, List.head?_cons, Option.any_some, Bool.not_eq_true] at hstaging
          exact hstaging

theorem slot_eq_some {path : List PathName} {σ : Slot} (h : fs.slot path = some σ) :
    fs.dirAt path.dropLast = some σ.dir := by
  unfold slot at h
  split at h
  · rename_i name dir _ hdir
    rw [hdir, ← Option.some.inj h]
  · exact absurd h nofun

end FileSystem

/-! ## Listing -/

/-- What `read_dir` and `metadata` say of an entry. -/
inductive EntryKind
  | file
  | dir
  | symlink
  deriving DecidableEq, Repr

namespace FileSystem

variable (fs : FileSystem)

/-- `list_recursive`: the paths of the objects under `dir` whose key, the path below `base`,
begins with the prefix. `readDir` is the answer of the filesystem for a directory at the moment it
is read, and `identified` tells for which paths the identity question was answered. The walk gives
up below `depth` levels. -/
def listRecursive (identified : List PathName → Bool)
    (readDir : List PathName → Except OsError (List (PathName × EntryKind)))
    (base : List PathName) (pre : List Char) : ℕ → List PathName →
    Except OsError (List (List PathName))
  | 0, _ => .error (.other 0)
  | depth + 1, dir => do
    let entries ← readDir dir
    let found ← entries.mapM fun entry ↦
      let path := dir ++ [entry.1]
      if entry.2 ≠ .file ∧ fs.isStaging (identified path) path then .ok []
      else if entry.2 = .dir then listRecursive identified readDir base pre depth path
      else if pre ≠ [] ∧ ¬pre <+: join ['/'] (path.drop base.length) then .ok []
      else .ok [path]
    .ok found.flatten

/-- The walk of `list` over a folder: validated first, read afterwards. -/
def list {β : Type} (canonical : Except OsError Unit) (accepted : Bool)
    (identified : List PathName → Bool)
    (readDir : List PathName → Except OsError (List (PathName × EntryKind))) (depth : ℕ)
    (folder pre : List Char) : Except (StorageError β) (List (List PathName)) := do
  let dir ← fs.validatePath canonical accepted (fs.folderPath folder)
  (fs.listRecursive identified readDir dir pre depth dir).mapError (.internal .readDir)

/-! ### Names of the staging directory

No path leads into the staging directory unless its first name is refused. With `identified` that
allows for further names of the staging directory in the root, and without only for its own. -/

/-- Whatever leads into the staging directory begins with a name `validate_path` refuses. -/
def Shielded (identified : Bool) : Prop :=
  ∀ first rest, fs.dirAt (first :: rest) = some fs.staging → fs.isStaging identified [first] = true

variable {fs}

theorem Shielded.dirAt_ne {identified : Bool} (h : fs.Shielded identified) {path : List PathName}
    (hfirst : ∀ first rest, path = first :: rest → fs.isStaging identified [first] = false) :
    fs.dirAt path ≠ some fs.staging := by
  intro hdir
  rcases path with _ | ⟨first, rest⟩
  · exact fs.dirAt_nil_ne hdir
  · exact Bool.false_ne_true ((hfirst first rest rfl).symm.trans (h first rest hdir))

theorem Shielded.slot_dir_ne {β : Type} {canonical : Except OsError Unit} {identified : Bool}
    (h : fs.Shielded identified) {text : List Char} {path : List PathName} {σ : Slot}
    (hpath : fs.validatePath (β := β) canonical identified text = .ok path)
    (hslot : fs.slot path = some σ) : σ.dir ≠ fs.staging := by
  intro hdir
  have hparent : fs.dirAt path.dropLast = some fs.staging := hdir ▸ slot_eq_some hslot
  refine h.dirAt_ne (fun first rest hfirst ↦ ?_) hparent
  obtain ⟨last, hlast⟩ : ∃ tail, path = first :: tail := by
    rcases path with _ | ⟨a, _ | ⟨b, path⟩⟩
    · exact absurd hfirst nofun
    · exact absurd hfirst nofun
    · exact ⟨_, congrArg₂ List.cons (List.cons.inj hfirst).1 rfl⟩
  exact not_isStaging_of_validatePath (hlast ▸ hpath)

def Clear (fs : FileSystem) (dir : List PathName) : Prop :=
  ∀ first rest, dir = first :: rest →
    ∃ identified, fs.Shielded identified ∧ fs.isStaging identified [first] = false

theorem Clear.dirAt_ne {dir : List PathName} (h : fs.Clear dir) :
    fs.dirAt dir ≠ some fs.staging := by
  intro hdir
  rcases dir with _ | ⟨first, rest⟩
  · exact fs.dirAt_nil_ne hdir
  · obtain ⟨identified, hshield, hfirst⟩ := h first rest rfl
    exact Bool.false_ne_true (hfirst.symm.trans (hshield first rest hdir))

theorem Clear.concat {dir : List PathName} (h : fs.Clear dir) {name : PathName} {identified : Bool}
    (hshield : fs.Shielded identified) (hname : fs.isStaging identified (dir ++ [name]) = false) :
    fs.Clear (dir ++ [name]) := by
  intro first rest hfirst
  rcases dir with _ | ⟨a, dir⟩
  · obtain ⟨rfl, rfl⟩ := List.cons.inj hfirst
    exact ⟨identified, hshield, hname⟩
  · obtain ⟨rfl, -⟩ := List.cons.inj hfirst
    exact h a dir rfl

theorem Clear.listRecursive {identified : List PathName → Bool}
    {readDir : List PathName → Except OsError (List (PathName × EntryKind))} {base : List PathName}
    {pre : List Char} (hshield : ∀ path, fs.Shielded (identified path)) (depth : ℕ)
    {dir : List PathName} (h : fs.Clear dir) {found : List (List PathName)}
    (hfound : fs.listRecursive identified readDir base pre depth dir = .ok found) :
    ∀ path ∈ found, fs.dirAt path.dropLast ≠ some fs.staging := by
  induction depth generalizing dir found with
  | zero => exact absurd hfound nofun
  | succ depth ih =>
    unfold FileSystem.listRecursive at hfound
    obtain ⟨entries, -, hfound⟩ := Fallible.bind_eq_ok.mp hfound
    obtain ⟨parts, hparts, hfound⟩ := Fallible.bind_eq_ok.mp hfound
    intro path hpath
    rw [← Except.ok.inj hfound] at hpath
    obtain ⟨part, hpart, hmem⟩ := List.mem_flatten.mp hpath
    obtain ⟨entry, -, hentry⟩ := Fallible.mem_of_mapM_eq_ok hparts hpart
    dsimp only at hentry
    split at hentry
    · exact absurd (Except.ok.inj hentry ▸ hmem) List.not_mem_nil
    · rename_i hskip
      split at hentry
      · rename_i hdir
        have hname : fs.isStaging (identified (dir ++ [entry.1])) (dir ++ [entry.1]) = false := by
          rw [hdir] at hskip
          exact Bool.eq_false_iff.mpr fun hstaging ↦ hskip ⟨nofun, hstaging⟩
        exact ih (h.concat (hshield _) hname) hentry path hmem
      · split at hentry
        · exact absurd (Except.ok.inj hentry ▸ hmem) List.not_mem_nil
        · rw [← Except.ok.inj hentry, List.mem_singleton] at hmem
          rw [hmem, List.dropLast_concat]
          exact h.dirAt_ne

end FileSystem

end WaferRun

import WaferRun.Lib.FileTree
import WaferRun.Storage.Confinement
import WaferRun.Storage.Listing

/-!
# What is stored and what is listed

The calls of `LocalStorageService` one after the other, each as a whole, on the tree of files below
the root. There are no links, so a path of names is a place of its own.

Writes are kept away from the staging directory by their first name. The listing walks the tree and
leaves out directories with the name of the staging directory wherever it meets them, so it misses
what is stored below such a name deeper down (`listing_exact_iff`).
-/

open List Option Fallible

namespace WaferRun.LocalStorage

open Text

variable {path : List PathName} {key : String}

/-- A stored file, with the time of its last change as a number. -/
structure File where
  data : Content
  modified : ℤ
deriving DecidableEq, Repr

abbrev Files := FileTree.Tree PathName File

/-- The error a refusal is: `ENOENT`, `ENOTDIR` or `EISDIR`. -/
def osError : FileTree.Refusal → OsError
  | .missing => .notFound
  | .notDirectory => .other 20
  | .isDirectory => .other 21

variable {β : Type} (fs : FileSystem) (identified : Bool)

/-! ## The calls -/

def objectAt (folder key : String) : Except (StorageError β) (List PathName) :=
  fs.validatePath (.ok ()) identified (fs.objectPath folder.toList key.toList)

def folderAt (name : String) : Except (StorageError β) (List PathName) :=
  fs.validatePath (.ok ()) identified (fs.folderPath name.toList)

def fill : Body β → Except (StorageError β) Content
  | [] => .ok []
  | .ok chunk :: rest => (fill rest).map (chunk ++ ·)
  | .error e :: _ => .error (.body e)

/-- `atomic_write`, up to its last sync: what a write leaves if none of its calls fails. -/
def atomicWrite (s : Files) (path tmp : List PathName) (body : Body β) (now : ℤ) :
    Except (StorageError β) Files := do
  let s ← (s.makeDirs [] path.dropLast).mapError (.internal .createDirs ∘ osError)
  let s ← (s.makeDirs [] [stagingDir]).mapError (.internal .createStagingDirectory ∘ osError)
  let s ← (s.place tmp (.file ⟨[], now⟩)).mapError (.internal .createTemp ∘ osError)
  let data ← fill body
  let s ← (s.place tmp (.file ⟨data, now⟩)).mapError (.internal .write ∘ osError)
  (s.rename tmp path).mapError (.internal .rename ∘ osError)

/-- `put`, with one chunk, and `put_streaming`. -/
def put (s : Files) (pid seq : ℕ) (folder key : String) (body : Body β) (now : ℤ) :
    Except (StorageError β) Files := do
  let path ← objectAt fs identified folder key
  atomicWrite s path [stagingDir, stagedTempName pid seq] body now

def delete (s : Files) (folder key : String) : Except (StorageError β) Files := do
  let path ← objectAt fs identified folder key
  let _ ← (s.stat path).mapError (missingOr .metadata ∘ osError)
  (s.removeFile path).mapError (.internal .delete ∘ osError)

def createFolder (s : Files) (name : String) : Except (StorageError β) Files := do
  let path ← folderAt fs identified name
  (s.makeDirs [] path).mapError (.internal .createFolder ∘ osError)

def deleteFolder (s : Files) (name : String) : Except (StorageError β) Files := do
  let path ← folderAt fs identified name
  let _ ← (s.stat path).mapError (missingOr .metadata ∘ osError)
  (s.removeDirAll path).mapError (.internal .deleteFolder ∘ osError)

variable (guess : String → String) (dirLen : List PathName → ℕ)

/-- `get` from an accepted path on. A directory has a length of its own, and cannot be read. -/
def readObject (s : Files) (path : List PathName) (key : String) :
    Except (StorageError β) (Content × ObjectInfo) :=
  match s.stat path with
  | .error e => .error (missingOr .metadata (osError e))
  | .ok .dir =>
    if maxObjectBytes < dirLen path then .error (.tooLarge path (dirLen path))
    else .error (.internal .read (osError .isDirectory))
  | .ok (.file f) =>
    if maxObjectBytes < f.data.length then .error (.tooLarge path f.data.length)
    else .ok (f.data, ⟨key, f.data.length, guess key, f.modified⟩)

def get (s : Files) (folder key : String) : Except (StorageError β) (Content × ObjectInfo) := do
  let path ← objectAt fs identified folder key
  readObject guess dirLen s path key

def objectInfo (s : Files) (base path : List PathName) : Option ObjectInfo :=
  match s.node path with
  | some (.file f) =>
    let key := String.ofList (join ['/'] (path.drop base.length))
    some ⟨key, f.data.length, guess key, f.modified⟩
  | _ => none

def kindOf : FileTree.Node File → EntryKind
  | .file _ => .file
  | .dir => .dir

/-- What the filesystem answers to `read_dir`: the entries of a directory in some order. -/
def Answers (s : Files) (readDir : List PathName → Except OsError (List (PathName × EntryKind))) :
    Prop :=
  ∀ dir,
    (s.node dir = some .dir → ∃ entries, s.Lists dir entries ∧
      readDir dir = .ok (entries.map fun entry ↦ (entry.1, kindOf entry.2))) ∧
    (s.node dir ≠ some .dir → ∃ e, readDir dir = .error e)

/-- `list`, of a walk that gives up below `depth` levels. `answered` tells for which directories the
identity question was answered. -/
def list (texts : DecoderTexts) (s : Files) (answered : List PathName → Bool)
    (readDir : List PathName → Except OsError (List (PathName × EntryKind))) (depth : ℕ)
    (folder : String) (opts : ListOptions) : Except (StorageError β) ObjectList := do
  let dir ← folderAt fs identified folder
  if s.node dir = none then .ok ⟨[], 0, none⟩
  else
    let found ← (fs.listRecursive answered readDir dir opts.pre.toList depth dir).mapError
      (.internal .readDir)
    listCollected texts (found.filterMap (objectInfo guess s dir)) opts

/-! ## The walk -/

variable {fs identified guess dirLen} {s : Files}

/-- What the walk shows below a directory: the files it reaches without going down into a directory
with the name of the staging directory. -/
def Shown (s : Files) (dir rest : List PathName) : Prop :=
  (∃ f, s.node (dir ++ rest) = some (.file f)) ∧
    ∀ name ∈ rest.dropLast, eqIgnoreAsciiCase name stagingDir = false

theorem shown_cons {dir rest : List PathName} {name : PathName} : Shown s dir (name :: rest) ↔
    (rest = [] ∧ ∃ f, s.node (dir ++ [name]) = some (.file f)) ∨
      s.node (dir ++ [name]) = some .dir ∧ eqIgnoreAsciiCase name stagingDir = false ∧
        Shown s (dir ++ [name]) rest := by
  rcases eq_or_ne rest [] with rfl | hrest
  · constructor
    · exact fun h ↦ .inl ⟨rfl, h.1⟩
    · rintro (⟨-, hfile⟩ | ⟨hdir, -, ⟨f, hf⟩, -⟩)
      · exact ⟨hfile, fun _ h ↦ absurd h not_mem_nil⟩
      · rw [append_nil, hdir] at hf
        cases hf
  · rw [Shown, Shown, dropLast_cons_of_ne_nil hrest, forall_mem_cons, append_assoc,
      singleton_append]
    constructor
    · rintro ⟨⟨f, hf⟩, hname, hall⟩
      refine .inr ⟨FileTree.Tree.node_of_append hrest ?_, hname, ⟨f, hf⟩, hall⟩
      rw [append_assoc, singleton_append, hf]
      nofun
    · rintro (⟨rfl, -⟩ | ⟨-, hname, hfile, hall⟩)
      · exact absurd rfl hrest
      · exact ⟨hfile, hname, hall⟩

section Walk

variable {answered : List PathName → Bool}
  {readDir : List PathName → Except OsError (List (PathName × EntryKind))}

def visit (fs : FileSystem) (answered : List PathName → Bool)
    (readDir : List PathName → Except OsError (List (PathName × EntryKind)))
    (base : List PathName) (depth : ℕ) (dir : List PathName) (entry : PathName × EntryKind) :
    Except OsError (List (List PathName)) :=
  let path := dir ++ [entry.1]
  if entry.2 ≠ .file ∧ fs.isStaging (answered path) path then .ok []
  else if entry.2 = .dir then fs.listRecursive answered readDir base [] depth path
  else .ok [path]

theorem listRecursive_succ (base : List PathName) (depth : ℕ) (dir : List PathName) :
    fs.listRecursive answered readDir base [] (depth + 1) dir =
      (do
        let entries ← readDir dir
        let found ← entries.mapM (visit fs answered readDir base depth dir)
        .ok found.flatten) := by
  rw [FileSystem.listRecursive]
  rfl

theorem mem_entries (hanswers : Answers s readDir) {dir : List PathName}
    {entries : List (PathName × EntryKind)} (h : readDir dir = .ok entries) :
    s.node dir = some .dir ∧ (entries.map Prod.fst).Nodup ∧ ∀ name kind,
      (name, kind) ∈ entries ↔ ∃ n, s.node (dir ++ [name]) = some n ∧ kindOf n = kind := by
  have hdir : s.node dir = some .dir := by
    by_contra hne
    obtain ⟨e, he⟩ := (hanswers dir).2 hne
    rw [he] at h
    cases h
  obtain ⟨listed, ⟨hnodup, hlisted⟩, hread⟩ := (hanswers dir).1 hdir
  rw [hread] at h
  obtain rfl := Except.ok.inj h
  refine ⟨hdir, ?_, fun name kind ↦ ?_⟩
  · rw [List.map_map]
    exact hnodup
  · rw [List.mem_map]
    constructor
    · rintro ⟨⟨name', n⟩, hmem, heq⟩
      obtain ⟨rfl, rfl⟩ := Prod.mk.inj heq
      exact ⟨n, (hlisted _ _).mp hmem, rfl⟩
    · rintro ⟨n, hn, rfl⟩
      exact ⟨(name, n), (hlisted _ _).mpr hn, rfl⟩

theorem nodup_flatten {f : PathName × EntryKind → Except OsError (List (List PathName))}
    (dir : List PathName) {entries : List (PathName × EntryKind)}
    {parts : List (List (List PathName))} (h : entries.mapM f = .ok parts)
    (hf : ∀ entry ∈ entries, ∀ part, f entry = .ok part →
      part.Nodup ∧ ∀ path ∈ part, ∃ rest, path = dir ++ entry.1 :: rest)
    (hnodup : (entries.map Prod.fst).Nodup) : parts.flatten.Nodup := by
  induction entries generalizing parts with
  | nil =>
    obtain rfl := Except.ok.inj h
    exact nodup_nil
  | cons entry entries ih =>
    rw [mapM_cons] at h
    obtain ⟨part, hpart, h⟩ := bind_eq_ok.mp h
    obtain ⟨parts', hparts', h⟩ := bind_eq_ok.mp h
    obtain rfl := Except.ok.inj h
    obtain ⟨hhead, htail⟩ := forall_mem_cons.mp hf
    rw [map_cons, nodup_cons] at hnodup
    rw [flatten_cons, nodup_append]
    refine ⟨(hhead part hpart).1, ih hparts' htail hnodup.2, ?_⟩
    rintro path hpath _ hmem rfl
    obtain ⟨part', hpart', hmem⟩ := mem_flatten.mp hmem
    obtain ⟨entry', hentry', hother⟩ := mem_of_mapM_eq_ok hparts' hpart'
    obtain ⟨rest, rfl⟩ := (hhead part hpart).2 path hpath
    obtain ⟨rest', hrest'⟩ := (htail entry' hentry' part' hother).2 _ hmem
    have hname := (cons.inj (append_cancel_left hrest')).1
    exact hnodup.1 (List.mem_map.mpr ⟨entry', hentry', hname.symm⟩)

/-- An entry shows what lies on its path or below, if the walk does so below it. -/
theorem mem_visit (hlinks : fs.NoLinks) {base dir : List PathName} {depth : ℕ}
    (ih : ∀ {dir : List PathName} {found : List (List PathName)},
      fs.listRecursive answered readDir base [] depth dir = .ok found →
        found.Nodup ∧ ∀ path, path ∈ found ↔ ∃ rest, path = dir ++ rest ∧ Shown s dir rest)
    {name : PathName} {n : FileTree.Node File} (hn : s.node (dir ++ [name]) = some n)
    {part : List (List PathName)}
    (hpart : visit fs answered readDir base depth dir (name, kindOf n) = .ok part) :
    part.Nodup ∧ ∀ path, path ∈ part ↔
      ∃ rest, path = dir ++ name :: rest ∧ Shown s dir (name :: rest) := by
  rw [visit] at hpart
  dsimp only at hpart
  rw [hlinks.isStaging_eq, List.getLast?_concat, any_some] at hpart
  simp only [shown_cons, hn]
  cases n with
  | file f =>
    obtain rfl := Except.ok.inj hpart
    refine ⟨nodup_singleton _, fun path ↦ ?_⟩
    rw [mem_singleton]
    constructor
    · rintro rfl
      exact ⟨[], rfl, .inl ⟨rfl, f, rfl⟩⟩
    · rintro ⟨rest, rfl, ⟨rfl, -⟩ | ⟨hno, -⟩⟩
      · rfl
      · cases hno
  | dir =>
    split at hpart
    · -- the staging directory's name: nothing is shown
      rename_i hstaging
      obtain rfl := Except.ok.inj hpart
      refine ⟨nodup_nil, fun path ↦ iff_of_false not_mem_nil ?_⟩
      rintro ⟨rest, -, ⟨-, f, hno⟩ | ⟨-, hname, -⟩⟩
      · cases hno
      · exact Bool.false_ne_true (hname.symm.trans hstaging.2)
    · rename_i hgo
      have hname : eqIgnoreAsciiCase name stagingDir = false :=
        Bool.eq_false_iff.mpr fun hstaging ↦ hgo ⟨nofun, hstaging⟩
      obtain ⟨hpartNodup, hpartMem⟩ := @ih (dir ++ [name]) _ hpart
      refine ⟨hpartNodup, fun path ↦ ?_⟩
      rw [hpartMem]
      constructor
      · rintro ⟨rest, rfl, hshown⟩
        exact ⟨rest, by rw [append_assoc, singleton_append], .inr ⟨rfl, hname, hshown⟩⟩
      · rintro ⟨rest, rfl, ⟨-, f, hno⟩ | ⟨-, -, hshown⟩⟩
        · cases hno
        · exact ⟨rest, by rw [append_assoc, singleton_append], hshown⟩

/-- **The walk shows what it reaches, each file once.** -/
theorem mem_listRecursive (hlinks : fs.NoLinks) (hanswers : Answers s readDir)
    {base dir : List PathName} {depth : ℕ} {found : List (List PathName)}
    (h : fs.listRecursive answered readDir base [] depth dir = .ok found) :
    found.Nodup ∧ ∀ path, path ∈ found ↔ ∃ rest, path = dir ++ rest ∧ Shown s dir rest := by
  induction depth generalizing dir found with
  | zero => cases h
  | succ depth ih =>
    rw [listRecursive_succ] at h
    obtain ⟨entries, hentries, h⟩ := bind_eq_ok.mp h
    obtain ⟨parts, hparts, h⟩ := bind_eq_ok.mp h
    obtain rfl := Except.ok.inj h
    obtain ⟨hdir, hnodup, hmem⟩ := mem_entries hanswers hentries
    have hspec : ∀ entry ∈ entries, ∀ part, visit fs answered readDir base depth dir entry =
        .ok part → part.Nodup ∧ ∀ path, path ∈ part ↔
          ∃ rest, path = dir ++ entry.1 :: rest ∧ Shown s dir (entry.1 :: rest) := by
      intro entry hentry part hpart
      obtain ⟨n, hn, hkind⟩ := (hmem _ _).mp hentry
      exact mem_visit hlinks ih hn (hkind ▸ hpart)
    refine ⟨nodup_flatten dir hparts (fun entry hentry part hpart ↦ ?_) hnodup, fun path ↦ ?_⟩
    · refine ⟨(hspec entry hentry part hpart).1, fun path hpath ↦ ?_⟩
      obtain ⟨rest, hrest, -⟩ := ((hspec entry hentry part hpart).2 path).mp hpath
      exact ⟨rest, hrest⟩
    · rw [mem_flatten]
      constructor
      · rintro ⟨part, hpart, hpath⟩
        obtain ⟨entry, hentry, hvisit⟩ := mem_of_mapM_eq_ok hparts hpart
        obtain ⟨rest, hrest, hshown⟩ := ((hspec entry hentry part hvisit).2 path).mp hpath
        exact ⟨entry.1 :: rest, hrest, hshown⟩
      · rintro ⟨rest, rfl, hshown⟩
        rcases rest with _ | ⟨name, rest⟩
        · obtain ⟨f, hf⟩ := hshown.1
          rw [append_nil, hdir] at hf
          cases hf
        · -- the first name is that of an entry
          have hthere : s.node (dir ++ [name]) ≠ none := by
            rcases shown_cons.mp hshown with ⟨-, f, hf⟩ | ⟨hf, -⟩ <;> rw [hf] <;> nofun
          obtain ⟨n, hn⟩ := Option.ne_none_iff_exists'.mp hthere
          have hentry := (hmem name (kindOf n)).mpr ⟨n, hn, rfl⟩
          obtain ⟨part, hpart, hvisit⟩ := exists_of_mapM_eq_ok hparts hentry
          exact ⟨part, hpart, ((hspec _ hentry part hvisit).2 _).mpr ⟨rest, rfl, hshown⟩⟩

theorem exists_listRecursive (hanswers : Answers s readDir)
    {base dir : List PathName} (hdir : s.node dir = some .dir) {depth : ℕ}
    (hdepth : ∀ path, s.node path ≠ none → path.length < dir.length + depth) :
    ∃ found, fs.listRecursive answered readDir base [] depth dir = .ok found := by
  induction depth generalizing dir with
  | zero => exact absurd (hdepth dir (by rw [hdir]; nofun)) (lt_irrefl _)
  | succ depth ih =>
    obtain ⟨listed, -, hread⟩ := (hanswers dir).1 hdir
    rw [listRecursive_succ, hread]
    generalize hentries : listed.map (fun entry ↦ (entry.1, kindOf entry.2)) = entries
    rw [hentries] at hread
    obtain ⟨-, -, hmem⟩ := mem_entries hanswers hread
    rcases hparts : entries.mapM (visit fs answered readDir base depth dir) with e | parts
    · obtain ⟨⟨name, kind⟩, hentry, herror⟩ := exists_of_mapM_eq_error hparts
      obtain ⟨n, hn, rfl⟩ := (hmem _ _).mp hentry
      rw [visit] at herror
      dsimp only at herror
      split at herror
      · cases herror
      · cases n with
        | file f => cases herror
        | dir =>
          obtain ⟨found, hfound⟩ := ih hn fun path hpath ↦ by
            have := hdepth path hpath
            rw [length_append, length_singleton]
            omega
          exact absurd (hfound.symm.trans herror) nofun
    · exact ⟨parts.flatten, bind_eq_ok.mpr ⟨entries, rfl,
        bind_eq_ok.mpr ⟨parts, hparts, rfl⟩⟩⟩

end Walk

/-! ## Names -/

def SafeName (name : PathName) : Prop := IsName name ∧ '\\' ∉ name

theorem isTraversalSafePath_iff {text : String} :
    isTraversalSafePath text = true ↔ ∀ name ∈ text.toList.splitOn '/', SafeName name := by
  constructor
  · intro h name hname
    refine ⟨FileSystem.isName_of_safe h name hname, ?_⟩
    rw [isTraversalSafePath, Bool.not_eq_true', List.any_eq_false] at h
    have hsegment := h name hname
    simp only [Bool.or_eq_true, decide_eq_true_eq, not_or] at hsegment
    exact hsegment.2
  · intro h
    rw [isTraversalSafePath, Bool.not_eq_true', List.any_eq_false]
    intro name hname
    obtain ⟨⟨-, hcomponent⟩, hback⟩ := h name hname
    simp only [Bool.or_eq_true, decide_eq_true_eq, not_or]
    refine ⟨⟨⟨?_, ?_⟩, ?_⟩, hback⟩ <;>
    · rintro rfl
      cases hcomponent

theorem join_eq_intercalate (sep : List Char) (l : List (List Char)) :
    join sep l = sep.intercalate l := by
  fun_induction join sep l with
  | case1 => rfl
  | case2 x => exact intercalate_singleton.symm
  | case3 x l hne ih =>
    obtain ⟨y, l, rfl⟩ := exists_cons_of_ne_nil fun h ↦ hne h
    rw [intercalate_cons_cons, ih, append_assoc]

theorem splitOn_join {names : List PathName} (hne : names ≠ [])
    (h : ∀ name ∈ names, '/' ∉ name) : (join ['/'] names).splitOn '/' = names := by
  rw [join_eq_intercalate]
  exact splitOn_intercalate '/' h hne

theorem join_splitOn (text : List Char) : join ['/'] (text.splitOn '/') = text := by
  rw [join_eq_intercalate]
  exact intercalate_splitOn '/'

theorem splitOn_object (folder key : String) :
    (folder ++ "/" ++ key).toList.splitOn '/' =
      folder.toList.splitOn '/' ++ key.toList.splitOn '/' := by
  have htext : (folder ++ "/" ++ key).toList = folder.toList ++ '/' :: key.toList := by
    rw [String.toList_append, String.toList_append, append_assoc]
    rfl
  rw [htext, splitOn_append_cons_self]

/-! ## Runs -/

inductive Call (β : Type)
  | put (folder key : String) (body : Body β) (pid seq : ℕ) (now : ℤ)
  | delete (folder key : String)
  | createFolder (name : String)
  | deleteFolder (name : String)

def Call.run (fs : FileSystem) (identified : Bool) (s : Files) :
    Call β → Except (StorageError β) Files
  | .put folder key body pid seq now => LocalStorage.put fs identified s pid seq folder key body now
  | .delete folder key => LocalStorage.delete fs identified s folder key
  | .createFolder name => LocalStorage.createFolder fs identified s name
  | .deleteFolder name => LocalStorage.deleteFolder fs identified s name

def Call.Safe : Call β → Prop
  | .put folder key .. | .delete folder key => isTraversalSafePath (folder ++ "/" ++ key) = true
  | .createFolder name | .deleteFolder name => isTraversalSafePath name = true

/-- The root as `LocalStorageService::new` leaves it where nothing was before. -/
def freshRoot : Files where
  node path := if path = [] ∨ path = [stagingDir] then some .dir else none
  root := rfl
  closed path name h := by
    split at h
    · rename_i hpath
      rcases hpath with hpath | hpath
      · exact absurd hpath (by simp)
      · rw [← nil_append [stagingDir]] at hpath
        rw [(List.append_inj' hpath rfl).1]
        rfl
    · exact absurd rfl h
  finite := (Set.toFinite {[], [stagingDir]}).subset fun path h ↦ by
    by_contra hnot
    exact h (if_neg fun hpath ↦ hnot hpath)

inductive Runs (fs : FileSystem) : List (Call β) → Files → Prop
  | fresh : Runs fs [] freshRoot
  | call {calls : List (Call β)} {c : Call β} {identified : Bool} {s s' : Files}
    (hbefore : Runs fs calls s) (hsafe : c.Safe) (hrun : c.run fs identified s = .ok s') :
    Runs fs (calls ++ [c]) s'

def Tidy (s : Files) : Prop := ∀ path, s.node path ≠ none → ∀ name ∈ path, SafeName name

theorem safeName_stagingDir : SafeName stagingDir := ⟨⟨by decide, by decide⟩, by decide⟩

theorem tidy_freshRoot : Tidy freshRoot := by
  intro path hpath name hname
  change (if path = [] ∨ path = [stagingDir] then _ else none) ≠ none at hpath
  split at hpath
  · rename_i h
    rcases h with rfl | rfl
    · cases hname
    · rw [mem_singleton.mp hname]
      exact safeName_stagingDir
  · exact absurd rfl hpath

theorem Tidy.makeDirs {s s' : Files} (h : Tidy s) (hpath : ∀ name ∈ path, SafeName name)
    (hmake : s.makeDirs [] path = .ok s') : Tidy s' := by
  intro q hq name hname
  rw [FileTree.Tree.node_makeDirs s.root hmake] at hq
  split at hq
  · rename_i hbelow
    exact hpath name (hbelow.2.subset hname)
  · exact h q hq name hname

theorem Tidy.of_pruned {s s' : Files} (h : Tidy s)
    (hnode : ∀ q, s'.node q = if path <+: q then none else s.node q) : Tidy s' := by
  intro q hq name hname
  rw [hnode] at hq
  split at hq
  · exact absurd rfl hq
  · exact h q hq name hname

theorem Tidy.atomicWrite {s s' : Files} (h : Tidy s) {tmp : List PathName} {body : Body β} {now : ℤ}
    (hpath : ∀ name ∈ path, SafeName name) (hwrite : atomicWrite s path tmp body now = .ok s') :
    Tidy s' := by
  obtain ⟨s₁, hdirs, hwrite⟩ := bind_eq_ok.mp hwrite
  obtain ⟨s₂, hstaging, hwrite⟩ := bind_eq_ok.mp hwrite
  obtain ⟨s₃, hcreate, hwrite⟩ := bind_eq_ok.mp hwrite
  obtain ⟨data, -, hwrite⟩ := bind_eq_ok.mp hwrite
  obtain ⟨s₄, hfill, hrename⟩ := bind_eq_ok.mp hwrite
  have h₁ : Tidy s₁ := h.makeDirs (fun name hname ↦ hpath name (mem_of_mem_dropLast hname))
    (mapError_eq_ok.mp hdirs)
  have h₂ : Tidy s₂ := h₁.makeDirs (fun name hname ↦ by
    rw [mem_singleton.mp hname]
    exact safeName_stagingDir) (mapError_eq_ok.mp hstaging)
  obtain ⟨-, -, hcreate⟩ := FileTree.Tree.place_eq_ok (mapError_eq_ok.mp hcreate)
  obtain ⟨-, -, hfill⟩ := FileTree.Tree.place_eq_ok (mapError_eq_ok.mp hfill)
  obtain ⟨data, -, hnode⟩ := FileTree.Tree.rename_eq_ok (mapError_eq_ok.mp hrename)
  intro q hq name hname
  rw [hnode] at hq
  split at hq
  · rename_i heq
    exact hpath name (heq ▸ hname)
  · split at hq
    · exact absurd rfl hq
    · -- the temp file is gone, the rest was there before
      rename_i hprefix
      have hne : q ≠ tmp := fun heq ↦ hprefix (heq ▸ prefix_rfl)
      rw [hfill, Function.update_of_ne hne, hcreate, Function.update_of_ne hne] at hq
      exact h₂ q hq name hname

theorem safe_of_objectAt (hroot : fs.Canonical) {folder : String}
    (hsafe : isTraversalSafePath (folder ++ "/" ++ key) = true)
    (h : objectAt (β := β) fs identified folder key = .ok path) :
    ∀ name ∈ path, SafeName name := by
  rw [FileSystem.eq_splitOn_of_validatePath hroot hsafe h]
  exact isTraversalSafePath_iff.mp hsafe

theorem safe_of_folderAt (hroot : fs.Canonical) {folder : String}
    (hsafe : isTraversalSafePath folder = true)
    (h : folderAt (β := β) fs identified folder = .ok path) : ∀ name ∈ path, SafeName name := by
  rw [folderAt, FileSystem.validatePath_folder hroot identified hsafe] at h
  split at h
  · cases h
  · rw [← Except.ok.inj h]
    exact isTraversalSafePath_iff.mp hsafe

theorem Tidy.call (hroot : fs.Canonical) {s s' : Files} (h : Tidy s) {c : Call β} (hsafe : c.Safe)
    (hrun : c.run fs identified s = .ok s') : Tidy s' := by
  cases c with
  | put folder key body pid seq now =>
    obtain ⟨path, hpath, hwrite⟩ := bind_eq_ok.mp hrun
    exact h.atomicWrite (safe_of_objectAt hroot hsafe hpath) hwrite
  | delete folder key =>
    obtain ⟨path, -, hrun⟩ := bind_eq_ok.mp hrun
    obtain ⟨_, -, hremove⟩ := bind_eq_ok.mp hrun
    exact h.of_pruned (FileTree.Tree.removeFile_eq_ok (mapError_eq_ok.mp hremove)).2
  | createFolder name =>
    obtain ⟨path, hpath, hmake⟩ := bind_eq_ok.mp hrun
    exact h.makeDirs (safe_of_folderAt hroot hsafe hpath) (mapError_eq_ok.mp hmake)
  | deleteFolder name =>
    obtain ⟨path, -, hrun⟩ := bind_eq_ok.mp hrun
    obtain ⟨_, -, hremove⟩ := bind_eq_ok.mp hrun
    exact h.of_pruned (FileTree.Tree.removeDirAll_eq_ok (mapError_eq_ok.mp hremove)).2

theorem Runs.tidy (hroot : fs.Canonical) {calls : List (Call β)} {s : Files}
    (h : Runs fs calls s) : Tidy s := by
  induction h with
  | fresh => exact tidy_freshRoot
  | call _ hsafe hrun ih => exact ih.call hroot hsafe hrun

/-! ## Listing everything -/

/-- An answer to `get` that finds an object: it is returned, or refused for its size. -/
def IsFound (answer : Except (StorageError β) (Content × ObjectInfo)) : Prop :=
  (∃ object, answer = .ok object) ∨ ∃ path len, answer = .error (.tooLarge path len)

/-- `get` finds an object. -/
def Finds (fs : FileSystem) (identified : Bool) (guess : String → String)
    (dirLen : List PathName → ℕ) (β : Type) (s : Files) (folder key : String) : Prop :=
  IsFound (get (β := β) fs identified guess dirLen s folder key)

/-- Options without a limit and with an empty prefix, from the first object on. -/
structure Everything (opts : ListOptions) : Prop where
  pre : opts.pre = ""
  limit : opts.limit ≤ 0
  start : opts.cursor = none ∧ opts.offset = 0 ∨ opts.cursor = some ""

theorem found_readObject_iff (hdirLen : ∀ path, dirLen path ≤ maxObjectBytes) :
    IsFound (readObject (β := β) guess dirLen s path key) ↔ ∃ f, s.node path = some (.file f) := by
  rw [readObject]
  cases hstat : s.stat path with
  | error e =>
    have hmissing : missingOr (β := β) .metadata (osError e) = .notFound ∨
        missingOr (β := β) .metadata (osError e) = .internal .metadata (osError e) := ite_eq_or_eq ..
    refine iff_of_false ?_ ?_
    · rintro (⟨_, h⟩ | ⟨_, _, h⟩)
      · cases h
      · rcases hmissing with hm | hm <;> exact absurd (hm.symm.trans (Except.error.inj h)) nofun
    · rintro ⟨f, hf⟩
      rw [FileTree.Tree.stat_eq_ok.mpr hf] at hstat
      cases hstat
  | ok n =>
    rw [FileTree.Tree.stat_eq_ok] at hstat
    rw [hstat]
    cases n with
    | dir =>
      dsimp only
      rw [if_neg (not_lt.mpr (hdirLen path))]
      refine iff_of_false ?_ (fun ⟨_, h⟩ ↦ nomatch h)
      rintro (⟨_, h⟩ | ⟨_, _, h⟩) <;> cases h
    | file f =>
      refine iff_of_true ?_ ⟨f, rfl⟩
      dsimp only
      split
      · exact .inr ⟨_, _, rfl⟩
      · exact .inl ⟨_, rfl⟩

theorem finds_iff (hroot : fs.Canonical) (hlinks : fs.NoLinks)
    (hdirLen : ∀ path, dirLen path ≤ maxObjectBytes) {folder : String}
    (hsafe : isTraversalSafePath (folder ++ "/" ++ key) = true) :
    Finds fs identified guess dirLen β s folder key ↔
      (∀ first ∈ (folder.toList.splitOn '/').head?, eqIgnoreAsciiCase first stagingDir = false) ∧
        ∃ f, s.node (folder.toList.splitOn '/' ++ key.toList.splitOn '/') = some (.file f) := by
  obtain ⟨first, rest, hfolder⟩ :=
    exists_cons_of_ne_nil (splitOn_ne_nil '/' folder.toList)
  rw [Finds, get, objectAt, FileSystem.validatePath_safe hroot identified hsafe, splitOn_object,
    hfolder, cons_append, List.head?_cons, List.head?_cons, any_some,
    hlinks.isStaging_eq, List.getLast?_singleton, any_some]
  simp only [mem_def, Option.some.injEq, forall_eq']
  cases eqIgnoreAsciiCase first stagingDir with
  | true =>
    refine iff_of_false ?_ (fun h ↦ Bool.noConfusion h.1)
    rintro (⟨_, h⟩ | ⟨_, _, h⟩) <;> cases h
  | false =>
    rw [and_iff_right rfl]
    exact found_readObject_iff hdirLen

theorem listCollected_everything (texts : DecoderTexts) (collected : List ObjectInfo)
    {opts : ListOptions} (h : Everything opts) :
    listCollected (β := β) texts collected opts =
      .ok ⟨sortByKey collected, (sortByKey collected).length, none⟩ := by
  have hstart : startIndex (β := β) texts (sortByKey collected) opts = .ok 0 := by
    rcases h.start with ⟨hcursor, hoffset⟩ | hcursor
    · rw [startIndex, hcursor, hoffset]
      exact congrArg Except.ok (Nat.zero_min _)
    · rw [startIndex, hcursor]
      rfl
  rw [listCollected, hstart, Except.map, pageFrom]
  simp only [if_neg (not_lt.mpr h.limit), Nat.zero_add, Nat.min_self, Nat.sub_zero, drop_zero,
    take_length, lt_irrefl, and_false, if_false]

variable {answered : List PathName → Bool}
  {readDir : List PathName → Except OsError (List (PathName × EntryKind))}

theorem dir_of_listRecursive (hanswers : Answers s readDir) {base dir : List PathName} {depth : ℕ}
    {found : List (List PathName)}
    (h : fs.listRecursive answered readDir base [] depth dir = .ok found) :
    s.node dir = some .dir := by
  cases depth with
  | zero => cases h
  | succ depth =>
    rw [listRecursive_succ] at h
    obtain ⟨entries, hentries, -⟩ := bind_eq_ok.mp h
    exact (mem_entries hanswers hentries).1

theorem splitOn_key (htidy : Tidy s) {dir rest : List PathName} (hdir : s.node dir = some .dir)
    (hshown : Shown s dir rest) : (join ['/'] rest).splitOn '/' = rest := by
  obtain ⟨⟨f, hf⟩, -⟩ := hshown
  refine splitOn_join ?_ fun name hname ↦ ?_
  · rintro rfl
    rw [append_nil, hdir] at hf
    cases hf
  · exact (htidy _ (by rw [hf]; nofun) name (mem_append_right _ hname)).1.1

theorem keys_of_found (hlinks : fs.NoLinks) (htidy : Tidy s) (hanswers : Answers s readDir)
    {dir : List PathName} {depth : ℕ} {found : List (List PathName)}
    (h : fs.listRecursive answered readDir dir [] depth dir = .ok found) :
    ((found.filterMap (objectInfo guess s dir)).map ObjectInfo.key).Nodup ∧
      ∀ key, key ∈ (found.filterMap (objectInfo guess s dir)).map ObjectInfo.key ↔
        Shown s dir (key.toList.splitOn '/') := by
  have hdir := dir_of_listRecursive hanswers h
  obtain ⟨hnodup, hmem⟩ := mem_listRecursive hlinks hanswers h
  have hkeys : (found.filterMap (objectInfo guess s dir)).map ObjectInfo.key =
      found.map fun path ↦ String.ofList (join ['/'] (path.drop dir.length)) := by
    rw [map_filterMap, ← filterMap_eq_map]
    refine filterMap_congr fun path hpath ↦ ?_
    obtain ⟨rest, rfl, ⟨f, hf⟩, -⟩ := (hmem path).mp hpath
    rw [objectInfo, hf]
    rfl
  rw [hkeys]
  constructor
  · refine hnodup.map_on fun path hpath path' hpath' heq ↦ ?_
    obtain ⟨rest, rfl, hshown⟩ := (hmem path).mp hpath
    obtain ⟨rest', rfl, hshown'⟩ := (hmem path').mp hpath'
    rw [drop_left, drop_left, String.ofList_inj] at heq
    rw [← splitOn_key htidy hdir hshown, heq, splitOn_key htidy hdir hshown']
  · intro key
    rw [List.mem_map]
    constructor
    · rintro ⟨path, hpath, rfl⟩
      obtain ⟨rest, rfl, hshown⟩ := (hmem path).mp hpath
      rwa [drop_left, String.toList_ofList, splitOn_key htidy hdir hshown]
    · intro hshown
      refine ⟨_, (hmem _).mpr ⟨_, rfl, hshown⟩, ?_⟩
      rw [drop_left, join_splitOn, String.ofList_toList]

/-- A listing of a folder shows exactly the keys that `get` finds in it, each once. -/
def Exact (fs : FileSystem) (identified identified' : Bool) (guess : String → String)
    (dirLen : List PathName → ℕ) (β : Type) (texts : DecoderTexts) (s : Files)
    (answered : List PathName → Bool)
    (readDir : List PathName → Except OsError (List (PathName × EntryKind))) (folder : String)
    (opts : ListOptions) : Prop :=
  ∃ levels, ∀ depth ≥ levels, ∃ answer,
    list (β := β) fs identified guess texts s answered readDir depth folder opts = .ok answer ∧
      (answer.objects.map ObjectInfo.key).Nodup ∧
      ∀ key, key ∈ answer.objects.map ObjectInfo.key ↔
        isTraversalSafePath (folder ++ "/" ++ key) = true ∧
          Finds fs identified' guess dirLen β s folder key

/-- What a folder must be like to be listed exactly: its path does not begin with the staging
directory, no object stands at it, and no object below it stands in a directory that has the name
of the staging directory. -/
structure Listable (s : Files) (folder : List PathName) : Prop where
  accepted : ∀ first ∈ folder.head?, eqIgnoreAsciiCase first stagingDir = false
  noObject : ∀ f, s.node folder ≠ some (.file f)
  plain : ∀ rest f, s.node (folder ++ rest) = some (.file f) →
    ∀ name ∈ rest.dropLast, eqIgnoreAsciiCase name stagingDir = false

section Folder

variable {identified' : Bool} {texts : DecoderTexts} {folder : String} {opts : ListOptions}

theorem folderAt_of_accepted (hroot : fs.Canonical) (hlinks : fs.NoLinks)
    (hsafe : isTraversalSafePath folder = true)
    (h : ∀ first ∈ (folder.toList.splitOn '/').head?,
      eqIgnoreAsciiCase first stagingDir = false) :
    folderAt (β := β) fs identified folder = .ok (folder.toList.splitOn '/') := by
  obtain ⟨first, rest, hfolder⟩ :=
    exists_cons_of_ne_nil (splitOn_ne_nil '/' folder.toList)
  rw [folderAt, FileSystem.validatePath_folder hroot identified hsafe, hfolder, List.head?_cons,
    any_some, hlinks.isStaging_eq, List.getLast?_singleton, any_some,
    h first (by rw [hfolder]; rfl)]
  rfl

theorem accepted_of_folderAt (hroot : fs.Canonical) (hlinks : fs.NoLinks)
    (hsafe : isTraversalSafePath folder = true) {dir : List PathName}
    (h : folderAt (β := β) fs identified folder = .ok dir) :
    dir = folder.toList.splitOn '/' ∧ ∀ first ∈ (folder.toList.splitOn '/').head?,
      eqIgnoreAsciiCase first stagingDir = false := by
  obtain ⟨first, rest, hfolder⟩ :=
    exists_cons_of_ne_nil (splitOn_ne_nil '/' folder.toList)
  rw [folderAt, FileSystem.validatePath_folder hroot identified hsafe, hfolder, List.head?_cons,
    any_some, hlinks.isStaging_eq, List.getLast?_singleton, any_some] at h
  split at h
  · cases h
  · rename_i hstaging
    refine ⟨(Except.ok.inj h).symm.trans hfolder.symm, fun name hname ↦ ?_⟩
    rw [hfolder, List.head?_cons, mem_some_iff] at hname
    exact hname ▸ Bool.eq_false_iff.mpr hstaging

theorem dir_of_finds {dir : List PathName}
    (h : ∃ f, s.node (dir ++ key.toList.splitOn '/') = some (.file f)) :
    s.node dir = some .dir := by
  obtain ⟨f, hf⟩ := h
  exact FileTree.Tree.node_of_append (splitOn_ne_nil _ _) (by rw [hf]; nofun)

theorem list_of_dir {dir : List PathName} (hfolder : folderAt (β := β) fs identified folder = .ok dir)
    (hdir : s.node dir = some .dir) {depth : ℕ} (hpre : opts.pre = "") :
    list (β := β) fs identified guess texts s answered readDir depth folder opts =
      ((fs.listRecursive answered readDir dir [] depth dir).mapError (.internal .readDir)).bind
        fun found ↦ listCollected texts (found.filterMap (objectInfo guess s dir)) opts := by
  rw [list, hfolder, hpre]
  exact if_neg (by rw [hdir]; nofun)

theorem shown_iff_of_listable {dir : List PathName} (h : Listable s dir)
    {rest : List PathName} : Shown s dir rest ↔ ∃ f, s.node (dir ++ rest) = some (.file f) :=
  ⟨fun hshown ↦ hshown.1, fun ⟨f, hf⟩ ↦ ⟨⟨f, hf⟩, h.plain rest f hf⟩⟩

theorem safe_object (htidy : Tidy s)
    (h : ∃ f, s.node (folder.toList.splitOn '/' ++ key.toList.splitOn '/') = some (.file f)) :
    isTraversalSafePath (folder ++ "/" ++ key) = true := by
  obtain ⟨f, hf⟩ := h
  rw [isTraversalSafePath_iff, splitOn_object]
  exact htidy _ (by rw [hf]; nofun)

variable (hroot : fs.Canonical) (hlinks : fs.NoLinks)
  (hdirLen : ∀ path, dirLen path ≤ maxObjectBytes) (htidy : Tidy s) (hanswers : Answers s readDir)
  (hopts : Everything opts) (hsafe : isTraversalSafePath folder = true)

include hroot hlinks hdirLen htidy hanswers hopts hsafe

theorem Listable.exact (h : Listable s (folder.toList.splitOn '/')) :
    Exact fs identified identified' guess dirLen β texts s answered readDir folder opts := by
  have hfolder : folderAt (β := β) fs identified folder = .ok (folder.toList.splitOn '/') :=
    folderAt_of_accepted hroot hlinks hsafe h.accepted
  obtain ⟨height, hheight⟩ := s.exists_height
  refine ⟨height + 1, fun depth hdepth ↦ ?_⟩
  cases hnode : s.node (folder.toList.splitOn '/') with
  | none =>
    refine ⟨⟨[], 0, none⟩, ?_, nodup_nil, fun key ↦ iff_of_false not_mem_nil ?_⟩
    · rw [list, hfolder]
      exact if_pos hnode
    · rintro ⟨hkey, hfinds⟩
      have hdir := dir_of_finds ((finds_iff hroot hlinks hdirLen hkey).mp hfinds).2
      rw [hnode] at hdir
      cases hdir
  | some n =>
    cases n with
    | file f => exact absurd hnode (h.noObject f)
    | dir =>
      have hdepth : ∀ path, s.node path ≠ none →
          path.length < (folder.toList.splitOn '/').length + depth := by
        intro path hpath
        have := hheight path hpath
        omega
      obtain ⟨found, hfound⟩ := @exists_listRecursive fs s answered readDir hanswers
        (folder.toList.splitOn '/') _ hnode depth hdepth
      obtain ⟨hnodup, hkeys⟩ := @keys_of_found fs guess s answered readDir hlinks htidy hanswers _ _ _
        hfound
      have hlist : list (β := β) fs identified guess texts s answered readDir depth folder opts =
          listCollected texts
            (found.filterMap (objectInfo guess s (folder.toList.splitOn '/'))) opts := by
        rw [list_of_dir hfolder hnode hopts.pre, mapError_eq_ok.mpr hfound]
        rfl
      refine ⟨_, hlist.trans (listCollected_everything texts _ hopts), ?_, fun key ↦ ?_⟩
      · exact ((sortByKey_perm _).map _).nodup_iff.mpr hnodup
      · rw [((sortByKey_perm _).map _).mem_iff, hkeys, shown_iff_of_listable h]
        constructor
        · intro hfile
          have hkey := safe_object htidy hfile
          exact ⟨hkey, (finds_iff hroot hlinks hdirLen hkey).mpr ⟨h.accepted, hfile⟩⟩
        · rintro ⟨hkey, hfinds⟩
          exact ((finds_iff hroot hlinks hdirLen hkey).mp hfinds).2

theorem Exact.listable
    (h : Exact fs identified identified' guess dirLen β texts s answered readDir folder opts) :
    Listable s (folder.toList.splitOn '/') := by
  obtain ⟨levels, h⟩ := h
  obtain ⟨answer, hlist, -, hkeys⟩ := h levels le_rfl
  obtain ⟨dir, hfolder, hrun⟩ := bind_eq_ok.mp hlist
  obtain ⟨rfl, haccepted⟩ := accepted_of_folderAt hroot hlinks hsafe hfolder
  -- whatever stands below the folder is shown, so the folder is a directory that was walked
  have hshown : s.node (folder.toList.splitOn '/') ≠ none →
      s.node (folder.toList.splitOn '/') = some .dir ∧
        ∀ key : String, (∃ f, s.node (folder.toList.splitOn '/' ++ key.toList.splitOn '/') =
          some (.file f)) → Shown s (folder.toList.splitOn '/') (key.toList.splitOn '/') := by
    intro hthere
    obtain ⟨found, hfound, hcollected⟩ :=
      bind_eq_ok.mp ((if_neg hthere).symm.trans hrun)
    rw [hopts.pre] at hfound
    have hfound := mapError_eq_ok.mp hfound
    refine ⟨dir_of_listRecursive hanswers hfound, fun key hfile ↦ ?_⟩
    have hkey := safe_object htidy hfile
    have hmem := (hkeys key).mpr
      ⟨hkey, (finds_iff hroot hlinks hdirLen hkey).mpr ⟨haccepted, hfile⟩⟩
    rw [listCollected_everything texts _ hopts] at hcollected
    rw [← Except.ok.inj hcollected, ((sortByKey_perm _).map _).mem_iff] at hmem
    exact ((keys_of_found hlinks htidy hanswers hfound).2 key).mp hmem
  refine ⟨haccepted, fun f hf ↦ ?_, fun rest f hf ↦ ?_⟩
  · rw [hf] at hshown
    exact absurd (hshown nofun).1 nofun
  · rcases eq_or_ne rest [] with rfl | hrest
    · exact fun _ hname ↦ absurd hname not_mem_nil
    · have hdir := FileTree.Tree.node_of_append hrest (show s.node _ ≠ none by rw [hf]; nofun)
      have hsplit : (join ['/'] rest).splitOn '/' = rest := splitOn_join hrest fun name hname ↦
        (htidy _ (by rw [hf]; nofun) name (mem_append_right _ hname)).1.1
      have hrest := (hshown (by rw [hdir]; nofun)).2 (.ofList (join ['/'] rest))
      rw [String.toList_ofList, hsplit] at hrest
      exact (hrest ⟨f, hf⟩).2

end Folder

/-- **What the listing shows is what is stored, unless something is stored under the staging
directory's name.** After every run of successful calls with safe names, a listing of a folder
without limit and prefix shows exactly the keys that `get` finds in the folder, each once, if and
only if the folder is not the staging directory, no object stands at its own path, and no object
below it stands in a directory that has the name of the staging directory in some case. -/
theorem listing_exact_iff (hroot : fs.Canonical) (hlinks : fs.NoLinks)
    (hdirLen : ∀ path, dirLen path ≤ maxObjectBytes) {calls : List (Call β)}
    (hrun : Runs fs calls s) (hanswers : Answers s readDir) (identified identified' : Bool)
    (texts : DecoderTexts) {opts : ListOptions} (hopts : Everything opts) {folder : String}
    (hsafe : isTraversalSafePath folder = true) :
    Exact fs identified identified' guess dirLen β texts s answered readDir folder opts ↔
      Listable s (folder.toList.splitOn '/') :=
  ⟨fun h ↦ h.listable hroot hlinks hdirLen (hrun.tidy hroot) hanswers hopts hsafe,
    fun h ↦ h.exact hroot hlinks hdirLen (hrun.tidy hroot) hanswers hopts hsafe⟩

/-! ## An object that is not listed -/

theorem exists_answers (s : Files) : ∃ readDir, Answers s readDir := by
  choose entries hentries using s.exists_lists
  refine ⟨fun dir ↦ if s.node dir = some .dir then
    .ok ((entries dir).map fun entry ↦ (entry.1, kindOf entry.2)) else .error (osError .notDirectory),
    fun dir ↦ ⟨fun hdir ↦ ⟨entries dir, hentries dir, if_pos hdir⟩, fun hdir ↦ ⟨_, if_neg hdir⟩⟩⟩

def storeOne (key : String) : Call Empty := .put "docs" key [.ok [1]] 7 0 0

theorem exists_stored (key : String) (hsafe : isTraversalSafePath ("docs" ++ "/" ++ key) = true)
    (hput : ((storeOne key).run oneFolder true freshRoot).map
      (fun s ↦ s.node ("docs".toList :: key.toList.splitOn '/')) =
        .ok (some (.file ⟨[1], 0⟩))) :
    ∃ s, Runs oneFolder [storeOne key] s ∧
      s.node ("docs".toList :: key.toList.splitOn '/') = some (.file ⟨[1], 0⟩) := by
  obtain ⟨s, hs, hnode⟩ := map_eq_ok.mp hput
  exact ⟨s, .call .fresh hsafe hs, hnode⟩

/-- No limit, no prefix, no cursor. -/
def noOptions : ListOptions := ⟨"", 0, 0, none⟩

theorem everything_noOptions : Everything noOptions := ⟨rfl, le_rfl, .inl ⟨rfl, rfl⟩⟩

/-- One object, and a listing that shows it. -/
theorem listing_exact_iff_one : ∃ s readDir, Runs oneFolder [storeOne "a"] s ∧ Answers s readDir ∧
    s.node ["docs".toList, "a".toList] = some (.file ⟨[1], 0⟩) ∧
    (Exact oneFolder true true id (fun _ ↦ 4096) Empty ⟨id, id⟩ s (fun _ ↦ true) readDir "docs"
      noOptions ↔ Listable s ["docs".toList]) := by
  obtain ⟨s, hruns, hnode⟩ := exists_stored "a" (by decide) (by decide +kernel)
  obtain ⟨readDir, hanswers⟩ := exists_answers s
  have hsafe : isTraversalSafePath "docs" = true := by decide
  exact ⟨s, readDir, hruns, hanswers, hnode,
    listing_exact_iff canonical_oneFolder noLinks_oneFolder (fun _ ↦ by decide) hruns hanswers true
      true ⟨id, id⟩ everything_noOptions hsafe⟩

/-- The key `.wafer-staging/x` of a folder is stored and found, but a listing does not show it. -/
theorem listing_not_exact : ¬∀ (fs : FileSystem) (calls : List (Call Empty)) (s : Files)
    (readDir : List PathName → Except OsError (List (PathName × EntryKind))) (folder : String),
    fs.Canonical → fs.NoLinks → Runs fs calls s → Answers s readDir →
      isTraversalSafePath folder = true →
        Exact fs true true id (fun _ ↦ 4096) Empty ⟨id, id⟩ s (fun _ ↦ true) readDir folder
          noOptions := by
  intro h
  obtain ⟨s, hruns, hnode⟩ := exists_stored ".wafer-staging/x" (by decide) (by decide +kernel)
  obtain ⟨readDir, hanswers⟩ := exists_answers s
  have hlistable := (h oneFolder _ s readDir "docs" canonical_oneFolder noLinks_oneFolder hruns
    hanswers (by decide)).listable canonical_oneFolder noLinks_oneFolder (fun _ ↦ by decide)
      (hruns.tidy canonical_oneFolder) hanswers everything_noOptions (by decide)
  have hplain := hlistable.plain [stagingDir, "x".toList] ⟨[1], 0⟩ hnode stagingDir
    mem_cons_self
  exact absurd hplain (by decide)

end WaferRun.LocalStorage

import WaferRun.Storage.WholeObjects
import WaferRun.Wrap.Ownership

/-!
# Accepted paths are confined

A folder and a key are joined onto the root as texts; an absolute one replaces what it is joined to.
The components of the result are normalised and only then compared with the root and with the
staging directory. Whatever the texts are, what is accepted lies under the root and outside of the
staging directory, under any case of its name (`validatePath_confined`).

Access control reads the folder and the key as they are written. For texts it takes for safe both
readings are one: nothing is normalised away, and the accepted path is the root, the folder and the
key with slashes between them (`validatePath_safe`).
-/

open List

namespace WaferRun

open Text

/-! ## Components -/

/-- A name a directory can hold, and not one of the dots. -/
def IsName (name : PathName) : Prop := '/' ∉ name ∧ component name = some (.normal name)

theorem IsName.ne_nil {name : PathName} (h : IsName name) : name ≠ [] := by
  rintro rfl
  cases h.2

def slashed (names : List PathName) : List Char := names.flatMap fun name ↦ '/' :: name

theorem slashed_append (names names' : List PathName) :
    slashed (names ++ names') = slashed names ++ slashed names' := flatMap_append

theorem splitOn_append_slashed {w : List Char} (hw : '/' ∉ w) {names : List PathName}
    (h : ∀ name ∈ names, '/' ∉ name) : (w ++ slashed names).splitOn '/' = w :: names := by
  induction names generalizing w with
  | nil => rw [slashed, flatMap_nil, append_nil, splitOn_eq_singleton hw]
  | cons name names ih =>
    obtain ⟨hname, hnames⟩ := forall_mem_cons.mp h
    rw [slashed, flatMap_cons, cons_append, splitOn_append_cons_self_of_not_mem hw,
      ← slashed, ih hname hnames]

theorem slashed_splitOn (text : List Char) : slashed (text.splitOn '/') = '/' :: text := by
  induction text with
  | nil => rfl
  | cons c text ih =>
    rw [splitOn_cons_eq_if_modifyHead]
    obtain ⟨x, xs, hs⟩ := exists_cons_of_ne_nil (splitOn_ne_nil '/' text)
    rw [hs] at ih ⊢
    rw [slashed, flatMap_cons, cons_append] at ih
    split
    · rename_i hc
      rw [slashed, flatMap_cons, flatMap_cons, cons_append, nil_append,
        cons_append, ih, beq_iff_eq.mp hc]
    · rw [modifyHead_cons, slashed, flatMap_cons, cons_append, cons_append,
        (cons.inj ih).2]

theorem splitOn_injective {s t : List Char} (h : s.splitOn '/' = t.splitOn '/') : s = t := by
  have hslashed := congrArg slashed h
  rw [slashed_splitOn, slashed_splitOn] at hslashed
  exact (cons.inj hslashed).2

theorem nil_mem_splitOn {text : List Char} (h : text.head? = some '/') : [] ∈ text.splitOn '/' := by
  obtain ⟨text', rfl⟩ := List.head?_eq_some_iff.mp h
  rw [splitOn_cons_eq_if_modifyHead, if_pos (by simp)]
  exact mem_cons_self

theorem components_slash_cons (text : List Char) :
    components ('/' :: text) = .rootDir :: (('/' :: text).splitOn '/').filterMap component := rfl

theorem component_ne_rootDir {piece : List Char} {c : Component} (h : component piece = some c) :
    c = .parentDir ∨ ∃ name, c = .normal name := by
  unfold component at h
  split at h
  · cases h
  · split at h
    · cases h
    · split at h
      · exact .inl (Option.some.inj h).symm
      · exact .inr ⟨piece, (Option.some.inj h).symm⟩

theorem components_slashed {names : List PathName} (hne : names ≠ []) (h : ∀ n ∈ names, IsName n) :
    components (slashed names) = .rootDir :: names.map .normal := by
  obtain ⟨name, rest, rfl⟩ := exists_cons_of_ne_nil hne
  have hsplit : (slashed (name :: rest)).splitOn '/' = [] :: name :: rest :=
    splitOn_append_slashed not_mem_nil fun n hn ↦ (h n hn).1
  have hnames : (name :: rest).filterMap component = (name :: rest).map .normal := by
    rw [← filterMap_eq_map]
    exact filterMap_congr fun n hn ↦ (h n hn).2
  change Component.rootDir :: ((slashed (name :: rest)).splitOn '/').filterMap component = _
  rw [hsplit, filterMap_cons_none rfl, hnames]

theorem normalizeFrom_names (out : List Component) (names : List PathName) :
    normalizeFrom out (names.map .normal) = some (out ++ names.map .normal) := by
  induction names generalizing out with
  | nil => rw [map_nil, normalizeFrom, append_nil]
  | cons name names ih =>
    rw [map_cons, normalizeFrom, ih, append_assoc, singleton_append]
    · nofun
    · nofun

theorem exists_names_of_normalizeFrom {cs : List Component} {names : List PathName}
    {normalized : List Component} (hcs : ∀ c ∈ cs, c = .parentDir ∨ ∃ name, c = .normal name)
    (h : normalizeFrom (.rootDir :: names.map .normal) cs = some normalized) :
    ∃ names' : List PathName, normalized = .rootDir :: names'.map .normal := by
  induction cs generalizing names with
  | nil => exact ⟨names, (Option.some.inj h).symm⟩
  | cons c cs ih =>
    obtain ⟨hc, htail⟩ := forall_mem_cons.mp hcs
    rcases hc with rfl | ⟨name, rfl⟩
    · -- a parent takes back the last name, if there is one
      rw [normalizeFrom] at h
      rcases eq_nil_or_concat names with rfl | ⟨front, last, rfl⟩
      · cases h
      · have hlast : (Component.rootDir :: (front.concat last).map .normal) =
            (.rootDir :: front.map .normal) ++ [.normal last] := by
          rw [concat_eq_append, map_append, map_singleton, cons_append]
        rw [hlast, List.getLast?_concat, dropLast_concat] at h
        exact ih htail h
    · rw [normalizeFrom, cons_append, ← map_singleton, ← map_append] at h
      · exact ih htail h
      · nofun
      · nofun

/-! ## Accepted paths -/

def Component.text : Component → List Char
  | .rootDir => ['/']
  | .curDir => ['.']
  | .parentDir => ['.', '.']
  | .normal name => name

def collectPath (cs : List Component) : List Char := cs.foldl (fun path c ↦ joinPath path c.text) []

namespace FileSystem

variable (fs : FileSystem) {β : Type}

/-- The path that `validate_path` normalises. -/
def absolutePath (path : List Char) : List Char :=
  if path.head? = some '/' then path else joinPath fs.rootPath path

def acceptedPath (path : List PathName) : List Char :=
  collectPath (fs.rootComponents ++ path.map .normal)

def Canonical : Prop := ∀ name ∈ fs.root, IsName name

/-- No links: no two paths lead to one directory, and names are kept as they are. -/
structure NoLinks : Prop where
  dirAt : ∀ p q d, fs.dirAt p = some d → fs.dirAt q = some d → p = q
  fold : ∀ name, fs.fold name = name

variable {fs}

theorem head?_rootPath : fs.rootPath.head? = some '/' := by
  unfold rootPath
  split
  · rfl
  · rename_i hne
    obtain ⟨name, rest, hroot⟩ := exists_cons_of_ne_nil hne
    rw [hroot]
    rfl

theorem head?_absolutePath (path : List Char) : (fs.absolutePath path).head? = some '/' := by
  unfold absolutePath
  split
  · rename_i h
    exact h
  · rename_i h
    obtain ⟨t, ht⟩ := List.head?_eq_some_iff.mp (@head?_rootPath fs)
    rw [joinPath, if_neg h, ht]
    split <;> rfl

/-- **Whatever is accepted is confined.** The normalised path is the root and names below it, the
first of which is not the name of the staging directory in any case of its letters. -/
theorem validatePath_confined {canonical : Except OsError Unit} {identified : Bool}
    {text : List Char} {path : List PathName}
    (h : fs.validatePath (β := β) canonical identified text = .ok path) :
    normalizeLexical (components (fs.absolutePath text)) =
        some (fs.rootComponents ++ path.map .normal) ∧
      ∀ first ∈ path.head?, eqIgnoreAsciiCase first stagingDir = false := by
  have hfirst : ∀ first ∈ path.head?, eqIgnoreAsciiCase first stagingDir = false := by
    intro first hfirst
    obtain ⟨rest, rfl⟩ := List.head?_eq_some_iff.mp hfirst
    have hstaging := not_isStaging_of_validatePath h
    rw [isStaging, Bool.or_eq_false_iff] at hstaging
    exact hstaging.1
  refine ⟨?_, hfirst⟩
  unfold validatePath at h
  split at h
  · cases h
  · dsimp only at h
    rw [← absolutePath] at h
    split at h
    · cases h
    · rename_i normalized hnormalized
      split at h
      · cases h
      · rename_i hroot
        split at h
        · cases h
        · -- what follows the root are names
          obtain ⟨text', htext⟩ := List.head?_eq_some_iff.mp (@head?_absolutePath fs text)
          have hcomponents := hnormalized
          rw [normalizeLexical, htext, components_slash_cons, normalizeFrom, nil_append] at hcomponents
          · obtain ⟨names, rfl⟩ := @exists_names_of_normalizeFrom _ [] _ (fun c hc ↦ by
              obtain ⟨piece, -, hpiece⟩ := mem_filterMap.mp hc
              exact component_ne_rootDir hpiece) hcomponents
            obtain ⟨rest, hrest⟩ := not_not.mp hroot
            rw [rootComponents, cons_append, List.cons.injEq] at hrest
            obtain ⟨front, path', rfl, hfront, rfl⟩ := map_eq_append_iff.mp hrest.2.symm
            have hpath : path' = path := by
              rw [← Except.ok.inj h, map_append, hfront, rootComponents, length_cons,
                drop_succ_cons, drop_left, filterMap_map]
              exact filterMap_some.symm
            rw [hnormalized, map_append, hfront, hpath]
            rfl
          · exact fun h ↦ (by cases h)
          · exact fun h ↦ (by cases h)

/-! ## Safe texts -/

theorem joinPath_of_absolute {base path : List Char} (h : path.head? ≠ some '/') (hbase : base ≠ [])
    (hlast : base.getLast? ≠ some '/') : joinPath base path = base ++ '/' :: path := by
  rw [joinPath, if_neg h, if_neg (not_or.mpr ⟨hbase, hlast⟩)]

theorem joinPath_rootPath (hroot : fs.Canonical) {path : List Char} (h : path.head? ≠ some '/') :
    joinPath fs.rootPath path = slashed fs.root ++ '/' :: path := by
  rcases eq_nil_or_concat fs.root with hnil | ⟨front, last, hconcat⟩
  · rw [rootPath, if_pos hnil, joinPath, if_neg h, if_pos (.inr rfl), hnil]
    rfl
  · have hlast : IsName last := hroot last (by rw [hconcat]; simp)
    have htext : fs.rootPath = slashed front ++ '/' :: last := by
      rw [rootPath, if_neg (by rw [hconcat]; simp), hconcat, concat_eq_append,
        flatMap_append, flatMap_singleton, slashed]
    have hends : fs.rootPath.getLast? ≠ some '/' := by
      rw [htext, List.getLast?_append_of_ne_nil _ (cons_ne_nil _ _),
        List.getLast?_cons_of_ne_nil hlast.ne_nil]
      exact fun hend ↦ hlast.1 (List.mem_of_getLast? hend)
    rw [joinPath_of_absolute h (by rw [htext]; simp) hends, htext, hconcat, concat_eq_append,
      slashed_append]
    exact congrArg (slashed front ++ · ++ '/' :: path) (flatMap_singleton _ _).symm

theorem isName_of_safe {text : String} (h : isTraversalSafePath text = true) :
    ∀ name ∈ text.toList.splitOn '/', IsName name := by
  intro name hname
  rw [isTraversalSafePath, Bool.not_eq_true', List.any_eq_false] at h
  have hsegment := h name hname
  simp only [Bool.or_eq_true, decide_eq_true_eq, not_or] at hsegment
  obtain ⟨⟨⟨hempty, hdot⟩, hdots⟩, -⟩ := hsegment
  refine ⟨not_mem_of_mem_splitOn hname, ?_⟩
  rw [component, if_neg hempty, if_neg hdot, if_neg hdots]

theorem head?_ne_of_safe {folder key : String} (h : isTraversalSafePath (folder ++ "/" ++ key) = true) :
    folder.toList ≠ [] ∧ folder.toList.head? ≠ some '/' ∧ folder.toList.getLast? ≠ some '/' ∧
      key.toList.head? ≠ some '/' := by
  have hnames := isName_of_safe h
  have htext : (folder ++ "/" ++ key).toList = folder.toList ++ '/' :: key.toList := by
    rw [String.toList_append, String.toList_append, append_assoc]
    rfl
  rw [htext, splitOn_append_cons_self] at hnames
  -- a slash at one of these places leaves an empty segment
  have hempty : [] ∉ folder.toList.splitOn '/' ∧ [] ∉ key.toList.splitOn '/' :=
    ⟨fun hmem ↦ (hnames [] (mem_append_left _ hmem)).ne_nil rfl,
      fun hmem ↦ (hnames [] (mem_append_right _ hmem)).ne_nil rfl⟩
  refine ⟨fun hnil ↦ hempty.1 ?_, fun hh ↦ hempty.1 (nil_mem_splitOn hh), fun hlast ↦ hempty.1 ?_,
    fun hh ↦ hempty.2 (nil_mem_splitOn hh)⟩
  · rw [hnil]
    exact mem_cons_self
  · obtain ⟨t', ht'⟩ := List.getLast?_eq_some_iff.mp hlast
    rw [ht', splitOn_append_cons_self]
    exact mem_append_right _ mem_cons_self

theorem objectPath_of_safe (hroot : fs.Canonical) {folder key : String}
    (h : isTraversalSafePath (folder ++ "/" ++ key) = true) :
    fs.objectPath folder.toList key.toList =
      slashed (fs.root ++ (folder ++ "/" ++ key).toList.splitOn '/') := by
  obtain ⟨hne, hfolder, hlast, hkey⟩ := head?_ne_of_safe h
  have hjoin : fs.folderPath folder.toList = slashed fs.root ++ '/' :: folder.toList :=
    joinPath_rootPath hroot hfolder
  have hends : fs.folderPath folder.toList ≠ [] ∧
      (fs.folderPath folder.toList).getLast? ≠ some '/' := by
    rw [hjoin, List.getLast?_append_of_ne_nil _ (cons_ne_nil _ _),
      List.getLast?_cons_of_ne_nil hne]
    exact ⟨by simp, hlast⟩
  rw [objectPath, joinPath_of_absolute hkey hends.1 hends.2, hjoin, slashed_append,
    slashed_splitOn, String.toList_append, String.toList_append, append_assoc,
    append_assoc]
  rfl

/-- A path of names below the root is accepted as it is, unless the first names the staging
directory. -/
theorem validatePath_slashed (hroot : fs.Canonical) (identified : Bool) {names : List PathName}
    (hnames : ∀ name ∈ names, IsName name) (hne : names ≠ []) :
    fs.validatePath (β := β) (.ok ()) identified (slashed (fs.root ++ names)) =
      if names.head?.any fun first ↦ fs.isStaging identified [first] then .error reservedForStaging
      else .ok names := by
  have hne : fs.root ++ names ≠ [] := append_ne_nil_of_right_ne_nil _ hne
  have habsolute : (slashed (fs.root ++ names)).head? = some '/' := by
    obtain ⟨name, rest, hcons⟩ := exists_cons_of_ne_nil hne
    rw [hcons]
    rfl
  have hnormalized : normalizeLexical (components (slashed (fs.root ++ names))) =
      some (fs.rootComponents ++ names.map Component.normal) := by
    have hall : ∀ name ∈ fs.root ++ names, IsName name := fun name hname ↦
      (mem_append.mp hname).elim (hroot name) (hnames name)
    rw [components_slashed hne hall, normalizeLexical, normalizeFrom, nil_append,
      normalizeFrom_names, map_append]
    · rfl
    · nofun
    · nofun
  have hrelative : ((fs.rootComponents ++ names.map Component.normal).drop
      fs.rootComponents.length).filterMap Component.name? = names := by
    rw [drop_left, filterMap_map]
    exact filterMap_some
  rw [validatePath]
  dsimp only
  rw [if_pos habsolute, hnormalized]
  dsimp only
  rw [if_neg (not_not.mpr (prefix_append _ _)), hrelative]

/-- **Safe texts are read as they are written.** Unless its first segment names the staging
directory, the path of a safe folder and key is accepted, and its names are the segments. -/
theorem validatePath_safe (hroot : fs.Canonical) (identified : Bool) {folder key : String}
    (h : isTraversalSafePath (folder ++ "/" ++ key) = true) :
    fs.validatePath (β := β) (.ok ()) identified (fs.objectPath folder.toList key.toList) =
      if ((folder ++ "/" ++ key).toList.splitOn '/').head?.any
          fun first ↦ fs.isStaging identified [first] then .error reservedForStaging
      else .ok ((folder ++ "/" ++ key).toList.splitOn '/') := by
  rw [objectPath_of_safe hroot h]
  exact validatePath_slashed hroot identified (isName_of_safe h) (splitOn_ne_nil _ _)

theorem validatePath_folder (hroot : fs.Canonical) (identified : Bool) {folder : String}
    (h : isTraversalSafePath folder = true) :
    fs.validatePath (β := β) (.ok ()) identified (fs.folderPath folder.toList) =
      if (folder.toList.splitOn '/').head?.any fun first ↦ fs.isStaging identified [first] then
        .error reservedForStaging
      else .ok (folder.toList.splitOn '/') := by
  have hhead : folder.toList.head? ≠ some '/' := fun hh ↦
    (isName_of_safe h [] (nil_mem_splitOn hh)).ne_nil rfl
  rw [folderPath, joinPath_rootPath hroot hhead, ← slashed_splitOn, ← slashed_append]
  exact validatePath_slashed hroot identified (isName_of_safe h) (splitOn_ne_nil _ _)

/-- The text of an accepted path. -/
theorem acceptedPath_eq (hroot : fs.Canonical) {path : List PathName}
    (h : ∀ name ∈ path, IsName name) (hne : path ≠ []) :
    fs.acceptedPath path = slashed (fs.root ++ path) := by
  have hpush (start : List Char) (hstart : start ≠ [] ∧ start.getLast? ≠ some '/')
      (names : List PathName) (hnames : ∀ name ∈ names, IsName name) :
      (names.map Component.normal).foldl (fun path c ↦ joinPath path c.text) start =
        start ++ slashed names := by
    induction names generalizing start with
    | nil => exact (append_nil start).symm
    | cons name names ih =>
      obtain ⟨hname, htail⟩ := forall_mem_cons.mp hnames
      have hhead : name.head? ≠ some '/' := fun hh ↦ hname.1 (List.mem_of_mem_head? hh)
      have hlast : (start ++ '/' :: name).getLast? ≠ some '/' := by
        rw [List.getLast?_append_of_ne_nil _ (cons_ne_nil _ _),
          List.getLast?_cons_of_ne_nil hname.ne_nil]
        exact fun hend ↦ hname.1 (List.mem_of_getLast? hend)
      rw [map_cons, foldl_cons, Component.text,
        joinPath_of_absolute hhead hstart.1 hstart.2, ih _ ⟨by simp, hlast⟩ htail, slashed,
        slashed, flatMap_cons, append_assoc]
  have hall : ∀ name ∈ fs.root ++ path, IsName name := fun name hname ↦
    (mem_append.mp hname).elim (hroot name) (h name)
  have hcomponents : fs.rootComponents ++ path.map .normal =
      .rootDir :: (fs.root ++ path).map .normal := by
    rw [rootComponents, cons_append, map_append]
  obtain ⟨name, rest, hcons⟩ :=
    exists_cons_of_ne_nil (append_ne_nil_of_right_ne_nil fs.root hne)
  rw [acceptedPath, collectPath, hcomponents]
  rw [hcons] at hall ⊢
  obtain ⟨hname, hrest⟩ := forall_mem_cons.mp hall
  have hhead : name.head? ≠ some '/' := fun hh ↦ hname.1 (List.mem_of_mem_head? hh)
  have hfirst : joinPath (joinPath [] Component.rootDir.text) (Component.normal name).text =
      '/' :: name := by
    change joinPath ['/'] name = _
    rw [joinPath, if_neg hhead, if_pos (.inr rfl)]
    rfl
  have hlast : ('/' :: name).getLast? ≠ some '/' := by
    rw [List.getLast?_cons_of_ne_nil hname.ne_nil]
    exact fun hend ↦ hname.1 (List.mem_of_getLast? hend)
  rw [foldl_cons, map_cons, foldl_cons, hfirst,
    hpush _ ⟨cons_ne_nil _ _, hlast⟩ rest hrest]
  rfl

theorem eq_splitOn_of_validatePath (hroot : fs.Canonical) {canonical : Except OsError Unit}
    {identified : Bool} {folder key : String} {path : List PathName}
    (hsafe : isTraversalSafePath (folder ++ "/" ++ key) = true)
    (h : fs.validatePath (β := β) canonical identified (fs.objectPath folder.toList key.toList) =
      .ok path) : path = (folder ++ "/" ++ key).toList.splitOn '/' := by
  rcases canonical with e | ⟨⟩
  · cases h
  · rw [validatePath_safe hroot identified hsafe] at h
    split at h
    · cases h
    · exact (Except.ok.inj h).symm

theorem NoLinks.isStaging_eq (hlinks : fs.NoLinks) (identified : Bool) (path : List PathName) :
    fs.isStaging identified path = path.getLast?.any (eqIgnoreAsciiCase · stagingDir) := by
  rw [isStaging, Bool.or_eq_left_iff_imp, Bool.and_eq_true, decide_eq_true_eq]
  rintro ⟨-, hdir⟩
  rw [hlinks.dirAt _ _ _ hdir fs.dirAt_stagingDir]
  decide

theorem NoLinks.eq_of_slot (hlinks : fs.NoLinks) {path path' : List PathName} {σ : Slot}
    (h : fs.slot path = some σ) (h' : fs.slot path' = some σ) : path = path' := by
  have hparts {path : List PathName} (h : fs.slot path = some σ) :
      fs.dirAt path.dropLast = some σ.dir ∧ path = path.dropLast ++ [σ.name] := by
    refine ⟨slot_eq_some h, ?_⟩
    unfold slot at h
    split at h
    · rename_i name dir hname _
      obtain rfl := Option.some.inj h
      obtain ⟨front, rfl⟩ := List.getLast?_eq_some_iff.mp hname
      rw [hlinks.fold, dropLast_concat]
    · cases h
  obtain ⟨hdir, hpath⟩ := hparts h
  obtain ⟨hdir', hpath'⟩ := hparts h'
  rw [hpath, hpath', hlinks.dirAt _ _ _ hdir hdir']

end FileSystem

/-- **Storage paths are confined.** What is accepted is the root and names below it, and the first of
these does not name the staging directory. A safe folder and key are accepted as they are written,
so different ones have different paths, which without links are different files. -/
theorem storage_paths_confined (fs : FileSystem) {β : Type} :
    (∀ canonical identified text path,
      fs.validatePath (β := β) canonical identified text = .ok path →
        normalizeLexical (components (fs.absolutePath text)) =
            some (fs.rootComponents ++ path.map .normal) ∧
          ∀ first ∈ path.head?, eqIgnoreAsciiCase first stagingDir = false) ∧
    (fs.Canonical → ∀ canonical identified folder key path,
      isTraversalSafePath (folder ++ "/" ++ key) = true →
        fs.validatePath (β := β) canonical identified (fs.objectPath folder.toList key.toList) =
            .ok path →
          fs.acceptedPath path = joinPath fs.rootPath (folder ++ "/" ++ key).toList ∧
          path = (folder ++ "/" ++ key).toList.splitOn '/') ∧
    (fs.Canonical → ∀ canonical identified folder key path canonical' identified' folder' key' path',
      isTraversalSafePath (folder ++ "/" ++ key) = true →
      isTraversalSafePath (folder' ++ "/" ++ key') = true →
      fs.validatePath (β := β) canonical identified (fs.objectPath folder.toList key.toList) =
        .ok path →
      fs.validatePath (β := β) canonical' identified' (fs.objectPath folder'.toList key'.toList) =
        .ok path' →
      folder ++ "/" ++ key ≠ folder' ++ "/" ++ key' →
        path ≠ path' ∧ (fs.NoLinks → ∀ σ, fs.slot path = some σ → fs.slot path' ≠ some σ)) := by
  refine ⟨fun _ _ _ _ h ↦ FileSystem.validatePath_confined h, ?_, ?_⟩
  · intro hroot canonical identified folder key path hsafe h
    have hpath := FileSystem.eq_splitOn_of_validatePath hroot hsafe h
    obtain ⟨-, hfolder, -, -⟩ := FileSystem.head?_ne_of_safe hsafe
    have hhead : (folder ++ "/" ++ key).toList.head? ≠ some '/' := fun hh ↦
      (FileSystem.isName_of_safe hsafe [] (nil_mem_splitOn hh)).ne_nil rfl
    refine ⟨?_, hpath⟩
    rw [FileSystem.joinPath_rootPath hroot hhead, hpath,
      FileSystem.acceptedPath_eq hroot (FileSystem.isName_of_safe hsafe) (splitOn_ne_nil _ _),
      slashed_append, slashed_splitOn]
  · intro hroot canonical identified folder key path canonical' identified' folder' key' path' hsafe
      hsafe' h h' hne
    have hpaths : path ≠ path' := by
      rw [FileSystem.eq_splitOn_of_validatePath hroot hsafe h,
        FileSystem.eq_splitOn_of_validatePath hroot hsafe' h']
      exact fun hsplit ↦ hne (String.toList_inj.mp (splitOn_injective hsplit))
    exact ⟨hpaths, fun hlinks σ hσ hσ' ↦ hpaths (hlinks.eq_of_slot hσ hσ')⟩

def oneFolder : FileSystem :=
  { LocalStorage.plainRoot with
    dirAt := fun path ↦
      if path = [] then some 0
      else if path = [stagingDir] then some 1
      else if path = ["docs".toList] then some 2
      else none
    dirAt_stagingDir := by decide +kernel
    dirAt_nil_ne := by decide +kernel }

theorem canonical_oneFolder : oneFolder.Canonical := by
  intro name hname
  rw [mem_singleton.mp hname]
  exact ⟨by decide, by decide⟩

theorem noLinks_oneFolder : oneFolder.NoLinks := by
  refine ⟨fun p q d hp hq ↦ ?_, fun _ ↦ rfl⟩
  simp only [oneFolder] at hp hq
  grind

/-- Two objects of the folder, and a key that climbs out of it. -/
theorem storage_paths_confined_oneFolder :
    oneFolder.validatePath (β := Empty) (.ok ()) true
        (oneFolder.objectPath "docs".toList "a".toList) = .ok ["docs".toList, "a".toList] ∧
      oneFolder.acceptedPath ["docs".toList, "a".toList] = "/srv/docs/a".toList ∧
      oneFolder.slot ["docs".toList, "b".toList] ≠ some ⟨2, "a".toList⟩ ∧
      oneFolder.validatePath (β := Empty) (.ok ()) true
        (oneFolder.objectPath "docs".toList "../../etc".toList) = .error FileSystem.escapesRoot := by
  have ha : oneFolder.validatePath (β := Empty) (.ok ()) true
      (oneFolder.objectPath "docs".toList "a".toList) = .ok ["docs".toList, "a".toList] := by
    decide +kernel
  have hb : oneFolder.validatePath (β := Empty) (.ok ()) true
      (oneFolder.objectPath "docs".toList "b".toList) = .ok ["docs".toList, "b".toList] := by
    decide +kernel
  have hconfined := storage_paths_confined oneFolder (β := Empty)
  refine ⟨ha, ?_, ?_, by decide +kernel⟩
  · exact (hconfined.2.1 canonical_oneFolder _ _ "docs" "a" _ (by decide +kernel) ha).1
  · exact (hconfined.2.2 canonical_oneFolder _ _ "docs" "a" _ _ _ "docs" "b" _ (by decide +kernel)
      (by decide +kernel) ha hb (by decide)).2 noLinks_oneFolder _ (by decide +kernel)

end WaferRun

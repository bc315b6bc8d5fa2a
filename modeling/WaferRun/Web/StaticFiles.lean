import WaferRun.Block.Output
import WaferRun.Storage.Confinement
import WaferRun.Storage.Listing

/-!
# Static files

The path of a request becomes the key of an object in four steps: a prefix is stripped, the rest is
cleaned segment by segment, hidden names are refused, and nothing at all stands for the index file.
An object that is missing is then looked for under two derived keys, and at last the index file may
stand for it. No key that storage is asked for leaves the folder, and none has a hidden name but for
`.well-known`, with one exception: if `.well-known` itself is missing, storage is asked for
`.well-known.html` (`staysInside_iff`).
-/

open List

namespace WaferRun.Web

open Text LocalStorage

variable {indexFile key path : List Char} {names : List PathName}

inductive CacheMode
  | normal
  | noCache
deriving DecidableEq

structure WebConfig where
  folder : String
  webPrefix : List Char
  spa : Bool
  indexFile : List Char
  cacheMaxAge : UInt32
  immutableMaxAge : UInt32
  cacheMode : CacheMode

/-- What storage answers for a key of a folder. -/
abbrev Storage := String → List Char → Except WaferError (List UInt8 × ObjectInfo)

/-! ## Keys -/

/-- The prefix is stripped where the path ends after it, or goes on with a slash. -/
def stripWebPrefix (path webPrefix : List Char) : Option (List Char) :=
  if webPrefix <+: path then
    let rest := path.drop webPrefix.length
    if rest = [] ∨ rest.head? = some '/' then some rest else none
  else none

def normalizeWebPrefix (debug : List Char → String) (text : List Char) :
    Except WaferError (List Char) :=
  if text = [] then .ok []
  else if text.head? ≠ some '/' then
    .error (.new .invalidArgument
      ("wafer-run/web: `web_prefix` must start with `/`, got " ++ debug text))
  else .ok (text.rdropWhile fun c ↦ c = '/')

def cleanStep (parts : List PathName) (seg : PathName) : List PathName :=
  if seg = [] ∨ seg = ['.'] then parts
  else if seg = ['.', '.'] then parts.dropLast
  else parts ++ [seg]

/-- A `..` takes the name before it away, if there is one. -/
def cleanNames (p : List Char) : List PathName := (p.splitOn '/').foldl cleanStep []

def cleanPath (p : List Char) : List Char := '/' :: join ['/'] (cleanNames p)

def wellKnown : PathName := ".well-known".toList

/-- A dotfile other than `.well-known`. -/
def isHidden (seg : PathName) : Bool := seg.head? = some '.' && 1 < seg.length && seg ≠ wellKnown

def keyOfClean (indexFile clean : List Char) : Option (List Char) :=
  if (clean.splitOn '/').any isHidden then none
  else
    let key := clean.dropWhile fun c ↦ c = '/'
    some (if key = [] then indexFile else key)

def requestKey (config : WebConfig) (path : List Char) : Option (List Char) :=
  (stripWebPrefix path config.webPrefix).bind fun rest ↦
    keyOfClean config.indexFile
      (cleanPath (if rest = [] ∨ rest = ['/'] then '/' :: config.indexFile else rest))

/-! ## Types and caches -/

/-- The stem and the extension, which the last dot parts. -/
def splitFileName (name : PathName) : List Char × Option (List Char) :=
  let before := name.rdropWhile fun c ↦ c ≠ '.'
  if before.length ≤ 1 then (name, none)
  else (before.dropLast, some (name.rtakeWhile fun c ↦ c ≠ '.'))

def fileName (path : List Char) : Option PathName := (components path).getLast?.bind Component.name?

def fileStem (path : List Char) : Option (List Char) :=
  (fileName path).map fun name ↦ (splitFileName name).1

def extension (path : List Char) : Option (List Char) :=
  (fileName path).bind fun name ↦ (splitFileName name).2

/-- The content type of what has no known one. -/
def unknown : String := "application/octet-stream"

/-- The content type by extension. -/
def mimeForExtStr (ext : List Char) : String :=
  match String.ofList (ext.map Char.toLower) with
  | "html" | "htm" => "text/html; charset=utf-8"
  | "css" => "text/css; charset=utf-8"
  | "js" | "mjs" => "application/javascript; charset=utf-8"
  | "json" | "map" => "application/json; charset=utf-8"
  | "xml" => "application/xml; charset=utf-8"
  | "svg" => "image/svg+xml; charset=utf-8"
  | "png" => "image/png"
  | "jpg" | "jpeg" => "image/jpeg"
  | "gif" => "image/gif"
  | "webp" => "image/webp"
  | "avif" => "image/avif"
  | "ico" => "image/x-icon"
  | "woff" => "font/woff"
  | "woff2" => "font/woff2"
  | "ttf" => "font/ttf"
  | "otf" => "font/otf"
  | "eot" => "application/vnd.ms-fontobject"
  | "pdf" => "application/pdf"
  | "zip" => "application/zip"
  | "wasm" => "application/wasm"
  | "txt" | "rs" | "toml" => "text/plain; charset=utf-8"
  | "md" => "text/markdown; charset=utf-8"
  | "csv" => "text/csv; charset=utf-8"
  | "mp4" => "video/mp4"
  | "webm" => "video/webm"
  | "mp3" => "audio/mpeg"
  | "ogg" => "audio/ogg"
  | _ => unknown

def mimeForExt (path : List Char) : String := mimeForExtStr ((extension path).getD [])

def hashedDirs : List String := ["/assets/", "/_next/static/", "/static/js/", "/static/css/"]

/-- In a directory of a bundler, or with a part in its stem that looks like a hash. -/
def isHashedAsset (key : List Char) : Bool :=
  (hashedDirs.any fun dir ↦ dir.toList <:+: key) ||
    (fileStem key).any fun stem ↦ (stem.splitOnP fun c ↦ c = '.' || c = '-').any fun part ↦
      6 ≤ part.length && part.length ≤ 32 && part.all Char.isAlphanum && part.any Char.isDigit &&
        part.any Char.isAlpha

/-- Pages are always revalidated. -/
def cacheControl (key : List Char) (contentType : String) (config : WebConfig) : String :=
  if config.cacheMode = .noCache then "no-cache"
  else if "text/html".toList <+: contentType.toList then "no-cache"
  else if isHashedAsset key then
    "public, max-age=" ++ toString config.immutableMaxAge.toNat ++ ", immutable"
  else "public, max-age=" ++ toString config.cacheMaxAge.toNat

/-! ## Requests

Beside its answer, a request leaves the keys storage was asked for. -/

def responseMeta (contentType cache : String) : List MetaEntry :=
  [⟨metaRespContentType, contentType⟩, ⟨metaRespHeaderPrefix ++ "Cache-Control", cache⟩]

section

variable (storage : Storage)

/-- The object, then the page `key.html`, then the index file of the directory `key`. -/
def tryServeStatic (folder : String) (key indexFile : List Char) :
    List (List Char) × Except WaferError (List UInt8 × ObjectInfo) :=
  match storage folder key with
  | .ok r => ([key], .ok r)
  | .error e =>
    if e.code ≠ .notFound then ([key], .error e)
    else if key = [] ∨ (extension key).isSome then
      ([key], .error (.new .notFound ("static asset not found: " ++ String.ofList key)))
    else
      let htmlKey := key ++ ".html".toList
      match storage folder htmlKey with
      | .ok r => ([key, htmlKey], .ok r)
      | .error e =>
        if e.code ≠ .notFound then ([key, htmlKey], .error e)
        else ([key, htmlKey, key ++ '/' :: indexFile], storage folder (key ++ '/' :: indexFile))

/-- The index file stands for what is missing. -/
def serveIndexSpa (config : WebConfig) :
    List (List Char) × Except WaferError (List UInt8 × List MetaEntry) :=
  match storage config.folder config.indexFile with
  | .ok (data, _) => ([config.indexFile], .ok (data,
      responseMeta "text/html; charset=utf-8" "no-cache"))
  | .error _ => ([config.indexFile], .error (.new .notFound "Index file not found"))

def servedType (key : List Char) (info : ObjectInfo) : String :=
  if info.contentType = "" ∨ info.contentType = unknown then mimeForExt key else info.contentType

/-- A whole request. -/
def serveFile (config : WebConfig) (path : List Char) :
    List (List Char) × Except WaferError (List UInt8 × List MetaEntry) :=
  match requestKey config path with
  | none => ([], .error (.new .notFound "Not found"))
  | some key =>
    let found := tryServeStatic storage config.folder key config.indexFile
    match found.2 with
    | .ok (data, info) =>
      let contentType := servedType key info
      (found.1, .ok (data, responseMeta contentType (cacheControl key contentType config)))
    | .error e =>
      if e.code = .notFound ∧ config.spa then
        (found.1 ++ (serveIndexSpa storage config).1, (serveIndexSpa storage config).2)
      else (found.1, .error e)

end

/-! ## The names of a key -/

/-- A name that a key may have. -/
def Servable (name : PathName) : Prop :=
  name ≠ [] ∧ name ≠ ['.'] ∧ name ≠ ['.', '.'] ∧ (name.head? = some '.' → name = wellKnown)

/-- The key is these names, with slashes between them. -/
def MadeOf (key : List Char) (names : List PathName) : Prop :=
  names ≠ [] ∧ (∀ name ∈ names, '/' ∉ name) ∧ '/' :: key = slashed names

theorem MadeOf.splitOn (h : MadeOf key names) : key.splitOn '/' = names := by
  obtain ⟨hne, hnames, hkey⟩ := h
  obtain ⟨name, rest, rfl⟩ := exists_cons_of_ne_nil hne
  obtain ⟨hname, hrest⟩ := forall_mem_cons.mp hnames
  obtain rfl : key = name ++ slashed rest := (cons.inj hkey).2
  exact splitOn_append_slashed hname hrest

theorem madeOf_join (hne : names ≠ []) (h : ∀ name ∈ names, '/' ∉ name) :
    MadeOf (join ['/'] names) names := by
  refine ⟨hne, h, ?_⟩
  clear h
  induction names with
  | nil => exact absurd rfl hne
  | cons name names ih =>
    cases names with
    | nil => exact (append_nil _).symm
    | cons next rest =>
      have hrest := ih (cons_ne_nil next rest)
      rw [join, slashed, flatMap_cons, ← slashed, ← hrest]
      · simp
      · rintro ⟨⟩

theorem MadeOf.index {index : List Char} (h : MadeOf key names) (hindex : '/' ∉ index) :
    MadeOf (key ++ '/' :: index) (names ++ [index]) := by
  obtain ⟨-, hnames, hkey⟩ := h
  refine ⟨by simp, ?_, ?_⟩
  · intro name hname
    rcases mem_append.mp hname with hname | hname
    · exact hnames name hname
    · rwa [mem_singleton.mp hname]
  · rw [← cons_append, hkey, slashed_append]
    exact congrArg _ (append_nil _).symm

theorem MadeOf.html {last : List Char} (h : MadeOf key (names ++ [last])) :
    MadeOf (key ++ ".html".toList) (names ++ [last ++ ".html".toList]) := by
  obtain ⟨-, hnames, hkey⟩ := h
  refine ⟨by simp, ?_, ?_⟩
  · intro name hname
    rcases mem_append.mp hname with hname | hname
    · exact hnames name (mem_append_left _ hname)
    · rw [mem_singleton.mp hname, mem_append, not_or]
      exact ⟨hnames last (mem_append_right _ (mem_singleton_self last)), by decide⟩
  · rw [← cons_append, hkey, slashed_append, slashed_append, append_assoc]
    simp [slashed]

theorem fileName_madeOf {last : List Char} (h : MadeOf key (names ++ [last]))
    (hlast : Servable last) : fileName key = some last := by
  obtain ⟨hnil, hdot, hdots, -⟩ := hlast
  have hcomponent : component last = some (.normal last) := by
    rw [component, if_neg hnil, if_neg hdot, if_neg hdots]
  rw [fileName, components, h.splitOn, filterMap_append, filterMap_cons_some hcomponent,
    filterMap_nil, ← append_assoc, getLast?_concat]
  rfl

/-! ## Cleaning -/

theorem cleanNames_servable (p : List Char) :
    ∀ name ∈ cleanNames p, '/' ∉ name ∧ name ≠ [] ∧ name ≠ ['.'] ∧ name ≠ ['.', '.'] := by
  have hsegs : ∀ seg ∈ p.splitOn '/', '/' ∉ seg := fun seg hseg ↦ not_mem_of_mem_splitOn hseg
  rw [cleanNames]
  suffices h : ∀ parts : List PathName,
      (∀ name ∈ parts, '/' ∉ name ∧ name ≠ [] ∧ name ≠ ['.'] ∧ name ≠ ['.', '.']) →
      ∀ name ∈ (p.splitOn '/').foldl cleanStep parts,
        '/' ∉ name ∧ name ≠ [] ∧ name ≠ ['.'] ∧ name ≠ ['.', '.'] from
    h [] (forall_mem_nil _)
  generalize p.splitOn '/' = segs at hsegs ⊢
  induction segs with
  | nil => exact fun parts hparts ↦ hparts
  | cons seg segs ih =>
    obtain ⟨hseg, hsegs⟩ := forall_mem_cons.mp hsegs
    intro parts hparts
    refine ih hsegs _ fun name hname ↦ ?_
    rw [cleanStep] at hname
    split at hname
    · exact hparts name hname
    · rename_i hskip
      split at hname
      · exact hparts name (mem_of_mem_dropLast hname)
      · rename_i hup
        rcases mem_append.mp hname with hname | hname
        · exact hparts name hname
        · rw [mem_singleton.mp hname]
          exact ⟨hseg, fun h ↦ hskip (.inl h), fun h ↦ hskip (.inr h), hup⟩

theorem isHidden_eq_false_iff {name : PathName} (hdot : name ≠ ['.']) :
    isHidden name = false ↔ (name.head? = some '.' → name = wellKnown) := by
  have hlength : name.head? = some '.' → 1 < name.length := by
    intro hhead
    obtain ⟨rest, rfl⟩ := head?_eq_some_iff.mp hhead
    cases rest with
    | nil => exact absurd rfl hdot
    | cons c rest => simp
  rw [isHidden]
  by_cases hhead : name.head? = some '.'
  · simp [hhead, hlength hhead]
  · simp [hhead]

theorem keyOfClean_cleanPath (indexFile p : List Char) :
    keyOfClean indexFile (cleanPath p) =
      if (cleanNames p).any isHidden then none
      else some (if cleanNames p = [] then indexFile else join ['/'] (cleanNames p)) := by
  have hnames := cleanNames_servable p
  rw [keyOfClean, cleanPath]
  cases hclean : cleanNames p with
  | nil => rfl
  | cons name names =>
    rw [hclean] at hnames
    have hmade : MadeOf (join ['/'] (name :: names)) (name :: names) :=
      madeOf_join (cons_ne_nil name names) fun n hn ↦ (hnames n hn).1
    obtain ⟨c, rest, hname⟩ := exists_cons_of_ne_nil (hnames name mem_cons_self).2.1
    have hc : c ≠ '/' := by
      rintro rfl
      exact (hnames name mem_cons_self).1 (hname ▸ mem_cons_self)
    have hkey : join ['/'] (name :: names) = c :: (rest ++ slashed names) := by
      have hslashed := (cons.inj hmade.2.2).2
      rw [hslashed, hname]
      rfl
    have hsplit : ('/' :: join ['/'] (name :: names)).splitOn '/' = [] :: name :: names := by
      rw [hmade.2.2]
      exact splitOn_append_slashed not_mem_nil hmade.2.1
    have hdrop : ('/' :: join ['/'] (name :: names)).dropWhile (fun c ↦ c = '/') =
        join ['/'] (name :: names) := by
      rw [dropWhile_cons_of_pos (by simp), hkey, dropWhile_cons_of_neg (by simpa using hc)]
    have hjoin : join ['/'] (name :: names) ≠ [] := by
      rw [hkey]
      exact cons_ne_nil c _
    dsimp only
    rw [hsplit, hdrop, any_cons, show isHidden [] = false from rfl, Bool.false_or,
      if_neg (cons_ne_nil name names), if_neg hjoin]

def IsIndexName (indexFile : List Char) : Prop :=
  indexFile ≠ [] ∧ '/' ∉ indexFile ∧ indexFile.head? ≠ some '.'

theorem IsIndexName.servable (h : IsIndexName indexFile) : Servable indexFile := by
  obtain ⟨hne, -, hhead⟩ := h
  refine ⟨hne, ?_, ?_, fun hdot ↦ absurd hdot hhead⟩ <;> rintro rfl <;> exact hhead rfl

/-- A path of such names is clean. -/
theorem cleanNames_of_madeOf (h : MadeOf key names)
    (hnames : ∀ name ∈ names, name ≠ [] ∧ name ≠ ['.'] ∧ name ≠ ['.', '.']) :
    cleanNames ('/' :: key) = names := by
  have hclean : ∀ parts : List PathName, names.foldl cleanStep parts = parts ++ names := by
    clear h
    induction names with
    | nil => exact fun parts ↦ (append_nil parts).symm
    | cons name names ih =>
      obtain ⟨⟨hne, hdot, hdots⟩, hnames⟩ := forall_mem_cons.mp hnames
      intro parts
      rw [foldl_cons, cleanStep, if_neg (not_or.mpr ⟨hne, hdot⟩), if_neg hdots, ih hnames,
        append_assoc, singleton_append]
  have hsplit : ('/' :: key).splitOn '/' = [] :: names := by
    rw [h.2.2]
    exact splitOn_append_slashed not_mem_nil h.2.1
  rw [cleanNames, hsplit]
  exact hclean []

theorem IsIndexName.madeOf (h : IsIndexName indexFile) : MadeOf indexFile [indexFile] :=
  ⟨cons_ne_nil _ _, forall_mem_singleton.mpr h.2.1, (append_nil _).symm⟩

theorem cleanNames_index (h : IsIndexName indexFile) :
    cleanNames ('/' :: indexFile) = [indexFile] := by
  obtain ⟨hne, hdot, hdots, -⟩ := h.servable
  exact cleanNames_of_madeOf h.madeOf (forall_mem_singleton.mpr ⟨hne, hdot, hdots⟩)

theorem requestKey_eq {config : WebConfig} (h : IsIndexName config.indexFile) (path : List Char) :
    requestKey config path = (stripWebPrefix path config.webPrefix).bind fun rest ↦
      keyOfClean config.indexFile (cleanPath rest) := by
  have hvisible : isHidden config.indexFile = false :=
    (isHidden_eq_false_iff h.servable.2.1).mpr h.servable.2.2.2
  rw [requestKey]
  congr 1
  funext rest
  split
  · rename_i hroot
    rw [keyOfClean_cleanPath, keyOfClean_cleanPath, cleanNames_index h, any_cons, any_nil, hvisible]
    rcases hroot with rfl | rfl <;> rfl
  · rfl

theorem servable_of_clean {rest : List Char} (hvisible : ¬(cleanNames rest).any isHidden = true)
    {name : PathName} (hname : name ∈ cleanNames rest) : Servable name := by
  obtain ⟨-, hne, hdot, hdots⟩ := cleanNames_servable rest name hname
  refine ⟨hne, hdot, hdots, (isHidden_eq_false_iff hdot).mp ?_⟩
  rw [any_eq_true, not_exists] at hvisible
  exact Bool.eq_false_iff.mpr fun h ↦ hvisible name ⟨hname, h⟩

theorem requestKey_madeOf {config : WebConfig} (h : IsIndexName config.indexFile)
    (hkey : requestKey config path = some key) :
    ∃ rest names, stripWebPrefix path config.webPrefix = some rest ∧ MadeOf key names ∧
      (∀ name ∈ names, Servable name) ∧ (names = cleanNames rest ∨ names = [config.indexFile]) := by
  rw [requestKey_eq h] at hkey
  obtain ⟨rest, hrest, hkey⟩ := Option.bind_eq_some_iff.mp hkey
  rw [keyOfClean_cleanPath] at hkey
  obtain ⟨hvisible, hkey⟩ := Option.ite_none_left_eq_some.mp hkey
  have hkey := Option.some.inj hkey
  refine ⟨rest, if cleanNames rest = [] then [config.indexFile] else cleanNames rest, hrest, ?_⟩
  split at hkey <;> rename_i hempty
  · rw [if_pos hempty, ← hkey]
    exact ⟨h.madeOf, forall_mem_singleton.mpr h.servable, .inr rfl⟩
  · rw [if_neg hempty, ← hkey]
    refine ⟨madeOf_join hempty fun name hname ↦ (cleanNames_servable rest name hname).1, ?_, .inl rfl⟩
    exact fun name hname ↦ servable_of_clean hvisible hname

/-! ## Keys that storage is asked for -/

variable {storage : Storage} {config : WebConfig}

theorem servable_html {name : PathName} (h : Servable name) (hname : name ≠ wellKnown) :
    Servable (name ++ ".html".toList) := by
  obtain ⟨hne, -, -, hhead⟩ := h
  obtain ⟨c, rest, rfl⟩ := exists_cons_of_ne_nil hne
  refine ⟨cons_ne_nil _ _, ?_, ?_, fun hdot ↦ absurd (hhead hdot) hname⟩
  · exact fun h ↦ absurd (congrArg length h) (by simp)
  · exact fun h ↦ absurd (congrArg length h) (by simp)

theorem mem_asked {folder : String} {asked : List Char}
    (h : asked ∈ (tryServeStatic storage folder key indexFile).1) :
    asked = key ∨ asked = key ++ '/' :: indexFile ∨ asked = key ++ ".html".toList ∧
      ∃ e, storage folder key = .error e ∧ e.code = .notFound := by
  rw [tryServeStatic] at h
  cases hkey : storage folder key with
  | ok r =>
    rw [hkey] at h
    exact .inl (mem_singleton.mp h)
  | error e =>
    rw [hkey] at h
    dsimp only at h
    split at h
    · exact .inl (mem_singleton.mp h)
    · rename_i hcode
      have hmissing : ∃ e', (.error e : Except WaferError (List UInt8 × ObjectInfo)) = .error e' ∧
          e'.code = .notFound := ⟨e, rfl, not_not.mp hcode⟩
      split at h
      · exact .inl (mem_singleton.mp h)
      · split at h
        · simp only [mem_cons, not_mem_nil, or_false] at h
          exact h.imp_right fun h ↦ .inr ⟨h, hmissing⟩
        · split at h <;> simp only [mem_cons, not_mem_nil, or_false] at h
          · exact h.imp_right fun h ↦ .inr ⟨h, hmissing⟩
          · rcases h with h | h | h
            · exact .inl h
            · exact .inr (.inr ⟨h, hmissing⟩)
            · exact .inr (.inl h)

theorem html_mem_asked {folder : String} {e : WaferError} (hkey : storage folder key = .error e)
    (hcode : e.code = .notFound) (hne : key ≠ []) (hext : extension key = none) :
    key ++ ".html".toList ∈ (tryServeStatic storage folder key indexFile).1 := by
  rw [tryServeStatic, hkey]
  dsimp only
  rw [if_neg (not_not.mpr hcode), if_neg (by rw [hext]; simp [hne])]
  split
  · exact mem_cons_of_mem _ mem_cons_self
  · split <;> exact mem_cons_of_mem _ mem_cons_self

theorem serveFile_of_requestKey (h : requestKey config path = some key) :
    (tryServeStatic storage config.folder key config.indexFile).1 ⊆
      (serveFile storage config path).1 ∧
    ∀ asked ∈ (serveFile storage config path).1, asked = config.indexFile ∨
      asked ∈ (tryServeStatic storage config.folder key config.indexFile).1 := by
  rw [serveFile, h]
  dsimp only
  split
  · exact ⟨fun _ hasked ↦ hasked, fun _ hasked ↦ .inr hasked⟩
  · split
    · refine ⟨subset_append_left _ _, fun asked hasked ↦ (mem_append.mp hasked).symm.imp_left ?_⟩
      rw [serveIndexSpa]
      split <;> exact mem_singleton.mp
    · exact ⟨fun _ hasked ↦ hasked, fun _ hasked ↦ .inr hasked⟩

def UnderPrefix (text path : List Char) : Prop :=
  ∃ rest, path = (text.rdropWhile fun c ↦ c = '/') ++ rest ∧ (rest = [] ∨ rest.head? = some '/')

/-- What is asked for the sake of a request is inside and visible. -/
structure StaysInside (storage : Storage) (config : WebConfig) (text path : List Char) : Prop where
  servable : ∀ key ∈ (serveFile storage config path).1, ∀ name ∈ key.splitOn '/', Servable name
  outside : ¬UnderPrefix text path → (serveFile storage config path).1 = []
  alike : ∀ path' rest rest' : List Char, stripWebPrefix path config.webPrefix = some rest →
    stripWebPrefix path' config.webPrefix = some rest' → cleanPath rest = cleanPath rest' →
    serveFile storage config path = serveFile storage config path'

/-- The request is for `.well-known` itself, in some directory, and it is missing. -/
def MissesWellKnown (storage : Storage) (config : WebConfig) (path : List Char) : Prop :=
  ∃ rest front e, stripWebPrefix path config.webPrefix = some rest ∧
    cleanNames rest = front ++ [wellKnown] ∧ (∀ name ∈ front, isHidden name = false) ∧
    storage config.folder (join ['/'] (front ++ [wellKnown])) = .error e ∧ e.code = .notFound

theorem servable_of_asked (h : IsIndexName config.indexFile)
    (hmisses : ¬MissesWellKnown storage config path) :
    ∀ key ∈ (serveFile storage config path).1, ∀ name ∈ key.splitOn '/', Servable name := by
  intro asked hasked
  cases hkey : requestKey config path with
  | none =>
    rw [serveFile, hkey] at hasked
    exact absurd hasked not_mem_nil
  | some key =>
    obtain ⟨rest, names, hrest, hmade, hnames, horigin⟩ := requestKey_madeOf h hkey
    rcases (serveFile_of_requestKey hkey).2 asked hasked with rfl | hasked
    · rw [splitOn_eq_singleton h.2.1]
      exact forall_mem_singleton.mpr h.servable
    rcases mem_asked hasked with rfl | rfl | ⟨rfl, e, hmissing, hcode⟩
    · rwa [hmade.splitOn]
    · rw [(hmade.index h.2.1).splitOn]
      exact List.forall_mem_append.mpr ⟨hnames, forall_mem_singleton.mpr h.servable⟩
    · obtain ⟨front, last, rfl⟩ := (eq_nil_or_concat' names).resolve_left hmade.1
      obtain ⟨hfront, hlast⟩ := List.forall_mem_append.mp hnames
      rw [hmade.html.splitOn]
      refine List.forall_mem_append.mpr ⟨hfront, forall_mem_singleton.mpr ?_⟩
      refine servable_html (forall_mem_singleton.mp hlast) fun hwell ↦ ?_
      rw [hwell] at hmade horigin
      rcases horigin with hclean | hindex
      · refine hmisses ⟨rest, front, e, hrest, hclean.symm, fun name hname ↦ ?_, ?_, hcode⟩
        · have hservable := hfront name hname
          exact (isHidden_eq_false_iff hservable.2.1).mpr hservable.2.2.2
        · rwa [← splitOn_injective ((madeOf_join hmade.1 hmade.2.1).splitOn.trans
            hmade.splitOn.symm)] at hmissing
      · refine h.2.2 ?_
        rw [← singleton_inj.mp ((append_eq_singleton_iff.mp hindex).resolve_right (by simp)).2]
        rfl

theorem not_missesWellKnown_of_servable (h : IsIndexName config.indexFile)
    (hservable : ∀ key ∈ (serveFile storage config path).1, ∀ name ∈ key.splitOn '/', Servable name) :
    ¬MissesWellKnown storage config path := by
  rintro ⟨rest, front, e, hrest, hclean, hfront, hmissing, hcode⟩
  have hslash : ∀ name ∈ front ++ [wellKnown], '/' ∉ name := fun name hname ↦
    (cleanNames_servable rest name (hclean ▸ hname)).1
  have hmade := madeOf_join (by simp) hslash
  have hkey : requestKey config path = some (join ['/'] (front ++ [wellKnown])) := by
    rw [requestKey_eq h, hrest, Option.bind_some, keyOfClean_cleanPath, hclean, if_neg, if_neg]
    · simp
    · rw [any_append, Bool.or_eq_true, not_or]
      exact ⟨by simpa using hfront, by decide⟩
  have hwell : Servable wellKnown := by unfold Servable; decide
  have hne : join ['/'] (front ++ [wellKnown]) ≠ [] := by
    intro hnil
    have hsplit := hmade.splitOn
    rw [hnil] at hsplit
    have hlast := congrArg getLast? hsplit
    rw [getLast?_concat] at hlast
    exact absurd hlast (by decide)
  have hext : extension (join ['/'] (front ++ [wellKnown])) = none := by
    rw [extension, fileName_madeOf hmade hwell]
    rfl
  have hhtml := hservable _ ((serveFile_of_requestKey hkey).1
    (html_mem_asked hmissing hcode hne hext)) (wellKnown ++ ".html".toList) (by
      rw [hmade.html.splitOn]
      exact mem_concat_self)
  exact absurd (hhtml.2.2.2 rfl) (by decide)

theorem underPrefix_of_strip {debug : List Char → String} {text rest : List Char}
    (hnormal : normalizeWebPrefix debug text = .ok config.webPrefix)
    (hrest : stripWebPrefix path config.webPrefix = some rest) : UnderPrefix text path := by
  have htext : config.webPrefix = text.rdropWhile fun c ↦ c = '/' := by
    rw [normalizeWebPrefix] at hnormal
    split at hnormal
    · rename_i hnil
      rw [← Except.ok.inj hnormal, hnil]
      rfl
    · split at hnormal
      · cases hnormal
      · exact (Except.ok.inj hnormal).symm
  rw [stripWebPrefix] at hrest
  obtain ⟨hpre, hrest⟩ := Option.ite_none_right_eq_some.mp hrest
  obtain ⟨hstart, hrest⟩ := Option.ite_none_right_eq_some.mp hrest
  refine ⟨_, ?_, hstart⟩
  rw [← htext]
  exact prefix_append_drop hpre

/-- **Inside.** A request stays inside its folder and away from hidden names, unless `.well-known`
itself is missing. -/
theorem staysInside_iff {debug : List Char → String} {text : List Char}
    (hnormal : normalizeWebPrefix debug text = .ok config.webPrefix)
    (hindex : IsIndexName config.indexFile) (path : List Char) :
    StaysInside storage config text path ↔ ¬MissesWellKnown storage config path := by
  refine ⟨fun h ↦ not_missesWellKnown_of_servable hindex h.servable, fun h ↦ ?_⟩
  refine ⟨servable_of_asked hindex h, fun hunder ↦ ?_, fun path' rest rest' hrest hrest' hclean ↦ ?_⟩
  · cases hrest : stripWebPrefix path config.webPrefix with
    | none => rw [serveFile, requestKey, hrest, Option.bind_none]
    | some rest => exact absurd (underPrefix_of_strip hnormal hrest) hunder
  · rw [serveFile, serveFile, requestKey_eq hindex, requestKey_eq hindex, hrest, hrest',
      Option.bind_some, Option.bind_some, hclean]

def emptySite : Storage := fun _ _ ↦ .error (.new .notFound "")

def docsConfig : WebConfig :=
  ⟨"public", "/docs".toList, false, "index.html".toList, 3600, 31536000, .normal⟩

theorem staysInside_iff_docs : StaysInside emptySite docsConfig "/docs/".toList "/docs/a".toList ↔
    ¬MissesWellKnown emptySite docsConfig "/docs/a".toList := by
  have hnormal : normalizeWebPrefix (fun _ ↦ "") "/docs/".toList = .ok docsConfig.webPrefix := by
    decide
  exact staysInside_iff hnormal (by unfold IsIndexName; decide) _

theorem well_known_html_asked :
    ¬StaysInside emptySite docsConfig "/docs/".toList "/docs/.well-known".toList := by
  intro h
  have hhtml := h.servable ".well-known.html".toList (by decide) ".well-known.html".toList (by decide)
  exact absurd (hhtml.2.2.2 rfl) (by decide)

end WaferRun.Web

import WaferRun.Wrap.Ownership

/-!
# Capabilities of a block

What a block may use is stated by three parties. The block declares what it needs, the operator may
narrow that in the configuration of the block, and a guest is bound by what the embedder loaded it
with. When the runtime is sealed the three are combined (`effectiveCapabilities`). No party can
widen what another allows: a request the result allows is allowed by each of them.

Allowlists match their entries in three ways. Most of them match exactly. Entries of storage
folders cover the paths below them, and are combined pair by pair to the narrower one. Entries of
the network cover URLs below them, but two lists of them are combined like lists that match
exactly, so that only an entry of both is left.

Parsing a URL is a parameter.
-/

namespace WaferRun

open Text

/-- An allowlist; an empty `only` allows nothing. -/
inductive Allowlist
  | none
  | any
  | only (values : Finset String)
deriving DecidableEq

/-- Whether an entry covers a storage resource: it is the resource or a folder above it. An entry
that is empty or ends in a slash covers nothing. -/
def pathPrefixCovers (entry resource : String) : Bool :=
  if entry.toList = [] ∨ entry.toList.getLast? = some '/' then false
  else
    entry = resource ||
      (entry.toList.isPrefixOf resource.toList &&
        (resource.toList.drop entry.toList.length).head? = some '/')

namespace Allowlist

def allows (l : Allowlist) (value : String) : Bool :=
  match l with
  | none => false
  | any => true
  | only values => value ∈ values

/-- What both of two lists allow, for lists that match exactly. -/
def intersect : Allowlist → Allowlist → Allowlist
  | none, _ | _, none => none
  | any, l | l, any => l
  | only a, only b => only (a ∩ b)

/-- What both of two lists allow, for lists of folders: of two entries, one below the other, the
lower one. -/
def intersectPathPrefix : Allowlist → Allowlist → Allowlist
  | none, _ | _, none => none
  | any, l | l, any => l
  | only a, only b =>
    only (a.biUnion fun x ↦ b.biUnion fun y ↦
      if pathPrefixCovers y x then {x} else if pathPrefixCovers x y then {y} else ∅)

def allowsStorageFolder (l : Allowlist) (resource : String) : Bool :=
  isTraversalSafePath resource &&
    match l with
    | none => false
    | any => true
    | only values => decide (∃ entry ∈ values, pathPrefixCovers entry resource = true)

end Allowlist

/-! ## URLs -/

structure NetworkUrl where
  scheme : String
  host : Option String
  portOrKnownDefault : Option ℕ
  path : String
deriving DecidableEq

/-- Whether a path contains a percent-encoded slash or backslash. -/
def hasEncodedSeparator : List Char → Bool
  | a :: b :: c :: rest =>
    (a = '%' && (b = '2' && c.toLower = 'f' || b = '5' && c.toLower = 'c')) ||
      hasEncodedSeparator (b :: c :: rest)
  | _ => false

def urlPathCovers (pattern target : List Char) : Bool :=
  let rest :=
    if pattern.getLast? = some '/' then
      if pattern.isPrefixOf target then some (target.drop pattern.length) else none
    else if target = pattern then some []
    else if pattern.isPrefixOf target && (target.drop pattern.length).head? = some '/' then
      some (target.drop pattern.length)
    else none
  rest.any fun rest ↦ !hasEncodedSeparator rest

def urlCovers (parse : String → Option NetworkUrl) (target : NetworkUrl) (entry : String) : Bool :=
  (parse entry).any fun pat ↦
    pat.scheme = target.scheme && pat.host = target.host &&
      pat.portOrKnownDefault = target.portOrKnownDefault &&
      urlPathCovers pat.path.toList target.path.toList

def Allowlist.allowsNetworkUrl (parse : String → Option NetworkUrl) (l : Allowlist) (url : String) :
    Bool :=
  match l with
  | none => false
  | any => true
  | only values =>
    (parse url).any fun target ↦ decide (∃ entry ∈ values, urlCovers parse target entry = true)

/-! ## Headers -/

/-- Which sensitive headers a block may read and write, and which further ones are sensitive. -/
structure HeaderPolicy where
  readable : List String
  writable : List String
  masked : List String
deriving DecidableEq, Repr

def toAsciiLowercase (s : String) : String := String.ofList (asciiLower s.toList)

def isListedHeader (names : List String) (name : String) : Bool :=
  names.any fun n ↦ eqIgnoreAsciiCase n.toList name.toList

def pushDistinct (names : List String) (name : String) : List String :=
  if name ∈ names then names else names ++ [name]

def intersectVec (a b : List String) : List String :=
  a.foldl (fun r x ↦
    if isListedHeader b (toAsciiLowercase x) then pushDistinct r (toAsciiLowercase x) else r) []

def unionVec (a b : List String) : List String :=
  (a ++ b).foldl (fun r x ↦ pushDistinct r (toAsciiLowercase x)) []

/-! ## Capabilities -/

structure BlockCapabilities where
  collections : Allowlist
  rawSql : Bool
  ddl : Bool
  schema : Bool
  storageFolders : Allowlist
  crypto : Bool
  network : Allowlist
  config : Allowlist
  vectorIndexes : Allowlist
  callableBlocks : Allowlist
  headers : HeaderPolicy
deriving DecidableEq

structure HeaderPolicyOverrides where
  readable : Option (List String)
  writable : Option (List String)
  masked : Option (List String)
deriving DecidableEq

/-- What the operator wrote. A field that was not written is `none`. -/
structure ConfigCapabilityOverrides where
  collections : Option Allowlist
  rawSql : Option Bool
  ddl : Option Bool
  schema : Option Bool
  storageFolders : Option Allowlist
  crypto : Option Bool
  network : Option Allowlist
  config : Option Allowlist
  vectorIndexes : Option Allowlist
  callableBlocks : Option Allowlist
  headers : Option HeaderPolicyOverrides
deriving DecidableEq

def narrow {α β : Type} (declared : α) (override : Option β) (combine : α → β → α) : α :=
  match override with
  | some o => combine declared o
  | none => declared

namespace BlockCapabilities

def unrestricted : BlockCapabilities :=
  ⟨.any, true, true, true, .any, true, .any, .any, .any, .any, ⟨[], [], []⟩⟩

def none : BlockCapabilities :=
  ⟨.none, false, false, false, .none, false, .none, .none, .none, .none, ⟨[], [], []⟩⟩

def intersect (a b : BlockCapabilities) : BlockCapabilities where
  collections := a.collections.intersect b.collections
  rawSql := a.rawSql && b.rawSql
  ddl := a.ddl && b.ddl
  schema := a.schema && b.schema
  storageFolders := a.storageFolders.intersectPathPrefix b.storageFolders
  crypto := a.crypto && b.crypto
  network := a.network.intersect b.network
  config := a.config.intersect b.config
  vectorIndexes := a.vectorIndexes.intersect b.vectorIndexes
  callableBlocks := a.callableBlocks.intersect b.callableBlocks
  headers :=
    { readable := intersectVec a.headers.readable b.headers.readable
      writable := intersectVec a.headers.writable b.headers.writable
      masked := unionVec a.headers.masked b.headers.masked }

/-- Narrow a declaration by what the operator wrote. -/
def applyConfigOverrides (d : BlockCapabilities) (o : ConfigCapabilityOverrides) :
    BlockCapabilities where
  collections := narrow d.collections o.collections Allowlist.intersect
  rawSql := narrow d.rawSql o.rawSql (· && ·)
  ddl := narrow d.ddl o.ddl (· && ·)
  schema := narrow d.schema o.schema (· && ·)
  storageFolders := narrow d.storageFolders o.storageFolders Allowlist.intersectPathPrefix
  crypto := narrow d.crypto o.crypto (· && ·)
  network := narrow d.network o.network Allowlist.intersect
  config := narrow d.config o.config Allowlist.intersect
  vectorIndexes := narrow d.vectorIndexes o.vectorIndexes Allowlist.intersect
  callableBlocks := narrow d.callableBlocks o.callableBlocks Allowlist.intersect
  headers :=
    { readable := narrow d.headers.readable (o.headers.bind (·.readable)) intersectVec
      writable := narrow d.headers.writable (o.headers.bind (·.writable)) intersectVec
      masked := narrow d.headers.masked (o.headers.bind (·.masked)) unionVec }

end BlockCapabilities

/-- What the operator wrote, read as a full statement: a field that was not written is denied. -/
def ConfigCapabilityOverrides.asStatedBound (o : ConfigCapabilityOverrides) :
    BlockCapabilities where
  collections := o.collections.getD .none
  rawSql := o.rawSql.getD false
  ddl := o.ddl.getD false
  schema := o.schema.getD false
  storageFolders := o.storageFolders.getD .none
  crypto := o.crypto.getD false
  network := o.network.getD .none
  config := o.config.getD .none
  vectorIndexes := o.vectorIndexes.getD .none
  callableBlocks := o.callableBlocks.getD .none
  headers :=
    { readable := (o.headers.bind (·.readable)).getD []
      writable := (o.headers.bind (·.writable)).getD []
      masked := (o.headers.bind (·.masked)).getD [] }

inductive BlockRuntime
  | native
  | wasm
deriving DecidableEq, Repr

def declaredCapabilities (runtime : BlockRuntime) (capabilities : Option BlockCapabilities) :
    BlockCapabilities :=
  capabilities.getD (if runtime = .wasm then .none else .unrestricted)

/-- What a guest is bound by: what it was loaded with, else what the operator stated. -/
def capabilityBound (overrides : ConfigCapabilityOverrides) (bound : Option BlockCapabilities) :
    BlockCapabilities :=
  bound.getD overrides.asStatedBound

def effectiveCapabilities (runtime : BlockRuntime) (capabilities : Option BlockCapabilities)
    (overrides : ConfigCapabilityOverrides) (bound : Option BlockCapabilities) :
    BlockCapabilities :=
  let effective := (declaredCapabilities runtime capabilities).applyConfigOverrides overrides
  if runtime = .wasm then (capabilityBound overrides bound).intersect effective else effective

/-! ## Requests -/

/-- What a block may ask for. -/
inductive CapabilityRequest
  | collection (name : String)
  | rawSql
  | ddl
  | schema
  | storageFolder (resource : String)
  | crypto
  | networkUrl (url : String)
  | configKey (key : String)
  | vectorIndex (name : String)
  | callBlock (target : String)

section Requests

variable (parse : String → Option NetworkUrl)

def BlockCapabilities.allows (caps : BlockCapabilities) : CapabilityRequest → Bool
  | .collection name => caps.collections.allows name
  | .rawSql => caps.rawSql
  | .ddl => caps.ddl
  | .schema => caps.schema
  | .storageFolder resource => caps.storageFolders.allowsStorageFolder resource
  | .crypto => caps.crypto
  | .networkUrl url => caps.network.allowsNetworkUrl parse url
  | .configKey key => caps.config.allows key
  | .vectorIndex name => caps.vectorIndexes.allows name
  | .callBlock target => caps.callableBlocks.allows target

/-- Whether what the operator wrote allows a request; a field that was not written allows it. -/
def ConfigCapabilityOverrides.allows (o : ConfigCapabilityOverrides) : CapabilityRequest → Bool
  | .collection name => o.collections.all (·.allows name)
  | .rawSql => o.rawSql.all id
  | .ddl => o.ddl.all id
  | .schema => o.schema.all id
  | .storageFolder resource => o.storageFolders.all (·.allowsStorageFolder resource)
  | .crypto => o.crypto.all id
  | .networkUrl url => o.network.all (·.allowsNetworkUrl parse url)
  | .configKey key => o.config.all (·.allows key)
  | .vectorIndex name => o.vectorIndexes.all (·.allows name)
  | .callBlock target => o.callableBlocks.all (·.allows target)

end Requests

/-! ## Narrowing, list by list -/

namespace Allowlist

theorem allows_intersect {a b : Allowlist} {value : String}
    (h : (a.intersect b).allows value = true) : a.allows value = true ∧ b.allows value = true := by
  rcases a with _ | _ | a <;> rcases b with _ | _ | b <;> simp_all [intersect, allows]

theorem pathPrefixCovers_iff {entry resource : String} :
    pathPrefixCovers entry resource = true ↔
      (entry.toList ≠ [] ∧ entry.toList.getLast? ≠ some '/') ∧
        (entry = resource ∨ (entry.toList ++ ['/']) <+: resource.toList) := by
  have hbelow : (entry.toList.isPrefixOf resource.toList = true ∧
      (resource.toList.drop entry.toList.length).head? = some '/') ↔
        (entry.toList ++ ['/']) <+: resource.toList := by
    rw [List.isPrefixOf_iff_prefix]
    constructor
    · rintro ⟨⟨rest, hrest⟩, hhead⟩
      rw [← hrest, List.drop_left] at hhead
      obtain ⟨rest', rfl⟩ := List.head?_eq_some_iff.mp hhead
      exact ⟨rest', by rw [← hrest, List.append_assoc]; rfl⟩
    · rintro ⟨rest, hrest⟩
      rw [List.append_assoc] at hrest
      rw [← hrest, List.drop_left]
      exact ⟨⟨_, rfl⟩, rfl⟩
  rw [pathPrefixCovers]
  split_ifs with hdeg
  · simp only [false_iff, not_and]
    rintro ⟨hne, hslash⟩
    exact absurd hdeg (by simp [hne, hslash])
  · rw [Bool.or_eq_true, Bool.and_eq_true, decide_eq_true_eq, decide_eq_true_eq, hbelow]
    rw [not_or] at hdeg
    simp [hdeg.1, hdeg.2]

theorem pathPrefixCovers_trans {x y resource : String} (hyx : pathPrefixCovers y x = true)
    (hx : pathPrefixCovers x resource = true) : pathPrefixCovers y resource = true := by
  rw [pathPrefixCovers_iff] at hyx hx ⊢
  refine ⟨hyx.1, ?_⟩
  rcases hyx.2 with rfl | hyx
  · exact hx.2
  · rcases hx.2 with rfl | hx
    · exact .inr hyx
    · exact .inr (hyx.trans ((List.prefix_append _ _).trans hx))

theorem allowsStorageFolder_intersectPathPrefix {a b : Allowlist} {resource : String}
    (h : (a.intersectPathPrefix b).allowsStorageFolder resource = true) :
    a.allowsStorageFolder resource = true ∧ b.allowsStorageFolder resource = true := by
  rcases a with _ | _ | a <;> rcases b with _ | _ | b <;>
    simp_all only [intersectPathPrefix, allowsStorageFolder, Bool.and_eq_true, Bool.and_false,
      Bool.false_eq_true, decide_eq_true_eq, and_self, true_and, Bool.and_true]
  obtain ⟨-, entry, hentry, hcovers⟩ := h
  rw [Finset.mem_biUnion] at hentry
  obtain ⟨x, hx, hentry⟩ := hentry
  rw [Finset.mem_biUnion] at hentry
  obtain ⟨y, hy, hentry⟩ := hentry
  split_ifs at hentry with hyx hxy
  · rw [Finset.mem_singleton.mp hentry] at hcovers
    exact ⟨⟨x, hx, hcovers⟩, y, hy, pathPrefixCovers_trans hyx hcovers⟩
  · rw [Finset.mem_singleton.mp hentry] at hcovers
    exact ⟨⟨x, hx, pathPrefixCovers_trans hxy hcovers⟩, y, hy, hcovers⟩
  · exact absurd hentry (Finset.notMem_empty _)

theorem allowsNetworkUrl_intersect {parse : String → Option NetworkUrl} {a b : Allowlist}
    {url : String} (h : (a.intersect b).allowsNetworkUrl parse url = true) :
    a.allowsNetworkUrl parse url = true ∧ b.allowsNetworkUrl parse url = true := by
  rcases a with _ | _ | a <;> rcases b with _ | _ | b <;>
    simp_all only [intersect, allowsNetworkUrl, Bool.false_eq_true, and_self]
  rw [Option.any_eq_true] at h
  obtain ⟨target, hparse, h⟩ := h
  obtain ⟨entry, hentry, hcovers⟩ := of_decide_eq_true h
  rw [Finset.mem_inter] at hentry
  simp only [Option.any_eq_true, decide_eq_true_eq]
  exact ⟨⟨target, hparse, entry, hentry.1, hcovers⟩, target, hparse, entry, hentry.2, hcovers⟩

end Allowlist

theorem isListedHeader_iff {names : List String} {name : String} :
    isListedHeader names name = true ↔
      ∃ n ∈ names, asciiLower n.toList = asciiLower name.toList := by
  simp [isListedHeader, eqIgnoreAsciiCase]

theorem asciiLower_toAsciiLowercase (s : String) :
    asciiLower (toAsciiLowercase s).toList = asciiLower s.toList := by
  rw [toAsciiLowercase, String.toList_ofList, asciiLower_asciiLower]

theorem mem_foldl_iff {f : String → String} {P : String → Prop}
    {add : List String → String → List String}
    (hadd : ∀ r x y, y ∈ add r x ↔ y ∈ r ∨ P x ∧ y = f x) (names r : List String) (y : String) :
    y ∈ names.foldl add r ↔ y ∈ r ∨ ∃ x ∈ names, P x ∧ y = f x := by
  induction names generalizing r with
  | nil => simp
  | cons x names ih =>
    rw [List.foldl_cons, ih, hadd, List.exists_mem_cons_iff, or_assoc]

theorem mem_pushDistinct {names : List String} {name y : String} :
    y ∈ pushDistinct names name ↔ y ∈ names ∨ y = name := by
  rw [pushDistinct]
  split_ifs with h
  · exact ⟨.inl, fun hy ↦ hy.elim id fun hy ↦ hy ▸ h⟩
  · simp

theorem isListedHeader_intersectVec {a b : List String} {name : String} :
    isListedHeader (intersectVec a b) name = true ↔
      isListedHeader a name = true ∧ isListedHeader b name = true := by
  have hadd (r : List String) (x y : String) :
      (y ∈ if isListedHeader b (toAsciiLowercase x) then pushDistinct r (toAsciiLowercase x) else r)
        ↔ y ∈ r ∨ isListedHeader b (toAsciiLowercase x) = true ∧ y = toAsciiLowercase x := by
    split_ifs with h
    · simp [mem_pushDistinct, h]
    · simp [h]
  have hmem (y : String) : y ∈ intersectVec a b ↔
      ∃ x ∈ a, isListedHeader b (toAsciiLowercase x) = true ∧ y = toAsciiLowercase x := by
    rw [intersectVec, mem_foldl_iff hadd]
    simp
  rw [isListedHeader_iff, @isListedHeader_iff a]
  constructor
  · rintro ⟨y, hy, hname⟩
    obtain ⟨x, hx, hb, rfl⟩ := (hmem y).mp hy
    rw [asciiLower_toAsciiLowercase] at hname
    refine ⟨⟨x, hx, hname⟩, ?_⟩
    rw [isListedHeader_iff, asciiLower_toAsciiLowercase, hname] at hb
    exact isListedHeader_iff.mpr hb
  · rintro ⟨⟨x, hx, hname⟩, hb⟩
    refine ⟨toAsciiLowercase x, (hmem _).mpr ⟨x, hx, ?_, rfl⟩, ?_⟩
    · rwa [isListedHeader_iff, asciiLower_toAsciiLowercase, hname, ← isListedHeader_iff]
    · rw [asciiLower_toAsciiLowercase, hname]

theorem exists_mem_append {a b : List String} {P : String → Prop} :
    (∃ x ∈ a ++ b, P x) ↔ (∃ x ∈ a, P x) ∨ ∃ x ∈ b, P x := by
  simp only [List.mem_append, or_and_right, exists_or]

theorem isListedHeader_unionVec {a b : List String} {name : String} :
    isListedHeader (unionVec a b) name = true ↔
      isListedHeader a name = true ∨ isListedHeader b name = true := by
  have hadd (r : List String) (x y : String) :
      y ∈ pushDistinct r (toAsciiLowercase x) ↔ y ∈ r ∨ True ∧ y = toAsciiLowercase x := by
    simp [mem_pushDistinct]
  have hmem (y : String) : y ∈ unionVec a b ↔ ∃ x ∈ a ++ b, y = toAsciiLowercase x := by
    rw [unionVec, mem_foldl_iff hadd]
    simp
  rw [isListedHeader_iff, isListedHeader_iff, isListedHeader_iff, ← exists_mem_append]
  constructor
  · rintro ⟨y, hy, hname⟩
    obtain ⟨x, hx, rfl⟩ := (hmem y).mp hy
    exact ⟨x, hx, by rw [← hname, asciiLower_toAsciiLowercase]⟩
  · rintro ⟨x, hx, hname⟩
    exact ⟨toAsciiLowercase x, (hmem _).mpr ⟨x, hx, rfl⟩,
      by rw [asciiLower_toAsciiLowercase, hname]⟩

/-! ## Narrowing, set by set -/

theorem narrow_allows {α β : Type} {combine : α → β → α} {p : α → Bool} {q : β → Bool}
    (hcombine : ∀ a b, p (combine a b) = true → p a = true ∧ q b = true) {declared : α}
    {override : Option β} (h : p (narrow declared override combine) = true) :
    p declared = true ∧ override.all q = true := by
  rcases override with _ | o
  · exact ⟨h, rfl⟩
  · exact hcombine declared o h

theorem and_narrows (a b : Bool) (h : id (a && b) = true) : id a = true ∧ id b = true :=
  Bool.and_eq_true_iff.mp h

namespace BlockCapabilities

variable {parse : String → Option NetworkUrl}

theorem allows_intersect {a b : BlockCapabilities} {r : CapabilityRequest}
    (h : (a.intersect b).allows parse r = true) :
    a.allows parse r = true ∧ b.allows parse r = true := by
  cases r with
  | collection | configKey | vectorIndex | callBlock => exact Allowlist.allows_intersect h
  | rawSql | ddl | schema | crypto => exact and_narrows _ _ h
  | storageFolder => exact Allowlist.allowsStorageFolder_intersectPathPrefix h
  | networkUrl => exact Allowlist.allowsNetworkUrl_intersect h

theorem allows_applyConfigOverrides {d : BlockCapabilities} {o : ConfigCapabilityOverrides}
    {r : CapabilityRequest} (h : (d.applyConfigOverrides o).allows parse r = true) :
    d.allows parse r = true ∧ o.allows parse r = true := by
  cases r with
  | collection name | configKey name | vectorIndex name | callBlock name =>
    have hrule (a b : Allowlist) := @Allowlist.allows_intersect a b name
    exact narrow_allows (p := fun l : Allowlist ↦ l.allows name) hrule h
  | rawSql | ddl | schema | crypto => exact narrow_allows (p := id) and_narrows h
  | storageFolder resource =>
    have hrule (a b : Allowlist) :=
      @Allowlist.allowsStorageFolder_intersectPathPrefix a b resource
    exact narrow_allows (p := fun l : Allowlist ↦ l.allowsStorageFolder resource) hrule h
  | networkUrl url =>
    have hrule (a b : Allowlist) := @Allowlist.allowsNetworkUrl_intersect parse a b url
    exact narrow_allows (p := fun l : Allowlist ↦ l.allowsNetworkUrl parse url) hrule h

end BlockCapabilities

/-! ## What is effective -/

/-- A policy lets no header be read or written that another does not, and masks all it masks. -/
structure HeaderPolicy.Within (p q : HeaderPolicy) : Prop where
  readable : ∀ name, isListedHeader p.readable name = true → isListedHeader q.readable name = true
  writable : ∀ name, isListedHeader p.writable name = true → isListedHeader q.writable name = true
  masked : ∀ name, isListedHeader q.masked name = true → isListedHeader p.masked name = true

/-- The same for each list of headers that the operator wrote. -/
structure HeaderPolicy.WithinWritten (p : HeaderPolicy) (o : Option HeaderPolicyOverrides) :
    Prop where
  readable : ∀ names, o.bind (·.readable) = some names → ∀ name,
    isListedHeader p.readable name = true → isListedHeader names name = true
  writable : ∀ names, o.bind (·.writable) = some names → ∀ name,
    isListedHeader p.writable name = true → isListedHeader names name = true
  masked : ∀ names, o.bind (·.masked) = some names → ∀ name,
    isListedHeader names name = true → isListedHeader p.masked name = true

namespace HeaderPolicy.Within

variable {p q r : HeaderPolicy}

theorem trans (hpq : p.Within q) (hqr : q.Within r) : p.Within r :=
  ⟨fun name h ↦ hqr.readable name (hpq.readable name h),
    fun name h ↦ hqr.writable name (hpq.writable name h),
    fun name h ↦ hpq.masked name (hqr.masked name h)⟩

theorem written (hpq : p.Within q) {o : Option HeaderPolicyOverrides} (hq : q.WithinWritten o) :
    p.WithinWritten o :=
  ⟨fun names ho name h ↦ hq.readable names ho name (hpq.readable name h),
    fun names ho name h ↦ hq.writable names ho name (hpq.writable name h),
    fun names ho name h ↦ hpq.masked name (hq.masked names ho name h)⟩

end HeaderPolicy.Within

namespace BlockCapabilities

theorem headers_intersect (a b : BlockCapabilities) :
    (a.intersect b).headers.Within a.headers ∧ (a.intersect b).headers.Within b.headers :=
  ⟨⟨fun _ h ↦ (isListedHeader_intersectVec.mp h).1, fun _ h ↦ (isListedHeader_intersectVec.mp h).1,
      fun _ h ↦ isListedHeader_unionVec.mpr (.inl h)⟩,
    ⟨fun _ h ↦ (isListedHeader_intersectVec.mp h).2, fun _ h ↦ (isListedHeader_intersectVec.mp h).2,
      fun _ h ↦ isListedHeader_unionVec.mpr (.inr h)⟩⟩

theorem isListedHeader_narrow {declared : List String} {override : Option (List String)}
    {name : String} (h : isListedHeader (narrow declared override intersectVec) name = true) :
    isListedHeader declared name = true ∧
      ∀ names, override = some names → isListedHeader names name = true := by
  rcases override with _ | names
  · exact ⟨h, by simp⟩
  · obtain ⟨hdeclared, hnames⟩ := isListedHeader_intersectVec.mp h
    exact ⟨hdeclared, by rintro _ ⟨⟩; exact hnames⟩

theorem isListedHeader_narrow_unionVec {declared : List String} {override : Option (List String)}
    {name : String} (h : isListedHeader declared name = true ∨
      ∃ names, override = some names ∧ isListedHeader names name = true) :
    isListedHeader (narrow declared override unionVec) name = true := by
  rcases override with _ | names
  · simpa [narrow] using h
  · rw [narrow, isListedHeader_unionVec]
    rcases h with h | ⟨_, ⟨⟩, h⟩
    · exact .inl h
    · exact .inr h

theorem headers_applyConfigOverrides (d : BlockCapabilities) (o : ConfigCapabilityOverrides) :
    (d.applyConfigOverrides o).headers.Within d.headers ∧
      (d.applyConfigOverrides o).headers.WithinWritten o.headers :=
  ⟨⟨fun _ h ↦ (isListedHeader_narrow h).1, fun _ h ↦ (isListedHeader_narrow h).1,
      fun _ h ↦ isListedHeader_narrow_unionVec (.inl h)⟩,
    ⟨fun names ho _ h ↦ (isListedHeader_narrow h).2 names ho,
      fun names ho _ h ↦ (isListedHeader_narrow h).2 names ho,
      fun names ho _ h ↦ isListedHeader_narrow_unionVec (.inr ⟨names, ho, h⟩)⟩⟩

end BlockCapabilities

/-- **Effective capabilities only narrow.** A request that a block is allowed once the runtime is
sealed is allowed by what the block declares, by each field the operator wrote and, for a guest, by
its bound. No sensitive header can be read or written that one of them does not name, and a header
that one of them masks is masked. -/
theorem effectiveCapabilities_narrow (parse : String → Option NetworkUrl) (runtime : BlockRuntime)
    (capabilities : Option BlockCapabilities) (overrides : ConfigCapabilityOverrides)
    (bound : Option BlockCapabilities) :
    (∀ r, (effectiveCapabilities runtime capabilities overrides bound).allows parse r = true →
        (declaredCapabilities runtime capabilities).allows parse r = true ∧
          overrides.allows parse r = true ∧
          (runtime = .wasm → (capabilityBound overrides bound).allows parse r = true)) ∧
      (effectiveCapabilities runtime capabilities overrides bound).headers.Within
        (declaredCapabilities runtime capabilities).headers ∧
      (effectiveCapabilities runtime capabilities overrides bound).headers.WithinWritten
        overrides.headers ∧
      (runtime = .wasm →
        (effectiveCapabilities runtime capabilities overrides bound).headers.Within
          (capabilityBound overrides bound).headers) := by
  obtain ⟨hwithin, hwritten⟩ :=
    (declaredCapabilities runtime capabilities).headers_applyConfigOverrides overrides
  by_cases hwasm : runtime = .wasm
  · obtain ⟨hbound, heff⟩ := (capabilityBound overrides bound).headers_intersect
      ((declaredCapabilities runtime capabilities).applyConfigOverrides overrides)
    simp only [effectiveCapabilities, if_pos hwasm]
    refine ⟨fun r h ↦ ?_, heff.trans hwithin, heff.written hwritten, fun _ ↦ hbound⟩
    obtain ⟨hb, he⟩ := BlockCapabilities.allows_intersect h
    obtain ⟨hd, ho⟩ := BlockCapabilities.allows_applyConfigOverrides he
    exact ⟨hd, ho, fun _ ↦ hb⟩
  · simp only [effectiveCapabilities, if_neg hwasm]
    refine ⟨fun r h ↦ ?_, hwithin, hwritten, fun h ↦ absurd h hwasm⟩
    obtain ⟨hd, ho⟩ := BlockCapabilities.allows_applyConfigOverrides h
    exact ⟨hd, ho, fun h ↦ absurd h hwasm⟩

end WaferRun

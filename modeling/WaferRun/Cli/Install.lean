import WaferRun.Cli.Lockfile
import WaferRun.Lib.Fallible

/-!
# Installing a package into the cache

`install_cache_only` finds out which version to install, from the lockfile if that pins the version
and the cache has it, else from the registry. Under the cache's lock it downloads the tarball,
checks its digest against the registry's, unpacks it into the cache and records the package.

The registry may answer anything (`Answers`). The digest it reports is held against the lockfile's
pin, but the version it reports takes the place of the one that was asked for. A call does what
it is asked exactly if the registry names the version it was asked for, or is not asked
(`install_keeps_pin_iff`).
-/

open Option Fallible

namespace WaferRun.Install

variable {κ ν : Type}

/-- The digest, the reading of versions and the unpacking of tarballs (`sha256_hex`,
`Version::parse`, `extract_tarball`). Of an unpacked package the entries of its directory count:
files with their content, and directories. -/
structure Tools (ν : Type) where
  sha256Hex : List UInt8 → String
  parseVersion : String → Option ν
  unpack : List UInt8 → Option (List (List Char × Option (List UInt8)))

abbrev PackageDir := List (List Char × Option (List UInt8))

structure VersionDetail where
  version : String
  sha256 : String
  sizeBytes : ℤ
  yanked : ℤ

inductive InstallError
  | lockfile (error : LoadError)
  | invalidVersion (name version : String)
  | registry
  | registryVersion (name version : String)
  | noVersions (name : String)
  | pinMismatch (name version pinned reported : String)
  | invalidSegment (field value : String)
  | lock
  | removeStale
  | download
  | integrity
  | extract
  | promote
  | noArtifact
  | manyArtifacts
  | readArtifact
  | write
  deriving DecidableEq, Repr

/-- What the registry and the filesystem answer during one install; `none` and `false` stand for
failures. A directory that could not be removed is left as `leftover` says. -/
structure Answers where
  version : Option VersionDetail
  package : Option (List VersionDetail)
  tarball : Option (List UInt8)
  locked : Bool
  removed : Bool
  leftover : PackageDir
  promoted : Bool
  written : Bool

structure InstallOutcome where
  org : String
  block : String
  version : String
  sha256 : String
  fromCache : Bool
  deriving DecidableEq, Repr

/-- The version an install is about, with its digest and the size of its tarball. -/
structure Resolved where
  version : String
  sha256 : String
  sizeBytes : ℤ
  deriving DecidableEq, Repr

/-- A tarball that was unpacked into the cache. -/
structure Promotion where
  name : String
  version : String
  tarball : List UInt8
  deriving DecidableEq, Repr

/-- The lockfile and the cache. `promoted` records what was unpacked into the cache. -/
structure World (κ : Type) where
  file : LockText κ
  cache : String → String → Option PackageDir
  promoted : List Promotion

/-! ## Names and paths -/

def packageName (org block : String) : String := org ++ "/" ++ block

def isValidPathSegment (s : String) : Bool :=
  s ≠ "" ∧ s ≠ "." ∧ s ≠ ".." ∧ '/' ∉ s.toList

def validateSegment (field value : String) : Except InstallError Unit :=
  if isValidPathSegment value then .ok () else .error (.invalidSegment field value)

/-- The checks of `package_dir`. -/
def packageDir (org block version : String) : Except InstallError Unit := do
  validateSegment "org" org
  validateSegment "block" block
  validateSegment "version" version

def isPopulated (cache : String → String → Option PackageDir) (org block version : String) :
    Except InstallError Bool := do
  packageDir org block version
  .ok (cache (packageName org block) version).isSome

/-! ## Before the lock -/

/-- `pick_latest_non_yanked`: of the versions that can be read the greatest, of equals the last. -/
def pickLatestNonYanked [LinearOrder ν] (tools : Tools ν) (versions : List VersionDetail) :
    Option VersionDetail :=
  let read := (versions.filter fun v ↦ v.yanked = 0).filterMap fun v ↦
    (tools.parseVersion v.version).map fun parsed ↦ (parsed, v)
  (read.foldl (fun best v ↦
    match best with
    | none => some v
    | some b => if v.1 < b.1 then some b else some v) none).map Prod.snd

/-- `ensure_lock_pin`: the registry must report the digest that is pinned. -/
def ensureLockPin (lf : Lockfile κ) (name version reported : String) : Except InstallError Unit :=
  match lf.pinned? name version with
  | some pinned =>
    if pinned.sha256 ≠ reported then
      .error (.pinMismatch name version pinned.sha256 reported)
    else .ok ()
  | none => .ok ()

def maxPackageBytes : ℕ := 64 * 1024 * 1024

def downloadCap (sizeBytes : ℤ) : ℕ :=
  if 0 < sizeBytes ∧ sizeBytes ≤ maxPackageBytes then sizeBytes.toNat else maxPackageBytes

def cacheHit (cache : String → String → Option PackageDir) (lf : Lockfile κ)
    (org block version : String) : Except InstallError (Option String) := do
  let populated ← isPopulated cache org block version
  .ok (if populated then
    (lf.pinned? (packageName org block) version).map LockfilePackage.sha256 else none)

def fastPath (tools : Tools ν) (cache : String → String → Option PackageDir) (lf : Lockfile κ)
    (org block version : String) : Except InstallError (Option InstallOutcome) :=
  if (tools.parseVersion version).isNone then
    .error (.invalidVersion (packageName org block) version)
  else
    match lf.pinned? (packageName org block) version with
    | none => .ok none
    | some entry => do
      let populated ← isPopulated cache org block version
      .ok (if populated then some ⟨org, block, entry.version, entry.sha256, true⟩ else none)

def resolve [LinearOrder ν] (tools : Tools ν) (answers : Answers) (org block : String) :
    Option String → Except InstallError Resolved
  | some _ =>
    match answers.version with
    | none => .error .registry
    | some vd =>
      if (tools.parseVersion vd.version).isNone then
        .error (.registryVersion (packageName org block) vd.version)
      else .ok ⟨vd.version, vd.sha256, vd.sizeBytes⟩
  | none =>
    match answers.package with
    | none => .error .registry
    | some versions =>
      match pickLatestNonYanked tools versions with
      | none => .error (.noVersions (packageName org block))
      | some pick => .ok ⟨pick.version, pick.sha256, pick.sizeBytes⟩

def tryFastPath (tools : Tools ν) (cache : String → String → Option PackageDir) (lf : Lockfile κ)
    (org block : String) : Option String → Except InstallError (Option InstallOutcome)
  | some version => fastPath tools cache lf org block version
  | none => .ok none

/-- The cache is answered from if the lockfile's digest is the registry's. -/
def fromCache? (org block : String) (r : Resolved) (hit : Option String) :
    InstallOutcome ⊕ Resolved :=
  if hit = some r.sha256 then .inl ⟨org, block, r.version, r.sha256, true⟩ else .inr r

/-- What the registry's answer comes to: the pin is the authority, then the cache is looked at. -/
def afterRegistry [LinearOrder ν] (tools : Tools ν) (answers : Answers)
    (cache : String → String → Option PackageDir) (lf : Lockfile κ) (org block : String)
    (req : Option String) : Except InstallError (InstallOutcome ⊕ Resolved) := do
  let r ← resolve tools answers org block req
  ensureLockPin lf (packageName org block) r.version r.sha256
  let hit ← cacheHit cache lf org block r.version
  .ok (fromCache? org block r hit)

def loadLockfile (file : LockText κ) : Except InstallError (Lockfile κ) :=
  file.load.mapError .lockfile

/-- Steps 1 to 4 of `install_cache_only`. -/
def beforeLock [LinearOrder ν] (tools : Tools ν) (answers : Answers) (w : World κ)
    (org block : String) (req : Option String) :
    Except InstallError (InstallOutcome ⊕ Resolved) := do
  let pre ← loadLockfile w.file
  let fast ← tryFastPath tools w.cache pre org block req
  match fast with
  | some outcome => .ok (.inl outcome)
  | none => afterRegistry tools answers w.cache pre org block req

/-! ## Under the lock -/

def Lockfile.vouches (lf : Lockfile κ) (name : String) (r : Resolved) : Bool :=
  lf.packages.any fun p ↦ p.name = name ∧ p.version = r.version ∧ p.sha256 = r.sha256

def lockedLoad (file : LockText κ) (name : String) (r : Resolved) :
    Except InstallError (Lockfile κ) := do
  let lf ← loadLockfile file
  ensureLockPin lf name r.version r.sha256
  .ok lf

def vouched (cache : String → String → Option PackageDir) (lf : Lockfile κ) (org block : String)
    (r : Resolved) : Except InstallError Bool := do
  packageDir org block r.version
  .ok ((cache (packageName org block) r.version).isSome && lf.vouches (packageName org block) r)

def recheck (w : World κ) (org block : String) (r : Resolved) :
    Except InstallError (InstallOutcome ⊕ Lockfile κ) := do
  let lf ← lockedLoad w.file (packageName org block) r
  let vouches ← vouched w.cache lf org block r
  .ok (if vouches then .inl ⟨org, block, r.version, r.sha256, true⟩ else .inr lf)

def World.setDir (w : World κ) (name version : String) (dir : Option PackageDir) : World κ :=
  { w with cache := Function.update w.cache name (Function.update (w.cache name) version dir) }

def removeStale (answers : Answers) (w : World κ) (name version : String) :
    Except InstallError Unit × World κ :=
  if (w.cache name version).isNone then (.ok (), w)
  else if answers.removed then (.ok (), w.setDir name version none)
  else (.error .removeStale, w.setDir name version (some answers.leftover))

/-- `download_tarball` and the checks of `verify_and_promote` before anything is in place. -/
def fetch (tools : Tools ν) (answers : Answers) (r : Resolved) :
    Except InstallError (List UInt8 × PackageDir) :=
  match answers.tarball with
  | none => .error .download
  | some bytes =>
    if bytes.length > downloadCap r.sizeBytes then .error .download
    else if tools.sha256Hex bytes ≠ r.sha256 then .error .integrity
    else
      match tools.unpack bytes with
      | none => .error .extract
      | some dir => if answers.promoted then .ok (bytes, dir) else .error .promote

/-- The rename of `verify_and_promote`. -/
def World.promote (w : World κ) (name version : String) (fetched : List UInt8 × PackageDir) :
    World κ :=
  { w.setDir name version (some fetched.2) with
    promoted := ⟨name, version, fetched.1⟩ :: w.promoted }

/-- Whether an entry of a directory is named `*.wasm`. -/
def isWasm (name : List Char) : Bool := ".wasm".toList <:+ name ∧ name ≠ ".wasm".toList

def wasmArtifactDigest (tools : Tools ν) (dir : PackageDir) : Except InstallError String :=
  match dir.filter fun entry ↦ isWasm entry.1 with
  | [] => .error .noArtifact
  | [(_, some bytes)] => .ok (tools.sha256Hex bytes)
  | [(_, none)] => .error .readArtifact
  | _ => .error .manyArtifacts

def lockfileEntry (registry name : String) (r : Resolved) (wasmSha256 : String) :
    LockfilePackage κ :=
  ⟨name, r.version, r.sha256, wasmSha256, "registry+" ++ registry, none⟩

/-- The digest of the artifact, the entry, and the lockfile put in place. -/
def recordInstall (tools : Tools ν) (registry : String) (answers : Answers) (w : World κ)
    (lf : Lockfile κ) (org block : String) (r : Resolved) (dir : PackageDir) :
    Except InstallError InstallOutcome × World κ :=
  match wasmArtifactDigest tools dir with
  | .error e => (.error e, w)
  | .ok wasmSha256 =>
    if answers.written then
      (.ok ⟨org, block, r.version, r.sha256, false⟩,
        { w with file := (lf.recordResolved
            (lockfileEntry registry (packageName org block) r wasmSha256)).write })
    else (.error .write, w)

def installFresh (tools : Tools ν) (registry : String) (answers : Answers) (w : World κ)
    (lf : Lockfile κ) (org block : String) (r : Resolved) :
    Except InstallError InstallOutcome × World κ :=
  match removeStale answers w (packageName org block) r.version with
  | (.error e, w₁) => (.error e, w₁)
  | (.ok (), w₁) =>
    match fetch tools answers r with
    | .error e => (.error e, w₁)
    | .ok fetched =>
      recordInstall tools registry answers
        (w₁.promote (packageName org block) r.version fetched) lf org block r fetched.2

/-- Steps 5 and 6 of `install_cache_only`. -/
def underLock (tools : Tools ν) (registry : String) (answers : Answers) (w : World κ)
    (org block : String) (r : Resolved) : Except InstallError InstallOutcome × World κ :=
  if answers.locked then
    match recheck w org block r with
    | .error e => (.error e, w)
    | .ok (.inl outcome) => (.ok outcome, w)
    | .ok (.inr lf) => installFresh tools registry answers w lf org block r
  else (.error .lock, w)

/-- `install_cache_only`, while no other process touches the lockfile or the cache. -/
def installCacheOnly [LinearOrder ν] (tools : Tools ν) (registry : String) (answers : Answers)
    (w : World κ) (org block : String) (req : Option String) :
    Except InstallError InstallOutcome × World κ :=
  match beforeLock tools answers w org block req with
  | .error e => (.error e, w)
  | .ok (.inl outcome) => (.ok outcome, w)
  | .ok (.inr r) => underLock tools registry answers w org block r

/-! ## What an install keeps -/

/-- The entry `p` of the lockfile `lf'` for a package, beside the lockfile `lf` it comes from: in
the version, with the digest that was pinned, with the operator's capabilities, beside the same
entries of other packages; and what was unpacked into the cache has its digest. -/
structure Pinned (tools : Tools ν) (w w' : World κ) (name version : String) (lf lf' : Lockfile κ)
    (p : LockfilePackage κ) : Prop where
  named : p.name = name
  versioned : p.version = version
  sha256 : ∀ q ∈ lf.packages, q.name = name → q.version = version → q.sha256 = p.sha256
  capabilities : ∀ q ∈ lf.packages, q.name = name → q.capabilities = p.capabilities
  others : ∀ q, q.name ≠ name → (q ∈ lf'.packages ↔ q ∈ lf.packages)
  extracted : ∀ x ∈ w'.promoted, x ∈ w.promoted ∨
    x.name = name ∧ x.version = version ∧ tools.sha256Hex x.tarball = p.sha256

/-- After the install the lockfile has one entry for the package, which is pinned. -/
def KeepsPin (tools : Tools ν) (w w' : World κ) (name version : String) : Prop :=
  ∃ lf lf' p, w.file.load = .ok lf ∧ w'.file.load = .ok lf' ∧ DistinctNames lf'.packages ∧
    p ∈ lf'.packages ∧ Pinned tools w w' name version lf lf' p

section Facts

variable {tools : Tools ν} {answers : Answers} {w w' : World κ} {lf : Lockfile κ}
  {org block name version : String} {r : Resolved} {outcome : InstallOutcome}

theorem KeepsPin.version_unique {version' : String} (h : KeepsPin tools w w' name version)
    (h' : KeepsPin tools w w' name version') : version = version' := by
  obtain ⟨_, lf', p, _, hload, hdistinct, hp, hpin⟩ := h
  obtain ⟨_, lf'', p', _, hload', _, hp', hpin'⟩ := h'
  obtain rfl := Except.ok.inj (hload.symm.trans hload')
  rw [← hpin.versioned, ← hpin'.versioned,
    hdistinct.eq hp hp' (hpin.named.trans hpin'.named.symm)]

theorem load_eq_ok {file : LockText κ} (h : loadLockfile file = .ok lf) : file.load = .ok lf :=
  mapError_eq_ok.mp h

theorem version_of_load {file : LockText κ} (h : file.load = .ok lf) :
    lf.version = schemaVersion := by
  unfold LockText.load at h
  split at h
  · rw [← Except.ok.inj h, Lockfile.new]
  · exact absurd h nofun
  · split at h
    · exact absurd h nofun
    · rename_i hversion
      exact Except.ok.inj h ▸ not_ne_iff.mp hversion

theorem load_write (h : lf.version = schemaVersion) :
    lf.write.load = .ok { lf with packages := sortPackages lf.packages } := by
  rw [Lockfile.write, LockText.load, if_neg (not_ne_iff.mpr h)]

theorem pinned?_spec {p : LockfilePackage κ} (h : lf.pinned? name version = some p) :
    p ∈ lf.packages ∧ p.name = name ∧ p.version = version := by
  have hnames : p.name = name ∧ p.version = version := by simpa using List.find?_some h
  exact ⟨List.mem_of_find?_eq_some h, hnames⟩

theorem keepsPin_self (hload : w.file.load = .ok lf) (hdistinct : DistinctNames lf.packages)
    {p : LockfilePackage κ} (hp : p ∈ lf.packages) :
    KeepsPin tools w w p.name p.version := by
  refine ⟨lf, lf, p, hload, hload, hdistinct, hp, rfl, rfl, ?_, ?_, fun _ _ ↦ Iff.rfl, ?_⟩
  · exact fun q hq hname _ ↦ congrArg _ (hdistinct.eq hq hp hname)
  · exact fun q hq hname ↦ congrArg _ (hdistinct.eq hq hp hname)
  · exact fun x hx ↦ Or.inl hx

theorem sha256_of_ensureLockPin {reported : String} (hdistinct : DistinctNames lf.packages)
    (h : ensureLockPin lf name version reported = .ok ()) :
    ∀ q ∈ lf.packages, q.name = name → q.version = version → q.sha256 = reported := by
  intro q hq hname hversion
  have hsome : (lf.pinned? name version).isSome :=
    List.find?_isSome.mpr ⟨q, hq, decide_eq_true ⟨hname, hversion⟩⟩
  obtain ⟨p, hp⟩ := isSome_iff_exists.mp hsome
  obtain ⟨hmem, hpname, -⟩ := pinned?_spec hp
  rw [hdistinct.eq hq hmem (hname.trans hpname.symm)]
  unfold ensureLockPin at h
  rw [hp] at h
  dsimp only at h
  split at h
  · exact absurd h nofun
  · rename_i hsha
    exact not_ne_iff.mp hsha

theorem tryFastPath_ok {req : Option String}
    (h : tryFastPath tools w.cache lf org block req = .ok (some outcome)) :
    ∃ version, req = some version ∧ outcome.version = version ∧
      ∃ p ∈ lf.packages, p.name = packageName org block ∧ p.version = version ∧
        (w.cache (packageName org block) version).isSome := by
  unfold tryFastPath at h
  split at h
  · rename_i version
    unfold fastPath at h
    split at h
    · exact absurd h nofun
    · split at h
      · exact absurd (Except.ok.inj h) nofun
      · rename_i entry hentry
        obtain ⟨populated, hpopulated, h⟩ := bind_eq_ok.mp h
        obtain ⟨-, -, hcache⟩ := bind_eq_ok.mp hpopulated
        obtain ⟨hmem, hname, hversion⟩ := pinned?_spec hentry
        obtain ⟨hp, hout⟩ := ite_none_right_eq_some.mp (Except.ok.inj h)
        refine ⟨version, rfl, ?_, entry, hmem, hname, hversion, ?_⟩
        · rw [← some.inj hout]
          exact hversion
        · rw [Except.ok.inj hcache]
          exact hp
  · exact absurd (Except.ok.inj h) nofun

theorem cacheHit_ok {sha : String}
    (h : cacheHit w.cache lf org block version = .ok (some sha)) :
    ∃ p ∈ lf.packages, p.name = packageName org block ∧ p.version = version ∧ p.sha256 = sha := by
  obtain ⟨populated, -, h⟩ := bind_eq_ok.mp h
  obtain ⟨-, h⟩ := ite_none_right_eq_some.mp (Except.ok.inj h)
  obtain ⟨p, hp, hsha⟩ := map_eq_some_iff.mp h
  obtain ⟨hmem, hname, hversion⟩ := pinned?_spec hp
  exact ⟨p, hmem, hname, hversion, hsha⟩

theorem afterRegistry_ok [LinearOrder ν] {req : Option String} {result : InstallOutcome ⊕ Resolved}
    (h : afterRegistry tools answers w.cache lf org block req = .ok result) :
    ∃ r, resolve tools answers org block req = .ok r ∧
      (result = .inr r ∨ ∃ outcome, result = .inl outcome ∧ outcome.version = r.version ∧
        ∃ p ∈ lf.packages, p.name = packageName org block ∧ p.version = r.version) := by
  obtain ⟨r, hr, h⟩ := bind_eq_ok.mp h
  obtain ⟨-, -, h⟩ := bind_eq_ok.mp h
  obtain ⟨hit, hhit, h⟩ := bind_eq_ok.mp h
  refine ⟨r, hr, ?_⟩
  rw [← Except.ok.inj h, fromCache?]
  split
  · rename_i hsome
    obtain ⟨p, hp, hname, hversion, -⟩ := cacheHit_ok (hsome ▸ hhit)
    exact Or.inr ⟨_, rfl, rfl, p, hp, hname, hversion⟩
  · exact Or.inl rfl

/-- What comes before the lock ends with an entry of the lockfile, or with what the registry
resolved. -/
theorem beforeLock_ok [LinearOrder ν] {req : Option String} {result : InstallOutcome ⊕ Resolved}
    (h : beforeLock tools answers w org block req = .ok result) :
    ∃ lf, w.file.load = .ok lf ∧
      (result.elim (fun outcome ↦ ∃ p ∈ lf.packages, p.name = packageName org block ∧
        p.version = outcome.version) fun r ↦ resolve tools answers org block req = .ok r) := by
  obtain ⟨lf, hload, h⟩ := bind_eq_ok.mp h
  obtain ⟨fast, hfast, h⟩ := bind_eq_ok.mp h
  refine ⟨lf, load_eq_ok hload, ?_⟩
  cases fast with
  | some outcome =>
    obtain ⟨version, -, hversion, p, hp, hname, hpversion, -⟩ := tryFastPath_ok hfast
    rw [← Except.ok.inj h]
    exact ⟨p, hp, hname, hpversion.trans hversion.symm⟩
  | none =>
    obtain ⟨r, hr, rfl | ⟨outcome, rfl, hversion, p, hp, hname, hpversion⟩⟩ := afterRegistry_ok h
    · exact hr
    · exact ⟨p, hp, hname, hpversion.trans hversion.symm⟩

theorem lockedLoad_ok {file : LockText κ} (h : lockedLoad file name r = .ok lf) :
    file.load = .ok lf ∧ ensureLockPin lf name r.version r.sha256 = .ok () := by
  obtain ⟨lf', hload, h⟩ := bind_eq_ok.mp h
  obtain ⟨hpin, h⟩ := check_bind_eq_ok.mp h
  obtain rfl := Except.ok.inj h
  exact ⟨load_eq_ok hload, hpin⟩

theorem vouched_ok {vouches : Bool} (h : vouched w.cache lf org block r = .ok vouches) :
    vouches = true ↔ (w.cache (packageName org block) r.version).isSome = true ∧
      ∃ p ∈ lf.packages, p.name = packageName org block ∧ p.version = r.version ∧
        p.sha256 = r.sha256 := by
  obtain ⟨-, h⟩ := check_bind_eq_ok.mp h
  rw [← Except.ok.inj h, Bool.and_eq_true, Lockfile.vouches, List.any_eq_true]
  simp only [decide_eq_true_eq]

/-- The lock finds an entry that vouches for the cache, or a lockfile whose pin allows the
digest. -/
theorem recheck_ok {result : InstallOutcome ⊕ Lockfile κ}
    (h : recheck w org block r = .ok result) :
    ∃ lf, w.file.load = .ok lf ∧
      ensureLockPin lf (packageName org block) r.version r.sha256 = .ok () ∧
      (result = .inr lf ∨ ∃ outcome, result = .inl outcome ∧ outcome.version = r.version ∧
        ∃ p ∈ lf.packages, p.name = packageName org block ∧ p.version = r.version) := by
  obtain ⟨lf, hlf, h⟩ := bind_eq_ok.mp h
  obtain ⟨vouches, hvouches, h⟩ := bind_eq_ok.mp h
  obtain ⟨hload, hpin⟩ := lockedLoad_ok hlf
  refine ⟨lf, hload, hpin, ?_⟩
  rw [← Except.ok.inj h]
  split
  · rename_i htrue
    obtain ⟨-, p, hp, hname, hversion, -⟩ := (vouched_ok hvouches).mp htrue
    exact Or.inr ⟨_, rfl, rfl, p, hp, hname, hversion⟩
  · exact Or.inl rfl

theorem fetch_ok {fetched : List UInt8 × PackageDir} (h : fetch tools answers r = .ok fetched) :
    tools.sha256Hex fetched.1 = r.sha256 ∧ tools.unpack fetched.1 = some fetched.2 := by
  unfold fetch at h
  split at h
  · exact absurd h nofun
  · split at h
    · exact absurd h nofun
    · split at h
      · exact absurd h nofun
      · rename_i hsha
        split at h
        · exact absurd h nofun
        · rename_i hunpack
          split at h
          · exact Except.ok.inj h ▸ ⟨not_ne_iff.mp hsha, hunpack⟩
          · exact absurd h nofun

theorem removeStale_frame : (removeStale answers w name version).2.file = w.file ∧
    (removeStale answers w name version).2.promoted = w.promoted := by
  unfold removeStale
  split
  · exact ⟨rfl, rfl⟩
  · split <;> exact ⟨rfl, rfl⟩

/-- **Recording.** The package is pinned in the version and with the digest of the tarball. -/
theorem keepsPin_recordInstall {w₁ : World κ} {registry : String}
    {fetched : List UInt8 × PackageDir} (hload : w.file.load = .ok lf)
    (hdistinct : DistinctNames lf.packages)
    (hpin : ensureLockPin lf (packageName org block) r.version r.sha256 = .ok ())
    (hpromoted : w₁.promoted = w.promoted) (hfetched : tools.sha256Hex fetched.1 = r.sha256)
    (h : recordInstall tools registry answers (w₁.promote (packageName org block) r.version fetched)
      lf org block r fetched.2 = (.ok outcome, w')) :
    outcome.version = r.version ∧ KeepsPin tools w w' (packageName org block) r.version := by
  unfold recordInstall at h
  split at h
  · exact absurd (Prod.mk.inj h).1 nofun
  · rename_i wasmSha256 _
    split at h
    · obtain ⟨hout, rfl⟩ := Prod.mk.inj h
      refine ⟨(congrArg InstallOutcome.version (Except.ok.inj hout)).symm, ?_⟩
      set entry : LockfilePackage κ :=
        lockfileEntry registry (packageName org block) r wasmSha256 with hentry
      have hnames := Lockfile.distinctNames_recordResolved hdistinct entry
      have hmem {q : LockfilePackage κ} : q ∈ sortPackages (lf.recordResolved entry).packages ↔
          q = lf.carry entry ∨ q ∈ lf.packages ∧ q.name ≠ packageName org block :=
        mem_sortPackages.trans (Lockfile.mem_recordResolved hdistinct)
      have hversion : lf.version = schemaVersion := version_of_load hload
      refine ⟨lf, _, lf.carry entry, hload,
        load_write (show (lf.recordResolved entry).version = _ from hversion),
        distinctNames_sortPackages.mpr hnames, hmem.mpr (Or.inl rfl), ?_⟩
      exact {
        named := lf.carry_name entry
        versioned := lf.carry_version entry
        sha256 := fun q hq hname hversion ↦
          (sha256_of_ensureLockPin hdistinct hpin q hq hname hversion).trans
            (lf.carry_sha256 entry).symm
        capabilities := fun q hq hname ↦ (Lockfile.carry_capabilities hdistinct hq hname).symm
        others := fun q hq ↦ hmem.trans ⟨fun hor ↦ hor.elim
          (fun heq ↦ absurd (heq ▸ lf.carry_name entry) hq) And.left,
          fun hold ↦ Or.inr ⟨hold, hq⟩⟩
        extracted := fun x hx ↦ by
          rcases List.mem_cons.mp hx with rfl | hx
          · exact Or.inr ⟨rfl, rfl, hfetched.trans (lf.carry_sha256 entry).symm⟩
          · exact Or.inl (hpromoted ▸ hx) }
    · exact absurd (Prod.mk.inj h).1 nofun

theorem file_of_recordInstall {registry : String} {dir : PackageDir} {e : InstallError}
    (h : recordInstall tools registry answers w lf org block r dir = (.error e, w')) :
    w'.file = w.file := by
  unfold recordInstall at h
  split at h
  · rw [← (Prod.mk.inj h).2]
  · split at h
    · exact absurd (Prod.mk.inj h).1 nofun
    · rw [← (Prod.mk.inj h).2]

/-- An install that has its lockfile under the lock pins the version that was resolved, or leaves
the lockfile. -/
theorem installFresh_spec {registry : String} {result : Except InstallError InstallOutcome}
    (hload : w.file.load = .ok lf) (hdistinct : DistinctNames lf.packages)
    (hpin : ensureLockPin lf (packageName org block) r.version r.sha256 = .ok ())
    (h : installFresh tools registry answers w lf org block r = (result, w')) :
    (∀ e, result = .error e → w'.file = w.file) ∧ ∀ outcome, result = .ok outcome →
      outcome.version = r.version ∧ KeepsPin tools w w' (packageName org block) r.version := by
  unfold installFresh at h
  cases hstale : removeStale answers w (packageName org block) r.version with
  | mk removed w₁ =>
    obtain ⟨hfile, hpromoted⟩ : w₁.file = w.file ∧ w₁.promoted = w.promoted := by
      rw [← Prod.mk.eta (p := removeStale answers w (packageName org block) r.version)] at hstale
      rw [← (Prod.mk.inj hstale).2]
      exact removeStale_frame
    rw [hstale] at h
    rcases removed with e | ⟨⟩
    · obtain ⟨rfl, rfl⟩ := Prod.mk.inj h
      exact ⟨fun _ _ ↦ hfile, fun _ hok ↦ absurd hok nofun⟩
    · dsimp only at h
      split at h
      · obtain ⟨rfl, rfl⟩ := Prod.mk.inj h
        exact ⟨fun _ _ ↦ hfile, fun _ hok ↦ absurd hok nofun⟩
      · rename_i fetched hfetched
        refine ⟨?_, ?_⟩
        · rintro e rfl
          exact (file_of_recordInstall h).trans hfile
        · rintro outcome rfl
          exact keepsPin_recordInstall hload hdistinct hpin hpromoted (fetch_ok hfetched).1 h

theorem underLock_spec {registry : String} {result : Except InstallError InstallOutcome}
    (hdistinct : ∀ lf, w.file.load = .ok lf → DistinctNames lf.packages)
    (h : underLock tools registry answers w org block r = (result, w')) :
    (∀ e, result = .error e → w'.file = w.file) ∧ ∀ outcome, result = .ok outcome →
      outcome.version = r.version ∧ KeepsPin tools w w' (packageName org block) r.version := by
  unfold underLock at h
  split at h
  · split at h
    · obtain ⟨rfl, rfl⟩ := Prod.mk.inj h
      exact ⟨fun _ _ ↦ rfl, fun _ hok ↦ absurd hok nofun⟩
    · rename_i outcome hcheck
      obtain ⟨rfl, rfl⟩ := Prod.mk.inj h
      obtain ⟨lf, hload, -, hfresh | ⟨_, hout, hversion, p, hp, hname, hpversion⟩⟩ :=
        recheck_ok hcheck
      · exact absurd hfresh nofun
      · refine ⟨fun _ herror ↦ absurd herror nofun, fun outcome' hok ↦ ?_⟩
        obtain rfl := Sum.inl.inj hout
        rw [← Except.ok.inj hok, ← hname, ← hpversion]
        exact ⟨hversion.trans hpversion.symm, keepsPin_self hload (hdistinct lf hload) hp⟩
    · rename_i lf hcheck
      obtain ⟨lf', hload, hpin, hlf | ⟨_, hout, -⟩⟩ := recheck_ok hcheck
      · obtain rfl := Sum.inr.inj hlf
        exact installFresh_spec hload (hdistinct lf hload) hpin h
      · exact absurd hout nofun
  · obtain ⟨rfl, rfl⟩ := Prod.mk.inj h
    exact ⟨fun _ _ ↦ rfl, fun _ hok ↦ absurd hok nofun⟩

theorem installCacheOnly_spec [LinearOrder ν] {registry : String} {req : Option String}
    {result : Except InstallError InstallOutcome}
    (hdistinct : ∀ lf, w.file.load = .ok lf → DistinctNames lf.packages)
    (h : installCacheOnly tools registry answers w org block req = (result, w')) :
    (∀ e, result = .error e → w'.file = w.file) ∧ ∀ outcome, result = .ok outcome →
      KeepsPin tools w w' (packageName org block) outcome.version := by
  unfold installCacheOnly at h
  split at h
  · obtain ⟨rfl, rfl⟩ := Prod.mk.inj h
    exact ⟨fun _ _ ↦ rfl, fun _ hok ↦ absurd hok nofun⟩
  · rename_i outcome hbefore
    obtain ⟨rfl, rfl⟩ := Prod.mk.inj h
    obtain ⟨lf, hload, p, hp, hname, hversion⟩ := beforeLock_ok hbefore
    refine ⟨fun _ herror ↦ absurd herror nofun, fun outcome' hok ↦ ?_⟩
    rw [← Except.ok.inj hok, ← hname, ← hversion]
    exact keepsPin_self hload (hdistinct lf hload) hp
  · obtain ⟨hfails, hpins⟩ := underLock_spec hdistinct h
    refine ⟨hfails, fun outcome hok ↦ ?_⟩
    obtain ⟨hversion, hkeeps⟩ := hpins outcome hok
    exact hversion ▸ hkeeps

def Asked (w : World κ) (name version : String) : Prop :=
  ∀ lf, w.file.load = .ok lf → (lf.pinned? name version).isNone ∨ (w.cache name version).isNone

theorem tryFastPath_none
    (h : tryFastPath tools w.cache lf org block (some version) = .ok none) :
    (lf.pinned? (packageName org block) version).isNone ∨
      (w.cache (packageName org block) version).isNone := by
  rw [tryFastPath, fastPath] at h
  split at h
  · exact absurd h nofun
  · split at h
    · rename_i hnone
      exact Or.inl (hnone ▸ rfl)
    · obtain ⟨populated, hpopulated, h⟩ := bind_eq_ok.mp h
      obtain ⟨-, -, hcache⟩ := bind_eq_ok.mp hpopulated
      right
      have hfalse : populated = false := by
        by_contra htrue
        rw [Bool.not_eq_false] at htrue
        rw [htrue, if_pos rfl] at h
        exact absurd (Except.ok.inj h) nofun
      rw [← not_isSome, Except.ok.inj hcache, hfalse]
      rfl

theorem resolve_some [LinearOrder ν]
    (h : resolve tools answers org block (some version) = .ok r) :
    ∃ vd, answers.version = some vd ∧ r.version = vd.version := by
  unfold resolve at h
  dsimp only at h
  split at h
  · exact absurd h nofun
  · rename_i vd hvd
    split at h
    · exact absurd h nofun
    · exact ⟨vd, hvd, (congrArg Resolved.version (Except.ok.inj h)).symm⟩

/-- An install of a version answers from the lockfile and the cache without the registry, or
reports the version the registry names. -/
theorem version_of_installCacheOnly [LinearOrder ν] {registry : String}
    (hdistinct : ∀ lf, w.file.load = .ok lf → DistinctNames lf.packages)
    (h : installCacheOnly tools registry answers w org block (some version) = (.ok outcome, w')) :
    ¬Asked w (packageName org block) version ∧ outcome.version = version ∨
      Asked w (packageName org block) version ∧
        ∃ vd, answers.version = some vd ∧ outcome.version = vd.version := by
  unfold installCacheOnly at h
  cases hbefore : beforeLock tools answers w org block (some version) with
  | error e =>
    rw [hbefore] at h
    exact absurd (Prod.mk.inj h).1 nofun
  | ok result =>
    rw [hbefore] at h
    obtain ⟨lf, hload, hbefore⟩ := bind_eq_ok.mp hbefore
    obtain ⟨fast, hfast, hbefore⟩ := bind_eq_ok.mp hbefore
    have hload := load_eq_ok hload
    cases fast with
    | some cached =>
      obtain ⟨_, hreq, hversion, p, hp, hname, hpversion, hcache⟩ := tryFastPath_ok hfast
      obtain rfl := some.inj hreq
      rw [← Except.ok.inj hbefore] at h
      rw [← Except.ok.inj (Prod.mk.inj h).1]
      refine Or.inl ⟨fun hasked ↦ ?_, hversion⟩
      rcases hasked lf hload with hnone | hnone
      · exact List.find?_eq_none.mp (isNone_iff_eq_none.mp hnone) p hp
          (decide_eq_true ⟨hname, hpversion⟩)
      · rw [isNone_iff_eq_none.mp hnone] at hcache
        exact absurd hcache nofun
    | none =>
      have hasked : Asked w (packageName org block) version := by
        intro lf' hload'
        obtain rfl := Except.ok.inj (hload.symm.trans hload')
        exact tryFastPath_none hfast
      obtain ⟨r, hr, hresult⟩ := afterRegistry_ok hbefore
      obtain ⟨vd, hvd, hversion⟩ := resolve_some hr
      refine Or.inr ⟨hasked, vd, hvd, Eq.trans ?_ hversion⟩
      rcases hresult with rfl | ⟨cached, rfl, hcached, -⟩
      · exact ((underLock_spec hdistinct h).2 outcome rfl).1
      · rw [← Except.ok.inj (Prod.mk.inj h).1]
        exact hcached

/-- The version an install reports is the one that was asked for exactly if the registry names it,
where it is asked. -/
theorem version_eq_iff [LinearOrder ν] {registry : String}
    (hdistinct : ∀ lf, w.file.load = .ok lf → DistinctNames lf.packages)
    (h : installCacheOnly tools registry answers w org block (some version) = (.ok outcome, w')) :
    outcome.version = version ↔ (Asked w (packageName org block) version →
      ∀ vd, answers.version = some vd → vd.version = version) := by
  rcases version_of_installCacheOnly hdistinct h with ⟨hnot, hversion⟩ | ⟨hasked, vd, hvd, hversion⟩
  · exact iff_of_true hversion fun hasked ↦ absurd hasked hnot
  · constructor
    · intro heq _ vd' hvd'
      obtain rfl := some.inj (hvd.symm.trans hvd')
      exact hversion.symm.trans heq
    · exact fun hnames ↦ hversion.trans (hnames hasked vd hvd)

end Facts

/-- **Pins bind installs.** A call that fails leaves the lockfile as it was. A call that succeeds
keeps the pin of the version that was asked for exactly if the registry names that version, where it
is asked. -/
theorem install_keeps_pin_iff [LinearOrder ν] (tools : Tools ν) (registry : String)
    (answers : Answers) (w : World κ) (org block version : String)
    (hdistinct : ∀ lf, w.file.load = .ok lf → DistinctNames lf.packages) :
    match installCacheOnly tools registry answers w org block (some version) with
    | (.error _, w') => w'.file = w.file
    | (.ok _, w') => KeepsPin tools w w' (packageName org block) version ↔
        (Asked w (packageName org block) version →
          ∀ vd, answers.version = some vd → vd.version = version) := by
  split
  · rename_i e w' h
    exact (installCacheOnly_spec hdistinct h).1 e rfl
  · rename_i outcome w' h
    rw [← version_eq_iff hdistinct h]
    have hkeeps := (installCacheOnly_spec hdistinct h).2 outcome rfl
    exact ⟨fun hpin ↦ hkeeps.version_unique hpin, fun heq ↦ heq ▸ hkeeps⟩

/-! ## An answer with another version -/

/-- Digests by length, and three packages. -/
def sampleTools : Tools ℕ where
  sha256Hex bytes := if bytes = [1] then "aa" else "bb"
  parseVersion s := if s = "1.0.0" then some 1 else if s = "2.0.0" then some 2 else none
  unpack bytes := some [("widget.wasm".toList, some bytes)]

/-- The lockfile pins `acme/widget@1.0.0`, and the cache is empty. -/
def sampleWorld : World Unit where
  file := .text ⟨2, [⟨"acme/widget", "1.0.0", "aa", "aa", "registry+r", some ()⟩]⟩
  cache _ _ := none
  promoted := []

/-- A registry that names a version, and everything succeeds. -/
def sampleAnswers (version sha256 : String) (tarball : List UInt8) : Answers where
  version := some ⟨version, sha256, 0, 0⟩
  package := none
  tarball := some tarball
  locked := true
  removed := true
  leftover := []
  promoted := true
  written := true

theorem distinctNames_sampleWorld : ∀ lf, sampleWorld.file.load = .ok lf →
    DistinctNames lf.packages := by
  intro lf h
  rw [← Except.ok.inj h]
  exact List.nodup_singleton _

theorem install_keeps_pin_sample : ∃ w', installCacheOnly sampleTools "r"
      (sampleAnswers "1.0.0" "aa" [1]) sampleWorld "acme" "widget" (some "1.0.0") =
        (.ok ⟨"acme", "widget", "1.0.0", "aa", false⟩, w') ∧
    (KeepsPin sampleTools sampleWorld w' (packageName "acme" "widget") "1.0.0" ↔
      (Asked sampleWorld (packageName "acme" "widget") "1.0.0" → ∀ vd,
        (sampleAnswers "1.0.0" "aa" [1]).version = some vd → vd.version = "1.0.0")) := by
  have hfst : (installCacheOnly sampleTools "r" (sampleAnswers "1.0.0" "aa" [1]) sampleWorld
      "acme" "widget" (some "1.0.0")).1 = .ok ⟨"acme", "widget", "1.0.0", "aa", false⟩ := by
    decide +kernel
  have hspec := install_keeps_pin_iff sampleTools "r" (sampleAnswers "1.0.0" "aa" [1]) sampleWorld
    "acme" "widget" "1.0.0" distinctNames_sampleWorld
  refine ⟨_, Prod.ext hfst rfl, ?_⟩
  rwa [← Prod.mk.eta (p := installCacheOnly sampleTools "r" (sampleAnswers "1.0.0" "aa" [1])
    sampleWorld "acme" "widget" (some "1.0.0")), hfst] at hspec

/-- A registry that is asked for one version and names another moves the pin to that. -/
theorem install_repins : ¬∀ (tools : Tools ℕ) (registry : String) (answers : Answers)
    (w : World Unit) (org block version : String),
    (∀ lf, w.file.load = .ok lf → DistinctNames lf.packages) → ∀ outcome w',
      installCacheOnly tools registry answers w org block (some version) = (.ok outcome, w') →
        KeepsPin tools w w' (packageName org block) version := by
  intro h
  have hfst : (installCacheOnly sampleTools "r" (sampleAnswers "2.0.0" "bb" [2]) sampleWorld
      "acme" "widget" (some "1.0.0")).1 = .ok ⟨"acme", "widget", "2.0.0", "bb", false⟩ := by
    decide +kernel
  have hkeeps := h _ _ _ _ _ _ _ distinctNames_sampleWorld _ _ (Prod.ext hfst rfl)
  have hmoved := (installCacheOnly_spec distinctNames_sampleWorld (Prod.ext hfst rfl)).2 _ rfl
  exact absurd (hkeeps.version_unique hmoved) (by decide)

end WaferRun.Install

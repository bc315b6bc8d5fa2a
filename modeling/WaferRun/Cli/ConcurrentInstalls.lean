import WaferRun.Cli.Install
import WaferRun.Lib.Ledger
import WaferRun.Lib.Text

/-!
# Installs side by side

Any number of processes run `install_cache_only` and `install_from_manifest` over one lockfile and
one cache. A step of a process is one look at the lockfile, the cache or the registry, or one change
of them; between two steps of a process any other may move. The cache's lock is held by one process
at a time, and is free again when its process is gone.

Installs load and write the lockfile under the lock. The pruning at the end of
`install_from_manifest` does not: what is recorded between its load and its write is lost. If no
package of its manifest is recorded in between (`Steady`), no entry is ever lost
(`recorded_entries_stay`).
-/

namespace WaferRun.Install

open Ledger

variable {κ ν : Type}

/-! ## Names in a manifest -/

def isValidSegment (s : List Char) : Bool :=
  !s.isEmpty && s.all fun c ↦ c.isLower || c.isDigit || c = '_' || c = '-'

def parseOrgBlock (name : String) : Option (String × String) :=
  (Text.splitOnce ['/'] (Text.trim name.toList)).bind fun parts ↦
    if isValidSegment parts.1 && isValidSegment parts.2 then
      some (String.ofList parts.1, String.ofList parts.2)
    else none

def lastVersion (pairs : List (String × String)) (name : String) : Option String :=
  pairs.reverse.lookup name

/-- `sync_check::check`: manifest and lockfile list the same names in the same versions. -/
def inSync (deps : List (String × String)) (lf : Lockfile κ) : Bool :=
  let locked := lf.packages.map fun p ↦ (p.name, p.version)
  (deps ++ locked).all fun pair ↦ lastVersion deps pair.1 = lastVersion locked pair.1

/-! ## Processes -/

/-- What a process is called to do. -/
inductive Run
  | install (org block : String) (req : Option String)
  | manifest (deps : List (String × String)) (frozen : Bool)

/-- What a process has still to do before it prunes. -/
inductive Job
  | install (org block : String) (req : Option String)
  | dependency (name version : String)
  | frozen (name version sha256 : String)

inductive Phase (κ : Type)
  /-- The next job, or the pruning. -/
  | next
  /-- The fast path. -/
  | loaded (org block : String) (req : Option String) (pre : Lockfile κ)
  /-- The registry. -/
  | asking (org block : String) (req : Option String) (pre : Lockfile κ)
  /-- The cache. -/
  | resolved (org block : String) (r : Resolved) (pre : Lockfile κ)
  /-- The lock. -/
  | waiting (org block : String) (r : Resolved)
  /-- The lockfile, under the lock. -/
  | locked (org block : String) (r : Resolved)
  /-- The cache, under the lock. -/
  | rechecking (org block : String) (r : Resolved) (lf : Lockfile κ)
  /-- The download. -/
  | fetching (org block : String) (r : Resolved) (lf : Lockfile κ)
  /-- The digest of the artifact. -/
  | promoted (org block : String) (r : Resolved) (lf : Lockfile κ) (dir : PackageDir)
  /-- The write of the lockfile. -/
  | recording (org block : String) (r : Resolved) (lf : Lockfile κ) (wasmSha256 : String)
  /-- The lock, for a frozen install. -/
  | frozenWaiting (org block : String) (r : Resolved)
  /-- The cache, for a frozen install under the lock. -/
  | frozenLocked (org block : String) (r : Resolved)
  /-- The write of the pruned lockfile. -/
  | pruning (kept : List String) (lf : Lockfile κ)
  | done
  | failed

def Phase.holdsLock : Phase κ → Bool
  | .locked .. | .rechecking .. | .fetching .. | .promoted .. | .recording .. | .frozenLocked .. =>
    true
  | _ => false

structure Proc (κ : Type) where
  jobs : List Job
  prune : Option (List String)
  phase : Phase κ

/-- The lockfile and the cache, who holds the lock, the processes, and the ledger of what was
recorded and pruned, the latest first. -/
structure Shop (κ : Type) where
  world : World κ
  holder : Option ℕ
  procs : ℕ → Option (Proc κ)
  log : List (Event String (LockfilePackage κ))

def Proc.goto (p : Proc κ) (phase : Phase κ) : Proc κ := { p with phase := phase }

namespace Shop

def setProc (s : Shop κ) (id : ℕ) (p : Option (Proc κ)) : Shop κ :=
  { s with procs := Function.update s.procs id p }

def goto (s : Shop κ) (id : ℕ) (p : Proc κ) (phase : Phase κ) : Shop κ :=
  s.setProc id (some (p.goto phase))

def release (s : Shop κ) (id : ℕ) : Shop κ :=
  { s with holder := if s.holder = some id then none else s.holder }

def leave (s : Shop κ) (id : ℕ) (p : Proc κ) (phase : Phase κ) : Shop κ :=
  (s.release id).goto id p phase

def acquire (s : Shop κ) (id : ℕ) (p : Proc κ) (locked : Bool) (phase : Phase κ) :
    Option (Shop κ) :=
  if locked then
    if s.holder = none then some ({ s with holder := some id }.goto id p phase) else none
  else some (s.goto id p .failed)

def commit (s : Shop κ) (lf : Lockfile κ) (e : Event String (LockfilePackage κ)) : Shop κ :=
  { s with world := { s.world with file := lf.write }, log := e :: s.log }

def beginJob (tools : Tools ν) (s : Shop κ) (id : ℕ) (p : Proc κ) : Shop κ :=
  match p.jobs with
  | .install org block req :: rest =>
    match loadLockfile s.world.file with
    | .error _ => s.goto id p .failed
    | .ok pre => s.setProc id (some { p with jobs := rest, phase := .loaded org block req pre })
  | .dependency name version :: rest =>
    match parseOrgBlock name with
    | none => s.goto id p .failed
    | some (org, block) =>
      s.setProc id (some { p with jobs := .install org block (some version) :: rest })
  | .frozen name version sha256 :: rest =>
    match parseOrgBlock name with
    | none => s.goto id p .failed
    | some (org, block) =>
      if (tools.parseVersion version).isNone then s.goto id p .failed
      else
        match isPopulated s.world.cache org block version with
        | .error _ => s.goto id p .failed
        | .ok true => s.setProc id (some { p with jobs := rest })
        | .ok false =>
          s.setProc id (some { p with
            jobs := rest, phase := .frozenWaiting org block ⟨version, sha256, maxPackageBytes⟩ })
  | [] =>
    match p.prune with
    | none => s.goto id p .done
    | some kept =>
      match loadLockfile s.world.file with
      | .error _ => s.goto id p .failed
      | .ok lf =>
        if (lf.prune kept).packages.length ≠ lf.packages.length then
          s.goto id p (.pruning kept lf)
        else s.goto id p .done

def frozenInstall (tools : Tools ν) (answers : Answers) (s : Shop κ) (id : ℕ) (p : Proc κ)
    (org block : String) (r : Resolved) : Shop κ :=
  match packageDir org block r.version with
  | .error _ => s.leave id p .failed
  | .ok () =>
    if (s.world.cache (packageName org block) r.version).isSome then s.leave id p .next
    else
      match fetch tools answers r with
      | .error _ => s.leave id p .failed
      | .ok fetched =>
        { s with world := s.world.promote (packageName org block) r.version fetched }.leave id p
          .next

def advance [LinearOrder ν] (tools : Tools ν) (registry : String) (answers : Answers) (s : Shop κ)
    (id : ℕ) (p : Proc κ) : Option (Shop κ) :=
  match p.phase with
  | .next => some (s.beginJob tools id p)
  | .loaded org block req pre =>
    match tryFastPath tools s.world.cache pre org block req with
    | .error _ => some (s.goto id p .failed)
    | .ok (some _) => some (s.goto id p .next)
    | .ok none => some (s.goto id p (.asking org block req pre))
  | .asking org block req pre =>
    match resolve tools answers org block req with
    | .error _ => some (s.goto id p .failed)
    | .ok r =>
      match ensureLockPin pre (packageName org block) r.version r.sha256 with
      | .error _ => some (s.goto id p .failed)
      | .ok () => some (s.goto id p (.resolved org block r pre))
  | .resolved org block r pre =>
    match cacheHit s.world.cache pre org block r.version with
    | .error _ => some (s.goto id p .failed)
    | .ok hit =>
      match fromCache? org block r hit with
      | .inl _ => some (s.goto id p .next)
      | .inr r => some (s.goto id p (.waiting org block r))
  | .waiting org block r => s.acquire id p answers.locked (.locked org block r)
  | .locked org block r =>
    match lockedLoad s.world.file (packageName org block) r with
    | .error _ => some (s.leave id p .failed)
    | .ok lf => some (s.goto id p (.rechecking org block r lf))
  | .rechecking org block r lf =>
    match vouched s.world.cache lf org block r with
    | .error _ => some (s.leave id p .failed)
    | .ok true => some (s.leave id p .next)
    | .ok false =>
      match removeStale answers s.world (packageName org block) r.version with
      | (.error _, w) => some ({ s with world := w }.leave id p .failed)
      | (.ok (), w) => some ({ s with world := w }.goto id p (.fetching org block r lf))
  | .fetching org block r lf =>
    match fetch tools answers r with
    | .error _ => some (s.leave id p .failed)
    | .ok fetched =>
      some ({ s with world := s.world.promote (packageName org block) r.version fetched }.goto id p
        (.promoted org block r lf fetched.2))
  | .promoted org block r lf dir =>
    match wasmArtifactDigest tools dir with
    | .error _ => some (s.leave id p .failed)
    | .ok wasmSha256 => some (s.goto id p (.recording org block r lf wasmSha256))
  | .recording org block r lf wasmSha256 =>
    if answers.written then
      let entry := lockfileEntry registry (packageName org block) r wasmSha256
      some ((s.commit (lf.recordResolved entry) (.put entry.name (lf.carry entry))).leave id p .next)
    else some (s.leave id p .failed)
  | .frozenWaiting org block r => s.acquire id p answers.locked (.frozenLocked org block r)
  | .frozenLocked org block r => some (s.frozenInstall tools answers id p org block r)
  | .pruning kept lf =>
    if answers.written then
      some ((s.commit (lf.prune kept) (.keep kept)).goto id p .done)
    else some (s.goto id p .failed)
  | .done => none
  | .failed => none

def start (s : Shop κ) : Run → Proc κ
  | .install org block req => ⟨[.install org block req], none, .next⟩
  | .manifest [] _ => ⟨[], none, .done⟩
  | .manifest deps false =>
    ⟨deps.map fun dep ↦ .dependency dep.1 dep.2, some (deps.map Prod.fst), .next⟩
  | .manifest deps true =>
    match s.world.file with
    | .text lf =>
      if lf.version = schemaVersion ∧ inSync deps lf then
        ⟨lf.packages.map fun p ↦ .frozen p.name p.version p.sha256, none, .next⟩
      else ⟨[], none, .failed⟩
    | _ => ⟨[], none, .failed⟩

/-- What may happen next. -/
inductive Action
  | call (id : ℕ) (run : Run)
  | advance (id : ℕ) (answers : Answers)
  /-- A process is gone, wherever it was. -/
  | kill (id : ℕ)

def step [LinearOrder ν] (tools : Tools ν) (registry : String) (s : Shop κ) :
    Action → Option (Shop κ)
  | .call id run => if (s.procs id).isNone then some (s.setProc id (some (s.start run))) else none
  | .advance id answers => do
    let p ← s.procs id
    s.advance tools registry answers id p
  | .kill id => some ((s.release id).setProc id none)

/-- The state after a run, if each of its steps is possible. -/
def run [LinearOrder ν] (tools : Tools ν) (registry : String) (s : Shop κ) :
    List Action → Option (Shop κ)
  | [] => some s
  | a :: rest => (s.step tools registry a).bind fun s' ↦ s'.run tools registry rest

/-- Before any process is called. -/
def opened (world : World κ) : Shop κ := ⟨world, none, fun _ ↦ none, []⟩

end Shop

end WaferRun.Install

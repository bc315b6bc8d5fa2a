import WaferRun.Lib.DurableDisk
import WaferRun.Storage.Paths

/-!
# Writes and reads of a storage root

The calls of `LocalStorageService` as one machine. A write is staged: it fills a file of its own in
the staging directory and renames it onto its key when the body has ended and the file is synced.
Every call into the filesystem is a step of its own that may fail, whatever other calls, a crash
or a power loss come in between.

Files are numbered; a number stands for the file itself, whatever names are bound to it and whoever
holds it open. `Root.published` is not part of the system: it records the writes that reached their
rename.
-/

namespace WaferRun.LocalStorage

open DurableDisk

/-- The bytes of a file. -/
abbrev Content := List UInt8

/-- What a body delivers: chunks, and at its end perhaps an error. `put` has one chunk. -/
abbrev Body (β : Type) := List (Except β Content)

variable {β : Type}

def bodyBytes : Body β → Option Content
  | [] => some []
  | .ok chunk :: rest => (bodyBytes rest).map (chunk ++ ·)
  | .error _ :: _ => none

def maxObjectBytes : ℕ := 100 * 1024 * 1024

def readWindow : ℕ := 64 * 1024

/-- How far a write has come in `atomic_write`: the call into the filesystem that is next. -/
inductive WritePhase (β : Type)
  | dirs
  | stagingDirectory
  | create (tmp : Slot)
  | fill (tmp : Slot) (file : ℕ) (pending : Content)
  | flush (tmp : Slot) (file : ℕ)
  | sync (tmp : Slot) (file : ℕ)
  | rename (tmp : Slot) (file : ℕ)
  | syncDir
  | cleanup (tmp : Slot) (error : StorageError β)
  | finished (result : Except (StorageError β) Unit)

def WritePhase.tmp? : WritePhase β → Option Slot
  | .create tmp | .fill tmp _ _ | .flush tmp _ | .sync tmp _ | .rename tmp _ | .cleanup tmp _ =>
    some tmp
  | .dirs | .stagingDirectory | .syncDir | .finished _ => none

def WritePhase.file? : WritePhase β → Option ℕ
  | .fill _ file _ | .flush _ file | .sync _ file | .rename _ file => some file
  | .dirs | .stagingDirectory | .create _ | .syncDir | .cleanup _ _ | .finished _ => none

/-- A call of `put` or `put_streaming`: `rest` is what it has not taken of its body. -/
structure Writer (β : Type) where
  path : List PathName
  body : Body β
  rest : Body β
  phase : WritePhase β

/-- How far a read has come. A result names the slot it was read from. -/
inductive ReadPhase (β : Type)
  | stat
  | opening
  | fstat (slot : Slot) (file : ℕ)
  | reading (slot : Slot) (file : ℕ) (data : Content)
  | finished (result : Except (StorageError β) (Slot × Content))

/-- A call of `get` or `get_streaming`. -/
structure Reader (β : Type) where
  path : List PathName
  streaming : Bool
  phase : ReadPhase β

/-- A process that owns the root: none, one inside `LocalStorageService::new`, one that serves. -/
inductive Stage
  | stopped
  | starting
  | serving
  deriving DecidableEq, Repr

/-- A write that reached its rename, and the slot it was renamed onto. -/
structure Publication (β : Type) where
  slot : Slot
  body : Body β

/-- A storage root with the process that owns it. `seq` is `TEMP_WRITE_SEQ`, which wraps around. -/
structure Root (β : Type) where
  disk : Disk Slot ℕ Content
  nextFile : ℕ
  published : List (Publication β)
  stage : Stage
  pid : ℕ
  seq : UInt64
  writers : ℕ → Option (Writer β)
  readers : ℕ → Option (Reader β)

/-- A disk as the first process finds it. -/
structure Found where
  entry : Slot → Option (Node Slot ℕ)
  content : ℕ → Content
  nextFile : ℕ
  /-- The files on it have numbers below the next. -/
  bound : ∀ σ i, entry σ = some (.file i) → i < nextFile

def Found.root (found : Found) : Root β where
  disk := ⟨found.entry, fun _ ↦ [], found.content, fun _ ↦ true⟩
  nextFile := found.nextFile
  published := []
  stage := .stopped
  pid := 0
  seq := 0
  writers _ := none
  readers _ := none

variable (fs : FileSystem)

/-! ## Writing -/

/-- `File::create`: a name that leads to a file empties it, a free name gets a new file. -/
def Root.createFile (s : Root β) (tmp : Slot) : Option (Root β × ℕ) :=
  match s.disk.follow fs.maxLinks tmp with
  | some (_, file) => some ({ s with disk := s.disk.write file [] }, file)
  | none =>
    if s.disk.entry tmp = none then
      some ({ s with
        disk := (s.disk.rebind tmp (some (.file s.nextFile))).write s.nextFile []
        nextFile := s.nextFile + 1 }, s.nextFile)
    else none

def Writer.fail (w : Writer β) (attempt : Attempt) (e : OsError) : Writer β :=
  { w with phase := .finished (.error (.internal attempt e)) }

/-- A write that staged something fails: `remove_file` first. -/
def Writer.abort (w : Writer β) (tmp : Slot) (error : StorageError β) : Writer β :=
  { w with phase := .cleanup tmp error }

/-- What a write does with what its body delivers next. -/
def Writer.take (w : Writer β) (tmp : Slot) (file : ℕ) : Writer β :=
  match w.rest with
  | [] => { w with phase := .flush tmp file }
  | .ok chunk :: rest => { w with rest := rest, phase := .fill tmp file chunk }
  | .error e :: _ => w.abort tmp (.body e)

/-- `rename`: what the temp name is bound to moves onto the key. -/
def Root.publish (s : Root β) (w : Writer β) (tmp : Slot) : Option (Root β) :=
  match s.disk.entry tmp, fs.slot w.path with
  | some node, some target =>
    some { s with
      disk := (s.disk.rebind tmp none).rebind target (some node)
      published := ⟨target, w.body⟩ :: s.published }
  | _, _ => none

/-- One step of `atomic_write`. `answer` is what the filesystem answers to the call that is next: an
error, or success, which for `write` says how many bytes it took. No step is left if the filesystem
cannot answer so. -/
def Root.write (s : Root β) (w : Writer β) (answer : Except OsError ℕ) :
    Option (Root β × Writer β) :=
  match w.phase, answer with
  | .dirs, .ok _ => some (s, { w with phase := .stagingDirectory })
  | .dirs, .error e => some (s, w.fail .createDirs e)
  | .stagingDirectory, .ok _ =>
    some ({ s with seq := s.seq + 1 },
      { w with phase := .create (fs.stagedSlot s.pid s.seq.toNat) })
  | .stagingDirectory, .error e => some (s, w.fail .createStagingDirectory e)
  | .create tmp, .ok _ =>
    (s.createFile fs tmp).map fun created ↦
      (created.1, { w with phase := .fill tmp created.2 [] })
  | .create tmp, .error e => some (s, w.abort tmp (.internal .createTemp e))
  | .fill tmp file [], _ => some (s, w.take tmp file)
  | .fill tmp file (b :: pending), .ok n =>
    some ({ s with
      disk := s.disk.write file (s.disk.content file ++ (b :: pending).take n) },
      { w with phase := .fill tmp file ((b :: pending).drop n) })
  | .fill tmp _ (_ :: _), .error e => some (s, w.abort tmp (.internal .write e))
  | .flush tmp file, .ok _ => some (s, { w with phase := .sync tmp file })
  | .flush tmp _, .error e => some (s, w.abort tmp (.internal .flushTemp e))
  | .sync tmp file, .ok _ =>
    some ({ s with disk := s.disk.fsync file }, { w with phase := .rename tmp file })
  | .sync tmp _, .error e => some (s, w.abort tmp (.internal .fsyncTemp e))
  | .rename tmp _, .ok _ =>
    (s.publish fs w tmp).map fun s' ↦ (s', { w with phase := .syncDir })
  | .rename tmp _, .error e => some (s, w.abort tmp (.internal .rename e))
  | .syncDir, .ok _ =>
    some ({ s with
      disk := s.disk.settle fun σ ↦ decide (fs.dirAt w.path.dropLast = some σ.dir) },
      { w with phase := .finished (.ok ()) })
  | .syncDir, .error e => some (s, w.fail .fsyncDirectory e)
  | .cleanup tmp error, .ok _ =>
    some ({ s with disk := s.disk.rebind tmp none }, { w with phase := .finished (.error error) })
  | .cleanup _ error, .error _ => some (s, { w with phase := .finished (.error error) })
  | .finished _, _ => none

/-! ## Reading -/

def Root.lookup (s : Root β) (path : List PathName) : Option (Slot × ℕ) :=
  (fs.slot path).bind (s.disk.follow fs.maxLinks)

/-- `check_object_size` before the phase that comes next. -/
def Reader.checked (r : Reader β) (len : ℕ) (next : ReadPhase β) : Reader β :=
  if len > maxObjectBytes then { r with phase := .finished (.error (.tooLarge r.path len)) }
  else { r with phase := next }

def Reader.fail (r : Reader β) (error : StorageError β) : Reader β :=
  { r with phase := .finished (.error error) }

def missingOr (attempt : Attempt) (e : OsError) : StorageError β :=
  if e = .notFound then .notFound else .internal attempt e

/-- Read on, at most `n + 1` bytes, or finish at the end of the file. -/
def Reader.readOn (r : Reader β) (slot : Slot) (file : ℕ) (data chunk : Content) : Reader β :=
  if chunk = [] then { r with phase := .finished (.ok (slot, data)) }
  else { r with phase := .reading slot file (data ++ chunk) }

/-- One step of `get` or `get_streaming`. -/
def Root.read (s : Root β) (r : Reader β) (answer : Except OsError ℕ) : Option (Reader β) :=
  match r.phase, answer with
  | .stat, .ok _ =>
    (s.lookup fs r.path).map fun found ↦ r.checked (s.disk.content found.2).length .opening
  | .stat, .error e => some (r.fail (missingOr .metadata e))
  | .opening, .ok _ =>
    (s.lookup fs r.path).map fun found ↦
      if r.streaming then { r with phase := .fstat found.1 found.2 }
      else { r with phase := .reading found.1 found.2 [] }
  | .opening, .error e =>
    some (r.fail (if r.streaming then missingOr .openFile e else .internal .read e))
  | .fstat slot file, .ok _ =>
    some (r.checked (s.disk.content file).length (.reading slot file []))
  | .fstat _ _, .error e => some (r.fail (.internal .metadata e))
  | .reading slot file data, .ok n =>
    some (r.readOn slot file data
      (((s.disk.content file).drop data.length).take (min (n + 1) readWindow)))
  | .reading _ _ _, .error e => some (r.fail (.internal .read e))
  | .finished _, _ => none

/-! ## The machine -/

/-- What may happen next. -/
inductive Action (β : Type)
  /-- A process begins `LocalStorageService::new`. -/
  | boot (pid : ℕ) (seq : UInt64)
  /-- `remove_dir_all` deletes one staged file. -/
  | sweep (name : PathName)
  /-- `LocalStorageService::new` fails. -/
  | bootFailed
  /-- `LocalStorageService::new` has emptied the staging directory and returns. -/
  | booted
  | crash
  /-- A power loss takes back a binding that was not synced. -/
  | revert (slot : Slot) (k : ℕ)
  /-- A power loss damages a file that was not synced. -/
  | scramble (file : ℕ) (content : Content)
  | put (id : ℕ) (folder key : List Char) (body : Body β) (canonical : Except OsError Unit)
    (identified : Bool)
  | write (id : ℕ) (answer : Except OsError ℕ)
  /-- The caller drops a write. -/
  | dropWrite (id : ℕ)
  | get (id : ℕ) (streaming : Bool) (folder key : List Char) (canonical : Except OsError Unit)
    (identified : Bool)
  | read (id : ℕ) (answer : Except OsError ℕ)
  /-- The caller drops a read. -/
  | dropRead (id : ℕ)

/-- A call of `put` or `put_streaming`, its path validated. -/
def startWrite (folder key : List Char) (body : Body β) (canonical : Except OsError Unit)
    (identified : Bool) : Writer β :=
  match fs.validatePath canonical identified (fs.objectPath folder key) with
  | .error e => ⟨[], body, body, .finished (.error e)⟩
  | .ok path => ⟨path, body, body, .dirs⟩

/-- A call of `get` or `get_streaming`, its path validated. -/
def startRead (streaming : Bool) (folder key : List Char) (canonical : Except OsError Unit)
    (identified : Bool) : Reader β :=
  match fs.validatePath canonical identified (fs.objectPath folder key) with
  | .error e => ⟨[], streaming, .finished (.error e)⟩
  | .ok path => ⟨path, streaming, if streaming then .opening else .stat⟩

namespace Root

def setWriter (s : Root β) (id : ℕ) (w : Option (Writer β)) : Root β :=
  { s with writers := Function.update s.writers id w }

def setReader (s : Root β) (id : ℕ) (r : Option (Reader β)) : Root β :=
  { s with readers := Function.update s.readers id r }

/-- The process is gone, with its calls. -/
def stop (s : Root β) : Root β :=
  { s with stage := .stopped, writers := fun _ ↦ none, readers := fun _ ↦ none }

def step (s : Root β) : Action β → Option (Root β)
  | .boot pid seq =>
    if s.stage = .stopped then some { s with stage := .starting, pid := pid, seq := seq } else none
  | .sweep name =>
    if s.stage = .starting then some { s with disk := s.disk.rebind ⟨fs.staging, name⟩ none }
    else none
  | .bootFailed => if s.stage = .starting then some { s with stage := .stopped } else none
  | .booted =>
    if s.stage = .starting then
      some { s with
        stage := .serving
        disk := s.disk.remove fun σ ↦ decide (σ.dir = fs.staging) }
    else none
  | .crash => some s.stop
  | .revert slot k =>
    if s.stage = .stopped then (s.disk.revert slot k).map fun d ↦ { s with disk := d } else none
  | .scramble file content =>
    if s.stage = .stopped then (s.disk.scramble file content).map fun d ↦ { s with disk := d }
    else none
  | .put id folder key body canonical identified =>
    if s.stage = .serving ∧ (s.writers id).isNone then
      some (s.setWriter id (some (startWrite fs folder key body canonical identified)))
    else none
  | .write id answer => do
    let w ← s.writers id
    let moved ← s.write fs w answer
    some (moved.1.setWriter id (some moved.2))
  | .dropWrite id => some (s.setWriter id none)
  | .get id streaming folder key canonical identified =>
    if s.stage = .serving ∧ (s.readers id).isNone then
      some (s.setReader id (some (startRead fs streaming folder key canonical identified)))
    else none
  | .read id answer => do
    let r ← s.readers id
    let r' ← s.read fs r answer
    some (s.setReader id (some r'))
  | .dropRead id => some (s.setReader id none)

def run (s : Root β) : List (Action β) → Option (Root β)
  | [] => some s
  | a :: rest => (s.step fs a).bind fun s' ↦ s'.run rest

end Root

end WaferRun.LocalStorage

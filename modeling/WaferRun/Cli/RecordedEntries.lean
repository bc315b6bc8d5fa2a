import WaferRun.Cli.ConcurrentInstalls

/-!
# Recorded entries stay

What is owed (`Ledger.Owed`) is in the lockfile, and its package is in the cache: `Sound`. A process
that holds the lock has loaded all that is owed, for what is owed grows only under the lock. It
records a version only if no entry of that version is owed, for else the entry would have vouched
for the cache. A prune writes back what it has loaded, so it needs that nothing its manifest lists
was recorded since (`Steady`).
-/

open List Function

namespace WaferRun.Install

open Ledger

variable {κ ν : Type}

/-- An entry of another version takes the place of an entry. -/
def Replaces (a b : LockfilePackage κ) : Prop := a.version ≠ b.version

/-- The ledger of a shop. -/
abbrev Log (κ : Type) := List (Event String (LockfilePackage κ))

abbrev Cache := String → String → Option PackageDir

/-- The entry was recorded, and not replaced or pruned since. -/
abbrev IsOwed (log : Log κ) (name : String) (p : LockfilePackage κ) : Prop :=
  Owed Replaces log name p

/-- A lockfile as it may be written back, but for what is owed. -/
def Lockfile.Fit (lf : Lockfile κ) : Prop := lf.version = schemaVersion ∧ Canonical lf.packages

def Complete (log : Log κ) (lf : Lockfile κ) : Prop :=
  lf.Fit ∧ ∀ name p, IsOwed log name p → p ∈ lf.packages

def NotOwed (log : Log κ) (name version : String) : Prop :=
  ∀ p, IsOwed log name p → p.version ≠ version

def PhaseOk (log : Log κ) (cache : Cache) : Phase κ → Prop
  | .rechecking org block r lf =>
    Complete log lf ∧ ensureLockPin lf (packageName org block) r.version r.sha256 = .ok ()
  | .fetching org block r lf => Complete log lf ∧ NotOwed log (packageName org block) r.version
  | .promoted org block r lf _ | .recording org block r lf _ =>
    Complete log lf ∧ NotOwed log (packageName org block) r.version ∧
      (cache (packageName org block) r.version).isSome = true
  | .pruning _ lf => lf.Fit
  | _ => True

/-- **The invariant.** -/
structure Sound (s : Shop κ) : Prop where
  fit : ∀ lf, s.world.file.load = .ok lf → lf.Fit
  owed : ∀ name p, IsOwed s.log name p → p.name = name ∧
    (∃ lf, s.world.file.load = .ok lf ∧ p ∈ lf.packages) ∧
      (s.world.cache name p.version).isSome = true
  held : ∀ id p, s.procs id = some p → p.phase.holdsLock = true → s.holder = some id
  phases : ∀ id p, s.procs id = some p → PhaseOk s.log s.world.cache p.phase

/-- Nothing new is owed, and the cache loses nothing. -/
def Shrinks (s s' : Shop κ) : Prop :=
  (∀ name p, IsOwed s'.log name p → IsOwed s.log name p) ∧
    ∀ name version, (s.world.cache name version).isSome = true →
      (s'.world.cache name version).isSome = true

section Frame

variable {s s' : Shop κ} {id : ℕ} {p : Proc κ}

theorem Shrinks.phaseOk (h : Shrinks s s') {phase : Phase κ}
    (hphase : PhaseOk s.log s.world.cache phase) : PhaseOk s'.log s'.world.cache phase := by
  have hcomplete {lf : Lockfile κ} (hlf : Complete s.log lf) : Complete s'.log lf :=
    ⟨hlf.1, fun name p hp ↦ hlf.2 name p (h.1 name p hp)⟩
  have hnot {name version : String} (hn : NotOwed s.log name version) :
      NotOwed s'.log name version := fun p hp ↦ hn p (h.1 name p hp)
  cases phase with
  | rechecking org block r lf => exact ⟨hcomplete hphase.1, hphase.2⟩
  | fetching org block r lf => exact ⟨hcomplete hphase.1, hnot hphase.2⟩
  | promoted org block r lf dir =>
    exact ⟨hcomplete hphase.1, hnot hphase.2.1, h.2 _ _ hphase.2.2⟩
  | recording org block r lf wasmSha256 =>
    exact ⟨hcomplete hphase.1, hnot hphase.2.1, h.2 _ _ hphase.2.2⟩
  | pruning kept lf => exact hphase
  | _ => trivial

theorem phaseOk_of_not_holdsLock {log log' : Log κ} {cache cache' : Cache} {phase : Phase κ}
    (hlock : phase.holdsLock = false) (hphase : PhaseOk log cache phase) :
    PhaseOk log' cache' phase := by
  cases phase with
  | pruning kept lf => exact hphase
  | rechecking | fetching | promoted | recording => exact absurd hlock nofun
  | _ => trivial

/-- **The frame.** One process moves; the others keep what they know if the one that moves holds
the lock, or takes nothing away from them. -/
theorem Sound.move (hs : Sound s) {o : Option (Proc κ)}
    (hprocs : s'.procs = Function.update s.procs id o)
    (hfit : ∀ lf, s'.world.file.load = .ok lf → lf.Fit)
    (howed : ∀ name p, IsOwed s'.log name p → p.name = name ∧
      (∃ lf, s'.world.file.load = .ok lf ∧ p ∈ lf.packages) ∧
        (s'.world.cache name p.version).isSome = true)
    (hholder : ∀ id', id' ≠ id → s.holder = some id' → s'.holder = some id')
    (hframe : s.holder = some id ∨ Shrinks s s')
    (hself : ∀ p', o = some p' → PhaseOk s'.log s'.world.cache p'.phase ∧
      (p'.phase.holdsLock = true → s'.holder = some id)) : Sound s' := by
  have hcases {id' : ℕ} {p' : Proc κ} (h : s'.procs id' = some p') :
      id' = id ∧ o = some p' ∨ id' ≠ id ∧ s.procs id' = some p' := by
    rw [hprocs] at h
    by_cases hid : id' = id
    · subst hid
      rw [update_self] at h
      exact Or.inl ⟨rfl, h⟩
    · rw [update_of_ne hid] at h
      exact Or.inr ⟨hid, h⟩
  refine ⟨hfit, howed, fun id' p' hp' hlock ↦ ?_, fun id' p' hp' ↦ ?_⟩
  · rcases hcases hp' with ⟨rfl, ho⟩ | ⟨hid, hold⟩
    · exact (hself p' ho).2 hlock
    · exact hholder id' hid (hs.held id' p' hold hlock)
  · rcases hcases hp' with ⟨-, ho⟩ | ⟨hid, hold⟩
    · exact (hself p' ho).1
    · have hphase := hs.phases id' p' hold
      rcases hframe with hholds | hshrinks
      · refine phaseOk_of_not_holdsLock ?_ hphase
        by_contra hlock
        rw [Bool.not_eq_false] at hlock
        have hother := hs.held id' p' hold hlock
        exact hid (Option.some.inj (hother.symm.trans hholds))
      · exact hshrinks.phaseOk hphase

theorem Shrinks.refl (s : Shop κ) : Shrinks s s := ⟨fun _ _ h ↦ h, fun _ _ h ↦ h⟩

theorem Sound.setProc (hs : Sound s) {o : Option (Proc κ)}
    (hself : ∀ p', o = some p' → PhaseOk s.log s.world.cache p'.phase ∧
      (p'.phase.holdsLock = true → s.holder = some id)) : Sound (s.setProc id o) :=
  hs.move rfl hs.fit hs.owed (fun _ _ h ↦ h) (Or.inr (Shrinks.refl s)) hself

theorem Sound.goto (hs : Sound s) {phase : Phase κ}
    (hphase : PhaseOk s.log s.world.cache phase)
    (hlock : phase.holdsLock = true → s.holder = some id) : Sound (s.goto id p phase) :=
  hs.setProc fun _ hp ↦ Option.some.inj hp ▸ ⟨hphase, hlock⟩

theorem Sound.release (hs : Sound s) {o : Option (Proc κ)}
    (hself : ∀ p', o = some p' → PhaseOk s.log s.world.cache p'.phase ∧
      p'.phase.holdsLock = false) : Sound ((s.release id).setProc id o) := by
  refine hs.move rfl hs.fit hs.owed (fun id' hid hholder ↦ ?_) (Or.inr (Shrinks.refl s)) fun p' hp' ↦
    ⟨(hself p' hp').1, fun hlock ↦ absurd ((hself p' hp').2.symm.trans hlock) nofun⟩
  have hne : s.holder ≠ some id := fun h ↦ hid (Option.some.inj (hholder.symm.trans h))
  exact (if_neg hne).trans hholder

theorem Sound.leave (hs : Sound s) {phase : Phase κ} (hphase : PhaseOk s.log s.world.cache phase)
    (hlock : phase.holdsLock = false) : Sound (s.leave id p phase) :=
  hs.release fun _ hp ↦ Option.some.inj hp ▸ ⟨hphase, hlock⟩

theorem Sound.withWorld (hs : Sound s) {w : World κ} (hfile : w.file = s.world.file)
    (hcache : ∀ name p, IsOwed s.log name p → (w.cache name p.version).isSome = true)
    (hp : s.procs id = some p) (hheld : s.holder = some id)
    (hphase : PhaseOk s.log w.cache p.phase) : Sound { s with world := w } := by
  refine hs.move (by rw [← hp, update_eq_self]) (hfile ▸ hs.fit) (fun name q hq ↦ ?_)
    (fun _ _ h ↦ h) (Or.inl hheld) fun _ hp ↦ Option.some.inj hp ▸ ⟨hphase, fun _ ↦ hheld⟩
  obtain ⟨hname, hcurrent, -⟩ := hs.owed name q hq
  exact ⟨hname, hfile ▸ hcurrent, hcache name q hq⟩

end Frame

/-! ## Writing the lockfile -/

section Commit

variable {s : Shop κ} {id : ℕ} {p : Proc κ} {lf : Lockfile κ}

theorem Lockfile.Fit.of_load_write {lf' : Lockfile κ} (hversion : lf.version = schemaVersion)
    (hnames : DistinctNames lf.packages) (h : lf.write.load = .ok lf') :
    lf'.Fit ∧ lf'.packages = sortPackages lf.packages := by
  rw [load_write hversion] at h
  rw [← Except.ok.inj h]
  exact ⟨⟨hversion, hnames.canonical_sortPackages⟩, rfl⟩

theorem Sound.record (hs : Sound s) (hheld : s.holder = some id) {entry : LockfilePackage κ}
    (hlf : Complete s.log lf) (hnot : NotOwed s.log entry.name entry.version)
    (hcache : (s.world.cache entry.name entry.version).isSome = true) :
    Sound ((s.commit (lf.recordResolved entry) (.put entry.name (lf.carry entry))).leave id p
      .next) := by
  have hversion : (lf.recordResolved entry).version = schemaVersion := hlf.1.1
  have hdistinct := hlf.1.2.distinctNames
  have hnames := Lockfile.distinctNames_recordResolved hdistinct entry
  refine hs.move rfl ?_ ?_ ?_ (Or.inl hheld) fun _ hp ↦ Option.some.inj hp ▸ ⟨trivial, nofun⟩
  · exact fun lf' hload ↦ (Lockfile.Fit.of_load_write hversion hnames hload).1
  · intro name q hq
    have hmem (hq : q = lf.carry entry ∨ q ∈ lf.packages ∧ q.name ≠ entry.name) :
        ∃ lf', (lf.recordResolved entry).write.load = .ok lf' ∧ q ∈ lf'.packages :=
      ⟨_, load_write hversion,
        mem_sortPackages.mpr ((Lockfile.mem_recordResolved hdistinct).mpr hq)⟩
    rcases hq with ⟨rfl, rfl⟩ | ⟨hq, hreplaced⟩
    · refine ⟨lf.carry_name entry, hmem (Or.inl rfl), ?_⟩
      rw [lf.carry_version entry]
      exact hcache
    · obtain ⟨hname, -, hpopulated⟩ := hs.owed name q hq
      refine ⟨hname, hmem (Or.inr ⟨hlf.2 name q hq, fun hsame ↦ ?_⟩), hpopulated⟩
      -- an entry of the same package has another version, so it is replaced
      obtain rfl : name = entry.name := hname.symm.trans hsame
      refine hreplaced ⟨rfl, fun heq ↦ hnot q hq ?_⟩
      exact heq.symm.trans (lf.carry_version entry)
  · intro id' hid hholder
    exact absurd (Option.some.inj (hholder.symm.trans hheld)) hid

def SteadySince (s : Shop κ) (kept : List String) (lf : Lockfile κ) : Prop :=
  ∀ lf', s.world.file.load = .ok lf' → ∀ q ∈ lf'.packages, q.name ∈ kept → q ∈ lf.packages

theorem Sound.prune (hs : Sound s) {kept : List String} (hlf : lf.Fit)
    (hsteady : SteadySince s kept lf) :
    Sound ((s.commit (lf.prune kept) (.keep kept)).goto id p .done) := by
  have hnames : DistinctNames (lf.prune kept).packages :=
    Canonical.distinctNames (List.Pairwise.sublist filter_sublist hlf.2)
  have hversion : (lf.prune kept).version = schemaVersion := hlf.1
  refine hs.move rfl ?_ ?_ (fun _ _ h ↦ h) (Or.inr ⟨fun _ _ h ↦ h.1, fun _ _ h ↦ h⟩)
    fun _ hp ↦ Option.some.inj hp ▸ ⟨trivial, nofun⟩
  · exact fun lf' hload ↦ (Lockfile.Fit.of_load_write hversion hnames hload).1
  · rintro name q ⟨hq, hkept⟩
    obtain ⟨rfl, ⟨lf', hload, hmem⟩, hpopulated⟩ := hs.owed name q hq
    refine ⟨rfl, ⟨_, load_write hversion, mem_sortPackages.mpr ?_⟩, hpopulated⟩
    exact mem_filter.mpr
      ⟨hsteady lf' hload q hmem hkept, contains_iff_mem.mpr hkept⟩

end Commit

/-! ## Steps -/

section Step

variable [LinearOrder ν] {tools : Tools ν} {registry : String} {answers : Answers}
  {s s' : Shop κ} {id : ℕ} {p : Proc κ}

/-- A process that is about to prune has a lockfile that is not behind in what it keeps. -/
def Steady (s : Shop κ) : Shop.Action → Prop
  | .advance id _ => ∀ p kept lf, s.procs id = some p → p.phase = .pruning kept lf →
      SteadySince s kept lf
  | _ => True

omit [LinearOrder ν] in
theorem Sound.beginJob (hs : Sound s) (hphase : p.phase = .next) :
    Sound (s.beginJob tools id p) := by
  have hfailed : Sound (s.goto id p .failed) := hs.goto trivial nofun
  have hjobs (jobs : List Job) : Sound (s.setProc id (some { p with jobs := jobs })) := by
    refine hs.setProc fun _ h ↦ Option.some.inj h ▸ ?_
    rw [hphase]
    exact ⟨trivial, nofun⟩
  have hstep {jobs : List Job} {phase : Phase κ} (hok : PhaseOk s.log s.world.cache phase)
      (hlock : phase.holdsLock = false) :
      Sound (s.setProc id (some { p with jobs := jobs, phase := phase })) :=
    hs.setProc fun _ h ↦ Option.some.inj h ▸ ⟨hok, fun htrue ↦ absurd (hlock.symm.trans htrue) nofun⟩
  unfold Shop.beginJob
  split
  · split
    · exact hfailed
    · exact hstep trivial rfl
  · split
    · exact hfailed
    · exact hjobs _
  · split
    · exact hfailed
    · split
      · exact hfailed
      · split
        · exact hfailed
        · exact hjobs _
        · exact hstep trivial rfl
  · split
    · exact hs.goto trivial nofun
    · split
      · exact hfailed
      · rename_i lf hload
        split
        · exact hs.goto (hs.fit lf (load_eq_ok hload)) nofun
        · exact hs.goto trivial nofun

theorem Sound.acquire (hs : Sound s) {locked : Bool} {phase : Phase κ}
    (hphase : ∀ log cache, PhaseOk log cache phase)
    (h : s.acquire id p locked phase = some s') : Sound s' := by
  unfold Shop.acquire at h
  split at h
  · obtain ⟨hfree, h⟩ := Option.ite_none_right_eq_some.mp h
    rw [← Option.some.inj h]
    refine hs.move rfl hs.fit hs.owed (fun id' _ hholder ↦ ?_) (Or.inr (Shrinks.refl s)) fun _ hp ↦
      Option.some.inj hp ▸ ⟨hphase _ _, fun _ ↦ rfl⟩
    exact absurd (hfree.symm.trans hholder) nofun
  · rw [← Option.some.inj h]
    exact hs.goto trivial nofun

theorem isSome_promote {w : World κ} {name version : String} {fetched : List UInt8 × PackageDir}
    {name' version' : String} (h : (w.cache name' version').isSome = true) :
    ((w.promote name version fetched).cache name' version').isSome = true := by
  simp only [World.promote, World.setDir]
  by_cases hname : name' = name
  · subst hname
    rw [update_self]
    by_cases hversion : version' = version
    · subst hversion
      rw [update_self]
      rfl
    · rw [update_of_ne hversion]
      exact h
  · rw [update_of_ne hname]
    exact h

theorem setDir_self {w : World κ} {name version : String} {dir : Option PackageDir} :
    (w.setDir name version dir).cache name version = dir := by
  simp only [World.setDir, update_self]

theorem setDir_of_ne {w : World κ} {name version name' version' : String}
    {dir : Option PackageDir} (h : ¬(name' = name ∧ version' = version)) :
    (w.setDir name version dir).cache name' version' = w.cache name' version' := by
  simp only [World.setDir]
  by_cases hname : name' = name
  · subst hname
    rw [update_self, update_of_ne fun hversion ↦ h ⟨rfl, hversion⟩]
  · rw [update_of_ne hname]

theorem removeStale_spec (answers : Answers) (w : World κ) (name version : String) :
    (removeStale answers w name version).2.file = w.file ∧
      ∀ name' version', ¬(name' = name ∧ version' = version) →
        (removeStale answers w name version).2.cache name' version' = w.cache name' version' := by
  unfold removeStale
  split
  · exact ⟨rfl, fun _ _ _ ↦ rfl⟩
  · split
    · exact ⟨rfl, fun _ _ h ↦ setDir_of_ne h⟩
    · exact ⟨rfl, fun _ _ h ↦ setDir_of_ne h⟩

/-- **The key step.** Where no entry vouches for the cache, no entry of the version is owed: it would
be loaded, the pin would allow it only with the digest of the registry, and its package would be in
the cache. -/
theorem Sound.notOwed (hs : Sound s) {lf : Lockfile κ} {org block : String} {r : Resolved}
    (hlf : Complete s.log lf)
    (hpin : ensureLockPin lf (packageName org block) r.version r.sha256 = .ok ())
    (hvouched : vouched s.world.cache lf org block r = .ok false) :
    NotOwed s.log (packageName org block) r.version := by
  intro q hq hversion
  obtain ⟨hname, -, hpopulated⟩ := hs.owed _ q hq
  have hmem := hlf.2 _ q hq
  have hsha := sha256_of_ensureLockPin hlf.1.2.distinctNames hpin q hmem hname hversion
  rw [hversion] at hpopulated
  exact absurd ((vouched_ok hvouched).mpr ⟨hpopulated, q, hmem, hname, hversion, hsha⟩) nofun

theorem Sound.promote (hs : Sound s) (hp : s.procs id = some p) (hheld : s.holder = some id)
    {name version : String} {fetched : List UInt8 × PackageDir}
    (hphase : PhaseOk s.log (s.world.promote name version fetched).cache p.phase) :
    Sound { s with world := s.world.promote name version fetched } :=
  hs.withWorld rfl (fun name q hq ↦ isSome_promote (hs.owed name q hq).2.2) hp hheld hphase

theorem Sound.removeStale (answers : Answers) (hs : Sound s) (hp : s.procs id = some p)
    (hheld : s.holder = some id) {name version : String} (hnot : NotOwed s.log name version)
    (hphase : ∀ cache, PhaseOk s.log cache p.phase) :
    Sound { s with world := (removeStale answers s.world name version).2 } := by
  obtain ⟨hfile, hother⟩ := removeStale_spec answers s.world name version
  refine hs.withWorld hfile (fun name q hq ↦ ?_) hp hheld (hphase _)
  rw [hother]
  · exact (hs.owed name q hq).2.2
  · rintro ⟨rfl, hversion⟩
    exact hnot q hq hversion

omit [LinearOrder ν] in
theorem Sound.frozenInstall (hs : Sound s) (hp : s.procs id = some p)
    (hheld : s.holder = some id) {org block : String} {r : Resolved}
    (hphase : p.phase = .frozenLocked org block r) :
    Sound (s.frozenInstall tools answers id p org block r) := by
  unfold Shop.frozenInstall
  split
  · exact hs.leave trivial rfl
  · split
    · exact hs.leave trivial rfl
    · split
      · exact hs.leave trivial rfl
      · refine (hs.promote hp hheld ?_).leave trivial rfl
        rw [hphase]
        trivial

/-- **The step lemma.** A step of a process keeps the invariant. -/
theorem Sound.advance (hs : Sound s) (hp : s.procs id = some p)
    (hsteady : ∀ kept lf, p.phase = .pruning kept lf → SteadySince s kept lf)
    (h : s.advance tools registry answers id p = some s') : Sound s' := by
  have hheld (hlock : p.phase.holdsLock = true) : s.holder = some id := hs.held id p hp hlock
  have hknown := hs.phases id p hp
  have hfailed : Sound (s.goto id p .failed) := hs.goto trivial nofun
  have hleft : Sound (s.leave id p .failed) := hs.leave trivial rfl
  unfold Shop.advance at h
  split at h <;> rename_i hphase <;> rw [hphase] at hheld hknown
  · rw [← Option.some.inj h]
    exact hs.beginJob hphase
  · split at h <;> rw [← Option.some.inj h]
    · exact hfailed
    · exact hs.goto trivial nofun
    · exact hs.goto trivial nofun
  · split at h
    · exact Option.some.inj h ▸ hfailed
    · split at h <;> rw [← Option.some.inj h]
      · exact hfailed
      · exact hs.goto trivial nofun
  · split at h
    · exact Option.some.inj h ▸ hfailed
    · split at h <;> rw [← Option.some.inj h]
      · exact hs.goto trivial nofun
      · exact hs.goto trivial nofun
  · exact hs.acquire (fun _ _ ↦ by trivial) h
  · split at h <;> rw [← Option.some.inj h]
    · exact hleft
    · rename_i lf hlf
      obtain ⟨hload, hpin⟩ := lockedLoad_ok hlf
      refine hs.goto ⟨⟨hs.fit lf hload, fun name q hq ↦ ?_⟩, hpin⟩ fun _ ↦ hheld rfl
      obtain ⟨-, ⟨lf', hload', hmem⟩, -⟩ := hs.owed name q hq
      exact Except.ok.inj (hload'.symm.trans hload) ▸ hmem
  · obtain ⟨hcomplete, hpin⟩ := hknown
    split at h
    · exact Option.some.inj h ▸ hleft
    · rw [← Option.some.inj h]
      exact hs.leave trivial rfl
    · rename_i hvouched
      have hnot := hs.notOwed hcomplete hpin hvouched
      have hstale := hs.removeStale answers hp (hheld rfl) hnot fun _ ↦ by
        rw [hphase]
        exact ⟨hcomplete, hpin⟩
      split at h
      · rename_i w hremoved
        rw [hremoved] at hstale
        rw [← Option.some.inj h]
        exact hstale.leave trivial rfl
      · rename_i w hremoved
        rw [hremoved] at hstale
        rw [← Option.some.inj h]
        exact hstale.goto ⟨hcomplete, hnot⟩ fun _ ↦ hheld rfl
  · obtain ⟨hcomplete, hnot⟩ := hknown
    split at h
    · exact Option.some.inj h ▸ hleft
    · rw [← Option.some.inj h]
      refine (hs.promote hp (hheld rfl) ?_).goto ⟨hcomplete, hnot, ?_⟩ fun _ ↦ hheld rfl
      · rw [hphase]
        exact ⟨hcomplete, hnot⟩
      · exact congrArg Option.isSome setDir_self
  · split at h
    · exact Option.some.inj h ▸ hleft
    · rw [← Option.some.inj h]
      exact hs.goto hknown fun _ ↦ hheld rfl
  · split at h
    · rw [← Option.some.inj h]
      exact hs.record (hheld rfl) hknown.1 hknown.2.1 hknown.2.2
    · exact Option.some.inj h ▸ hleft
  · exact hs.acquire (fun _ _ ↦ by trivial) h
  · rw [← Option.some.inj h]
    exact hs.frozenInstall hp (hheld rfl) hphase
  · split at h <;> rw [← Option.some.inj h]
    · exact hs.prune hknown (hsteady _ _ hphase)
    · exact hfailed
  · exact absurd h nofun
  · exact absurd h nofun

theorem start_phase (s : Shop κ) (run : Run) :
    (s.start run).phase = .next ∨ (s.start run).phase = .done ∨ (s.start run).phase = .failed := by
  unfold Shop.start
  split
  · exact Or.inl rfl
  · exact Or.inr (Or.inl rfl)
  · exact Or.inl rfl
  · split
    · split
      · exact Or.inl rfl
      · exact Or.inr (Or.inr rfl)
    · exact Or.inr (Or.inr rfl)

theorem Sound.step (hs : Sound s) {a : Shop.Action} (hsteady : Steady s a)
    (h : s.step tools registry a = some s') : Sound s' := by
  cases a with
  | call id run =>
    rw [← Option.some.inj (Option.ite_none_right_eq_some.mp h).2]
    refine hs.setProc fun p hp ↦ ?_
    rw [← Option.some.inj hp]
    rcases start_phase s run with hphase | hphase | hphase <;> rw [hphase] <;>
      exact ⟨trivial, nofun⟩
  | advance id answers =>
    obtain ⟨p, hp, h⟩ := Option.bind_eq_some_iff.mp h
    exact hs.advance hp (fun kept lf hphase ↦ hsteady p kept lf hp hphase) h
  | kill id =>
    rw [← Option.some.inj h]
    exact hs.release nofun

def SteadyRun (tools : Tools ν) (registry : String) (s : Shop κ) : List Shop.Action → Prop
  | [] => True
  | a :: rest =>
    Steady s a ∧ ∀ s', s.step tools registry a = some s' → SteadyRun tools registry s' rest

theorem Sound.run {actions : List Shop.Action} (hs : Sound s)
    (hsteady : SteadyRun tools registry s actions)
    (h : s.run tools registry actions = some s') : Sound s' := by
  induction actions generalizing s with
  | nil => exact Option.some.inj h ▸ hs
  | cons a rest ih =>
    obtain ⟨next, hnext, h⟩ := Option.bind_eq_some_iff.mp h
    exact ih (hs.step hsteady.1 hnext) (hsteady.2 next hnext) h

omit [LinearOrder ν] in
theorem Sound.opened {world : World κ}
    (hworld : ∀ lf, world.file.load = .ok lf → Canonical lf.packages) :
    Sound (Shop.opened world) where
  fit lf hload := ⟨version_of_load hload, hworld lf hload⟩
  owed _ _ howed := howed.elim
  held _ _ hp := absurd hp nofun
  phases _ _ hp := absurd hp nofun

end Step

/-- **No entry is lost.** In a run whose prunes are steady, what was recorded is in the lockfile, or
another version of the package was recorded later, or a later prune dropped the package. The
lockfile is sorted by names, which are distinct. -/
theorem recorded_entries_stay [LinearOrder ν] (tools : Tools ν) (registry : String)
    (world : World κ) (hworld : ∀ lf, world.file.load = .ok lf → Canonical lf.packages)
    (actions : List Shop.Action) (s : Shop κ)
    (hrun : (Shop.opened world).run tools registry actions = some s)
    (hsteady : SteadyRun tools registry (Shop.opened world) actions) :
    (∀ lf, s.world.file.load = .ok lf → Canonical lf.packages) ∧
      ∀ later earlier name entry, s.log = later ++ .put name entry :: earlier →
        (∃ lf, s.world.file.load = .ok lf ∧ entry ∈ lf.packages) ∨
          (∃ other, .put name other ∈ later ∧ other.version ≠ entry.version) ∨
            ∃ kept, .keep kept ∈ later ∧ name ∉ kept := by
  have hs := (Sound.opened hworld).run hsteady hrun
  refine ⟨fun lf hload ↦ (hs.fit lf hload).2, fun later earlier name entry hlog ↦ ?_⟩
  rcases (owed_or_excused hlog : IsOwed s.log name entry ∨ _) with howed | hexcused
  · exact Or.inl (hs.owed name entry howed).2.1
  · exact Or.inr hexcused

/-! ## Checking runs -/

section Check

variable [DecidableEq κ]

instance (s : Shop κ) (kept : List String) (lf : Lockfile κ) :
    Decidable (SteadySince s kept lf) :=
  match h : s.world.file.load with
  | .ok current =>
    decidable_of_iff (∀ q ∈ current.packages, q.name ∈ kept → q ∈ lf.packages)
      ⟨fun hall _ hload ↦ Except.ok.inj (h.symm.trans hload) ▸ hall, fun hsteady ↦ hsteady _ h⟩
  | .error _ => isTrue fun _ hload ↦ absurd (h.symm.trans hload) nofun

instance (s : Shop κ) : (a : Shop.Action) → Decidable (Steady s a)
  | .call .. => isTrue trivial
  | .kill _ => isTrue trivial
  | .advance id _ =>
    match hp : s.procs id with
    | none => isTrue fun _ _ _ h ↦ absurd (hp.symm.trans h) nofun
    | some p =>
      match hphase : p.phase with
      | .pruning kept lf =>
        decidable_of_iff (SteadySince s kept lf) ⟨fun h q kept' lf' hq hpruning ↦ by
          obtain rfl := Option.some.inj (hp.symm.trans hq)
          obtain ⟨rfl, rfl⟩ := Phase.pruning.inj (hphase.symm.trans hpruning)
          exact h, fun h ↦ h p kept lf hp hphase⟩
      | .next | .loaded .. | .asking .. | .resolved .. | .waiting .. | .locked .. | .rechecking ..
      | .fetching .. | .promoted .. | .recording .. | .frozenWaiting .. | .frozenLocked .. | .done
      | .failed => isTrue fun q _ _ hq hpruning ↦ by
          obtain rfl := Option.some.inj (hp.symm.trans hq)
          exact absurd (hphase.symm.trans hpruning) nofun

instance decidableSteadyRun [LinearOrder ν] (tools : Tools ν) (registry : String) (s : Shop κ) :
    (actions : List Shop.Action) → Decidable (SteadyRun tools registry s actions)
  | [] => isTrue trivial
  | a :: rest =>
    match h : s.step tools registry a with
    | none => decidable_of_iff (Steady s a)
        ⟨fun hsteady ↦ ⟨hsteady, fun _ hs' ↦ absurd (h.symm.trans hs') nofun⟩, And.left⟩
    | some s' =>
      have := decidableSteadyRun tools registry s' rest
      decidable_of_iff (Steady s a ∧ SteadyRun tools registry s' rest)
        ⟨fun hsteady ↦ ⟨hsteady.1, fun _ hs' ↦ Option.some.inj (h.symm.trans hs') ▸ hsteady.2⟩,
          fun hsteady ↦ ⟨hsteady.1, hsteady.2 s' h⟩⟩

end Check

/-! ## Two orders of steps -/

def goOn (id : ℕ) (answers : Answers) (times : ℕ) : List Shop.Action :=
  List.replicate times (.advance id answers)

/-- The entry of a package that is in the cache of `pairWorld`. -/
def widgetEntry (version sha256 : String) : LockfilePackage Unit :=
  ⟨"acme/widget", version, sha256, sha256, "registry+r", none⟩

/-- The lockfile pins a package of the manifest and one that nobody lists. Both are in the cache. -/
def pairWorld : World Unit where
  file := .text ⟨2, [widgetEntry "1.0.0" "aa",
    ⟨"acme/zebra", "1.0.0", "aa", "aa", "registry+r", none⟩]⟩
  cache name version :=
    if version = "1.0.0" ∧ (name = "acme/widget" ∨ name = "acme/zebra") then
      some [("widget.wasm".toList, some [1])]
    else none
  promoted := []

theorem canonical_pairWorld : ∀ lf, pairWorld.file.load = .ok lf → Canonical lf.packages := by
  intro lf h
  rw [← Except.ok.inj h]
  exact pairwise_pair.mpr (by decide)

/-- One process installs `acme/widget@2.0.0`, and another then prunes. -/
def oneAfterAnother : List Shop.Action :=
  .call 1 (.install "acme" "widget" (some "2.0.0")) :: goOn 1 (sampleAnswers "2.0.0" "bb" [2]) 10 ++
    .call 0 (.manifest [("acme/widget", "2.0.0")] false) ::
      goOn 0 (sampleAnswers "2.0.0" "bb" [2]) 5

theorem recorded_entries_stay_after_another : ∃ s,
    (Shop.opened pairWorld).run sampleTools "r" oneAfterAnother = some s ∧
      ∃ lf, s.world.file.load = .ok lf ∧ widgetEntry "2.0.0" "bb" ∈ lf.packages := by
  have hlog : ((Shop.opened pairWorld).run sampleTools "r" oneAfterAnother).map Shop.log =
      some [.keep ["acme/widget"], .put "acme/widget" (widgetEntry "2.0.0" "bb")] := by
    decide +kernel
  obtain ⟨s, hrun, hlog⟩ := Option.map_eq_some_iff.mp hlog
  have hstay := (recorded_entries_stay sampleTools "r" pairWorld canonical_pairWorld
    oneAfterAnother s hrun (by decide +kernel)).2 [.keep ["acme/widget"]] [] _ _ hlog
  refine ⟨s, hrun, ?_⟩
  rcases hstay with hcurrent | ⟨other, hother, -⟩ | ⟨kept, hkept, hdropped⟩
  · exact hcurrent
  · exact absurd (mem_singleton.mp hother) nofun
  · obtain rfl := Event.keep.inj (mem_singleton.mp hkept)
    exact absurd mem_cons_self hdropped

/-- A process has loaded the lockfile to prune it. Another records `acme/widget@2.0.0`. Then the
first writes what it has loaded. -/
def between : List Shop.Action :=
  .call 0 (.manifest [("acme/widget", "1.0.0")] false) ::
    goOn 0 (sampleAnswers "1.0.0" "aa" [1]) 4 ++
  .call 1 (.install "acme" "widget" (some "2.0.0")) :: goOn 1 (sampleAnswers "2.0.0" "bb" [2]) 10 ++
  goOn 0 (sampleAnswers "1.0.0" "aa" [1]) 1

/-- An entry that was recorded is neither there nor replaced nor pruned. -/
theorem recorded_entry_lost : ¬∀ (tools : Tools ℕ) (registry : String) (world : World Unit),
    (∀ lf, world.file.load = .ok lf → Canonical lf.packages) →
      ∀ (actions : List Shop.Action) (s : Shop Unit),
        (Shop.opened world).run tools registry actions = some s →
          ∀ later earlier name entry, s.log = later ++ .put name entry :: earlier →
            (∃ lf, s.world.file.load = .ok lf ∧ entry ∈ lf.packages) ∨
              (∃ other, .put name other ∈ later ∧ other.version ≠ entry.version) ∨
                ∃ kept, .keep kept ∈ later ∧ name ∉ kept := by
  intro h
  have hend : ((Shop.opened pairWorld).run sampleTools "r" between).map
      (fun s ↦ (s.log, s.world.file)) =
      some ([.keep ["acme/widget"], .put "acme/widget" (widgetEntry "2.0.0" "bb")],
        .text ⟨2, [widgetEntry "1.0.0" "aa"]⟩) := by
    decide +kernel
  obtain ⟨s, hrun, hend⟩ := Option.map_eq_some_iff.mp hend
  obtain ⟨hlog, hfile⟩ := Prod.mk.inj hend
  rcases h _ _ _ canonical_pairWorld _ s hrun [.keep ["acme/widget"]] [] _ _ hlog with
    ⟨lf, hload, hmem⟩ | ⟨other, hother, -⟩ | ⟨kept, hkept, hdropped⟩
  · rw [hfile] at hload
    obtain rfl := Except.ok.inj hload
    exact absurd hmem (by decide)
  · exact absurd (mem_singleton.mp hother) nofun
  · obtain rfl := Event.keep.inj (mem_singleton.mp hkept)
    exact absurd mem_cons_self hdropped

end WaferRun.Install

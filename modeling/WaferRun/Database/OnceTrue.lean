import WaferRun.Database.SchemaCoherence

/-!
# Cached facts were once true

Another process creates tables in the database and never touches the cache of this one. A fact that
the cache keeps need not be read in the moment it is written, but it should have been true of the
table at some moment of the probe that brought it into the cache.

A probe of the primary key asks twice: for the key, and if there is none, for the table. A missing
table has no key, and if it is created between the two questions the answers describe a table
without a key that never was (`empty_key_never_true`). Unless a table with a key is created while a
probe holds an empty key of it, every fact was once true (`cached_facts_once_true`).

What was true when is no part of the code: every probe is watched together with the databases there
were since its snapshot, and what it brings into the cache is recorded with them.
-/

open List

namespace WaferRun.Database

open Text

/-! ## Facts -/

/-- A fact about a table, as the cache keeps it. -/
inductive Learned
  | present
  | columns (columns : TableColumns)
  | primaryKey (key : List String)
  | idPolicy (policy : IdPolicy)
deriving DecidableEq, Repr

def TableSchema.facts (entry : TableSchema) : List Learned :=
  (if entry.present then [.present] else []) ++ entry.columns.toList.map .columns ++
    entry.primaryKey.toList.map .primaryKey ++ entry.idPolicy.toList.map .idPolicy

def TableSchema.Says (entry : TableSchema) : Learned → Prop
  | .present => entry.present = true
  | .columns c => entry.columns = some c
  | .primaryKey k => entry.primaryKey = some k
  | .idPolicy p => entry.idPolicy = some p

theorem TableSchema.mem_facts {entry : TableSchema} {f : Learned} :
    f ∈ entry.facts ↔ entry.Says f := by
  cases f <;> simp [facts, Says]

def Learned.TrueOf (U : CaseTables) (info : TableInfo) : Learned → Prop
  | .present => True
  | .columns c => c = introspectColumns U info.columns
  | .primaryKey k => k = keyColumns info.primaryKey
  | .idPolicy p => p = info.idPolicy

def Probe.Brings (cache : SchemaCache) (p : Probe) (f : Learned) : Prop :=
  match p.stage with
  | .setIdPolicy policy => f = .present ∨ f = .idPolicy policy
  | .setColumns columns => columns.names ≠ [] ∧ (f = .present ∨ f = .columns columns)
  | .markPresent _ => f = .present
  | .setPrimaryKey key =>
    key ≠ [] ∧ (f = .present ∨ f = .primaryKey key) ∨
      (cache.entry p.table).present = true ∧ f = .primaryKey key
  | .queryIdPolicy | .queryColumns | .queryPrimaryKey | .checkPresent _ | .queryExists _ => False

section Brings

variable {U : CaseTables} {db : Schema} {cache : SchemaCache} {p : Probe}

theorem says_put {table t : String} {e : TableSchema} {f : Learned} {P : Prop}
    (h : ((cache.put table e).entry t).Says f)
    (hself : e.Says f → (cache.entry table).Says f ∨ P) :
    (cache.entry t).Says f ∨ t = table ∧ P := by
  rcases eq_or_ne t table with rfl | hne
  · rw [SchemaCache.entry_put_self] at h
    exact (hself h).imp_right fun hP ↦ ⟨rfl, hP⟩
  · rw [SchemaCache.entry_put_of_ne hne] at h
    exact .inl h

/-- **What a probe leaves in the cache was there before or is brought by it.** -/
theorem Probe.says_advance {t : String} {f : Learned}
    (h : ((p.advance U db cache).1.entry t).Says f) :
    (cache.entry t).Says f ∨ t = p.table ∧ p.Brings cache f := by
  obtain ⟨table, gen0, stage, age⟩ := p
  cases stage with
  | queryIdPolicy =>
    rw [advance] at h
    dsimp only at h
    split at h <;> exact .inl h
  | setIdPolicy policy =>
    rw [advance] at h
    dsimp only at h
    rw [SchemaCache.setIdPolicyIfGen] at h
    split at h
    · exact .inl h
    · refine says_put h fun hself ↦ ?_
      cases f with
      | present => exact .inr (.inl rfl)
      | columns columns => exact .inl hself
      | primaryKey key => exact .inl hself
      | idPolicy policy' => exact .inr (.inr (congrArg _ (Option.some.inj hself).symm))
  | queryColumns => exact .inl h
  | setColumns columns =>
    rw [advance] at h
    dsimp only at h
    rw [SchemaCache.setColumnsIfGen] at h
    split at h
    · exact .inl h
    · rename_i hnames
      split at h
      · exact .inl h
      · refine says_put h fun hself ↦ ?_
        cases f with
        | present => exact .inr ⟨hnames, .inl rfl⟩
        | columns columns' =>
          exact .inr ⟨hnames, .inr (congrArg _ (Option.some.inj hself).symm)⟩
        | primaryKey key => exact .inl hself
        | idPolicy policy => exact .inl hself
  | queryPrimaryKey => exact .inl h
  | checkPresent key =>
    rw [advance] at h
    dsimp only at h
    split at h <;> exact .inl h
  | queryExists key =>
    rw [advance] at h
    dsimp only at h
    split at h <;> exact .inl h
  | markPresent key =>
    rw [advance] at h
    dsimp only at h
    rw [SchemaCache.markTablePresentIfGen] at h
    split at h
    · exact .inl h
    · refine says_put h fun hself ↦ ?_
      cases f with
      | present => exact .inr rfl
      | columns columns => exact .inl hself
      | primaryKey key => exact .inl hself
      | idPolicy policy => exact .inl hself
  | setPrimaryKey key =>
    rw [advance] at h
    dsimp only at h
    rw [SchemaCache.setPrimaryKeyIfGen] at h
    split at h
    · exact .inl h
    · split at h
      · rename_i hkey
        refine says_put h fun hself ↦ ?_
        cases f with
        | present => exact .inr (.inl ⟨hkey, .inl rfl⟩)
        | columns columns => exact .inl hself
        | primaryKey key' =>
          exact .inr (.inl ⟨hkey, .inr (congrArg _ (Option.some.inj hself).symm)⟩)
        | idPolicy policy => exact .inl hself
      · split at h
        · rename_i hpresent
          refine says_put h fun hself ↦ ?_
          cases f with
          | present => exact .inl hself
          | columns columns => exact .inl hself
          | primaryKey key' =>
            exact .inr (.inr ⟨hpresent, congrArg _ (Option.some.inj hself).symm⟩)
          | idPolicy policy => exact .inl hself
        · exact says_put h .inl

end Brings

/-! ## Two processes -/

/-- A probe, with the databases there were since its snapshot, the last one first. -/
structure Watched where
  probe : Probe
  seen : List Schema

/-- A fact that a probe brought into the cache, with the databases there were during the probe. -/
structure Finding where
  table : String
  fact : Learned
  seen : List Schema

/-- A database that two processes share, the cache of one of them, its probes on their way, and the
record of what they have brought into the cache. -/
structure Shared where
  db : Schema
  cache : SchemaCache
  probes : List Watched
  records : List Finding

inductive SharedAct
  /-- A probe takes the generation. -/
  | snapshot (fact : Fact) (table : String)
  /-- A probe goes on. -/
  | probe (i : ℕ)
  /-- A probe fails. -/
  | abandon (i : ℕ)
  /-- A table, or the whole cache, is forgotten. -/
  | forget (scope : Scope)
  /-- The other process creates a table. -/
  | create (table : String) (info : TableInfo)

def Schema.create (db : Schema) (table : String) (info : TableInfo) : Schema :=
  fun t ↦ if t = table then some info else db t

def newFacts (before after : TableSchema) : List Learned :=
  after.facts.filter fun f ↦ f ∉ before.facts

/-- A probe that goes on is replaced, one that has ended is removed. -/
def goOn (probes : List Watched) (i : ℕ) (w : Watched) : Option Stage → List Watched
  | some stage => probes.set i { w with probe := { w.probe with stage := stage } }
  | none => probes.eraseIdx i

/-- One move of either process. -/
def sharedStep (U : CaseTables) (s : Shared) : SharedAct → Option Shared
  | .snapshot fact table =>
    some { s with
      probes := s.probes ++ [⟨⟨table, s.cache.generation, fact.query, 0⟩, [s.db]⟩] }
  | .probe i =>
    s.probes[i]?.map fun w ↦
      let (cache, stage) := w.probe.advance U s.db s.cache
      let fresh := newFacts (s.cache.entry w.probe.table) (cache.entry w.probe.table)
      { s with
        cache := cache
        probes := goOn s.probes i w stage
        records := fresh.map (⟨w.probe.table, ·, w.seen⟩) ++ s.records }
  | .abandon i => s.probes[i]?.map fun _ ↦ { s with probes := s.probes.eraseIdx i }
  | .forget scope => some { s with cache := scope.forget s.cache }
  | .create table info =>
    if s.db table = none then
      let db := s.db.create table info
      some { s with
        db := db
        probes := s.probes.map fun w ↦ { w with seen := db :: w.seen } }
    else none

/-- An empty cache. -/
def Shared.init (db : Schema) : Shared := ⟨db, .new, [], []⟩

def Finding.Held (U : CaseTables) (r : Finding) : Prop :=
  ∃ db ∈ r.seen, ∃ info, db r.table = some info ∧ r.fact.TrueOf U info

structure Shared.OnceTrue (U : CaseTables) (s : Shared) : Prop where
  recorded : ∀ t, ∀ f ∈ (s.cache.entry t).facts, ∃ r ∈ s.records, r.table = t ∧ r.fact = f
  held : ∀ r ∈ s.records, r.Held U

/-! ## Empty keys -/

def Stage.key? : Stage → Option (List String)
  | .checkPresent key | .queryExists key | .markPresent key | .setPrimaryKey key => some key
  | .queryIdPolicy | .setIdPolicy _ | .queryColumns | .setColumns _ | .queryPrimaryKey => none

def SharedAct.quiet (s : Shared) : SharedAct → Bool
  | .create table info =>
    keyColumns info.primaryKey = [] ||
      s.probes.all fun w ↦ w.probe.table ≠ table || w.probe.stage.key? ≠ some []
  | _ => true

/-- The moves that do not come between an empty key and the table. -/
def quietStep (U : CaseTables) (s : Shared) (a : SharedAct) : Option Shared :=
  (sharedStep U s a).filter fun _ ↦ a.quiet s

/-! ## The invariant -/

section Invariant

variable {U : CaseTables}

def Watched.KeyHeld (U : CaseTables) (db : Schema) (w : Watched) (key : List String) : Prop :=
  db w.probe.table = none ∧ key = [] ∨ Finding.Held U ⟨w.probe.table, .primaryKey key, w.seen⟩

def Watched.Held (U : CaseTables) (db : Schema) (w : Watched) : Prop :=
  match w.probe.stage with
  | .queryIdPolicy | .queryColumns | .queryPrimaryKey => True
  | .setIdPolicy policy => Finding.Held U ⟨w.probe.table, .idPolicy policy, w.seen⟩
  | .setColumns columns =>
    columns.names ≠ [] → Finding.Held U ⟨w.probe.table, .columns columns, w.seen⟩
  | .checkPresent key | .queryExists key | .setPrimaryKey key => w.KeyHeld U db key
  | .markPresent key => db w.probe.table ≠ none ∧ w.KeyHeld U db key

structure Watched.Sound (U : CaseTables) (db : Schema) (w : Watched) : Prop where
  now : db ∈ w.seen
  stays : ∀ db' ∈ w.seen, ∀ t info, db' t = some info → db t = some info
  held : w.Held U db

structure Shared.Sound (U : CaseTables) (s : Shared) : Prop where
  once : s.OnceTrue U
  present : ∀ t, (s.cache.entry t).present = true → s.db t ≠ none
  probes : ∀ w ∈ s.probes, w.Sound U s.db

theorem Watched.Sound.held_now {db : Schema} {w : Watched} (h : w.Sound U db) {f : Learned}
    (hf : ∃ info, db w.probe.table = some info ∧ f.TrueOf U info) :
    Finding.Held U ⟨w.probe.table, f, w.seen⟩ :=
  ⟨db, h.now, hf⟩

theorem Watched.Sound.exists_table {db : Schema} {w : Watched} (h : w.Sound U db) {f : Learned}
    (hf : Finding.Held U ⟨w.probe.table, f, w.seen⟩) : db w.probe.table ≠ none := by
  obtain ⟨db', hdb', info, hinfo, -⟩ := hf
  rw [h.stays db' hdb' _ info hinfo]
  nofun

theorem Finding.Held.present {table : String} {f : Learned} {seen : List Schema}
    (h : Finding.Held U ⟨table, f, seen⟩) : Finding.Held U ⟨table, .present, seen⟩ := by
  obtain ⟨db, hdb, info, hinfo, -⟩ := h
  exact ⟨db, hdb, info, hinfo, trivial⟩

theorem Watched.Sound.brings {db : Schema} {cache : SchemaCache} {w : Watched}
    (h : w.Sound U db) (hpresent : (cache.entry w.probe.table).present = true →
      db w.probe.table ≠ none) {f : Learned} (hf : w.probe.Brings cache f) :
    Finding.Held U ⟨w.probe.table, f, w.seen⟩ := by
  have hheld := h.held
  rw [Watched.Held] at hheld
  rw [Probe.Brings] at hf
  split at hf
  · rename_i policy hstage
    rw [hstage] at hheld
    rcases hf with rfl | rfl
    · exact hheld.present
    · exact hheld
  · rename_i columns hstage
    rw [hstage] at hheld
    obtain ⟨hnames, rfl | rfl⟩ := hf
    · exact (hheld hnames).present
    · exact hheld hnames
  · rename_i key hstage
    rw [hstage] at hheld
    obtain ⟨info, hinfo⟩ := Option.ne_none_iff_exists'.mp hheld.1
    rw [hf]
    exact h.held_now ⟨info, hinfo, trivial⟩
  · rename_i key hstage
    rw [hstage] at hheld
    rcases hf with ⟨hkey, rfl | rfl⟩ | ⟨hthere, rfl⟩
    · exact (hheld.resolve_left fun hmissing ↦ hkey hmissing.2).present
    · exact hheld.resolve_left fun hmissing ↦ hkey hmissing.2
    · exact hheld.resolve_left fun hmissing ↦ hpresent hthere hmissing.1
  all_goals exact hf.elim

theorem Watched.Sound.advance {db : Schema} {cache : SchemaCache} {w : Watched}
    (h : w.Sound U db) {stage : Stage} (hstage : (w.probe.advance U db cache).2 = some stage) :
    Watched.Sound U db { w with probe := { w.probe with stage := stage } } := by
  refine ⟨h.now, h.stays, ?_⟩
  have hheld := h.held
  obtain ⟨⟨table, gen0, stage', age⟩, seen⟩ := w
  rw [Watched.Held] at hheld
  cases stage' with
  | queryIdPolicy =>
    rw [Probe.advance] at hstage
    dsimp only at hstage
    split at hstage
    · rename_i hprobe
      cases hstage
      exact h.held_now (IdPolicyProbe.eq_of_fromCode hprobe)
    · cases hstage
    · cases hstage
  | setIdPolicy policy => cases hstage
  | queryColumns =>
    cases hstage
    intro hnames
    refine h.held_now ?_
    change ∃ info, db table = some info ∧ introspectColumns U (db.listColumns table) = _
    cases hinfo : db table with
    | none =>
      rw [Schema.listColumns, hinfo] at hnames
      exact absurd rfl hnames
    | some info => exact ⟨info, rfl, by rw [Schema.listColumns, hinfo]; rfl⟩
  | setColumns columns => cases hstage
  | queryPrimaryKey =>
    cases hstage
    change db table = none ∧ keyColumns (db.listPrimaryKey table) = [] ∨ _
    cases hinfo : db table with
    | none => exact .inl ⟨rfl, by rw [Schema.listPrimaryKey, hinfo]; rfl⟩
    | some info =>
      exact .inr (h.held_now ⟨info, hinfo, by rw [Schema.listPrimaryKey, hinfo]; rfl⟩)
  | checkPresent key =>
    rw [Probe.advance] at hstage
    dsimp only at hstage
    split at hstage <;> cases hstage <;> exact hheld
  | queryExists key =>
    rw [Probe.advance] at hstage
    dsimp only at hstage
    split at hstage
    · rename_i hexists
      cases hstage
      exact ⟨Option.isSome_iff_ne_none.mp hexists, hheld⟩
    · cases hstage
      exact hheld
  | markPresent key =>
    cases hstage
    exact hheld.2
  | setPrimaryKey key => cases hstage

/-- A table is created, and not while the probe holds an empty key of it. -/
theorem Watched.Sound.create {db : Schema} {w : Watched} (h : w.Sound U db) {table : String}
    {info : TableInfo} (hmissing : db table = none)
    (hquiet : keyColumns info.primaryKey = [] ∨ w.probe.table ≠ table ∨
      w.probe.stage.key? ≠ some []) :
    Watched.Sound U (db.create table info) { w with seen := db.create table info :: w.seen } := by
  have hstays : ∀ t info', db t = some info' → db.create table info t = some info' := by
    intro t info' ht
    rw [Schema.create, if_neg, ht]
    rintro rfl
    rw [hmissing] at ht
    cases ht
  have hmono {f : Learned} (hf : Finding.Held U ⟨w.probe.table, f, w.seen⟩) :
      Finding.Held U ⟨w.probe.table, f, db.create table info :: w.seen⟩ := by
    obtain ⟨db', hdb', hinfo⟩ := hf
    exact ⟨db', mem_cons_of_mem _ hdb', hinfo⟩
  have hkey {key : List String} (hstage : w.probe.stage.key? = some key)
      (hk : w.KeyHeld U db key) : Watched.KeyHeld U (db.create table info)
        { w with seen := db.create table info :: w.seen } key := by
    rcases hk with ⟨hnone, rfl⟩ | hheld
    · by_cases htable : w.probe.table = table
      · -- the table of the probe is created, without a key
        refine .inr ⟨_, mem_cons_self, info, if_pos htable, ?_⟩
        rcases hquiet with hempty | hother | hother
        · exact hempty.symm
        · exact absurd htable hother
        · exact absurd hstage hother
      · exact .inl ⟨(if_neg htable).trans hnone, rfl⟩
    · exact .inr (hmono hheld)
  refine ⟨mem_cons_self, fun db' hdb' t info' hinfo' ↦ ?_, ?_⟩
  · rcases mem_cons.mp hdb' with rfl | hdb'
    · exact hinfo'
    · exact hstays t info' (h.stays db' hdb' t info' hinfo')
  · have hheld := h.held
    obtain ⟨⟨t, gen0, stage, age⟩, seen⟩ := w
    rw [Watched.Held] at hheld ⊢
    cases stage with
    | queryIdPolicy => trivial
    | setIdPolicy policy => exact hmono hheld
    | queryColumns => trivial
    | setColumns columns => exact fun hnames ↦ hmono (hheld hnames)
    | queryPrimaryKey => trivial
    | checkPresent key => exact hkey rfl hheld
    | queryExists key => exact hkey rfl hheld
    | markPresent key =>
      obtain ⟨info', hinfo'⟩ := Option.ne_none_iff_exists'.mp hheld.1
      refine ⟨?_, hkey rfl hheld.2⟩
      rw [hstays t info' hinfo']
      nofun
    | setPrimaryKey key => exact hkey rfl hheld

/-- What a probe step brings is recorded. -/
theorem Shared.Sound.probe {s : Shared} (h : s.Sound U) {i : ℕ} {w : Watched}
    (hw : s.probes[i]? = some w) {t : Shared}
    (ht : sharedStep U s (.probe i) = some t) : t.Sound U := by
  have hmem : w ∈ s.probes := List.mem_of_getElem? hw
  have hsound := h.probes w hmem
  rw [sharedStep, hw] at ht
  cases ht
  have hbrings (f : Learned) (hf : w.probe.Brings s.cache f) :
      Finding.Held U ⟨w.probe.table, f, w.seen⟩ := hsound.brings (h.present _) hf
  refine ⟨⟨fun u f hf ↦ ?_, fun r hr ↦ ?_⟩, fun u hu ↦ ?_, fun w' hw' ↦ ?_⟩
  · -- a fact is recorded as an old one or as a new one
    dsimp only at hf ⊢
    by_cases hold : f ∈ (s.cache.entry u).facts
    · obtain ⟨r, hr, hrecord⟩ := h.once.recorded u f hold
      exact ⟨r, mem_append_right _ hr, hrecord⟩
    · rcases Probe.says_advance (TableSchema.mem_facts.mp hf) with hthere | ⟨rfl, -⟩
      · exact absurd (TableSchema.mem_facts.mpr hthere) hold
      · refine ⟨⟨w.probe.table, f, w.seen⟩, mem_append_left _ ?_, rfl, rfl⟩
        exact mem_map_of_mem (mem_filter.mpr ⟨hf, decide_eq_true hold⟩)
  · rcases mem_append.mp hr with hr | hr
    · obtain ⟨f, hf, rfl⟩ := mem_map.mp hr
      obtain ⟨hnew, hold⟩ := mem_filter.mp hf
      rcases Probe.says_advance (TableSchema.mem_facts.mp hnew) with hthere | ⟨-, hf⟩
      · exact absurd (TableSchema.mem_facts.mpr hthere) (of_decide_eq_true hold)
      · exact hbrings f hf
    · exact h.once.held r hr
  · have hsays : ((w.probe.advance U s.db s.cache).1.entry u).Says .present := hu
    rcases Probe.says_advance hsays with hthere | ⟨rfl, hf⟩
    · exact h.present u hthere
    · exact hsound.exists_table (hbrings _ hf)
  · change w' ∈ goOn s.probes i w (w.probe.advance U s.db s.cache).2 at hw'
    cases hstage : (w.probe.advance U s.db s.cache).2 with
    | none =>
      rw [hstage] at hw'
      exact h.probes w' (mem_of_mem_eraseIdx hw')
    | some stage =>
      rw [hstage] at hw'
      rcases mem_or_eq_of_mem_set hw' with hw' | rfl
      · exact h.probes w' hw'
      · exact hsound.advance hstage

/-- **A quiet move keeps the invariant.** -/
theorem Shared.Sound.step {s t : Shared} (h : s.Sound U) {a : SharedAct}
    (ht : quietStep U s a = some t) : t.Sound U := by
  obtain ⟨hstep, hquiet⟩ := Option.filter_eq_some_iff.mp ht
  cases a with
  | snapshot fact table =>
    cases hstep
    refine ⟨⟨h.once.recorded, h.once.held⟩, h.present, fun w hw ↦ ?_⟩
    rcases mem_append.mp hw with hw | hw
    · exact h.probes w hw
    · rw [mem_singleton.mp hw]
      refine ⟨mem_singleton_self _, fun db' hdb' t info hinfo ↦ ?_, ?_⟩
      · rwa [← mem_singleton.mp hdb']
      · cases fact <;> trivial
  | probe i =>
    cases hw : s.probes[i]? with
    | none =>
      rw [sharedStep, hw] at hstep
      cases hstep
    | some w => exact h.probe hw hstep
  | abandon i =>
    obtain ⟨w, -, rfl⟩ := Option.map_eq_some_iff.mp hstep
    exact ⟨⟨h.once.recorded, h.once.held⟩, h.present,
      fun w hw ↦ h.probes w (mem_of_mem_eraseIdx hw)⟩
  | forget scope =>
    cases hstep
    have hkept (t : String) (f : Learned) (hf : ((scope.forget s.cache).entry t).Says f) :
        (s.cache.entry t).Says f := by
      by_cases hcovers : scope.Covers t
      · rw [Scope.entry_forget_of_covers hcovers] at hf
        cases f <;> cases hf
      · rwa [Scope.entry_forget_of_not_covers hcovers] at hf
    refine ⟨⟨fun t f hf ↦ ?_, h.once.held⟩, fun t ht ↦ h.present t (hkept t .present ht), h.probes⟩
    exact h.once.recorded t f (TableSchema.mem_facts.mpr (hkept t f (TableSchema.mem_facts.mp hf)))
  | create table info =>
    rw [sharedStep] at hstep
    split at hstep
    · rename_i hmissing
      cases hstep
      refine ⟨⟨h.once.recorded, h.once.held⟩, fun t ht ↦ ?_, fun w hw ↦ ?_⟩
      · dsimp only
        rw [Schema.create]
        split
        · nofun
        · exact h.present t ht
      · obtain ⟨w', hw', rfl⟩ := mem_map.mp hw
        refine (h.probes w' hw').create hmissing ?_
        rw [SharedAct.quiet, Bool.or_eq_true, decide_eq_true_eq] at hquiet
        refine hquiet.imp_right fun hall ↦ ?_
        have hother := all_eq_true.mp hall w' hw'
        rwa [Bool.or_eq_true, decide_eq_true_eq, decide_eq_true_eq] at hother
    · cases hstep

end Invariant

/-- **Cached facts were once true.** In every run of probes, invalidations and creations of tables
by another process, in which no table with a key is created while a probe holds an empty key of it:
whatever is in the cache was brought there by a probe, and was true of the table, which existed, at
some moment of that probe. -/
theorem cached_facts_once_true (U : CaseTables) (db : Schema) {as : List SharedAct} {s : Shared}
    (h : Actions.run (quietStep U) (.init db) as = some s) : s.OnceTrue U := by
  have hinit : (Shared.init db).Sound U := by
    refine ⟨⟨?_, fun r hr ↦ absurd hr not_mem_nil⟩, fun t ht ↦ absurd ht Bool.false_ne_true,
      fun w hw ↦ absurd hw not_mem_nil⟩
    exact fun t f hf ↦ absurd hf not_mem_nil
  have hsound : s.Sound U := Actions.run_invariant (fun _ _ _ hs ht ↦ hs.step ht) hinit h
  exact hsound.once

/-! ## An empty key that was never true -/

def keyed : TableInfo := ⟨[⟨some "id", some "TEXT"⟩], [some "id"], .mint⟩

def createEarly : List SharedAct :=
  [.snapshot .primaryKey "orders", .create "orders" keyed, .probe 0, .probe 0, .probe 0]

def createLate : List SharedAct :=
  [.snapshot .primaryKey "orders", .probe 0, .create "orders" keyed, .probe 0, .probe 0, .probe 0,
    .probe 0]

/-- A table that is created early has its key in the cache. -/
theorem cached_facts_once_true_early : ∃ s,
    Actions.run (quietStep .ascii) (.init fun _ ↦ none) createEarly = some s ∧
      (s.cache.entry "orders").primaryKey = some ["id"] ∧ s.OnceTrue .ascii := by
  have hrun : ∃ s, Actions.run (quietStep .ascii) (.init fun _ ↦ none) createEarly =
      some s ∧ (s.cache.entry "orders").primaryKey = some ["id"] := ⟨_, rfl, rfl⟩
  obtain ⟨s, hs, hkey⟩ := hrun
  exact ⟨s, hs, hkey, cached_facts_once_true .ascii _ hs⟩

/-- Of a table that is created late the cache says that it has no key, and it has one ever since it
exists. -/
theorem empty_key_never_true : ¬∀ (U : CaseTables) (db : Schema) (as : List SharedAct) (s : Shared),
    Actions.run (sharedStep U) (.init db) as = some s → s.OnceTrue U := by
  intro h
  have hrun : ∃ s, Actions.run (sharedStep .ascii) (.init fun _ ↦ none) createLate =
      some s ∧ s.records = [⟨"orders", .primaryKey [], [Schema.create (fun _ ↦ none) "orders" keyed,
        fun _ ↦ none]⟩, ⟨"orders", .present, [Schema.create (fun _ ↦ none) "orders" keyed,
        fun _ ↦ none]⟩] := ⟨_, rfl, rfl⟩
  obtain ⟨s, hs, hrecords⟩ := hrun
  obtain ⟨db, hdb, info, hinfo, hkey⟩ := (h _ _ _ s hs).held
    ⟨"orders", .primaryKey [], [Schema.create (fun _ ↦ none) "orders" keyed, fun _ ↦ none]⟩
    (hrecords ▸ mem_cons_self)
  rcases mem_cons.mp hdb with rfl | hdb
  · cases hinfo
    have hempty : [] = ["id"] := hkey
    cases hempty
  · rw [mem_singleton.mp hdb] at hinfo
    cases hinfo

end WaferRun.Database

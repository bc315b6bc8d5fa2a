import WaferRun.Database.SchemaCache
import WaferRun.Lib.Actions

/-!
# The schema cache is coherent

Any number of probes and schema changes run at the same time. A probe takes the generation of the
cache, reads the database, and writes what it read back to the cache. A change alters the database,
and later invalidates what it has altered.

The cache may hold a fact that is no longer true only while a change of that table has not been
settled. The reason is that a settled change has raised the generation since, so a probe that
writes back in the generation it started in has read the database after the change.

The generation wraps around after `2 ^ 64` invalidations. A probe that is so slow that exactly this
many happen between its snapshot and its write-back takes the generation to be unchanged, and writes
an old fact (`stale_after_wraparound`). Every probe that is faster is safe (`cache_coherent`).
-/

open List Option

namespace WaferRun.Database

open Text

/-! ## Probes -/

/-- Where a probe is. Each stage is named after what comes next. -/
inductive Stage
  | queryIdPolicy
  | setIdPolicy (policy : IdPolicy)
  | queryColumns
  | setColumns (columns : TableColumns)
  | queryPrimaryKey
  | checkPresent (key : List String)
  | queryExists (key : List String)
  | markPresent (key : List String)
  | setPrimaryKey (key : List String)

structure Probe where
  table : String
  gen0 : ℕ
  stage : Stage
  /-- The invalidations since its snapshot. The code does not keep this number. -/
  age : ℕ

/-- What a probe does next: what it leaves in the cache, and where it is then, unless it ends. -/
def Probe.advance (U : CaseTables) (db : Schema) (cache : SchemaCache) (p : Probe) :
    SchemaCache × Option Stage :=
  match p.stage with
  | .queryIdPolicy =>
    match IdPolicyProbe.fromCode (db.idPolicyCode p.table) with
    | some (.table policy) => (cache, some (.setIdPolicy policy))
    | some .noTable | none => (cache, none)
  | .setIdPolicy policy => (cache.setIdPolicyIfGen p.table policy p.gen0, none)
  | .queryColumns => (cache, some (.setColumns (introspectColumns U (db.listColumns p.table))))
  | .setColumns columns => (cache.setColumnsIfGen p.table columns p.gen0, none)
  | .queryPrimaryKey => (cache, some (.checkPresent (keyColumns (db.listPrimaryKey p.table))))
  | .checkPresent key =>
    if key = [] ∧ cache.tableKnownPresent p.table = false then (cache, some (.queryExists key))
    else (cache, some (.setPrimaryKey key))
  | .queryExists key =>
    if db.tableExists p.table then (cache, some (.markPresent key))
    else (cache, some (.setPrimaryKey key))
  | .markPresent key => (cache.markTablePresentIfGen p.table p.gen0, some (.setPrimaryKey key))
  | .setPrimaryKey key => (cache.setPrimaryKeyIfGen p.table key p.gen0, none)

/-- The fact a probe has read is true of the database. -/
def Stage.Holds (U : CaseTables) (db : Schema) (table : String) : Stage → Prop
  | .queryIdPolicy | .queryColumns | .queryPrimaryKey => True
  | .setIdPolicy policy => ∃ i, db table = some i ∧ policy = i.idPolicy
  | .setColumns columns => columns = introspectColumns U (db.listColumns table)
  | .checkPresent key | .queryExists key | .setPrimaryKey key =>
    key = keyColumns (db.listPrimaryKey table)
  | .markPresent key => db table ≠ none ∧ key = keyColumns (db.listPrimaryKey table)

theorem IdPolicyProbe.eq_of_fromCode {db : Schema} {table : String} {policy : IdPolicy}
    (h : fromCode (db.idPolicyCode table) = some (.table policy)) :
    ∃ i, db table = some i ∧ policy = i.idPolicy := by
  rw [Schema.idPolicyCode] at h
  split at h
  · cases h
  · rename_i info hinfo
    refine ⟨info, hinfo, ?_⟩
    cases hpolicy : info.idPolicy <;> rw [hpolicy] at h <;> cases h <;> rfl

section Advance

variable {U : CaseTables} {db : Schema} {cache : SchemaCache} {p : Probe}

theorem Probe.writeBack_advance :
    SchemaCache.WriteBack U db p.table p.gen0 (p.stage.Holds U db p.table) cache
      (p.advance U db cache).1 := by
  obtain ⟨table, gen0, stage, age⟩ := p
  cases stage with
  | queryIdPolicy =>
    rw [advance]
    dsimp only
    split <;> exact SchemaCache.writeBack_refl
  | setIdPolicy policy => exact SchemaCache.writeBack_setIdPolicy policy gen0
  | queryColumns => exact SchemaCache.writeBack_refl
  | setColumns columns => exact SchemaCache.writeBack_setColumns columns gen0
  | queryPrimaryKey => exact SchemaCache.writeBack_refl
  | checkPresent key =>
    rw [advance]
    dsimp only
    split <;> exact SchemaCache.writeBack_refl
  | queryExists key =>
    rw [advance]
    dsimp only
    split <;> exact SchemaCache.writeBack_refl
  | markPresent key =>
    have h : SchemaCache.WriteBack U db table gen0 (db table ≠ none) cache _ :=
      SchemaCache.writeBack_markTablePresent gen0
    exact ⟨h.writesOnly, h.dropped, fun hfact ↦ h.coherent hfact.1⟩
  | setPrimaryKey key => exact SchemaCache.writeBack_setPrimaryKey key gen0

theorem Probe.holds_advance {stage : Stage} (h : p.stage.Holds U db p.table)
    (hstage : (p.advance U db cache).2 = some stage) : stage.Holds U db p.table := by
  obtain ⟨table, gen0, stage', age⟩ := p
  cases stage' with
  | queryIdPolicy =>
    rw [advance] at hstage
    dsimp only at hstage
    split at hstage
    · rename_i hprobe
      cases hstage
      exact IdPolicyProbe.eq_of_fromCode hprobe
    · cases hstage
    · cases hstage
  | setIdPolicy policy => cases hstage
  | queryColumns =>
    cases hstage
    exact rfl
  | setColumns columns => cases hstage
  | queryPrimaryKey =>
    cases hstage
    exact rfl
  | checkPresent key =>
    rw [advance] at hstage
    dsimp only at hstage
    split at hstage
    · cases hstage
      exact h
    · cases hstage
      exact h
  | queryExists key =>
    rw [advance] at hstage
    dsimp only at hstage
    split at hstage
    · rename_i hexists
      cases hstage
      exact ⟨isSome_iff_ne_none.mp hexists, h⟩
    · cases hstage
      exact h
  | markPresent key =>
    cases hstage
    exact h.2
  | setPrimaryKey key => cases hstage

end Advance

/-! ## The system -/

/-- What a change of the schema touches: one table, or it cannot be told what. -/
inductive Scope
  | table (name : String)
  | all
deriving DecidableEq, Repr

namespace Scope

def Covers : Scope → String → Prop
  | .table name, t => t = name
  | .all, _ => True

def apply (scope : Scope) (db' db : Schema) : Schema :=
  match scope with
  | .table name => fun t ↦ if t = name then db' t else db t
  | .all => db'

def forget (scope : Scope) (cache : SchemaCache) : SchemaCache :=
  match scope with
  | .table name => cache.invalidate name
  | .all => cache.clear

theorem apply_of_not_covers {scope : Scope} {t : String} (h : ¬scope.Covers t) (db' db : Schema) :
    scope.apply db' db t = db t := by
  cases scope with
  | table name => exact if_neg h
  | all => exact absurd trivial h

theorem entry_forget_of_covers {scope : Scope} {t : String} (h : scope.Covers t)
    (cache : SchemaCache) : (scope.forget cache).entry t = .unknown := by
  cases scope with
  | table name =>
    cases h
    simp [forget, SchemaCache.invalidate, SchemaCache.entry]
  | all => rfl

theorem entry_forget_of_not_covers {scope : Scope} {t : String} (h : ¬scope.Covers t)
    (cache : SchemaCache) : (scope.forget cache).entry t = cache.entry t := by
  cases scope with
  | table name =>
    simp only [Covers] at h
    simp [forget, SchemaCache.invalidate, SchemaCache.entry, h]
  | all => exact absurd trivial h

theorem generation_forget (scope : Scope) (cache : SchemaCache) :
    (scope.forget cache).generation = (cache.generation + 1) % 2 ^ 64 := by
  cases scope <;> rfl

end Scope

/-- A database, its cache, the probes on their way, and the changes that have not been settled. -/
structure System where
  db : Schema
  cache : SchemaCache
  probes : List Probe
  pending : List Scope

inductive Fact
  | idPolicy
  | columns
  | primaryKey

def Fact.query : Fact → Stage
  | .idPolicy => .queryIdPolicy
  | .columns => .queryColumns
  | .primaryKey => .queryPrimaryKey

inductive SystemAct
  /-- A probe takes the generation. -/
  | snapshot (fact : Fact) (table : String)
  /-- A probe goes on. -/
  | probe (i : ℕ)
  /-- A probe fails. -/
  | abandon (i : ℕ)
  /-- A change of the schema begins. -/
  | change (scope : Scope) (db : Schema)
  /-- A change of the schema goes on. -/
  | changeAgain (scope : Scope) (db : Schema)
  /-- A change invalidates what it has touched. -/
  | settle (scope : Scope)

def replaceProbe (probes : List Probe) (i : ℕ) (p : Probe) : Option Stage → List Probe
  | some stage => probes.set i { p with stage := stage }
  | none => probes.eraseIdx i

def Probe.older (p : Probe) : Probe := { p with age := p.age + 1 }

def systemStep (U : CaseTables) (s : System) : SystemAct → Option System
  | .snapshot fact table =>
    some { s with probes := s.probes ++ [⟨table, s.cache.generation, fact.query, 0⟩] }
  | .probe i =>
    s.probes[i]?.map fun p ↦
      let (cache, stage) := p.advance U s.db s.cache
      { s with cache := cache, probes := replaceProbe s.probes i p stage }
  | .abandon i => s.probes[i]?.map fun _ ↦ { s with probes := s.probes.eraseIdx i }
  | .change scope db =>
    some { s with db := scope.apply db s.db, pending := scope :: s.pending }
  | .changeAgain scope db =>
    if scope ∈ s.pending then some { s with db := scope.apply db s.db } else none
  | .settle scope =>
    if scope ∈ s.pending then
      some { s with
        cache := scope.forget s.cache
        probes := s.probes.map Probe.older
        pending := s.pending.erase scope }
    else none

def System.init (db : Schema) : System := ⟨db, .new, [], []⟩

/-- The moves after which no probe is older than the generation can count. -/
def timelyStep (U : CaseTables) (s : System) (a : SystemAct) : Option System :=
  (systemStep U s a).filter fun t ↦ t.probes.all fun p ↦ p.age < 2 ^ 64

/-! ## The invariant -/

/-- A change of a table that has not been settled. -/
def System.Unsettled (s : System) (t : String) : Prop := ∃ scope ∈ s.pending, scope.Covers t

/-- A fact in the cache is true unless a change is unsettled, and so is what was read by a probe
that may still write it back. -/
structure System.Sound (U : CaseTables) (s : System) : Prop where
  cached : ∀ t, s.cache.CoherentAt U s.db t ∨ s.Unsettled t
  read : ∀ p ∈ s.probes, p.age = 0 → p.stage.Holds U s.db p.table ∨ s.Unsettled p.table
  generation : ∀ p ∈ s.probes,
    p.age < 2 ^ 64 ∧ p.gen0 < 2 ^ 64 ∧ s.cache.generation = (p.gen0 + p.age) % 2 ^ 64
  bounded : s.cache.generation < 2 ^ 64

section Invariant

variable {U : CaseTables} {s t : System}

theorem Stage.Holds.congr {db db' : Schema} {table : String} {stage : Stage}
    (h : stage.Holds U db table) (heq : db' table = db table) : stage.Holds U db' table := by
  have hcolumns : db'.listColumns table = db.listColumns table := by
    rw [Schema.listColumns, heq, Schema.listColumns]
  have hkey : db'.listPrimaryKey table = db.listPrimaryKey table := by
    rw [Schema.listPrimaryKey, heq, Schema.listPrimaryKey]
  cases stage <;> simp only [Holds, heq, hcolumns, hkey] at h ⊢ <;> exact h

theorem System.Sound.change (h : s.Sound U) (scope : Scope) (db : Schema) (pending : List Scope)
    (hsub : s.pending ⊆ pending) (hmem : scope ∈ pending) :
    ({ s with db := scope.apply db s.db, pending := pending } : System).Sound U := by
  have hunsettled : ∀ t, s.Unsettled t → ∃ scope ∈ pending, scope.Covers t := by
    rintro t ⟨scope', hscope', hcovers⟩
    exact ⟨scope', hsub hscope', hcovers⟩
  refine ⟨fun t ↦ ?_, fun p hp hage ↦ ?_, h.generation, h.bounded⟩
  · by_cases hc : scope.Covers t
    · exact .inr ⟨scope, hmem, hc⟩
    · exact (h.cached t).imp (fun hco ↦ hco.congr (Scope.apply_of_not_covers hc _ _) rfl)
        (hunsettled t)
  · by_cases hc : scope.Covers p.table
    · exact .inr ⟨scope, hmem, hc⟩
    · exact (h.read p hp hage).imp (fun hh ↦ hh.congr (Scope.apply_of_not_covers hc _ _))
        (hunsettled p.table)

/-- An invalidation keeps the invariant: it forgets what it settles, and it makes every probe too
old to write back. -/
theorem System.Sound.settle (h : s.Sound U) (scope : Scope)
    (hage : ∀ p ∈ s.probes, p.age + 1 < 2 ^ 64) :
    ({ s with
      cache := scope.forget s.cache
      probes := s.probes.map Probe.older
      pending := s.pending.erase scope } : System).Sound U := by
  refine ⟨fun t ↦ ?_, fun p hp hzero ↦ ?_, fun p hp ↦ ?_, ?_⟩
  · by_cases hc : scope.Covers t
    · left
      rw [SchemaCache.CoherentAt, Scope.entry_forget_of_covers hc]
      exact .unknown U _
    · refine (h.cached t).imp
        (fun hco ↦ hco.congr rfl (Scope.entry_forget_of_not_covers hc _)) ?_
      · rintro ⟨scope', hmem, hcovers⟩
        refine ⟨scope', (mem_erase_of_ne ?_).mpr hmem, hcovers⟩
        rintro rfl
        exact hc hcovers
  · obtain ⟨q, -, rfl⟩ := List.mem_map.mp hp
    exact absurd hzero (Nat.succ_ne_zero _)
  · obtain ⟨q, hq, rfl⟩ := List.mem_map.mp hp
    obtain ⟨-, hlt, hgen⟩ := h.generation q hq
    refine ⟨hage q hq, hlt, ?_⟩
    change (scope.forget s.cache).generation = (q.gen0 + (q.age + 1)) % 2 ^ 64
    rw [Scope.generation_forget, hgen, Nat.mod_add_mod, Nat.add_assoc]
  · rw [Scope.generation_forget]
    exact Nat.mod_lt _ (by decide)

theorem System.Sound.age_eq_zero (h : s.Sound U) {p : Probe} (hp : p ∈ s.probes)
    (hgen : s.cache.generation = p.gen0) : p.age = 0 := by
  obtain ⟨hage, hlt, heq⟩ := h.generation p hp
  omega

theorem mem_replaceProbe {probes : List Probe} {i : ℕ} {p q : Probe} {stage : Option Stage}
    (h : q ∈ replaceProbe probes i p stage) :
    q ∈ probes ∨ ∃ st, stage = some st ∧ q = { p with stage := st } := by
  cases stage with
  | none => exact .inl (mem_of_mem_eraseIdx h)
  | some st => exact (mem_or_eq_of_mem_set h).imp_right fun heq ↦ ⟨st, rfl, heq⟩

theorem System.Sound.probe (h : s.Sound U) {i : ℕ} {p : Probe} (hp : p ∈ s.probes) :
    ({ s with
      cache := (p.advance U s.db s.cache).1
      probes := replaceProbe s.probes i p (p.advance U s.db s.cache).2 } : System).Sound U := by
  have hwrite : SchemaCache.WriteBack U s.db p.table p.gen0 _ s.cache
      (p.advance U s.db s.cache).1 := p.writeBack_advance
  have hgeneration := hwrite.writesOnly.generation
  refine ⟨fun t ↦ ?_, fun q hq hage ↦ ?_, fun q hq ↦ ?_, ?_⟩
  · by_cases ht : t = p.table
    · subst ht
      by_cases hgen : s.cache.generation = p.gen0
      · rcases h.read p hp (h.age_eq_zero hp hgen) with hholds | hunsettled
        · exact (h.cached p.table).imp_left (hwrite.coherent hholds)
        · exact .inr hunsettled
      · rw [hwrite.dropped hgen]
        exact h.cached p.table
    · exact (h.cached t).imp_left fun hco ↦ hco.congr rfl (hwrite.writesOnly.other t ht)
  · rcases mem_replaceProbe hq with hq | ⟨st, hst, rfl⟩
    · exact h.read q hq hage
    · exact (h.read p hp hage).imp_left fun hholds ↦ p.holds_advance hholds hst
  · dsimp only
    rw [hgeneration]
    rcases mem_replaceProbe hq with hq | ⟨st, -, rfl⟩
    · exact h.generation q hq
    · exact h.generation p hp
  · dsimp only
    rw [hgeneration]
    exact h.bounded

theorem System.Sound.snapshot (h : s.Sound U) (fact : Fact) (table : String) :
    ({ s with probes := s.probes ++ [⟨table, s.cache.generation, fact.query, 0⟩] } :
      System).Sound U := by
  refine ⟨h.cached, fun p hp hage ↦ ?_, fun p hp ↦ ?_, h.bounded⟩
  · rcases mem_append.mp hp with hp | hp
    · exact h.read p hp hage
    · cases mem_singleton.mp hp
      cases fact <;> exact .inl trivial
  · rcases mem_append.mp hp with hp | hp
    · exact h.generation p hp
    · cases mem_singleton.mp hp
      exact ⟨Nat.two_pow_pos 64, h.bounded, (Nat.mod_eq_of_lt h.bounded).symm⟩

theorem System.Sound.step {a : SystemAct} (h : s.Sound U) (ht : timelyStep U s a = some t) :
    t.Sound U := by
  obtain ⟨hstep, htimely⟩ := filter_eq_some_iff.mp ht
  cases a with
  | snapshot fact table =>
    cases hstep
    exact h.snapshot fact table
  | probe i =>
    obtain ⟨p, hp, heq⟩ := map_eq_some_iff.mp hstep
    cases heq
    exact h.probe (List.mem_of_getElem? hp)
  | abandon i =>
    obtain ⟨p, hp, heq⟩ := map_eq_some_iff.mp hstep
    cases heq
    exact ⟨h.cached, fun q hq ↦ h.read q (mem_of_mem_eraseIdx hq),
      fun q hq ↦ h.generation q (mem_of_mem_eraseIdx hq), h.bounded⟩
  | change scope db =>
    cases hstep
    exact h.change scope db _ (subset_cons_self _ _) mem_cons_self
  | changeAgain scope db =>
    rw [systemStep] at hstep
    split at hstep
    · rename_i hmem
      cases hstep
      exact h.change scope db _ (List.Subset.refl _) hmem
    · cases hstep
  | settle scope =>
    rw [systemStep] at hstep
    split at hstep
    · cases hstep
      refine h.settle scope fun p hp ↦ ?_
      have hall := List.all_eq_true.mp htimely p.older (List.mem_map_of_mem hp)
      exact of_decide_eq_true hall
    · cases hstep

end Invariant

/-- **The cache is coherent.** In every state that probes and changes reach from an empty cache, if
no probe has lived through `2 ^ 64` invalidations and no change is unsettled, every fact in the
cache is what the database says. -/
theorem cache_coherent (U : CaseTables) (db : Schema) {as : List SystemAct} {s : System}
    (h : Actions.run (timelyStep U) (System.init db) as = some s) (hsettled : s.pending = []) :
    ∀ table, s.cache.CoherentAt U s.db table := by
  have hinit : (System.init db).Sound U := by
    refine ⟨fun t ↦ .inl (.unknown U _), ?_, ?_, Nat.two_pow_pos 64⟩
    · exact fun p hp ↦ absurd hp not_mem_nil
    · exact fun p hp ↦ absurd hp not_mem_nil
  have hsound : s.Sound U := Actions.run_invariant (fun _ _ _ hs ht ↦ hs.step ht) hinit h
  intro table
  refine (hsound.cached table).resolve_right ?_
  rintro ⟨scope, hmem, -⟩
  rw [hsettled] at hmem
  exact absurd hmem not_mem_nil

/-! ## A probe that lives through `2 ^ 64` invalidations

The probe reads the columns of a table. The table then gets another column, and after that the
cache is invalidated again and again until the generation is what it was. -/

namespace SlowProbe

def tableOf (names : List String) : TableInfo :=
  ⟨names.map fun name ↦ ⟨some name, some "TEXT"⟩, [], .mint⟩

def only (names : List String) : Schema :=
  fun t ↦ if t = "orders" then some (tableOf names) else none

def before : Schema := only ["id"]

def after : Schema := only ["id", "total"]

def read : TableColumns := ⟨["id"], []⟩

def started : List SystemAct := [.snapshot .columns "orders", .probe 0]

def change : List SystemAct := [.change (.table "orders") after, .settle (.table "orders")]

def changes : ℕ → List SystemAct
  | 0 => []
  | n + 1 => change ++ changes n

/-- The state in which the probe is about to write back. -/
def waiting (db : Schema) (generation age : ℕ) : System :=
  ⟨db, ⟨generation, fun _ ↦ none⟩, [⟨"orders", 0, .setColumns read, age⟩], []⟩

theorem run_started : Actions.run (systemStep .ascii) (.init before) started =
    some (waiting before 0 0) := by
  rfl

theorem only_of_ne (names : List String) {t : String} (ht : t ≠ "orders") : only names t = none :=
  if_neg ht

theorem run_change {db : Schema} (hdb : ∀ t, t ≠ "orders" → db t = none) (generation age : ℕ) :
    Actions.run (systemStep .ascii) (waiting db generation age) change =
      some (waiting after ((generation + 1) % 2 ^ 64) (age + 1)) := by
  have hafter : (Scope.table "orders").apply after db = after := by
    funext t
    by_cases ht : t = "orders"
    · exact if_pos ht
    · exact (if_neg ht).trans ((hdb t ht).trans (only_of_ne _ ht).symm)
  have htables : (fun t ↦ if t = "orders" then none else (none : Option TableSchema)) =
      fun _ ↦ none := by
    funext t
    exact ite_self none
  simp only [change, Actions.run, systemStep, waiting, hafter, bind_some, mem_singleton,
    if_true, Scope.forget, SchemaCache.invalidate, htables, erase_cons_head]
  rfl

theorem run_changes (n generation age : ℕ) {db : Schema}
    (hdb : ∀ t, t ≠ "orders" → db t = none) :
    Actions.run (systemStep .ascii) (waiting db generation age) (changes (n + 1)) =
      some (waiting after ((generation + (n + 1)) % 2 ^ 64) (age + (n + 1))) := by
  induction n generalizing generation age db with
  | zero => exact run_change hdb generation age
  | succ n ih =>
    have hafter : ∀ t, t ≠ "orders" → after t = none := fun t ht ↦ only_of_ne _ ht
    rw [changes, Actions.run_append, run_change hdb, bind_some, ih _ _ hafter,
      Nat.mod_add_mod, Nat.add_assoc generation, Nat.add_assoc age, Nat.add_comm 1]

def written : System := ⟨after, ⟨0, fun t ↦ if t = "orders" then
  some ⟨true, some read, none, none⟩ else none⟩, [], []⟩

theorem run_wraparound {n : ℕ} (hn : (n + 1) % 2 ^ 64 = 0) :
    Actions.run (systemStep .ascii) (.init before) (started ++ (changes (n + 1) ++ [.probe 0])) =
      some written := by
  have hbefore : ∀ t, t ≠ "orders" → before t = none := fun t ht ↦ only_of_ne _ ht
  rw [Actions.run_append, run_started, bind_some, Actions.run_append,
    run_changes n 0 0 hbefore, Nat.zero_add, hn]
  rfl

def retried : List SystemAct :=
  started ++ changes 1 ++ [.probe 0, .snapshot .columns "orders", .probe 0, .probe 0]

end SlowProbe

open SlowProbe in
/-- **A probe that is too slow writes an old fact.** -/
theorem stale_after_wraparound :
    ∃ as s, Actions.run (systemStep .ascii) (.init before) as = some s ∧ s.pending = [] ∧
      (s.cache.entry "orders").columns = some ⟨["id"], []⟩ ∧
      introspectColumns .ascii (s.db.listColumns "orders") = ⟨["id", "total"], []⟩ ∧
      ¬s.cache.CoherentAt .ascii s.db "orders" := by
  have hn : (2 ^ 64 - 1 + 1) % 2 ^ 64 = 0 := by decide
  refine ⟨_, written, run_wraparound hn, rfl, rfl, by decide, fun h ↦ ?_⟩
  obtain ⟨i, hi, hcolumns⟩ := h.columns _ rfl
  cases hi
  exact absurd hcolumns (by decide)

open SlowProbe in
/-- The same probe, with only one change between its snapshot and its write-back. -/
theorem cache_coherent_oneChange :
    ∃ s, Actions.run (timelyStep .ascii) (.init before) retried = some s ∧ s.pending = [] ∧
      (s.cache.entry "orders").columns = some ⟨["id", "total"], []⟩ ∧
      ∀ table, s.cache.CoherentAt .ascii s.db table := by
  exact ⟨_, rfl, rfl, by decide, @cache_coherent .ascii before retried _ rfl rfl⟩

end WaferRun.Database

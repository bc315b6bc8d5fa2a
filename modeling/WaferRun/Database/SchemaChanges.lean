import WaferRun.Database.IndexNames
import WaferRun.Database.OnceTrue
import WaferRun.Database.Pagination
import WaferRun.Lib.Leaving

/-!
# Schema changes and the cache

Four calls change the schema: a raw statement, a transaction of raw statements, the migration of a
table, and the addition of a column in it. Each decides for itself when it drops what the cache
keeps. The backend may answer a statement with an error and have changed the schema nevertheless,
if the connection is lost while the statement runs.

`changedAt` and `readAt` are no part of the code: they say after how many calls of the backend a
table may last have been changed, and a cached fact was read. Three of the calls leave no fact in
the cache that was read before a change; a raw statement does so unless it is answered with an error
(`changes_drop_facts_iff`).
-/

namespace WaferRun.Database

open Text Leaving

def DatabaseError.display : DatabaseError → String
  | .notFound => "record not found"
  | .alreadyExists message => "unique constraint violated: " ++ message
  | .invalidArgument message => "invalid argument: " ++ message
  | .unavailable message => "database unavailable: " ++ message
  | .contended message => "database contended: " ++ message
  | .callBudgetExhausted message => "call budget exhausted: " ++ message
  | .internal message => "database error: " ++ message
  | .other message => message

def schemaStepError (what : String) : DatabaseError → DatabaseError
  | .unavailable message => .unavailable (what ++ ": " ++ message)
  | .contended message => .contended (what ++ ": " ++ message)
  | other => .internal (what ++ ": " ++ other.display)

structure TransactionError where
  statement : Option ℕ
  error : DatabaseError

structure TableDecl where
  name : String
  columns : List KeyColumn
  indexes : List Index

/-! ## The backend -/

/-- What the backend answers to a statement: what the schema is afterwards, as far as the statement
may have changed it, and the result. Both are independent: the schema may have changed although the
result is an error. -/
structure Reply (ε α : Type) where
  touched : String → Bool
  db : Schema
  result : Except ε α

/-- The answers of a backend to its calls, which are counted. -/
structure Connection (Row : Type) where
  execute : ℕ → String → Reply DatabaseError ℤ
  transaction : ℕ → List String → Reply TransactionError (List (TxResult Row))
  /-- The failure of a column query. -/
  fetchFails : ℕ → Option DatabaseError

/-- The schema, the cache, and when tables were changed and facts were read. -/
structure CacheState where
  db : Schema
  cache : SchemaCache
  calls : ℕ
  changedAt : String → ℕ
  readAt : String → Learned → ℕ

abbrev SchemaCall (ε α : Type) := Comp ε CacheState α

/-- Before a call: everything in the cache was read before. -/
def CacheState.init (db : Schema) (cache : SchemaCache) : CacheState :=
  ⟨db, cache, 0, fun _ ↦ 0, fun _ _ ↦ 0⟩

def CacheState.change (s : CacheState) (touched : String → Bool) (db : Schema) : CacheState :=
  { s with
    db := fun t ↦ if touched t then db t else s.db t
    calls := s.calls + 1
    changedAt := fun t ↦ if touched t then s.calls + 1 else s.changedAt t }

/-- A fact was read by the last call, if it has been brought into the cache now. -/
def CacheState.learn (s : CacheState) (table : String) (cache : SchemaCache) : CacheState :=
  { s with
    cache := cache
    readAt := fun t f ↦
      if t = table ∧ f ∈ newFacts (s.cache.entry table) (cache.entry table) then s.calls
      else s.readAt t f }

section Calls

variable {Row : Type} (U : CaseTables) (quote : String → String) (conn : Connection Row)

/-- `run_schema_execute`. A statement about one table changes no other. -/
def runSchemaExecute (scope : String → Bool) (sql : String) : SchemaCall DatabaseError ℤ :=
  ExceptT.mk fun s ↦
    let reply := conn.execute s.calls sql
    (reply.result, s.change (fun t ↦ scope t && reply.touched t) reply.db)

def runSchemaTransaction (sqls : List String) :
    SchemaCall TransactionError (List (TxResult Row)) :=
  ExceptT.mk fun s ↦
    let reply := conn.transaction s.calls sqls
    (reply.result, s.change reply.touched reply.db)

def invalidate {ε : Type} (table : String) : SchemaCall ε Unit :=
  alter fun s ↦ { s with cache := s.cache.invalidate table }

def clear {ε : Type} : SchemaCall ε Unit := alter fun s ↦ { s with cache := s.cache.clear }

def introspect (table : String) : SchemaCall DatabaseError TableColumns :=
  ExceptT.mk fun s ↦
    match conn.fetchFails s.calls with
    | some e => (.error e, { s with calls := s.calls + 1 })
    | none => (.ok (introspectColumns U (s.db.listColumns table)), { s with calls := s.calls + 1 })

def readColumns (table : String) : SchemaCall DatabaseError TableColumns := do
  let s ← get
  match (s.cache.entry table).columns with
  | some columns => pure columns
  | none =>
    let gen0 := s.cache.generation
    let columns ← introspect U conn table
    alter fun s ↦ s.learn table (s.cache.setColumnsIfGen table columns gen0)
    pure columns

def getColumns (table : String) : SchemaCall DatabaseError (List String) :=
  TableColumns.names <$> readColumns U conn table

def step {α : Type} (what : String) (x : SchemaCall DatabaseError α) :
    SchemaCall DatabaseError α := do
  match ← attempt x with
  | .ok a => pure a
  | .error e => throw (schemaStepError what e)

def built {α : Type} (x : Except SqlBuildError α) : SchemaCall DatabaseError α :=
  ofResult (x.mapError fun e ↦ .invalidArgument (e.display quote))

def lowercase (name : String) : String := .ofList (U.lower name.toList)

def addColumnChecked (table column sql : String) : SchemaCall DatabaseError Unit := do
  let outcome ← attempt (runSchemaExecute conn (fun t ↦ t = table) sql)
  invalidate table
  match outcome with
  | .ok _ => pure ()
  | .error e =>
    let columns ← getColumns U conn table
    if lowercase U column ∈ columns then pure ()
    else throw (schemaStepError ("add column " ++ column) e)

def requireStampedColumns (table : TableDecl) : Except DatabaseError Unit :=
  if table.columns.any fun column ↦ column.name = "updated_at" then .ok ()
  else .error (.invalidArgument ("table `" ++ table.name ++ "` declares no `updated_at` column, " ++
    "and every write stamps `updated_at`: declare it"))

structure Ddl where
  createTable : TableDecl → Except SqlBuildError String
  addColumn : String → KeyColumn → Except SqlBuildError String

variable (ddl : Ddl)

def runSchemaTableDdl (table : TableDecl) : SchemaCall DatabaseError Unit := do
  let _ ← built quote (validateIdent table.name)
  table.columns.forM fun column ↦ do
    let _ ← built quote (validateIdent column.name)
  ofResult (requireStampedColumns table)
  let create ← built quote (ddl.createTable table)
  let _ ← step ("create table " ++ table.name)
    (runSchemaExecute conn (fun t ↦ t = table.name) create)
  invalidate table.name
  let existing ← getColumns U conn table.name
  table.columns.forM fun column ↦ do
    if lowercase U column.name ∈ existing then pure ()
    else
      let sql ← built quote (ddl.addColumn table.name column)
      addColumnChecked U conn table.name column.name sql
  table.indexes.forM fun index ↦ do
    let stmt ← built quote (buildCreateIndex table.name index)
    let _ ← step "create index" (runSchemaExecute conn (fun t ↦ t = table.name) stmt.sql)
  let fkIndexes ← built quote (buildFkIndexes table.name table.columns)
  fkIndexes.forM fun stmt ↦ do
    let _ ← step "create FK index" (runSchemaExecute conn (fun t ↦ t = table.name) stmt.sql)

def ensureSchemaTable (table : TableDecl) : SchemaCall DatabaseError Unit := do
  let outcome ← attempt (runSchemaTableDdl U quote conn ddl table)
  invalidate table.name
  ofResult outcome

def execRaw (sql : String) : SchemaCall DatabaseError ℤ := do
  let affected ← runSchemaExecute conn (fun _ ↦ true) sql
  clear
  pure affected

/-- The rows an `Execute` statement has affected. `debug` prints a result of another kind. -/
def affectedRows (debug : TxResult Row → String) : TxResult Row → Except TransactionError ℤ
  | .execute affected => .ok affected
  | .returning rows => .error ⟨none, .internal ("run_transaction returned " ++
      debug (.returning rows) ++ " for an Execute statement")⟩

def execRawTransaction (debug : TxResult Row → String) (sqls : List String) :
    SchemaCall TransactionError (List ℤ) := do
  if sqls = [] then pure []
  else
    let outcome ← attempt (runSchemaTransaction conn sqls)
    clear
    let results ← ofResult outcome
    if results.length ≠ sqls.length then
      throw ⟨none, .internal ("run_transaction returned " ++ toString results.length ++
        " results for " ++ toString sqls.length ++ " statements")⟩
    else ofResult (results.mapM (affectedRows debug))

end Calls

/-! ## What the calls leave -/

structure CacheState.FreshBut (stale : String → Prop) (s : CacheState) : Prop where
  fresh : ∀ t, ¬stale t → ∀ f, (s.cache.entry t).Says f → s.changedAt t ≤ s.readAt t f
  bounded : ∀ t, s.changedAt t ≤ s.calls

def CacheState.Fresh (s : CacheState) : Prop :=
  ∀ t f, (s.cache.entry t).Says f → s.changedAt t ≤ s.readAt t f

namespace CacheState

variable {s : CacheState} {stale stale' : String → Prop}

theorem freshBut_init (db : Schema) (cache : SchemaCache) :
    (CacheState.init db cache).FreshBut stale :=
  ⟨fun _ _ _ _ ↦ le_rfl, fun _ ↦ le_rfl⟩

theorem FreshBut.mono (h : s.FreshBut stale) (hstale : ∀ t, stale t → stale' t) :
    s.FreshBut stale' :=
  ⟨fun t ht ↦ h.fresh t fun hs ↦ ht (hstale t hs), h.bounded⟩

theorem FreshBut.all_fresh (h : s.FreshBut fun _ ↦ False) : s.Fresh :=
  fun t ↦ h.fresh t not_false

theorem FreshBut.called (h : s.FreshBut stale) :
    ({ s with calls := s.calls + 1 } : CacheState).FreshBut stale :=
  ⟨h.fresh, fun t ↦ (h.bounded t).trans (Nat.le_succ _)⟩

theorem FreshBut.change (h : s.FreshBut stale) {touched : String → Bool}
    (htouched : ∀ t, touched t = true → stale t) (db : Schema) :
    (s.change touched db).FreshBut stale := by
  refine ⟨fun t ht f hf ↦ ?_, fun t ↦ ?_⟩
  · rw [CacheState.change]
    dsimp only
    rw [if_neg fun hchanged ↦ ht (htouched t hchanged)]
    exact h.fresh t ht f hf
  · rw [CacheState.change]
    dsimp only
    split
    · exact le_rfl
    · exact (h.bounded t).trans (Nat.le_succ _)

theorem FreshBut.learn (h : s.FreshBut stale) {table : String} {cache : SchemaCache}
    (honly : s.cache.WritesOnly table cache) : (s.learn table cache).FreshBut stale := by
  refine ⟨fun t ht f hf ↦ ?_, h.bounded⟩
  rw [CacheState.learn] at hf ⊢
  dsimp only at hf ⊢
  split
  · exact h.bounded t
  · rename_i hnew
    refine h.fresh t ht f ?_
    rcases eq_or_ne t table with rfl | hne
    · by_contra hold
      refine hnew ⟨rfl, List.mem_filter.mpr ⟨TableSchema.mem_facts.mpr hf, ?_⟩⟩
      exact decide_eq_true fun hthere ↦ hold (TableSchema.mem_facts.mp hthere)
    · rwa [← honly.other t hne]

theorem FreshBut.invalidate {table : String} (h : s.FreshBut fun t ↦ stale t ∨ t = table) :
    ({ s with cache := s.cache.invalidate table } : CacheState).FreshBut stale := by
  refine ⟨fun t ht f hf ↦ ?_, h.bounded⟩
  by_cases htable : (Scope.table table).Covers t
  · rw [show (s.cache.invalidate table).entry t = .unknown from
      Scope.entry_forget_of_covers htable s.cache] at hf
    cases f <;> cases hf
  · rw [show (s.cache.invalidate table).entry t = s.cache.entry t from
      Scope.entry_forget_of_not_covers htable s.cache] at hf
    exact h.fresh t (not_or.mpr ⟨ht, htable⟩) f hf

theorem FreshBut.clear (h : s.FreshBut stale) :
    ({ s with cache := s.cache.clear } : CacheState).FreshBut stale' := by
  refine ⟨fun t _ f hf ↦ ?_, h.bounded⟩
  have hall : Scope.all.Covers t := trivial
  rw [show s.cache.clear.entry t = .unknown from Scope.entry_forget_of_covers hall s.cache] at hf
  cases f <;> cases hf

end CacheState

section Leaves

open CacheState

variable {Row : Type} {U : CaseTables} {quote : String → String} {conn : Connection Row}
  {stale : String → Prop} {table : String}

theorem leaves_runSchemaExecute {scope : String → Bool} (hscope : ∀ t, scope t = true → stale t)
    (sql : String) :
    Leaves (FreshBut stale) (runSchemaExecute conn scope sql) (FreshBut stale) :=
  fun _ hs ↦ hs.change (fun t ht ↦ hscope t (Bool.and_eq_true_iff.mp ht).1) _

theorem leaves_runAbout (htable : stale table) (sql : String) :
    Leaves (FreshBut stale) (runSchemaExecute conn (fun t ↦ t = table) sql) (FreshBut stale) :=
  leaves_runSchemaExecute (fun t ht ↦ by rwa [of_decide_eq_true ht]) sql

theorem leaves_introspect :
    Leaves (FreshBut stale) (introspect U conn table) (FreshBut stale) := by
  intro s hs
  rw [introspect, left]
  change FreshBut stale (match conn.fetchFails s.calls with
    | some e => ((.error e : Except DatabaseError TableColumns), { s with calls := s.calls + 1 })
    | none => (.ok (introspectColumns U (s.db.listColumns table)),
        { s with calls := s.calls + 1 })).2
  split <;> exact hs.called

theorem leaves_getColumns :
    Leaves (FreshBut stale) (getColumns U conn table) (FreshBut stale) := by
  have hread : Leaves (FreshBut stale) (readColumns U conn table) (FreshBut stale) := by
    refine leaves_bind_self leaves_get fun s ↦ ?_
    dsimp only
    split
    · exact leaves_pure _
    · refine leaves_bind_self leaves_introspect fun columns ↦ ?_
      refine leaves_bind_self (leaves_alter fun s' hs' ↦ hs'.learn ?_) fun _ ↦ leaves_pure _
      exact (@SchemaCache.writeBack_setColumns U s'.db _ _ columns _).writesOnly
  rw [getColumns, map_eq_pure_bind]
  exact leaves_bind_self hread fun _ ↦ leaves_pure _

theorem leaves_step {α : Type} {what : String} {x : SchemaCall DatabaseError α}
    (h : Leaves (FreshBut stale) x (FreshBut stale)) :
    Leaves (FreshBut stale) (step what x) (FreshBut stale) := by
  refine leaves_attempt_bind h fun outcome ↦ ?_
  cases outcome with
  | ok a => exact leaves_pure _
  | error e => exact leaves_throw _

theorem leaves_addColumnChecked (column sql : String) :
    Leaves (FreshBut fun t ↦ stale t ∨ t = table) (addColumnChecked U conn table column sql)
      (FreshBut stale) := by
  refine leaves_attempt_bind (leaves_runAbout (.inr rfl) sql) fun outcome ↦ ?_
  refine leaves_alter_bind (fun s hs ↦ hs.invalidate) ?_
  cases outcome with
  | ok affected => exact leaves_pure _
  | error e =>
    refine leaves_bind_self leaves_getColumns fun columns ↦ ?_
    split
    · exact leaves_pure _
    · exact leaves_throw _

theorem leaves_runSchemaTableDdl (ddl : Ddl) (table : TableDecl) :
    Leaves (FreshBut fun t ↦ stale t ∨ t = table.name)
      (runSchemaTableDdl U quote conn ddl table) (FreshBut fun t ↦ stale t ∨ t = table.name) := by
  have hrun (what sql : String) : Leaves (FreshBut fun t ↦ stale t ∨ t = table.name)
      (step what (runSchemaExecute conn (fun t ↦ t = table.name) sql))
      (FreshBut fun t ↦ stale t ∨ t = table.name) := leaves_step (leaves_runAbout (.inr rfl) sql)
  refine leaves_bind_self (leaves_ofResult _) fun _ ↦ ?_
  refine leaves_bind_self (leaves_forM fun _ _ ↦ ?_) fun _ ↦ ?_
  · exact leaves_bind_self (leaves_ofResult _) fun _ ↦ leaves_pure _
  refine leaves_bind_self (leaves_ofResult _) fun _ ↦ ?_
  refine leaves_bind_self (leaves_ofResult _) fun create ↦ ?_
  refine leaves_bind_self (hrun _ create) fun _ ↦ ?_
  refine leaves_bind_self (leaves_alter fun s hs ↦ ?_) fun _ ↦ ?_
  · exact FreshBut.invalidate (hs.mono fun t ht ↦ .inl ht)
  refine leaves_bind_self leaves_getColumns fun existing ↦ ?_
  refine leaves_bind_self (leaves_forM fun column _ ↦ ?_) fun _ ↦ ?_
  · split
    · exact leaves_pure _
    · refine leaves_bind_self (leaves_ofResult _) fun sql ↦ ?_
      exact (leaves_addColumnChecked column.name sql).mono fun s hs ↦ hs.mono fun t ht ↦ .inl ht
  refine leaves_bind_self (leaves_forM fun index _ ↦ ?_) fun _ ↦ ?_
  · refine leaves_bind_self (leaves_ofResult _) fun stmt ↦ ?_
    exact leaves_bind_self (hrun _ stmt.sql) fun _ ↦ leaves_pure _
  refine leaves_bind_self (leaves_ofResult _) fun fkIndexes ↦ leaves_forM fun stmt _ ↦ ?_
  exact leaves_bind_self (hrun _ stmt.sql) fun _ ↦ leaves_pure _

theorem leaves_ensureSchemaTable (ddl : Ddl) (table : TableDecl) :
    Leaves (FreshBut stale) (ensureSchemaTable U quote conn ddl table) (FreshBut stale) := by
  refine leaves_attempt_bind (Q := FreshBut fun t ↦ stale t ∨ t = table.name) ?_ fun outcome ↦ ?_
  · intro s hs
    exact leaves_runSchemaTableDdl ddl table s (hs.mono fun t ht ↦ .inl ht)
  · exact leaves_alter_bind (fun s hs ↦ hs.invalidate) (leaves_ofResult outcome)

theorem leaves_execRawTransaction (debug : TxResult Row → String) (sqls : List String) :
    Leaves (FreshBut stale) (execRawTransaction conn debug sqls) (FreshBut stale) := by
  rw [execRawTransaction]
  split
  · exact leaves_pure _
  · refine leaves_attempt_bind (Q := FreshBut fun _ ↦ True) ?_ fun outcome ↦ ?_
    · exact fun s hs ↦ (hs.mono fun _ _ ↦ trivial).change (fun _ _ ↦ trivial) _
    · refine leaves_alter_bind (Q := FreshBut stale) (fun s hs ↦ hs.clear) ?_
      refine leaves_bind_self (leaves_ofResult outcome) fun results ↦ ?_
      split
      · exact leaves_throw _
      · exact leaves_ofResult _

theorem fresh_execRaw_iff (sql : String) (db : Schema) (cache : SchemaCache) :
    (left (execRaw conn sql) (.init db cache)).Fresh ↔
      (∃ affected, (conn.execute 0 sql).result = .ok affected) ∨
        ∀ t, (conn.execute 0 sql).touched t = true → ∀ f, ¬(cache.entry t).Says f := by
  have hstart : (CacheState.init db cache).FreshBut fun _ ↦ True := freshBut_init db cache
  have hrun : (runSchemaExecute conn (fun _ ↦ true) sql).run.run (.init db cache) =
      ((conn.execute 0 sql).result,
        (CacheState.init db cache).change (conn.execute 0 sql).touched (conn.execute 0 sql).db) :=
    rfl
  have hleft : left (execRaw conn sql) (.init db cache) =
      match (conn.execute 0 sql).result with
      | .ok _ => { (CacheState.init db cache).change (conn.execute 0 sql).touched
          (conn.execute 0 sql).db with cache := cache.clear }
      | .error _ =>
        (CacheState.init db cache).change (conn.execute 0 sql).touched (conn.execute 0 sql).db := by
    rw [execRaw, left_bind, hrun]
    cases (conn.execute 0 sql).result <;> rfl
  rw [hleft]
  cases hresult : (conn.execute 0 sql).result with
  | ok affected =>
    refine iff_of_true ?_ (.inl ⟨affected, rfl⟩)
    exact (hstart.change (fun _ _ ↦ trivial) _).clear.all_fresh
  | error e =>
    dsimp only
    constructor
    · refine fun hfresh ↦ .inr fun t ht f hf ↦ ?_
      have hle := hfresh t f hf
      rw [CacheState.change] at hle
      dsimp only at hle
      rw [if_pos ht] at hle
      exact absurd hle (Nat.not_succ_le_zero _)
    · rintro (⟨_, hok⟩ | hnone) t f hf
      · cases hok
      · rw [CacheState.change]
        dsimp only
        rw [if_neg fun ht ↦ hnone t ht f hf]
        exact le_rfl

end Leaves

/-! ## Every call -/

inductive SchemaChange
  | execRaw (sql : String)
  | execRawTransaction (sqls : List String)
  | ensureSchemaTable (table : TableDecl)
  | addColumnChecked (table column sql : String)

def SchemaChange.leaves {Row : Type} (U : CaseTables) (quote : String → String)
    (conn : Connection Row) (ddl : Ddl) (debug : TxResult Row → String) (s : CacheState) :
    SchemaChange → CacheState
  | execRaw sql => left (Database.execRaw conn sql) s
  | execRawTransaction sqls => left (Database.execRawTransaction conn debug sqls) s
  | ensureSchemaTable table => left (Database.ensureSchemaTable U quote conn ddl table) s
  | addColumnChecked table column sql => left (Database.addColumnChecked U conn table column sql) s

/-- No raw statement is answered with an error after it may have changed a table of which the cache
holds a fact. -/
def SchemaChange.Covered {Row : Type} (conn : Connection Row) (cache : SchemaCache) :
    SchemaChange → Prop
  | execRaw sql => (∃ affected, (conn.execute 0 sql).result = .ok affected) ∨
      ∀ t, (conn.execute 0 sql).touched t = true → ∀ f, ¬(cache.entry t).Says f
  | execRawTransaction _ | ensureSchemaTable _ | addColumnChecked .. => True

/-- **Schema facts are dropped, but for a raw statement that fails.** Whatever the backend answers
and does to the schema: after a call returns, the cache holds no fact about a table the call may
have changed that was read before the change, if and only if the call is not a raw statement
answered with an error that may have changed a table of which the cache holds a fact. -/
theorem changes_drop_facts_iff {Row : Type} (U : CaseTables) (quote : String → String)
    (conn : Connection Row) (ddl : Ddl) (debug : TxResult Row → String) (db : Schema)
    (cache : SchemaCache) (change : SchemaChange) :
    (change.leaves U quote conn ddl debug (.init db cache)).Fresh ↔ change.Covered conn cache := by
  cases change with
  | execRaw sql => exact fresh_execRaw_iff sql db cache
  | execRawTransaction sqls =>
    refine iff_of_true (CacheState.FreshBut.all_fresh ?_) trivial
    exact leaves_execRawTransaction debug sqls _ (CacheState.freshBut_init db cache)
  | ensureSchemaTable table =>
    refine iff_of_true (CacheState.FreshBut.all_fresh ?_) trivial
    exact leaves_ensureSchemaTable ddl table _ (CacheState.freshBut_init db cache)
  | addColumnChecked table column sql =>
    refine iff_of_true (CacheState.FreshBut.all_fresh ?_) trivial
    exact leaves_addColumnChecked column sql _ (CacheState.freshBut_init db cache)

/-! ## A lost answer -/

def lostConnection : Connection Unit where
  execute _ _ := ⟨fun t ↦ t = "orders", SlowProbe.after, .error (.unavailable "connection lost")⟩
  transaction _ _ := ⟨fun _ ↦ false, fun _ ↦ none, .ok []⟩
  fetchFails _ := none

def cachedBefore : SchemaCache :=
  SchemaCache.new.setColumnsIfGen "orders" SlowProbe.read 0

/-- The cache keeps the columns that were read before the statement. -/
theorem failed_raw_keeps_facts : ¬∀ (U : CaseTables) (quote : String → String)
    (conn : Connection Unit) (ddl : Ddl) (debug : TxResult Unit → String) (db : Schema)
    (cache : SchemaCache) (change : SchemaChange),
    (change.leaves U quote conn ddl debug (.init db cache)).Fresh := by
  intro h
  have hfresh := (fresh_execRaw_iff _ _ _).mp (h .ascii id lostConnection
    ⟨fun _ ↦ .ok "", fun _ _ ↦ .ok ""⟩ (fun _ ↦ "") SlowProbe.before cachedBefore
    (.execRaw "ALTER TABLE orders ADD COLUMN total TEXT"))
  rcases hfresh with ⟨affected, hok⟩ | hnone
  · cases hok
  · exact hnone "orders" rfl (.columns SlowProbe.read) rfl

end WaferRun.Database

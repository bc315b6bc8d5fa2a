import WaferRun.Database.SchemaCache
import WaferRun.Database.WriteHandler

/-!
# Running database writes

The executor plans the statements of a call and runs them as one transaction. A row that is created
is completed first: with an id, unless the database numbers the rows of the table itself, and with
the stamps of its creation and last change. `PlannedBy` says once what a planned statement can be.

What the statements do to the rows is left to the database (`SqlEngine`). What is promised of it is
that an insert adds one row with the columns it names, and that any other write leaves the rows of
other tables alone, unless a foreign key of theirs has an action that follows the write
(`SqlEngine.Lawful`).
-/

open List Fallible

namespace WaferRun.Database

/-! ## Planning -/

/-- What the executor reads, mints and stamps while it plans a write. -/
structure Moment where
  idPolicy : String → Except DatabaseError IdPolicy
  /-- The columns of a table that hold JSON. -/
  jsonColumns : String → Except DatabaseError (List String)
  view : String → Except DatabaseError TableView
  mintedId : String
  now : String

inductive SqlStatement
  | setReadCommitted
  | advisoryLock (table : String)
  | guardProbe (table : String) (guards : List (CapGuard Filter))
  | insert (table : String) (pairs : List (String × Json))
  | insertGuarded (table : String) (pairs : List (String × Json)) (guards : List (CapGuard Filter))
  | updateById (table id : String) (pairs : List (String × Json))
  | deleteById (table id : String)
  | updateWhere (table : String) (pairs : List (String × Json)) (filters : List Filter)
  | deleteWhere (table : String) (filters : List Filter)
  | upsert (table : String) (data : List (String × Json)) (conflict update : List String)
  | countCall (statement : InsertStatement)

abbrev Tables (Row : Type) := String → List Row

/-- A database that is written: the queries it answers, how it prints and stores a value, the
columns of its tables, the table a foreign key of another refers to, and what a statement does. -/
structure SqlEngine (Row Rec : Type) extends Engine Row Rec where
  display : Json → String
  cell : Row → String → Json
  stored : String → String → Json → Json
  IsColumn : String → String → Prop
  References : String → String → Prop
  /-- The id the database gives the next row of a table. -/
  assignedId : Tables Row → String → Json
  exec : SqlStatement → Tables Row → Except DatabaseError (Tables Row)
  /-- The answer to a commit, which may be lost. -/
  acknowledge : List SqlStatement → Except DatabaseError Unit

variable {Row Rec : Type}

section

variable (E : SqlEngine Row Rec)

def encodeJsonValue : Json → Json
  | .null => .null
  | v => .string (E.display v)

def written (json : List String) (column : String) (v : Json) : Json :=
  if json.any fun c ↦ Text.eqIgnoreAsciiCase c.toList column.toList then encodeJsonValue E v else v

/-- The columns and values of a statement, in the order of their names. -/
def sortedPairs (json : List String) (data : RowData) :
    Except DatabaseError (List (String × Json)) := do
  let pairs ← data.entries.mapM fun e ↦ do
    return (← sqlName E.toEngine e.1, written E json e.1 e.2)
  return pairs.insertionSort fun a b ↦ a.1 ≤ b.1

def fillColumn (column : String) (v : Json) (data : RowData) : RowData :=
  if column ∈ data then data else data.insert column v

def stampTimestamps (now : String) (includeCreated : Bool) (data : RowData) : RowData :=
  fillColumn "updated_at" (.string now)
    (if includeCreated then fillColumn "created_at" (.string now) data else data)

def prepareCreatedRow (table : String) (m : Moment) (data : RowData) :
    Option IdPolicy → Except DatabaseError RowData
  | some .mint => .ok (stampTimestamps m.now true (data.insert "id" (.string m.mintedId)))
  | some .caller => .error (.invalidArgument ("`" ++ table ++
      "` declares an integer `id` that the database does not fill: give the row an `id`, or " ++
      "declare the key so the database numbers rows (SQLite `id INTEGER PRIMARY KEY`, Postgres " ++
      "an identity or serial column)"))
  | some .database | none => .ok (stampTimestamps m.now true data)

def createdRowIdPolicy (m : Moment) (table : String) (data : RowData) :
    Except DatabaseError (Option IdPolicy) :=
  if "id" ∈ data then .ok none else (m.idPolicy table).map some

def requireTableColumns (m : Moment) (table : String) (columns : List String) :
    Except DatabaseError Unit := do
  columns.forM fun column ↦ do let _ ← sqlName E.toEngine column
  if columns.isEmpty then return
  else requireColumns E.toEngine (← m.view table) table columns

def guardColumns (guards : List (CapGuard Filter)) : List String :=
  guards.flatMap fun guard ↦
    match guard with
    | .countBelow filters _ => filters.map Filter.field
    | .sumAtMost field filters _ _ => filters.map Filter.field ++ [field]

def guardFields (guards : List (CapGuard Filter)) : List String :=
  guards.filterMap fun guard ↦
    match guard with
    | .countBelow _ _ => none
    | .sumAtMost field _ _ _ => some field

/-- The columns and values of the statement that creates a row. -/
def plannedRow (m : Moment) (table : String) (data : RowData) :
    Except DatabaseError (List (String × Json)) := do
  let policy ← createdRowIdPolicy m table data
  let data ← prepareCreatedRow table m data policy
  sortedPairs E (← m.jsonColumns table) data

def upsertStatement (m : Moment) (collection : String) (spec : UpsertSpec) (json : List String) :
    Except DatabaseError SqlStatement := do
  let table ← sqlName E.toEngine collection
  let data := spec.data.map fun (column, v) ↦ (column, written E json column v)
  match spec.onConflict with
  | .setColumns columns => do
    (data.map Prod.fst ++ spec.conflictColumns ++ columns).forM fun column ↦ do
      let _ ← sqlName E.toEngine column
    return .upsert table data spec.conflictColumns columns
  | .windowedCounter countField windowField now windowCutoff createdFields updatedFields => do
    let row ← windowedCounterRow data spec.conflictColumns
    let key : CounterKey := { table, conflictColumn := row.conflictColumn
                              conflictValue := row.conflictValue, countField, windowField
                              createdFields, updatedFields }
    let statement ← ofBuild E.toEngine
      (key.windowedCounterUpsertQuery ⟨row.id, m.now, now, windowCutoff⟩)
    return .countCall statement

def planWrite (m : Moment) : WriteOp → Except DatabaseError SqlStatement
  | .create collection data => do
    let table ← sqlName E.toEngine collection
    return .insert table (← plannedRow E m table data)
  | .update collection id data => do
    let table ← sqlName E.toEngine collection
    let json ← m.jsonColumns table
    return .updateById table id (← sortedPairs E json (stampTimestamps m.now false data))
  | .delete collection id => do
    return .deleteById (← sqlName E.toEngine collection) id
  | .updateWhere collection filters data => do
    let table ← sqlName E.toEngine collection
    requireTableColumns E m table (filters.map Filter.field)
    let json ← m.jsonColumns table
    return .updateWhere table (← sortedPairs E json (stampTimestamps m.now false data)) filters
  | .deleteWhere collection filters => do
    let table ← sqlName E.toEngine collection
    requireTableColumns E m table (filters.map Filter.field)
    return .deleteWhere table filters
  | .upsert collection spec => do
    let json ← m.jsonColumns (← sqlName E.toEngine collection)
    upsertStatement E m collection spec json

def createManyIdPolicy (m : Moment) (table : String) (rows : List RowData) :
    Except DatabaseError (Option IdPolicy) :=
  if rows.any fun row ↦ "id" ∉ row then (m.idPolicy table).map some else .ok none

def planCreateMany (moment : ℕ → Moment) (collection : String) (rows : List RowData) :
    Except DatabaseError (List SqlStatement) :=
  if rows.isEmpty then .ok []
  else do
    let table ← sqlName E.toEngine collection
    let policy ← createManyIdPolicy (moment 0) table rows
    let prepared ← rows.zipIdx.mapM fun (data, i) ↦
      prepareCreatedRow table (moment i) data (if "id" ∈ data then none else policy)
    let json ← (moment 0).jsonColumns table
    prepared.mapM fun data ↦ return .insert table (← sortedPairs E json data)

def guardPreamble (table : String) : Backend → List SqlStatement
  | .sqlite => []
  | .postgres => [.setReadCommitted, .advisoryLock table]

def planInsertGuarded (m : Moment) (collection : String) (data : RowData)
    (guards : List (CapGuard Filter)) : Except DatabaseError (List SqlStatement) := do
  let table ← sqlName E.toEngine collection
  requireTableColumns E m table (guardColumns guards)
  let pairs ← plannedRow E m table data
  (guardFields guards).forM fun field ↦
    match validateIdent field with
    | .ok _ => .ok ()
    | .error e => .error (.internal (e.display E.quote))
  let probe := if guards.isEmpty then [] else [.guardProbe table guards]
  return guardPreamble table E.backend ++ probe ++ [.insertGuarded table pairs guards] ++ probe

def ServiceCall.plan (moment : ℕ → Moment) : ServiceCall → Except DatabaseError (List SqlStatement)
  | .create collection data => do return [← planWrite E (moment 0) (.create collection data)]
  | .createMany collection rows => planCreateMany E moment collection rows
  | .batch ops => ops.zipIdx.mapM fun (op, i) ↦ planWrite E (moment i) op
  | .insertGuarded collection data guards => planInsertGuarded E (moment 0) collection data guards

/-- Run the statements of a call as one transaction. When one of them fails none has an effect. -/
def ServiceCall.run (moment : ℕ → Moment) (call : ServiceCall) (tables : Tables Row) :
    Except DatabaseError Unit × Tables Row :=
  match call.plan E moment with
  | .error e => (.error e, tables)
  | .ok statements =>
    match statements.foldlM (fun t st ↦ E.exec st t) tables with
    | .error e => (.error e, tables)
    | .ok tables' => (E.acknowledge statements, tables')

def respond (ctx : RuntimeContext) (schemaColumns : String → Except DatabaseError (List String))
    (moment : ℕ → Moment) (request : WriteRequest) (tables : Tables Row) :
    Except WaferError Unit × Tables Row :=
  match handle ctx schemaColumns request with
  | .error e => (.error e, tables)
  | .ok call =>
    let (answer, tables') := call.run E moment tables
    (answer.mapError dbErrorToWafer, tables')

end

/-! ## Rows that are created -/

theorem mem_fillColumn {column key : String} {v : Json} {data : RowData} :
    key ∈ fillColumn column v data ↔ key = column ∨ key ∈ data := by
  unfold fillColumn
  split
  · exact ⟨.inr, fun h ↦ h.elim (fun h ↦ h ▸ ‹column ∈ data›) id⟩
  · exact AList.mem_insert data

theorem lookup_fillColumn_self {column : String} {v : Json} {data : RowData}
    (h : column ∉ data) : (fillColumn column v data).lookup column = some v := by
  rw [fillColumn, if_neg h, AList.lookup_insert]

theorem lookup_fillColumn_of_ne {column key : String} {v : Json} {data : RowData}
    (h : key ≠ column) : (fillColumn column v data).lookup key = data.lookup key := by
  unfold fillColumn
  split
  · rfl
  · exact AList.lookup_insert_ne h

theorem mem_stampTimestamps {now key : String} {data : RowData} :
    key ∈ stampTimestamps now true data ↔
      key = "updated_at" ∨ key = "created_at" ∨ key ∈ data := by
  rw [stampTimestamps, if_pos rfl, mem_fillColumn, mem_fillColumn]

theorem lookup_created_stampTimestamps {now : String} {data : RowData} (h : "created_at" ∉ data) :
    (stampTimestamps now true data).lookup "created_at" = some (.string now) := by
  rw [stampTimestamps, if_pos rfl, lookup_fillColumn_of_ne (by decide), lookup_fillColumn_self h]

theorem lookup_updated_stampTimestamps {now : String} {data : RowData} (h : "updated_at" ∉ data) :
    (stampTimestamps now true data).lookup "updated_at" = some (.string now) := by
  rw [stampTimestamps, if_pos rfl, lookup_fillColumn_self]
  rw [mem_fillColumn]
  exact fun h' ↦ h'.elim (by decide) h

theorem lookup_id_stampTimestamps {now : String} {data : RowData} :
    (stampTimestamps now true data).lookup "id" = data.lookup "id" := by
  rw [stampTimestamps, if_pos rfl, lookup_fillColumn_of_ne (by decide),
    lookup_fillColumn_of_ne (by decide)]

theorem sqlName_eq_ok {E : Engine Row Rec} {name v : String} (h : sqlName E name = .ok v) :
    v = name :=
  validateIdent_eq_ok (mapError_eq_ok.mp h)

section

variable {E : SqlEngine Row Rec} {m : Moment} {json : List String} {data : RowData}
variable {table : String} {pairs : List (String × Json)}

theorem perm_of_sortedPairs (h : sortedPairs E json data = .ok pairs) :
    pairs.Perm (data.entries.map fun e ↦ (e.1, written E json e.1 e.2)) := by
  obtain ⟨unsorted, hmap, h⟩ := bind_eq_ok.mp h
  have hunsorted : unsorted = data.entries.map fun e ↦ (e.1, written E json e.1 e.2) := by
    refine eq_map_of_mapM_eq_ok (fun e p hp ↦ ?_) hmap
    obtain ⟨name, hname, hp⟩ := bind_eq_ok.mp hp
    rw [← Except.ok.inj hp, sqlName_eq_ok hname]
  rw [← Except.ok.inj h, ← hunsorted]
  exact perm_insertionSort _ _

/-- The columns and values of the statement that creates a row: those of the row, and those the
executor fills. -/
structure Prepared (E : SqlEngine Row Rec) (m : Moment) (json : List String) (data : RowData)
    (pairs : List (String × Json)) : Prop where
  nodup : (pairs.map Prod.fst).Nodup
  named : ∀ p ∈ pairs, p.1 ∈ serverOwnedColumns ∨ p.1 ∈ data
  created : "created_at" ∉ data → ("created_at", written E json "created_at" (.string m.now)) ∈ pairs
  updated : "updated_at" ∉ data → ("updated_at", written E json "updated_at" (.string m.now)) ∈ pairs
  id : "id" ∉ data → ("id", written E json "id" (.string m.mintedId)) ∈ pairs ∨
    ∀ p ∈ pairs, p.1 ≠ "id"

theorem prepared_of_stamped {filled : RowData}
    (hfilled : filled = data.insert "id" (.string m.mintedId) ∨ filled = data)
    (h : sortedPairs E json (stampTimestamps m.now true filled) = .ok pairs) :
    Prepared E m json data pairs := by
  have hperm := perm_of_sortedPairs h
  have hfst : ∀ p ∈ pairs, p.1 ∈ stampTimestamps m.now true filled := by
    intro p hp
    obtain ⟨e, he, rfl⟩ := mem_map.mp (hperm.subset hp)
    exact mem_keys_of_mem he
  have hlookup : ∀ key v, (stampTimestamps m.now true filled).lookup key = some v →
      (key, written E json key v) ∈ pairs := fun key v hv ↦
    hperm.symm.subset (mem_map.mpr ⟨⟨key, v⟩, AList.mem_lookup_iff.mp hv, rfl⟩)
  have hmem : ∀ key, key ∈ filled → key = "id" ∨ key ∈ data := by
    rintro key hkey
    rcases hfilled with rfl | rfl
    · exact (AList.mem_insert data).mp hkey
    · exact .inr hkey
  refine ⟨?_, fun p hp ↦ ?_, fun hc ↦ hlookup _ _ (lookup_created_stampTimestamps fun hc' ↦ ?_),
    fun hu ↦ hlookup _ _ (lookup_updated_stampTimestamps fun hu' ↦ ?_), fun hid ↦ ?_⟩
  · rw [(hperm.map Prod.fst).nodup_iff, map_map]
    exact (stampTimestamps m.now true filled).nodupKeys
  · rcases mem_stampTimestamps.mp (hfst p hp) with h | h | h
    · exact .inl (h ▸ by decide)
    · exact .inl (h ▸ by decide)
    · refine (hmem _ h).imp_left fun hid ↦ ?_
      rw [hid]
      decide
  · exact (hmem _ hc').elim (by decide) hc
  · exact (hmem _ hu').elim (by decide) hu
  · rcases hfilled with rfl | rfl
    · exact .inl (hlookup _ _ (lookup_id_stampTimestamps.trans (AList.lookup_insert data)))
    · refine .inr fun p hp heq ↦ ?_
      rcases mem_stampTimestamps.mp (heq ▸ hfst p hp) with h | h | h
      · exact absurd h (by decide)
      · exact absurd h (by decide)
      · exact hid h

theorem prepareCreatedRow_eq_ok {policy : Option IdPolicy} {row : RowData}
    (h : prepareCreatedRow table m data policy = .ok row) :
    ∃ filled, (filled = data.insert "id" (.string m.mintedId) ∨ filled = data) ∧
      row = stampTimestamps m.now true filled := by
  rcases policy with - | - | - | -
  · exact ⟨data, .inr rfl, (Except.ok.inj h).symm⟩
  · exact ⟨_, .inl rfl, (Except.ok.inj h).symm⟩
  · exact ⟨data, .inr rfl, (Except.ok.inj h).symm⟩
  · exact absurd h nofun

theorem prepared_of_prepareCreatedRow {policy : Option IdPolicy} {row : RowData}
    (hrow : prepareCreatedRow table m data policy = .ok row)
    (h : sortedPairs E json row = .ok pairs) : Prepared E m json data pairs := by
  obtain ⟨filled, hfilled, rfl⟩ := prepareCreatedRow_eq_ok hrow
  exact prepared_of_stamped hfilled h

theorem exists_prepared_of_plannedRow (h : plannedRow E m table data = .ok pairs) :
    ∃ json, Prepared E m json data pairs := by
  obtain ⟨policy, -, h⟩ := bind_eq_ok.mp h
  obtain ⟨row, hrow, h⟩ := bind_eq_ok.mp h
  obtain ⟨json, -, h⟩ := bind_eq_ok.mp h
  exact ⟨json, prepared_of_prepareCreatedRow hrow h⟩

end

/-! ## What a planned statement can be -/

namespace SqlStatement

def IsRead : SqlStatement → Prop
  | setReadCommitted | advisoryLock _ | guardProbe _ _ => True
  | _ => False

def changes : SqlStatement → Option String
  | updateById table _ _ => some table
  | deleteById table _ => some table
  | updateWhere table _ _ => some table
  | deleteWhere table _ => some table
  | upsert table _ _ _ => some table
  | countCall statement => some statement.table
  | _ => none

end SqlStatement

inductive PlannedBy (E : SqlEngine Row Rec) (moment : ℕ → Moment) (ops : List WriteOp) :
    SqlStatement → Prop
  | read {st : SqlStatement} (h : st.IsRead) : PlannedBy E moment ops st
  | insert {table : String} {data : RowData} {pairs : List (String × Json)} (i : ℕ)
      (json : List String) (hop : .create table data ∈ ops)
      (h : Prepared E (moment i) json data pairs) : PlannedBy E moment ops (.insert table pairs)
  | insertGuarded {table : String} {data : RowData} {pairs : List (String × Json)}
      {guards : List (CapGuard Filter)} (i : ℕ) (json : List String)
      (hop : .create table data ∈ ops) (h : Prepared E (moment i) json data pairs) :
      PlannedBy E moment ops (.insertGuarded table pairs guards)
  | change {st : SqlStatement} {op : WriteOp} (hop : op ∈ ops)
      (hkind : ∀ collection data, op ≠ .create collection data)
      (h : st.changes = some op.collection) : PlannedBy E moment ops st

section

variable {E : SqlEngine Row Rec} {moment : ℕ → Moment} {st : SqlStatement}

theorem upsertStatement_changes {m : Moment} {collection : String} {spec : UpsertSpec}
    {json : List String} (h : upsertStatement E m collection spec json = .ok st) :
    st.changes = some collection := by
  obtain ⟨table, htable, h⟩ := bind_eq_ok.mp h
  rw [sqlName_eq_ok htable] at h
  split at h
  · obtain ⟨-, h⟩ := check_bind_eq_ok.mp h
    rw [← Except.ok.inj h]
    rfl
  · obtain ⟨row, -, h⟩ := bind_eq_ok.mp h
    obtain ⟨statement, hstatement, h⟩ := bind_eq_ok.mp h
    have hquery := mapError_eq_ok.mp hstatement
    have haccepted := CounterKey.accepted_of_eq_ok hquery
    rw [haccepted.windowedCounterUpsertQuery_eq] at hquery
    rw [← Except.ok.inj h, ← Except.ok.inj hquery]
    rfl

theorem plannedBy_of_planWrite {i : ℕ} {op : WriteOp} {ops : List WriteOp} (hop : op ∈ ops)
    (h : planWrite E (moment i) op = .ok st) : PlannedBy E moment ops st := by
  rcases op with ⟨c, data⟩ | ⟨c, id, data⟩ | ⟨c, id⟩ | ⟨c, filters, data⟩ | ⟨c, filters⟩ | ⟨c, spec⟩
  · obtain ⟨table, htable, h⟩ := bind_eq_ok.mp h
    rw [sqlName_eq_ok htable] at h
    obtain ⟨pairs, hpairs, h⟩ := bind_eq_ok.mp h
    obtain ⟨json, hprepared⟩ := exists_prepared_of_plannedRow hpairs
    rw [← Except.ok.inj h]
    exact .insert i json hop hprepared
  · obtain ⟨table, htable, h⟩ := bind_eq_ok.mp h
    rw [sqlName_eq_ok htable] at h
    obtain ⟨json, -, h⟩ := bind_eq_ok.mp h
    obtain ⟨pairs, -, h⟩ := bind_eq_ok.mp h
    rw [← Except.ok.inj h]
    exact .change hop (fun _ _ ↦ nofun) rfl
  · obtain ⟨table, htable, h⟩ := bind_eq_ok.mp h
    rw [sqlName_eq_ok htable] at h
    rw [← Except.ok.inj h]
    exact .change hop (fun _ _ ↦ nofun) rfl
  · obtain ⟨table, htable, h⟩ := bind_eq_ok.mp h
    rw [sqlName_eq_ok htable] at h
    obtain ⟨-, h⟩ := check_bind_eq_ok.mp h
    obtain ⟨json, -, h⟩ := bind_eq_ok.mp h
    obtain ⟨pairs, -, h⟩ := bind_eq_ok.mp h
    rw [← Except.ok.inj h]
    exact .change hop (fun _ _ ↦ nofun) rfl
  · obtain ⟨table, htable, h⟩ := bind_eq_ok.mp h
    rw [sqlName_eq_ok htable] at h
    obtain ⟨-, h⟩ := check_bind_eq_ok.mp h
    rw [← Except.ok.inj h]
    exact .change hop (fun _ _ ↦ nofun) rfl
  · obtain ⟨table, htable, h⟩ := bind_eq_ok.mp h
    obtain ⟨json, -, h⟩ := bind_eq_ok.mp h
    exact .change hop (fun _ _ ↦ nofun) (upsertStatement_changes h)

theorem plannedBy_of_planCreateMany {collection : String} {rows : List RowData}
    {statements : List SqlStatement} (h : planCreateMany E moment collection rows = .ok statements) :
    ∀ st ∈ statements, PlannedBy E moment (rows.map (.create collection)) st := by
  intro st hst
  unfold planCreateMany at h
  split at h
  · rw [← Except.ok.inj h] at hst
    exact absurd hst not_mem_nil
  · obtain ⟨table, htable, h⟩ := bind_eq_ok.mp h
    rw [sqlName_eq_ok htable] at h
    obtain ⟨policy, -, h⟩ := bind_eq_ok.mp h
    obtain ⟨prepared, hprepared, h⟩ := bind_eq_ok.mp h
    obtain ⟨json, -, h⟩ := bind_eq_ok.mp h
    obtain ⟨row, hrow, hst⟩ := mem_of_mapM_eq_ok h hst
    obtain ⟨pairs, hpairs, hst⟩ := bind_eq_ok.mp hst
    obtain ⟨⟨data, i⟩, hdata, hrow⟩ := mem_of_mapM_eq_ok hprepared hrow
    rw [← Except.ok.inj hst]
    exact .insert i json (mem_map_of_mem (fst_mem_of_mem_zipIdx hdata))
      (prepared_of_prepareCreatedRow hrow hpairs)

theorem isRead_of_mem_guardPreamble {table : String} {backend : Backend}
    (h : st ∈ guardPreamble table backend) : st.IsRead := by
  rcases backend with _ | _
  · exact absurd h not_mem_nil
  · rcases mem_cons.mp h with rfl | h
    · exact trivial
    · rw [mem_singleton.mp h]
      exact trivial

theorem plannedBy_of_planInsertGuarded {collection : String} {data : RowData}
    {guards : List (CapGuard Filter)} {statements : List SqlStatement}
    (h : planInsertGuarded E (moment 0) collection data guards = .ok statements) :
    ∀ st ∈ statements, PlannedBy E moment [.create collection data] st := by
  intro st hst
  obtain ⟨table, htable, h⟩ := bind_eq_ok.mp h
  rw [sqlName_eq_ok htable] at h
  obtain ⟨-, h⟩ := check_bind_eq_ok.mp h
  obtain ⟨pairs, hpairs, h⟩ := bind_eq_ok.mp h
  obtain ⟨-, h⟩ := check_bind_eq_ok.mp h
  obtain ⟨json, hprepared⟩ := exists_prepared_of_plannedRow hpairs
  have hprobe : ∀ st' ∈ if guards.isEmpty then [] else [SqlStatement.guardProbe collection guards],
      st'.IsRead := by
    intro st' hst'
    split at hst'
    · exact absurd hst' not_mem_nil
    · rw [mem_singleton.mp hst']
      exact trivial
  rw [← Except.ok.inj h] at hst
  simp only [mem_append, mem_singleton] at hst
  rcases hst with ((hst | hst) | rfl) | hst
  · exact .read (isRead_of_mem_guardPreamble hst)
  · exact .read (hprobe st hst)
  · exact .insertGuarded 0 json (mem_singleton_self _) hprepared
  · exact .read (hprobe st hst)

theorem plannedBy_of_plan {call : ServiceCall} {statements : List SqlStatement}
    (h : call.plan E moment = .ok statements) :
    ∀ st ∈ statements, PlannedBy E moment call.writes st := by
  intro st hst
  rcases call with ⟨c, data⟩ | ⟨c, rows⟩ | ops | ⟨c, data, guards⟩
  · obtain ⟨st', hst', h⟩ := bind_eq_ok.mp h
    rw [← Except.ok.inj h] at hst
    rw [mem_singleton.mp hst]
    exact plannedBy_of_planWrite (mem_singleton_self _) hst'
  · exact plannedBy_of_planCreateMany h st hst
  · obtain ⟨⟨op, i⟩, hop, h⟩ := mem_of_mapM_eq_ok h hst
    exact plannedBy_of_planWrite (fst_mem_of_mem_zipIdx hop) h
  · exact plannedBy_of_planInsertGuarded h st hst

end

/-! ## What is promised of the database -/

section

variable (E : SqlEngine Row Rec)

/-- One row has been inserted. A column that is named holds what was given for it. An id that is not
given is the database's, if nothing else is given than columns of the table: a name that is none may
stand for the id. -/
structure Inserted (table : String) (pairs : List (String × Json)) (before after : Tables Row)
    (row : Row) : Prop where
  rows : (after table).Perm (row :: before table)
  others : ∀ other, other ≠ table → after other = before other
  cells : (pairs.map Prod.fst).Nodup → ∀ p ∈ pairs, E.cell row p.1 = E.stored table p.1 p.2
  id : (∀ p ∈ pairs, E.IsColumn table p.1) → (∀ p ∈ pairs, p.1 ≠ "id") →
    E.cell row "id" = E.assignedId before table

/-- The rows of a table after an action of its foreign keys: a row is as it was, or changed, or
gone. -/
def Followed (before after : List Row) : Prop :=
  ∃ f : Row → Option Row, after.Perm (before.filterMap f)

structure SqlEngine.Lawful : Prop where
  read : ∀ st before after, st.IsRead → E.exec st before = .ok after → after = before
  insert : ∀ table pairs before after, E.exec (.insert table pairs) before = .ok after →
    ∃ row, Inserted E table pairs before after row
  insertGuarded : ∀ table pairs guards before after,
    E.exec (.insertGuarded table pairs guards) before = .ok after →
      after = before ∨ ∃ row, Inserted E table pairs before after row
  change : ∀ st table before after, st.changes = some table → E.exec st before = .ok after →
    ∀ other, other ≠ table → after other = before other ∨
      Relation.TransGen E.References other table ∧ Followed (before other) (after other)

end

end WaferRun.Database

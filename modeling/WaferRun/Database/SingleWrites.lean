import WaferRun.Database.WriteExec
import WaferRun.Lib.Statements

/-!
# Writes, one at a time

Each write has a call of its own: it completes what it was given, checks its columns, and runs its
statement, which is committed by itself. An update reads the row back with a second statement, by
the id it was given. Several writes are run as one transaction by `batch`, and several new rows by
`createMany`.

A call is a program that reads and changes the tables and may fail (`Db`); what it has changed when
it fails stays changed.
-/

namespace WaferRun.Database

/-- A row as it is answered. -/
structure Record where
  id : String
  /-- The columns with their values, in the order the statement gave them. -/
  data : List (String × Json)

abbrev Db (Row α : Type) := ExceptT DatabaseError (StateM (Tables Row)) α

namespace Db

variable {Row α β : Type}

def perform (x : Db Row α) (tables : Tables Row) : Except DatabaseError α × Tables Row :=
  x.run.run tables

/-- A computation that does not look at the tables. -/
def ofExcept (x : Except DatabaseError α) : Db Row α := ExceptT.mk (pure x)

@[simp] theorem perform_pure (a : α) (tables : Tables Row) :
    perform (pure a) tables = (.ok a, tables) := rfl

theorem perform_bind (x : Db Row α) (f : α → Db Row β) (tables : Tables Row) :
    perform (x >>= f) tables =
      match perform x tables with
      | (.error e, tables') => (.error e, tables')
      | (.ok a, tables') => perform (f a) tables' := by
  simp only [perform, ExceptT.run_bind, StateT.run_bind]
  rcases x.run.run tables with ⟨e | a, tables'⟩ <;> rfl

theorem perform_ofExcept_bind_ok {x : Except DatabaseError α} {a : α} (h : x = .ok a)
    (f : α → Db Row β) (tables : Tables Row) :
    perform (ofExcept x >>= f) tables = perform (f a) tables := by
  rw [h]
  rfl

theorem perform_ofExcept_bind_error {x : Except DatabaseError α} {e : DatabaseError}
    (h : x = .error e) (f : α → Db Row β) (tables : Tables Row) :
    perform (ofExcept x >>= f) tables = (.error e, tables) := by
  rw [h]
  rfl

end Db

/-! ## The database that is written -/

/-- An operation of a round trip of reads and writes. -/
inductive BatchOp
  | execute (st : SqlStatement)
  | rows (table id : String) (json : List String)

inductive BatchResult
  | execute (rowsAffected : ℤ)
  | rows (records : List Record)

/-- A statement of a transaction: its answer is the number of rows it affected, or the rows
themselves (`RETURNING *`). -/
inductive TxOp
  | execute (st : SqlStatement)
  | returning (st : SqlStatement) (json : List String)

inductive TxAnswer
  | execute (rowsAffected : ℤ)
  | returning (records : List Record)

/-- A database that answers: how many rows a statement affects and which it returns, which rows are
read by their id, how a row is read, and whether a stored id is the one of a text. -/
structure DbExec (Row : Type) extends SqlEngine Row Record where
  affected : SqlStatement → Tables Row → ℤ
  returned : SqlStatement → Tables Row → List Row
  /-- `SELECT * FROM table WHERE id = …` -/
  selectById : String → String → Tables Row → Except DatabaseError (List Row)
  /-- Read a row, of which some columns hold JSON. -/
  readRow : List String → Row → Record
  isId : String → String → Json → Bool
  debugBatch : Option BatchResult → String
  debugTx : TxAnswer → String

def recordId (E : SqlEngine Row Record) : Json → String
  | .string s => s
  | v@(.number _) => E.display v
  | _ => ""

def writtenColumns (data : RowData) : List (String × Json) :=
  (data.entries.map fun e ↦ (e.1, e.2)).insertionSort fun a b ↦ a.1 ≤ b.1

namespace DbExec

variable {Row : Type} (E : DbExec Row)

def hasId (table id : String) (row : Row) : Bool := E.isId table id (E.cell row "id")

/-! ### Statements -/

def runExecute (st : SqlStatement) : Db Row ℤ :=
  ExceptT.mk fun tables ↦
    match E.exec st tables with
    | .error e => (.error e, tables)
    | .ok tables' => (.ok (E.affected st tables), tables')

def runExecuteReturning (st : SqlStatement) (json : List String) : Db Row (List Record) :=
  ExceptT.mk fun tables ↦
    match E.exec st tables with
    | .error e => (.error e, tables)
    | .ok tables' => (.ok ((E.returned st tables).map (E.readRow json)), tables')

def runFetchById (table id : String) (json : List String) : Db Row (List Record) :=
  ExceptT.mk fun tables ↦
    match E.selectById table id tables with
    | .error e => (.error e, tables)
    | .ok rows => (.ok (rows.map (E.readRow json)), tables)

/-- Run operations one after another; the first that fails ends the round trip. -/
def runBatch : List BatchOp → Db Row (List BatchResult)
  | [] => return []
  | .execute st :: ops => do
    let n ← E.runExecute st
    return .execute n :: (← runBatch ops)
  | .rows table id json :: ops => do
    let records ← E.runFetchById table id json
    return .rows records :: (← runBatch ops)

def stepTx : TxOp → Tables Row → Except DatabaseError (TxAnswer × Tables Row)
  | .execute st, tables =>
    (E.exec st tables).map fun tables' ↦ (.execute (E.affected st tables), tables')
  | .returning st json, tables =>
    (E.exec st tables).map fun tables' ↦
      (.returning ((E.returned st tables).map (E.readRow json)), tables')

def runTransaction (ops : List TxOp) : Db Row (List TxAnswer) :=
  ExceptT.mk (Statements.transact E.stepTx ops)

variable {E} in
theorem perform_runExecute_ok {st : SqlStatement} {tables tables' : Tables Row}
    (h : E.exec st tables = .ok tables') :
    (E.runExecute st).perform tables = (.ok (E.affected st tables), tables') := by
  simp only [Db.perform, runExecute, ExceptT.run, StateT.run, ExceptT.mk, h]

variable {E} in
theorem perform_runExecute_error {st : SqlStatement} {tables : Tables Row} {e : DatabaseError}
    (h : E.exec st tables = .error e) :
    (E.runExecute st).perform tables = (.error e, tables) := by
  simp only [Db.perform, runExecute, ExceptT.run, StateT.run, ExceptT.mk, h]

variable {E} in
theorem perform_runExecuteReturning_ok {st : SqlStatement} {json : List String}
    {tables tables' : Tables Row} (h : E.exec st tables = .ok tables') :
    (E.runExecuteReturning st json).perform tables =
      (.ok ((E.returned st tables).map (E.readRow json)), tables') := by
  simp only [Db.perform, runExecuteReturning, ExceptT.run, StateT.run, ExceptT.mk, h]

variable {E} in
theorem perform_runExecuteReturning_error {st : SqlStatement} {json : List String}
    {tables : Tables Row} {e : DatabaseError} (h : E.exec st tables = .error e) :
    (E.runExecuteReturning st json).perform tables = (.error e, tables) := by
  simp only [Db.perform, runExecuteReturning, ExceptT.run, StateT.run, ExceptT.mk, h]

variable {E} in
theorem perform_runFetchById_ok {table id : String} {json : List String} {tables : Tables Row}
    {rows : List Row} (h : E.selectById table id tables = .ok rows) :
    (E.runFetchById table id json).perform tables = (.ok (rows.map (E.readRow json)), tables) := by
  simp only [Db.perform, runFetchById, ExceptT.run, StateT.run, ExceptT.mk, h]

variable {E} in
theorem perform_runFetchById_error {table id : String} {json : List String} {tables : Tables Row}
    {e : DatabaseError} (h : E.selectById table id tables = .error e) :
    (E.runFetchById table id json).perform tables = (.error e, tables) := by
  simp only [Db.perform, runFetchById, ExceptT.run, StateT.run, ExceptT.mk, h]

/-! ### Calls -/

variable (m : Moment)

def create (collection : String) (data : RowData) : Db Row Record := do
  let table ← Db.ofExcept (sqlName E.toEngine collection)
  let policy ← Db.ofExcept (createdRowIdPolicy m table data)
  let data ← Db.ofExcept (prepareCreatedRow table m data policy)
  let json ← Db.ofExcept (m.jsonColumns table)
  let pairs ← Db.ofExcept (sortedPairs E.toSqlEngine json data)
  if policy = some .database then
    match ← E.runExecuteReturning (.insert table pairs) json with
    | [] => throw (.internal ("insert into " ++ table ++ " returned no row"))
    | stored :: _ =>
      match stored.data.lookup "id" with
      | none => throw (.internal ("insert into " ++ table ++ " returned no id"))
      | some id => return { id := stored.id, data := writtenColumns (data.insert "id" id) }
  else
    let _ ← E.runExecute (.insert table pairs)
    let id := ((data.lookup "id").map (recordId E.toSqlEngine)).getD ""
    return { id, data := writtenColumns data }

def batchShapeError (what : String) (got : Option BatchResult) : DatabaseError :=
  .internal ("run_batch returned an unexpected result shape for " ++ what ++ ": " ++
    E.debugBatch got)

def update (collection id : String) (data : RowData) : Db Row Record := do
  let table ← Db.ofExcept (sqlName E.toEngine collection)
  let data := stampTimestamps m.now false data
  let json ← Db.ofExcept (m.jsonColumns table)
  let pairs ← Db.ofExcept (sortedPairs E.toSqlEngine json data)
  let results ← E.runBatch [.execute (.updateById table id pairs), .rows table id json]
  match results.head? with
  | some (.execute affected) =>
    if affected = 0 then throw .notFound
    else
      match results.tail.head? with
      | some (.rows (record :: _)) => return record
      | some (.rows []) => throw .notFound
      | other => throw (E.batchShapeError "update re-fetch" other)
  | other => throw (E.batchShapeError "update statement" other)

def delete (collection id : String) : Db Row Unit := do
  let table ← Db.ofExcept (sqlName E.toEngine collection)
  let affected ← E.runExecute (.deleteById table id)
  if affected = 0 then throw .notFound else return

def deleteWhereCount (collection : String) (filters : List Filter) : Db Row ℤ := do
  let table ← Db.ofExcept (sqlName E.toEngine collection)
  Db.ofExcept (requireTableColumns E.toSqlEngine m table (filters.map Filter.field))
  E.runExecute (.deleteWhere table filters)

def deleteWhere (collection : String) (filters : List Filter) : Db Row Unit := do
  let _ ← E.deleteWhereCount m collection filters

def updateWhere (collection : String) (filters : List Filter) (data : RowData) : Db Row Unit := do
  let table ← Db.ofExcept (sqlName E.toEngine collection)
  Db.ofExcept (requireTableColumns E.toSqlEngine m table (filters.map Filter.field))
  let data := stampTimestamps m.now false data
  let json ← Db.ofExcept (m.jsonColumns table)
  let pairs ← Db.ofExcept (sortedPairs E.toSqlEngine json data)
  let _ ← E.runExecute (.updateWhere table pairs filters)

def updateWhereCount (collection : String) (filters : List Filter) (data : RowData) :
    Db Row ℤ := do
  let table ← Db.ofExcept (sqlName E.toEngine collection)
  Db.ofExcept (requireTableColumns E.toSqlEngine m table (filters.map Filter.field))
  let data := stampTimestamps m.now false data
  let json ← Db.ofExcept (m.jsonColumns table)
  let pairs ← Db.ofExcept (sortedPairs E.toSqlEngine json data)
  E.runExecute (.updateWhere table pairs filters)

/-- The row as the statement left it, or `none` if an existing row was kept. -/
def upsert (collection : String) (spec : UpsertSpec) : Db Row (Option Record) := do
  let table ← Db.ofExcept (sqlName E.toEngine collection)
  let json ← Db.ofExcept (m.jsonColumns table)
  let st ← Db.ofExcept (upsertStatement E.toSqlEngine m collection spec json)
  let rows ← E.runExecuteReturning st json
  if 1 < rows.length then
    throw (.internal ("upsert into " ++ collection ++ " returned " ++ toString rows.length ++
      " rows"))
  else
    return rows.getLast?

def insertedRows : ℤ → List TxAnswer → Except DatabaseError ℤ
  | inserted, [] => .ok inserted
  | inserted, .execute n :: results => insertedRows (inserted + n) results
  | _, other@(.returning _) :: _ =>
    .error (.internal ("run_transaction returned " ++ E.debugTx other ++
      " for a create_many insert"))

variable (moment : ℕ → Moment)

def createMany (collection : String) (rows : List RowData) : Db Row ℤ := do
  if rows.isEmpty then
    return 0
  else
    let statements ← Db.ofExcept (planCreateMany E.toSqlEngine moment collection rows)
    let results ← E.runTransaction (statements.map .execute)
    Db.ofExcept (E.insertedRows 0 results)

/-! ### Batches -/

inductive WriteOutcome
  | created (record : Record)
  | updated (record : Option Record)
  | deleted (rowsAffected : ℤ)
  | updatedWhere (rowsAffected : ℤ)
  | deletedWhere (rowsAffected : ℤ)
  | upserted (rowsAffected : ℤ)

/-- How the answer of a statement is read back. -/
inductive Planned
  | created (json : List String)
  | updated (json : List String)
  | deleted
  | updatedWhere
  | deletedWhere
  | upserted

def planOp : WriteOp → Except DatabaseError (Planned × SqlStatement)
  | .create collection data => do
    let table ← sqlName E.toEngine collection
    let policy ← createdRowIdPolicy m table data
    let data ← prepareCreatedRow table m data policy
    let json ← m.jsonColumns table
    return (.created json, .insert table (← sortedPairs E.toSqlEngine json data))
  | .update collection id data => do
    let table ← sqlName E.toEngine collection
    let data := stampTimestamps m.now false data
    let json ← m.jsonColumns table
    return (.updated json, .updateById table id (← sortedPairs E.toSqlEngine json data))
  | .delete collection id => do
    return (.deleted, .deleteById (← sqlName E.toEngine collection) id)
  | .updateWhere collection filters data => do
    let table ← sqlName E.toEngine collection
    requireTableColumns E.toSqlEngine m table (filters.map Filter.field)
    let data := stampTimestamps m.now false data
    let json ← m.jsonColumns table
    return (.updatedWhere, .updateWhere table (← sortedPairs E.toSqlEngine json data) filters)
  | .deleteWhere collection filters => do
    let table ← sqlName E.toEngine collection
    requireTableColumns E.toSqlEngine m table (filters.map Filter.field)
    return (.deletedWhere, .deleteWhere table filters)
  | .upsert collection spec => do
    let json ← m.jsonColumns (← sqlName E.toEngine collection)
    return (.upserted, ← upsertStatement E.toSqlEngine m collection spec json)

def txOp (st : SqlStatement) : Planned → TxOp
  | .created json => .returning st json
  | .updated json => .returning st json
  | .deleted | .updatedWhere | .deletedWhere | .upserted => .execute st

def decode : Planned → TxAnswer → Except DatabaseError WriteOutcome
  | .created _, .returning (record :: _) => .ok (.created record)
  | .created _, .returning [] => .error (.internal "INSERT … RETURNING returned no row")
  | .updated _, .returning records => .ok (.updated records.head?)
  | .deleted, .execute n => .ok (.deleted n)
  | .updatedWhere, .execute n => .ok (.updatedWhere n)
  | .deletedWhere, .execute n => .ok (.deletedWhere n)
  | .upserted, .execute n => .ok (.upserted n)
  | _, other => .error (.internal ("run_transaction returned " ++ E.debugTx other ++
      " for a statement of the other kind"))

def decodeAll : List Planned → List TxAnswer → Except DatabaseError (List WriteOutcome)
  | [], _ => .ok []
  | _ :: _, [] => .error (.internal "run_transaction returned too few results")
  | kind :: kinds, result :: results => do
    let outcome ← E.decode kind result
    return outcome :: (← decodeAll kinds results)

def batch (ops : List WriteOp) : Db Row (List WriteOutcome) := do
  let plans ← Db.ofExcept (ops.zipIdx.mapM fun (op, i) ↦ E.planOp (moment i) op)
  let planned := plans.map Prod.fst
  let statements := plans.map Prod.snd
  if statements.isEmpty then
    return []
  else
    let results ← E.runTransaction (List.zipWith txOp statements planned)
    if results.length ≠ statements.length then
      throw (.internal ("run_transaction returned " ++ toString results.length ++
        " results for " ++ toString statements.length ++ " statements"))
    else
      Db.ofExcept (E.decodeAll planned results)

end DbExec

end WaferRun.Database

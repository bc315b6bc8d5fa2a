import WaferRun.Database.SingleWrites

/-!
# Batches and the writes they are made of

A batch plans a statement for each of its writes, runs the statements as one transaction and reads
the answers back, all in code of its own. What keeps it together with the calls that do a single
write is that such a call leaves what the statement planned for it leaves, however it answers
(`performOp_eq_leavesPlanned`). A batch that succeeds is therefore its writes one after another, and its
outcomes describe them.
-/

open List Fallible

namespace WaferRun.Database

variable {collection id : String} {data : RowData} {filters : List Filter}

namespace DbExec

variable {Row : Type} (E : DbExec Row)

/-! ## What is promised of the answers -/

/-- The rows of an id have been updated: `f` is what becomes of a row. Also rows of other ids may
change, if a foreign key says so, but they keep their ids. -/
structure UpdatedById (table id : String) (pairs : List (String × Json))
    (before after : Tables Row) (f : Row → Row) : Prop where
  rows : (after table).Perm ((before table).map f)
  returned : (E.returned (.updateById table id pairs) before).Perm
    (((before table).filter (E.hasId table id)).map f)
  affected : E.affected (.updateById table id pairs) before =
    (before table).countP (E.hasId table id)
  renamed : (pairs.map Prod.fst).Nodup → ∀ row ∈ before table, E.hasId table id row = true →
    ∀ v, ("id", v) ∈ pairs → E.cell (f row) "id" = E.stored table "id" v
  kept : ∀ row ∈ before table, E.hasId table id row = false ∨ (∀ p ∈ pairs, p.1 ≠ "id") →
    E.cell (f row) "id" = E.cell row "id"
  unmatched : (∀ row ∈ before table, E.hasId table id row = false) → after = before

/-- The statement inserts a row or updates one that is in its way. -/
def IsUpsert : SqlStatement → Prop
  | .upsert _ _ _ _ | .countCall _ => True
  | _ => False

/-- What SQL says of the answers. That nothing was found is never the answer of a statement itself:
it answers with no rows. -/
structure Lawful : Prop where
  insert : ∀ table pairs before after, E.exec (.insert table pairs) before = .ok after →
    ∃ row, Inserted E.toSqlEngine table pairs before after row ∧
      E.returned (.insert table pairs) before = [row] ∧
      E.affected (.insert table pairs) before = 1
  update : ∀ table id pairs before after, E.exec (.updateById table id pairs) before = .ok after →
    ∃ f, E.UpdatedById table id pairs before after f
  delete : ∀ table id before after, E.exec (.deleteById table id) before = .ok after →
    E.affected (.deleteById table id) before = (before table).countP (E.hasId table id)
  upsert : ∀ st before after, IsUpsert st → E.exec st before = .ok after →
    (E.returned st before).length ≤ 1 ∧ E.affected st before = (E.returned st before).length
  select : ∀ table id tables rows, E.selectById table id tables = .ok rows →
    rows.Perm ((tables table).filter (E.hasId table id))
  exec_ne : ∀ st tables, E.exec st tables ≠ .error .notFound
  select_ne : ∀ table id tables, E.selectById table id tables ≠ .error .notFound

/-! ## A single write leaves what its statement leaves -/

def leaves (st : SqlStatement) (tables : Tables Row) : Tables Row :=
  match E.exec st tables with
  | .error _ => tables
  | .ok tables' => tables'

def leavesPlanned (plan : Except DatabaseError (Planned × SqlStatement)) (tables : Tables Row) :
    Tables Row :=
  match plan with
  | .error _ => tables
  | .ok (_, st) => E.leaves st tables

def performOp (m : Moment) (op : WriteOp) (tables : Tables Row) : Tables Row :=
  match op with
  | .create collection data => ((E.create m collection data).perform tables).2
  | .update collection id data => ((E.update m collection id data).perform tables).2
  | .delete collection id => ((E.delete collection id).perform tables).2
  | .updateWhere collection filters data =>
    ((E.updateWhere m collection filters data).perform tables).2
  | .deleteWhere collection filters => ((E.deleteWhere m collection filters).perform tables).2
  | .upsert collection spec => ((E.upsert m collection spec).perform tables).2

variable {E}
variable {α β : Type} {m : Moment} {tables : Tables Row}

def Quiet (x : Db Row α) : Prop := ∀ tables, (x.perform tables).2 = tables

theorem quiet_pure (a : α) : Quiet (pure a : Db Row α) := fun _ ↦ rfl

theorem quiet_throw (e : DatabaseError) : Quiet (throw e : Db Row α) := fun _ ↦ rfl

theorem leavesPlanned_bind {x : Except DatabaseError α} {f : α → Db Row β}
    {g : α → Except DatabaseError (Planned × SqlStatement)}
    (h : ∀ a, ((f a).perform tables).2 = E.leavesPlanned (g a) tables) :
    ((Db.ofExcept x >>= f).perform tables).2 = E.leavesPlanned (x >>= g) tables := by
  rcases x with e | a
  · rfl
  · exact h a

theorem snd_perform_bind {x : Db Row α} {k : α → Db Row β} (hk : ∀ a, Quiet (k a)) :
    ((x >>= k).perform tables).2 = (x.perform tables).2 := by
  rw [Db.perform_bind]
  rcases x.perform tables with ⟨e | a, tables'⟩
  · rfl
  · exact hk a tables'

theorem snd_perform_runExecute {st : SqlStatement} :
    ((E.runExecute st).perform tables).2 = E.leaves st tables := by
  rw [leaves]
  rcases h : E.exec st tables with e | tables'
  · rw [perform_runExecute_error h]
  · rw [perform_runExecute_ok h]

theorem snd_perform_runExecuteReturning {st : SqlStatement} {json : List String} :
    ((E.runExecuteReturning st json).perform tables).2 = E.leaves st tables := by
  rw [leaves]
  rcases h : E.exec st tables with e | tables'
  · rw [perform_runExecuteReturning_error h]
  · rw [perform_runExecuteReturning_ok h]

theorem leaves_runExecute_bind {st : SqlStatement} {k : ℤ → Db Row β} (hk : ∀ n, Quiet (k n)) :
    ((E.runExecute st >>= k).perform tables).2 = E.leaves st tables :=
  (snd_perform_bind hk).trans snd_perform_runExecute

theorem leaves_runExecuteReturning_bind {st : SqlStatement} {json : List String}
    {k : List Record → Db Row β} (hk : ∀ records, Quiet (k records)) :
    ((E.runExecuteReturning st json >>= k).perform tables).2 = E.leaves st tables :=
  (snd_perform_bind hk).trans snd_perform_runExecuteReturning

theorem leaves_runBatch_bind {st : SqlStatement} {table : String} {json : List String}
    {k : List BatchResult → Db Row β} (hk : ∀ results, Quiet (k results)) :
    ((E.runBatch [.execute st, .rows table id json] >>= k).perform tables).2 =
      E.leaves st tables := by
  rw [snd_perform_bind hk, runBatch]
  refine leaves_runExecute_bind fun n tables' ↦ (snd_perform_bind fun _ ↦ quiet_pure _).trans ?_
  refine (snd_perform_bind fun _ ↦ fun _ ↦ rfl).trans ?_
  rcases h : E.selectById table id tables' with e | rows
  · rw [perform_runFetchById_error h]
  · rw [perform_runFetchById_ok h]

theorem perform_create (collection : String) (data : RowData) :
    ((E.create m collection data).perform tables).2 =
      E.leavesPlanned (E.planOp m (.create collection data)) tables := by
  refine leavesPlanned_bind fun table ↦ leavesPlanned_bind fun policy ↦
    leavesPlanned_bind fun data ↦ leavesPlanned_bind fun json ↦ leavesPlanned_bind fun pairs ↦ ?_
  split
  · refine leaves_runExecuteReturning_bind fun records ↦ ?_
    split
    · exact quiet_throw _
    · split
      · exact quiet_throw _
      · exact quiet_pure _
  · exact leaves_runExecute_bind fun _ ↦ quiet_pure _

theorem perform_update (collection id : String) (data : RowData) :
    ((E.update m collection id data).perform tables).2 =
      E.leavesPlanned (E.planOp m (.update collection id data)) tables := by
  refine leavesPlanned_bind fun table ↦ leavesPlanned_bind fun json ↦
    leavesPlanned_bind fun pairs ↦ leaves_runBatch_bind fun results ↦ ?_
  split
  · split
    · exact quiet_throw _
    · split
      · exact quiet_pure _
      · exact quiet_throw _
      · exact quiet_throw _
  · exact quiet_throw _

theorem perform_delete (collection id : String) :
    ((E.delete collection id).perform tables).2 =
      E.leavesPlanned (E.planOp m (.delete collection id)) tables := by
  refine leavesPlanned_bind fun table ↦ leaves_runExecute_bind fun affected ↦ ?_
  split
  · exact quiet_throw _
  · exact quiet_pure _

theorem perform_updateWhere (collection : String) (filters : List Filter) (data : RowData) :
    ((E.updateWhere m collection filters data).perform tables).2 =
      E.leavesPlanned (E.planOp m (.updateWhere collection filters data)) tables :=
  leavesPlanned_bind fun _ ↦ leavesPlanned_bind fun _ ↦ leavesPlanned_bind fun _ ↦
    leavesPlanned_bind fun _ ↦ leaves_runExecute_bind fun _ ↦ quiet_pure _

theorem perform_deleteWhere (collection : String) (filters : List Filter) :
    ((E.deleteWhere m collection filters).perform tables).2 =
      E.leavesPlanned (E.planOp m (.deleteWhere collection filters)) tables := by
  rw [deleteWhere, snd_perform_bind fun _ ↦ quiet_pure _]
  exact leavesPlanned_bind fun _ ↦ leavesPlanned_bind fun _ ↦ snd_perform_runExecute

theorem perform_upsert (collection : String) (spec : UpsertSpec) :
    ((E.upsert m collection spec).perform tables).2 =
      E.leavesPlanned (E.planOp m (.upsert collection spec)) tables := by
  refine leavesPlanned_bind fun table ↦ leavesPlanned_bind fun json ↦ leavesPlanned_bind fun st ↦
    leaves_runExecuteReturning_bind fun records ↦ ?_
  split
  · exact quiet_throw _
  · exact quiet_pure _

theorem performOp_eq_leavesPlanned (op : WriteOp) :
    E.performOp m op tables = E.leavesPlanned (E.planOp m op) tables := by
  rcases op with ⟨c, data⟩ | ⟨c, id, data⟩ | ⟨c, id⟩ | ⟨c, filters, data⟩ | ⟨c, filters⟩ | ⟨c, spec⟩
  · exact perform_create c data
  · exact perform_update c id data
  · exact perform_delete c id
  · exact perform_updateWhere c filters data
  · exact perform_deleteWhere c filters
  · exact perform_upsert c spec

/-! ## What is planned for a write -/

section

variable {kind : Planned} {st : SqlStatement}

theorem planOp_create (h : E.planOp m (.create collection data) = .ok (kind, st)) :
    ∃ json pairs, m.jsonColumns collection = .ok json ∧
      plannedRow E.toSqlEngine m collection data = .ok pairs ∧
        kind = .created json ∧ st = .insert collection pairs := by
  obtain ⟨table, htable, h⟩ := bind_eq_ok.mp h
  rw [sqlName_eq_ok htable] at h htable
  obtain ⟨policy, hpolicy, h⟩ := bind_eq_ok.mp h
  obtain ⟨row, hrow, h⟩ := bind_eq_ok.mp h
  obtain ⟨json, hjson, h⟩ := bind_eq_ok.mp h
  obtain ⟨pairs, hpairs, h⟩ := bind_eq_ok.mp h
  obtain ⟨rfl, rfl⟩ := Prod.mk.inj (Except.ok.inj h)
  refine ⟨json, pairs, hjson, ?_, rfl, rfl⟩
  exact bind_eq_ok.mpr ⟨policy, hpolicy, bind_eq_ok.mpr ⟨row, hrow,
    bind_eq_ok.mpr ⟨json, hjson, hpairs⟩⟩⟩

structure PlannedUpdate (E : DbExec Row) (m : Moment) (collection : String) (data : RowData)
    (json : List String) (pairs : List (String × Json)) : Prop where
  named : sqlName E.toEngine collection = .ok collection
  read : m.jsonColumns collection = .ok json
  sorted : sortedPairs E.toSqlEngine json (stampTimestamps m.now false data) = .ok pairs

theorem planOp_update (h : E.planOp m (.update collection id data) = .ok (kind, st)) :
    ∃ json pairs, PlannedUpdate E m collection data json pairs ∧
      kind = .updated json ∧ st = .updateById collection id pairs := by
  obtain ⟨table, htable, h⟩ := bind_eq_ok.mp h
  rw [sqlName_eq_ok htable] at h htable
  obtain ⟨json, hjson, h⟩ := bind_eq_ok.mp h
  obtain ⟨pairs, hpairs, h⟩ := bind_eq_ok.mp h
  obtain ⟨rfl, rfl⟩ := Prod.mk.inj (Except.ok.inj h)
  exact ⟨json, pairs, ⟨htable, hjson, hpairs⟩, rfl, rfl⟩

theorem planOp_delete (h : E.planOp m (.delete collection id) = .ok (kind, st)) :
    sqlName E.toEngine collection = .ok collection ∧ kind = .deleted ∧
      st = .deleteById collection id := by
  obtain ⟨table, htable, h⟩ := bind_eq_ok.mp h
  rw [sqlName_eq_ok htable] at h htable
  obtain ⟨rfl, rfl⟩ := Prod.mk.inj (Except.ok.inj h)
  exact ⟨htable, rfl, rfl⟩

theorem planOp_updateWhere
    (h : E.planOp m (.updateWhere collection filters data) = .ok (kind, st)) :
    requireTableColumns E.toSqlEngine m collection (filters.map Filter.field) = .ok () ∧
      ∃ json pairs, PlannedUpdate E m collection data json pairs ∧ kind = .updatedWhere ∧
        st = .updateWhere collection pairs filters := by
  obtain ⟨table, htable, h⟩ := bind_eq_ok.mp h
  rw [sqlName_eq_ok htable] at h htable
  obtain ⟨hrequired, h⟩ := check_bind_eq_ok.mp h
  obtain ⟨json, hjson, h⟩ := bind_eq_ok.mp h
  obtain ⟨pairs, hpairs, h⟩ := bind_eq_ok.mp h
  obtain ⟨rfl, rfl⟩ := Prod.mk.inj (Except.ok.inj h)
  exact ⟨hrequired, json, pairs, ⟨htable, hjson, hpairs⟩, rfl, rfl⟩

theorem planOp_deleteWhere (h : E.planOp m (.deleteWhere collection filters) = .ok (kind, st)) :
    sqlName E.toEngine collection = .ok collection ∧
      requireTableColumns E.toSqlEngine m collection (filters.map Filter.field) = .ok () ∧
        kind = .deletedWhere ∧ st = .deleteWhere collection filters := by
  obtain ⟨table, htable, h⟩ := bind_eq_ok.mp h
  rw [sqlName_eq_ok htable] at h htable
  obtain ⟨hrequired, h⟩ := check_bind_eq_ok.mp h
  obtain ⟨rfl, rfl⟩ := Prod.mk.inj (Except.ok.inj h)
  exact ⟨htable, hrequired, rfl, rfl⟩

theorem isUpsert_of_upsertStatement {spec : UpsertSpec} {json : List String}
    (h : upsertStatement E.toSqlEngine m collection spec json = .ok st) : IsUpsert st := by
  obtain ⟨table, htable, h⟩ := bind_eq_ok.mp h
  split at h
  · obtain ⟨-, h⟩ := check_bind_eq_ok.mp h
    rw [← Except.ok.inj h]
    trivial
  · obtain ⟨row, -, h⟩ := bind_eq_ok.mp h
    obtain ⟨statement, -, h⟩ := bind_eq_ok.mp h
    rw [← Except.ok.inj h]
    trivial

theorem planOp_upsert {spec : UpsertSpec}
    (h : E.planOp m (.upsert collection spec) = .ok (kind, st)) :
    ∃ json, sqlName E.toEngine collection = .ok collection ∧ m.jsonColumns collection = .ok json ∧
      upsertStatement E.toSqlEngine m collection spec json = .ok st ∧ kind = .upserted := by
  obtain ⟨table, htable, h⟩ := bind_eq_ok.mp h
  rw [sqlName_eq_ok htable] at h htable
  obtain ⟨json, hjson, h⟩ := bind_eq_ok.mp h
  obtain ⟨st', hst, h⟩ := bind_eq_ok.mp h
  obtain ⟨rfl, rfl⟩ := Prod.mk.inj (Except.ok.inj h)
  exact ⟨json, htable, hjson, hst, rfl⟩

end

/-! ## What a single write answers -/

section

variable {tables' : Tables Row} {json : List String} {pairs : List (String × Json)}

theorem perform_delete_of_exec (htable : sqlName E.toEngine collection = .ok collection)
    (h : E.exec (.deleteById collection id) tables = .ok tables') :
    (E.delete collection id).perform tables =
      (if E.affected (.deleteById collection id) tables = 0 then .error .notFound else .ok (),
        tables') := by
  rw [delete, Db.perform_ofExcept_bind_ok htable, Db.perform_bind, perform_runExecute_ok h]
  dsimp only
  split <;> rfl

theorem perform_deleteWhereCount (htable : sqlName E.toEngine collection = .ok collection)
    (hrequired : requireTableColumns E.toSqlEngine m collection (filters.map Filter.field) = .ok ())
    (h : E.exec (.deleteWhere collection filters) tables = .ok tables') :
    (E.deleteWhereCount m collection filters).perform tables =
      (.ok (E.affected (.deleteWhere collection filters) tables), tables') := by
  rw [deleteWhereCount, Db.perform_ofExcept_bind_ok htable,
    Db.perform_ofExcept_bind_ok hrequired, perform_runExecute_ok h]

theorem perform_updateWhereCount (hplanned : PlannedUpdate E m collection data json pairs)
    (hrequired : requireTableColumns E.toSqlEngine m collection (filters.map Filter.field) = .ok ())
    (h : E.exec (.updateWhere collection pairs filters) tables = .ok tables') :
    (E.updateWhereCount m collection filters data).perform tables =
      (.ok (E.affected (.updateWhere collection pairs filters) tables), tables') := by
  rw [updateWhereCount, Db.perform_ofExcept_bind_ok hplanned.named,
    Db.perform_ofExcept_bind_ok hrequired]
  dsimp only
  rw [Db.perform_ofExcept_bind_ok hplanned.read, Db.perform_ofExcept_bind_ok hplanned.sorted,
    perform_runExecute_ok h]

theorem perform_upsert_of_exec {spec : UpsertSpec} {st : SqlStatement}
    (htable : sqlName E.toEngine collection = .ok collection)
    (hjson : m.jsonColumns collection = .ok json)
    (hst : upsertStatement E.toSqlEngine m collection spec json = .ok st)
    (h : E.exec st tables = .ok tables') (hone : (E.returned st tables).length ≤ 1) :
    (E.upsert m collection spec).perform tables =
      (.ok ((E.returned st tables).map (E.readRow json)).getLast?, tables') := by
  rw [upsert, Db.perform_ofExcept_bind_ok htable, Db.perform_ofExcept_bind_ok hjson,
    Db.perform_ofExcept_bind_ok hst, Db.perform_bind, perform_runExecuteReturning_ok h]
  dsimp only
  rw [if_neg (by rw [length_map]; omega)]
  rfl

/-- What an update answers once its statement has run: the first row that is read back by the id it
was given. -/
theorem perform_update_of_exec (hplanned : PlannedUpdate E m collection data json pairs)
    (h : E.exec (.updateById collection id pairs) tables = .ok tables') :
    (E.update m collection id data).perform tables =
      (match E.selectById collection id tables' with
        | .error e => .error e
        | .ok rows =>
          if E.affected (.updateById collection id pairs) tables = 0 then .error .notFound
          else (rows.head?.map (E.readRow json)).elim (.error .notFound) .ok, tables') := by
  rw [update, Db.perform_ofExcept_bind_ok hplanned.named]
  dsimp only
  rw [Db.perform_ofExcept_bind_ok hplanned.read, Db.perform_ofExcept_bind_ok hplanned.sorted,
    Db.perform_bind, runBatch, Db.perform_bind, perform_runExecute_ok h]
  dsimp only
  rw [Db.perform_bind, runBatch, Db.perform_bind]
  rcases hrows : E.selectById collection id tables' with e | rows
  · rw [perform_runFetchById_error hrows]
  · rw [perform_runFetchById_ok hrows]
    dsimp only
    rw [Db.perform_bind, runBatch, Db.perform_pure]
    simp only [Db.perform_pure, List.head?_cons, tail_cons]
    split
    · rfl
    · rcases rows with _ | ⟨row, rows⟩ <;> rfl

end

/-! ## What an outcome says -/

/-- An outcome describes a write, in the tables that the write found: the row that it created, or
one that it updated, as it is stored; how many rows it deleted; or what the call that does the write
answers. -/
def Describes (E : DbExec Row) (m : Moment) (before : Tables Row) : WriteOp → WriteOutcome → Prop
  | .create collection data, .created record =>
    ∃ json pairs row, m.jsonColumns collection = .ok json ∧
      plannedRow E.toSqlEngine m collection data = .ok pairs ∧
      Inserted E.toSqlEngine collection pairs before
        (E.performOp m (.create collection data) before) row ∧
      record = E.readRow json row
  | .update collection id data, .updated none =>
    (∀ row ∈ before collection, E.hasId collection id row = false) ∧
      ∀ record, ((E.update m collection id data).perform before).1 ≠ .ok record
  | .update collection id data, .updated (some record) =>
    ∃ json pairs f row, PlannedUpdate E m collection data json pairs ∧
      E.UpdatedById collection id pairs before
        (E.performOp m (.update collection id data) before) f ∧
      row ∈ before collection ∧ E.hasId collection id row = true ∧ record = E.readRow json (f row)
  | .delete collection id, .deleted n =>
    n = (before collection).countP (E.hasId collection id) ∧
      ((E.delete collection id).perform before).1 = if n = 0 then .error .notFound else .ok ()
  | .updateWhere collection filters data, .updatedWhere n =>
    ((E.updateWhereCount m collection filters data).perform before).1 = .ok n
  | .deleteWhere collection filters, .deletedWhere n =>
    ((E.deleteWhereCount m collection filters).perform before).1 = .ok n
  | .upsert collection spec, .upserted n =>
    ∃ stored, ((E.upsert m collection spec).perform before).1 = .ok stored ∧
      n = if stored.isSome then 1 else 0
  | _, _ => False

section

variable {tables' : Tables Row} {kind : Planned} {st : SqlStatement} {r : TxAnswer}

theorem exec_of_stepTx_execute (h : E.stepTx (.execute st) tables = .ok (r, tables')) :
    E.exec st tables = .ok tables' ∧ r = .execute (E.affected st tables) := by
  obtain ⟨t, hexec, heq⟩ := map_eq_ok.mp h
  obtain ⟨rfl, rfl⟩ := Prod.mk.inj heq
  exact ⟨hexec, rfl⟩

theorem exec_of_stepTx_returning {json : List String}
    (h : E.stepTx (.returning st json) tables = .ok (r, tables')) :
    E.exec st tables = .ok tables' ∧ r = .returning ((E.returned st tables).map (E.readRow json)) := by
  obtain ⟨t, hexec, heq⟩ := map_eq_ok.mp h
  obtain ⟨rfl, rfl⟩ := Prod.mk.inj heq
  exact ⟨hexec, rfl⟩

theorem exec_of_stepTx (h : E.stepTx (txOp st kind) tables = .ok (r, tables')) :
    E.exec st tables = .ok tables' := by
  rcases kind with json | json | - | - | - | -
  · exact (exec_of_stepTx_returning h).1
  · exact (exec_of_stepTx_returning h).1
  · exact (exec_of_stepTx_execute h).1
  · exact (exec_of_stepTx_execute h).1
  · exact (exec_of_stepTx_execute h).1
  · exact (exec_of_stepTx_execute h).1

theorem performOp_of_exec {op : WriteOp} (hplan : E.planOp m op = .ok (kind, st))
    (h : E.exec st tables = .ok tables') : E.performOp m op tables = tables' := by
  rw [performOp_eq_leavesPlanned, hplan, leavesPlanned, leaves, h]

/-- **Step lemma.** The answer of a statement is read back as an outcome that describes the write it
was planned for. -/
theorem exists_describes_of_stepTx (hE : E.Lawful) {op : WriteOp}
    (hplan : E.planOp m op = .ok (kind, st))
    (h : E.stepTx (txOp st kind) tables = .ok (r, tables')) :
    ∃ w, E.decode kind r = .ok w ∧ Describes E m tables op w := by
  have hperform := performOp_of_exec hplan (exec_of_stepTx h)
  rcases op with ⟨c, data⟩ | ⟨c, id, data⟩ | ⟨c, id⟩ | ⟨c, filters, data⟩ | ⟨c, filters⟩ | ⟨c, spec⟩
  · obtain ⟨json, pairs, hjson, hpairs, rfl, rfl⟩ := planOp_create hplan
    obtain ⟨hexec, rfl⟩ := exec_of_stepTx_returning h
    obtain ⟨row, hinserted, hreturned, -⟩ := hE.insert _ _ _ _ hexec
    rw [hreturned]
    refine ⟨_, rfl, json, pairs, row, hjson, hpairs, ?_, rfl⟩
    rwa [hperform]
  · obtain ⟨json, pairs, hplanned, rfl, rfl⟩ := planOp_update hplan
    obtain ⟨hexec, rfl⟩ := exec_of_stepTx_returning h
    obtain ⟨f, hupdated⟩ := hE.update _ _ _ _ _ hexec
    refine ⟨_, rfl, ?_⟩
    rw [List.head?_map]
    rcases hhead : (E.returned (.updateById c id pairs) tables).head? with - | stored
    · -- no row is returned, so none had the id
      have hnone : ∀ row ∈ tables c, E.hasId c id row = false := by
        have hnil := List.head?_eq_none_iff.mp hhead
        have hlength := hupdated.returned.length_eq
        rw [hnil, length_map, length_nil, eq_comm, length_eq_zero_iff] at hlength
        simpa using hlength
      refine ⟨hnone, fun record hrecord ↦ ?_⟩
      rw [perform_update_of_exec hplanned hexec] at hrecord
      have haffected : E.affected (.updateById c id pairs) tables = 0 := by
        rw [hupdated.affected, countP_eq_zero.mpr fun row hrow ↦ by rw [hnone row hrow]; simp]
        rfl
      split at hrecord
      · exact absurd hrecord nofun
      · rw [if_pos haffected] at hrecord
        exact absurd hrecord nofun
    · have hmem := hupdated.returned.subset (List.mem_of_head? hhead)
      obtain ⟨row, hrow, rfl⟩ := mem_map.mp hmem
      obtain ⟨hrow, hid⟩ := mem_filter.mp hrow
      refine ⟨json, pairs, f, row, hplanned, ?_, hrow, hid, rfl⟩
      rwa [hperform]
  · obtain ⟨htable, rfl, rfl⟩ := planOp_delete hplan
    obtain ⟨hexec, rfl⟩ := exec_of_stepTx_execute h
    refine ⟨_, rfl, hE.delete _ _ _ _ hexec, ?_⟩
    rw [perform_delete_of_exec htable hexec]
  · obtain ⟨hrequired, json, pairs, hplanned, rfl, rfl⟩ := planOp_updateWhere hplan
    obtain ⟨hexec, rfl⟩ := exec_of_stepTx_execute h
    refine ⟨_, rfl, ?_⟩
    rw [Describes, perform_updateWhereCount hplanned hrequired hexec]
  · obtain ⟨htable, hrequired, rfl, rfl⟩ := planOp_deleteWhere hplan
    obtain ⟨hexec, rfl⟩ := exec_of_stepTx_execute h
    refine ⟨_, rfl, ?_⟩
    rw [Describes, perform_deleteWhereCount htable hrequired hexec]
  · obtain ⟨json, htable, hjson, hst, rfl⟩ := planOp_upsert hplan
    obtain ⟨hexec, rfl⟩ := exec_of_stepTx_execute h
    obtain ⟨hone, haffected⟩ := hE.upsert _ _ _ (isUpsert_of_upsertStatement hst) hexec
    refine ⟨_, rfl, _, congrArg Prod.fst (perform_upsert_of_exec htable hjson hst hexec hone), ?_⟩
    rw [haffected]
    match hrows : E.returned st tables with
    | [] => rfl
    | [row] => rfl
    | row :: row' :: rows =>
      rw [hrows] at hone
      simp at hone

end

/-! ## Batches -/

theorem decodeAll_of_forall₂ {ps : List (Planned × SqlStatement)} {rs : List TxAnswer}
    {ws : List WriteOutcome} (hlength : rs.length = ps.length)
    (h : List.Forall₂ (fun (p : (Planned × SqlStatement) × TxAnswer) w ↦
      E.decode p.1.1 p.2 = .ok w) (ps.zip rs) ws) :
    E.decodeAll (ps.map Prod.fst) rs = .ok ws := by
  induction ps generalizing rs ws with
  | nil =>
    rw [zip_nil_left] at h
    rw [forall₂_nil_left_iff.mp h]
    rfl
  | cons p ps ih =>
    obtain ⟨r, rs, rfl⟩ := exists_cons_of_length_eq_add_one hlength
    rw [zip_cons_cons] at h
    obtain ⟨w, ws', hw, hws, rfl⟩ := forall₂_cons_left_iff.mp h
    rw [map_cons, decodeAll]
    exact bind_eq_ok.mpr ⟨w, hw, bind_eq_ok.mpr
      ⟨ws', ih (Nat.succ.inj hlength) hws, rfl⟩⟩

def InOrder (E : DbExec Row) (moment : ℕ → Moment) (ops : List WriteOp) (before : Tables Row)
    (outcomes : List WriteOutcome) (after : Tables Row) : Prop :=
  Statements.Replays (fun (p : WriteOp × ℕ) tables ↦ E.performOp (moment p.2) p.1 tables)
    (fun p tables w ↦ Describes E (moment p.2) tables p.1 w) ops.zipIdx before outcomes after

theorem perform_batch {moment : ℕ → Moment} {ops : List WriteOp}
    {plans : List (Planned × SqlStatement)}
    (hplans : (ops.zipIdx.mapM fun (op, i) ↦ E.planOp (moment i) op) = .ok plans) :
    (E.batch moment ops).perform tables =
      match Statements.runInOrder (fun p ↦ E.stepTx (txOp p.2 p.1)) plans tables with
      | .error e => (.error e, tables)
      | .ok (rs, tables') => (E.decodeAll (plans.map Prod.fst) rs, tables') := by
  have hops : List.zipWith txOp (plans.map Prod.snd) (plans.map Prod.fst) =
      plans.map fun p ↦ txOp p.2 p.1 := by
    rw [zipWith_map, zipWith_self]
  rw [batch, Db.perform_ofExcept_bind_ok hplans]
  dsimp only
  split
  next hempty =>
    rw [List.isEmpty_iff, map_eq_nil_iff] at hempty
    rw [hempty]
    rfl
  next =>
    have hrun : (E.runTransaction (plans.map fun p ↦ txOp p.2 p.1)).perform tables =
        Statements.transact E.stepTx (plans.map fun p ↦ txOp p.2 p.1) tables := rfl
    rw [Db.perform_bind, hops, hrun, Statements.transact, Statements.runInOrder_map]
    rcases h : Statements.runInOrder (fun p ↦ E.stepTx (txOp p.2 p.1)) plans tables with
      e | ⟨rs, tables'⟩
    · simp only [h]
    · simp only [h]
      rw [if_neg (by rw [length_map]; exact fun hne ↦ hne (Statements.length_of_runInOrder h))]
      rfl

theorem batch_inOrder (hE : E.Lawful) (moment : ℕ → Moment) (ops : List WriteOp)
    (before : Tables Row) :
    match (E.batch moment ops).perform before with
    | (.ok outcomes, after) => InOrder E moment ops before outcomes after
    | (.error _, after) => after = before := by
  rcases hplans : (ops.zipIdx.mapM fun (op, i) ↦ E.planOp (moment i) op) with e | plans
  · rw [batch, Db.perform_ofExcept_bind_error hplans]
  · rw [perform_batch hplans]
    rcases hrun : Statements.runInOrder (fun p : Planned × SqlStatement ↦
      E.stepTx (txOp p.2 p.1)) plans before with e | ⟨rs, after⟩
    · rfl
    · have hstep : ∀ (p : WriteOp × ℕ) (plan : Planned × SqlStatement) (s : Tables Row) r s',
          E.planOp (moment p.2) p.1 = .ok plan → E.stepTx (txOp plan.2 plan.1) s = .ok (r, s') →
            E.performOp (moment p.2) p.1 s = s' ∧
              ∃ w, E.decode plan.1 r = .ok w ∧ Describes E (moment p.2) s p.1 w :=
        fun p plan s r s' hplan hstep ↦ ⟨performOp_of_exec hplan (exec_of_stepTx hstep),
          exists_describes_of_stepTx hE hplan hstep⟩
      obtain ⟨ws, hws, hreplays⟩ := Statements.exists_replays_of_runInOrder
        (fun (p : Planned × SqlStatement) r w ↦ E.decode p.1 r = .ok w) hstep
        (forall₂_of_mapM_eq_ok hplans) hrun
      simp only [decodeAll_of_forall₂ (Statements.length_of_runInOrder hrun) hws]
      exact hreplays

/-! ## Several rows -/

/-- The moment a row of several is planned at: its own id and stamps, and the schema as it was read
for all of them. -/
def rowMoment (moment : ℕ → Moment) (i : ℕ) : Moment :=
  { moment 0 with mintedId := (moment i).mintedId, now := (moment i).now }

theorem createdRowIdPolicy_of_createManyIdPolicy {moment : ℕ → Moment} {table : String}
    {rows : List RowData} {policy : Option IdPolicy}
    (h : createManyIdPolicy (moment 0) table rows = .ok policy) (hdata : data ∈ rows) (i : ℕ) :
    createdRowIdPolicy (rowMoment moment i) table data =
      .ok (if "id" ∈ data then none else policy) := by
  rw [createdRowIdPolicy]
  split
  · rfl
  · next hid =>
    have hany : rows.any (fun row ↦ "id" ∉ row) = true :=
      any_eq_true.mpr ⟨data, hdata, by simpa using hid⟩
    rw [createManyIdPolicy, if_pos hany] at h
    exact h

theorem forall₂_planOp_of_planCreateMany {moment : ℕ → Moment} {rows : List RowData}
    {statements : List SqlStatement}
    (h : planCreateMany E.toSqlEngine moment collection rows = .ok statements) :
    List.Forall₂ (fun (p : RowData × ℕ) st ↦ ∃ json, E.planOp (rowMoment moment p.2)
      (.create collection p.1) = .ok (.created json, st)) rows.zipIdx statements := by
  unfold planCreateMany at h
  split at h
  next hempty =>
    rw [List.isEmpty_iff.mp hempty, ← Except.ok.inj h]
    exact .nil
  next =>
    obtain ⟨table, htable, h⟩ := bind_eq_ok.mp h
    obtain ⟨policy, hpolicy, h⟩ := bind_eq_ok.mp h
    obtain ⟨prepared, hprepared, h⟩ := bind_eq_ok.mp h
    obtain ⟨json, hjson, h⟩ := bind_eq_ok.mp h
    refine forall₂_of_mapM_of_mapM hprepared h fun p hp row st hrow hst ↦ ?_
    obtain ⟨pairs, hpairs, hst⟩ := bind_eq_ok.mp hst
    have hid := createdRowIdPolicy_of_createManyIdPolicy hpolicy
      (fst_mem_of_mem_zipIdx hp) p.2
    refine ⟨json, bind_eq_ok.mpr ⟨table, htable, bind_eq_ok.mpr
      ⟨_, hid, bind_eq_ok.mpr ⟨row, hrow, bind_eq_ok.mpr
        ⟨json, hjson, bind_eq_ok.mpr ⟨pairs, hpairs, ?_⟩⟩⟩⟩⟩⟩
    rw [← Except.ok.inj hst]
    rfl

theorem insertedRows_eq {rs : List TxAnswer} {n : ℕ} (hlength : rs.length = n)
    (h : ∀ r ∈ rs, r = .execute 1) (inserted : ℤ) :
    E.insertedRows inserted rs = .ok (inserted + n) := by
  induction rs generalizing inserted n with
  | nil => simp [insertedRows, ← hlength]
  | cons r rs ih =>
    rw [h r mem_cons_self, insertedRows,
      ih rfl (fun r hr ↦ h r (mem_cons_of_mem _ hr)), ← hlength, length_cons]
    exact congrArg Except.ok (by omega)

def RowsInOrder (E : DbExec Row) (moment : ℕ → Moment) (collection : String)
    (rows : List RowData) (before : Tables Row) (inserted : ℤ) (after : Tables Row) : Prop :=
  inserted = rows.length ∧
    rows.zipIdx.foldl (fun tables (p : RowData × ℕ) ↦
      E.performOp (rowMoment moment p.2) (.create collection p.1) tables) before = after

/-- Several rows that are created are created in order; if that fails, none is. -/
theorem createMany_inOrder (hE : E.Lawful) (moment : ℕ → Moment) (collection : String)
    (rows : List RowData) (before : Tables Row) :
    match (E.createMany moment collection rows).perform before with
    | (.ok inserted, after) => E.RowsInOrder moment collection rows before inserted after
    | (.error _, after) => after = before := by
  rw [createMany]
  by_cases hempty : rows.isEmpty
  · rw [if_pos hempty, List.isEmpty_iff.mp hempty]
    exact ⟨rfl, rfl⟩
  · rw [if_neg hempty]
    rcases hplan : planCreateMany E.toSqlEngine moment collection rows with e | statements
    · rw [Db.perform_ofExcept_bind_error rfl]
    · have hrun : (E.runTransaction (statements.map .execute)).perform before =
          Statements.transact E.stepTx (statements.map .execute) before := rfl
      rw [Db.perform_ofExcept_bind_ok rfl, Db.perform_bind, hrun, Statements.transact,
        Statements.runInOrder_map]
      rcases hstatements : Statements.runInOrder (fun st ↦ E.stepTx (.execute st)) statements
        before with e | ⟨rs, after⟩
      · rfl
      · have hplans := forall₂_planOp_of_planCreateMany hplan
        have hstep : ∀ (p : RowData × ℕ) st s r s',
            (∃ json, E.planOp (rowMoment moment p.2) (.create collection p.1) =
              .ok (.created json, st)) → E.stepTx (.execute st) s = .ok (r, s') →
            E.performOp (rowMoment moment p.2) (.create collection p.1) s = s' ∧
              ∃ w : Unit, r = .execute 1 ∧ True := by
          rintro p st s r s' ⟨json, hplan⟩ hst
          obtain ⟨hexec, rfl⟩ := exec_of_stepTx_execute hst
          obtain ⟨_, pairs, -, -, -, rfl⟩ := planOp_create hplan
          obtain ⟨row, -, -, haffected⟩ := hE.insert _ _ _ _ hexec
          exact ⟨performOp_of_exec hplan hexec, (), by rw [haffected], trivial⟩
        obtain ⟨ws, hws, hreplays⟩ := Statements.exists_replays_of_runInOrder
          (fun _ r _ ↦ r = .execute 1) hstep hplans hstatements
        have hlength := Statements.length_of_runInOrder hstatements
        have hrows : rs.length = rows.length := by
          rw [hlength, ← hplans.length_eq, length_zipIdx]
        have hones : ∀ r ∈ rs, r = .execute 1 := by
          intro r hr
          rw [← map_snd_zip hlength.le] at hr
          obtain ⟨p, hp, rfl⟩ := mem_map.mp hr
          have hall : List.Forall₂ (fun (p : SqlStatement × TxAnswer) (_ : Unit) ↦
              p.2 = .execute 1 ∧ True) (statements.zip rs) ws :=
            hws.imp fun _ _ h ↦ ⟨h, trivial⟩
          exact ((forall₂_and_left _ _).mp hall).1 p hp
        have hsum := insertedRows_eq (E := E) hrows hones 0
        simp only [hsum]
        exact ⟨zero_add _, hreplays.foldl_eq⟩

/-- **A batch is its writes in order, all or nothing.** If it succeeds, the tables are those that
the calls which do its writes one at a time would have left, with the ids that the batch minted and
the stamps that it set, and each outcome describes its write in the tables which that write found.
If it fails, the tables are as they were. Several rows that are created are created like that too.
-/
theorem batch_refines_singles (E : DbExec Row) (hE : E.Lawful) (moment : ℕ → Moment)
    (before : Tables Row) :
    (∀ ops : List WriteOp,
      match (E.batch moment ops).perform before with
      | (.ok outcomes, after) => InOrder E moment ops before outcomes after
      | (.error _, after) => after = before) ∧
    ∀ (collection : String) (rows : List RowData),
      match (E.createMany moment collection rows).perform before with
      | (.ok inserted, after) => E.RowsInOrder moment collection rows before inserted after
      | (.error _, after) => after = before :=
  ⟨fun ops ↦ batch_inOrder hE moment ops before,
    fun collection rows ↦ createMany_inOrder hE moment collection rows before⟩

end DbExec

/-! ## A small database -/

namespace Shelf

def newRow (pairs : List (String × Json)) (column : String) : Json :=
  (pairs.lookup column).getD (if column = "id" then .string "row-1" else .null)

def setRow (pairs : List (String × Json)) (row : String → Json) (column : String) : Json :=
  (pairs.lookup column).getD (row column)

def isId (id : String) : Json → Bool
  | .string s => s = id
  | _ => false

def updated (id : String) (pairs : List (String × Json)) (row : String → Json) : String → Json :=
  if isId id (row "id") then setRow pairs row else row

def books : DbExec (String → Json) where
  backend := .sqlite
  toDouble _ := 0
  satisfies _ _ := true
  compare _ _ _ := .eq
  arrange _ rows := rows
  record _ row := ⟨"", [("id", row "id")]⟩
  quote s := "\"" ++ s ++ "\""
  display _ := ""
  cell row column := row column
  stored _ _ v := v
  IsColumn _ _ := True
  References _ _ := False
  assignedId _ _ := .string "row-1"
  exec st tables :=
    match st with
    | .insert table pairs =>
      .ok fun t ↦ if t = table then newRow pairs :: tables t else tables t
    | .updateById table id pairs =>
      .ok fun t ↦ if t = table then (tables t).map (updated id pairs) else tables t
    | .deleteById table id =>
      .ok fun t ↦ if t = table then (tables t).filter (fun row ↦ !isId id (row "id")) else tables t
    | _ => .error (.internal "not supported")
  acknowledge _ := .ok ()
  affected st tables :=
    match st with
    | .insert _ _ => 1
    | .updateById table id _ => (tables table).countP fun row ↦ isId id (row "id")
    | .deleteById table id => (tables table).countP fun row ↦ isId id (row "id")
    | _ => 0
  returned st tables :=
    match st with
    | .insert _ pairs => [newRow pairs]
    | .updateById table id pairs =>
      ((tables table).filter fun row ↦ isId id (row "id")).map (updated id pairs)
    | _ => []
  selectById table id tables := .ok ((tables table).filter fun row ↦ isId id (row "id"))
  readRow _ row := ⟨match row "id" with | .string s => s | _ => "", [("title", row "title")]⟩
  isId _ id v := isId id v
  debugBatch _ := ""
  debugTx _ := ""

theorem lookup_eq_some_of_nodup {pairs : List (String × Json)} (h : (pairs.map Prod.fst).Nodup)
    {p : String × Json} (hp : p ∈ pairs) : pairs.lookup p.1 = some p.2 := by
  induction pairs with
  | nil => exact absurd hp not_mem_nil
  | cons q pairs ih =>
    rw [map_cons, nodup_cons] at h
    rcases mem_cons.mp hp with rfl | hp
    · exact lookup_cons_self
    · have hne : p.1 ≠ q.1 := fun heq ↦ h.1 (heq ▸ mem_map_of_mem hp)
      rw [lookup_cons, beq_false_of_ne hne]
      exact ih h.2 hp

theorem lookup_eq_none {pairs : List (String × Json)} {column : String}
    (h : ∀ p ∈ pairs, p.1 ≠ column) : pairs.lookup column = none := by
  rw [lookup_eq_none_iff]
  exact fun p hp ↦ bne_iff_ne.mpr (h p hp).symm

theorem hasId_books {table : String} {row : String → Json} :
    books.hasId table id row = isId id (row "id") := rfl

theorem books_lawful : books.Lawful where
  insert table pairs before after h := by
    obtain rfl := Except.ok.inj h
    refine ⟨newRow pairs, ⟨?_, ?_, ?_, ?_⟩, rfl, rfl⟩
    · exact (if_pos rfl : (if table = table then _ else _) = _) ▸ List.Perm.refl _
    · exact fun other hother ↦ if_neg hother
    · intro hnodup p hp
      show (pairs.lookup p.1).getD _ = p.2
      rw [lookup_eq_some_of_nodup hnodup hp]
      rfl
    · intro _ hid
      show (pairs.lookup "id").getD _ = _
      rw [lookup_eq_none hid]
      rfl
  update table id pairs before after h := by
    obtain rfl := Except.ok.inj h
    refine ⟨updated id pairs, ?_, ?_, rfl, ?_, ?_, ?_⟩
    · exact (if_pos rfl : (if table = table then _ else _) = _) ▸ List.Perm.refl _
    · exact List.Perm.refl _
    · intro hnodup row _ hid v hv
      show updated id pairs row "id" = v
      rw [updated, if_pos (hasId_books.symm.trans hid), setRow, lookup_eq_some_of_nodup hnodup hv]
      rfl
    · intro row _ hkept
      show updated id pairs row "id" = row "id"
      rw [updated]
      split
      next hid =>
        have hnone := hkept.resolve_left (by rw [hasId_books, hid]; decide)
        rw [setRow, lookup_eq_none hnone]
        rfl
      next => rfl
    · intro hnone
      funext t
      show (if t = table then (before t).map (updated id pairs) else before t) = before t
      split
      next heq =>
        rw [heq]
        refine (map_congr_left fun row hrow ↦ ?_).trans (map_id _)
        rw [updated, if_neg]
        · rfl
        · exact Bool.eq_false_iff.mp (hnone row hrow)
      next => rfl
  delete table id before after _ := rfl
  upsert st before after hst h := by
    cases st <;> first | exact absurd hst id | exact absurd h nofun
  select table id tables rows h := by
    obtain rfl := Except.ok.inj h
    exact List.Perm.refl _
  exec_ne st tables := by
    cases st <;> exact nofun
  select_ne table id tables := nofun

/-- The first book, the second and so on, all planned in one instant. -/
def moment (i : ℕ) : Moment where
  idPolicy _ := .ok .mint
  jsonColumns _ := .ok []
  view _ := .error (.internal "not supported")
  mintedId := "book-" ++ toString i
  now := "2026-01-01T00:00:00+00:00"

/-- A book is added, given a new title and removed, and one that is not there is removed. -/
def ops : List WriteOp :=
  [.create "books" (AList.insert "title" (.string "Emma") ∅),
    .update "books" "book-0" (AList.insert "title" (.string "Persuasion") ∅),
    .delete "books" "book-0", .delete "books" "book-7"]

end Shelf

theorem DbExec.batch_refines_singles_shelf :
    (∃ outcomes after, (Shelf.books.batch Shelf.moment Shelf.ops).perform (fun _ ↦ []) =
      (.ok outcomes, after) ∧ outcomes.length = 4 ∧
        DbExec.InOrder Shelf.books Shelf.moment Shelf.ops (fun _ ↦ []) outcomes after) :=
  ⟨_, _, rfl, rfl, (DbExec.batch_refines_singles Shelf.books Shelf.books_lawful Shelf.moment
    (fun _ ↦ [])).1 Shelf.ops⟩

end WaferRun.Database

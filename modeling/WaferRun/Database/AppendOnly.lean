import WaferRun.Database.WriteExec

/-!
# Callers that may only append

A collection may be opened to a caller for inserts alone: an audit trail that others write to. What
such a caller does to the collection is told step by step (`AppendStep`): rows are added, with the
id and the stamps that the server or the database chose. No other statement of its requests is about
the collection.

There is one way in which a row of the collection can still change or go. A foreign key may say that
it follows a row of another collection, and the caller may be allowed to write that one
(`AppendStep.followed`). A batch that deletes the row of the other collection deletes the rows that
follow it, whoever may write them (`AuditTrail.entry_deleted_with_order`).
-/

open List

namespace WaferRun.Database

variable {Row Rec : Type}

structure ServerFilled (E : SqlEngine Row Rec) (m : Moment) (json : List String)
    (collection : String) (before : Tables Row) (row : Row) : Prop where
  created : E.cell row "created_at" =
    E.stored collection "created_at" (written E json "created_at" (.string m.now))
  updated : E.cell row "updated_at" =
    E.stored collection "updated_at" (written E json "updated_at" (.string m.now))
  id : E.cell row "id" = E.stored collection "id" (written E json "id" (.string m.mintedId)) ∨
    E.cell row "id" = E.assignedId before collection

inductive AppendStep (E : SqlEngine Row Rec) (ctx : RuntimeContext) (moment : ℕ → Moment)
    (collection : String) (before after : Tables Row) : Prop
  | unrelated (hrows : after collection = before collection)
  | inserted (i : ℕ) (json : List String) (row : Row)
      (hrow : ServerFilled E (moment i) json collection before row)
      (hrows : (after collection).Perm (row :: before collection))
  | followed (written : String)
      (hwritten : ctx.checkResourceAccess written .db .write = .ok ())
      (hreferences : Relation.TransGen E.References collection written)
      (hrows : Followed (before collection) (after collection))

section

variable {E : SqlEngine Row Rec} {ctx : RuntimeContext} {moment : ℕ → Moment}
variable {schemaColumns : String → Except DatabaseError (List String)}
variable {collection : String} {before after : Tables Row}

theorem serverFilled_of_inserted {i : ℕ} {json : List String} {data : RowData}
    {pairs : List (String × Json)} {row : Row}
    (hschema : ∀ columns, schemaColumns collection = .ok columns →
      ∀ c ∈ columns, E.IsColumn collection c)
    (hdata : AppendOnlyRow schemaColumns collection data)
    (hpairs : Prepared E (moment i) json data pairs)
    (h : Inserted E collection pairs before after row) :
    ServerFilled E (moment i) json collection before row := by
  have hunowned : ∀ c ∈ serverOwnedColumns, c ∉ data := fun c hc hmem ↦ hdata.unowned c hmem hc
  obtain ⟨columns, hcolumns, howned, hnamed⟩ := hdata.existing
  refine ⟨h.cells hpairs.nodup _ (hpairs.created (hunowned _ (by decide))),
    h.cells hpairs.nodup _ (hpairs.updated (hunowned _ (by decide))), ?_⟩
  rcases hpairs.id (hunowned _ (by decide)) with hid | hid
  · exact .inl (h.cells hpairs.nodup _ hid)
  · -- the row is numbered by the database, so every name must be that of a column
    refine .inr (h.id (fun p hp ↦ hschema columns hcolumns _ ?_) hid)
    exact (hpairs.named p hp).elim (fun h ↦ howned h) (hnamed _)

theorem appendStep_of_inserted {i : ℕ} {json : List String} {table : String} {data : RowData}
    {pairs : List (String × Json)} {row : Row}
    (hschema : ∀ columns, schemaColumns collection = .ok columns →
      ∀ c ∈ columns, E.IsColumn collection c)
    (hcaller : insertsAppendOnly ctx collection = true)
    (hgranted : Granted ctx schemaColumns (.create table data))
    (hpairs : Prepared E (moment i) json data pairs)
    (h : Inserted E table pairs before after row) :
    AppendStep E ctx moment collection before after := by
  by_cases htable : collection = table
  · subst htable
    exact .inserted i json row
      (serverFilled_of_inserted hschema (hgranted.row _ _ rfl hcaller) hpairs h) h.rows
  · exact .unrelated (h.others _ htable)

theorem appendStep_of_plannedBy (hE : E.Lawful)
    (hschema : ∀ columns, schemaColumns collection = .ok columns →
      ∀ c ∈ columns, E.IsColumn collection c)
    (hcaller : insertsAppendOnly ctx collection = true) {ops : List WriteOp}
    (hops : ∀ op ∈ ops, ∃ write, Granted ctx schemaColumns write ∧ op.For write)
    {st : SqlStatement} (hst : PlannedBy E moment ops st) (h : E.exec st before = .ok after) :
    AppendStep E ctx moment collection before after := by
  rcases hst with hread | ⟨i, json, hop, hpairs⟩ | ⟨i, json, hop, hpairs⟩ | ⟨hop, hkind, hchanges⟩
  · exact .unrelated (congrFun (hE.read _ _ _ hread h) _)
  · obtain ⟨write, hgranted, -, hwrite⟩ := hops _ hop
    obtain ⟨row, hrow⟩ := hE.insert _ _ _ _ h
    exact appendStep_of_inserted hschema hcaller (hwrite ▸ hgranted) hpairs hrow
  · obtain ⟨write, hgranted, -, hwrite⟩ := hops _ hop
    rcases hE.insertGuarded _ _ _ _ _ h with rfl | ⟨row, hrow⟩
    · exact .unrelated rfl
    · exact appendStep_of_inserted hschema hcaller (hwrite ▸ hgranted) hpairs hrow
  · rename_i op
    obtain ⟨write, hgranted, hcollection, hwrite⟩ := hops _ hop
    have haccess : write.access = .write := by
      split at hwrite
      · exact absurd rfl (hkind _ _)
      · exact hwrite
    have hwritten := hgranted.access
    rw [haccess, ← hcollection] at hwritten
    -- the caller may not write the collection, so the statement is about another one
    have hne : collection ≠ op.collection := by
      intro heq
      rw [insertsAppendOnly, Bool.not_eq_true', ← Bool.not_eq_true,
        RuntimeContext.resourceAccessAdmitted_eq_true] at hcaller
      exact hcaller (heq ▸ hwritten)
    rcases hE.change _ _ _ _ hchanges h collection hne with hrows | ⟨hreferences, hrows⟩
    · exact .unrelated hrows
    · exact .followed _ hwritten hreferences hrows

theorem steps_of_foldlM {step : Tables Row → Tables Row → Prop} {statements : List SqlStatement}
    (hstep : ∀ st ∈ statements, ∀ before after, E.exec st before = .ok after → step before after)
    (h : statements.foldlM (fun t st ↦ E.exec st t) before = .ok after) :
    Relation.ReflTransGen step before after := by
  induction statements generalizing before with
  | nil => exact Except.ok.inj h ▸ .refl
  | cons st statements ih =>
    rw [foldlM_cons] at h
    obtain ⟨next, hnext, h⟩ := Fallible.bind_eq_ok.mp h
    exact .head (hstep st mem_cons_self _ _ hnext)
      (ih (fun st' hst' ↦ hstep st' (mem_cons_of_mem _ hst')) h)

theorem steps_of_run {call : ServiceCall} {step : Tables Row → Tables Row → Prop}
    (hstep : ∀ st, PlannedBy E moment call.writes st →
      ∀ before after, E.exec st before = .ok after → step before after) (tables : Tables Row) :
    Relation.ReflTransGen step tables (call.run E moment tables).2 := by
  unfold ServiceCall.run
  split
  · exact .refl
  · rename_i statements hplan
    split
    · exact .refl
    · rename_i tables' hrun
      exact steps_of_foldlM (fun st hst ↦ hstep st (plannedBy_of_plan hplan st hst)) hrun

theorem appendSteps_of_respond (hE : E.Lawful)
    (hschema : ∀ columns, schemaColumns collection = .ok columns →
      ∀ c ∈ columns, E.IsColumn collection c)
    (hcaller : insertsAppendOnly ctx collection = true) (request : WriteRequest)
    (tables : Tables Row) :
    Relation.ReflTransGen (AppendStep E ctx moment collection) tables
      (respond E ctx schemaColumns moment request tables).2 := by
  unfold respond
  split
  · exact .refl
  · rename_i call hcall
    refine steps_of_run (fun st hst before after hexec ↦ ?_) tables
    refine appendStep_of_plannedBy hE hschema hcaller (fun op hop ↦ ?_) hst hexec
    obtain ⟨write, hwrite, hfor⟩ := exists_write_of_handle hcall hop
    exact ⟨write, granted_of_handle hcall write hwrite, hfor⟩

theorem exists_inserted_of_steps
    (hfree : ∀ written, Relation.TransGen E.References collection written →
      ctx.checkResourceAccess written .db .write ≠ .ok ())
    (h : Relation.ReflTransGen (AppendStep E ctx moment collection) before after) :
    ∃ rows, (after collection).Perm (rows ++ before collection) ∧
      ∀ row ∈ rows, ∃ i json tables,
        ServerFilled E (moment i) json collection tables row := by
  induction h with
  | refl => exact ⟨[], .refl _, fun _ hrow ↦ absurd hrow not_mem_nil⟩
  | tail _ hstep ih =>
    obtain ⟨rows, hperm, hrows⟩ := ih
    rcases hstep with hsame | ⟨i, json, row, hrow, hadded⟩ | ⟨written, hwritten, href, -⟩
    · exact ⟨rows, hsame ▸ hperm, hrows⟩
    · refine ⟨row :: rows, hadded.trans (hperm.cons row), fun r hr ↦ ?_⟩
      rcases mem_cons.mp hr with rfl | hr
      · exact ⟨i, json, _, hrow⟩
      · exact hrows r hr
    · exact absurd hwritten (hfree written href)

/-! ## Requests that would forge -/

/-- The write would choose what the server fills, in any case of its letters, or change rows. -/
def BatchWrite.Forges (collection : String) : BatchWrite → Prop
  | .create c data => c = collection ∧ ∃ key ∈ data, ∃ owned ∈ serverOwnedColumns,
      Text.eqIgnoreAsciiCase key.toList owned.toList = true
  | write => write.collection = collection

theorem toLower_of_isPlain {c : Char}
    (h : ('a' ≤ c ∧ c ≤ 'z') ∨ ('0' ≤ c ∧ c ≤ '9') ∨ c = '_') : c.toLower = c := by
  unfold Char.toLower
  split
  · rename_i hupper
    obtain ⟨hlow, hhigh⟩ := hupper
    simp only [Char.le_def, ge_iff_le, UInt32.le_iff_toNat_le] at h hlow hhigh
    rcases h with h | h | rfl
    · exact absurd (h.1.trans hhigh) (by decide)
    · exact absurd (hlow.trans h.2) (by decide)
    · exact absurd hhigh (by decide)
  · rfl

theorem asciiLower_of_isPlainIdent {name : String} (h : isPlainIdent name = true) :
    Text.asciiLower name.toList = name.toList := by
  have hall := (of_decide_eq_true h).2.2
  rw [all_eq_true] at hall
  exact (map_congr_left fun c hc ↦ toLower_of_isPlain (of_decide_eq_true (hall c hc))).trans
    (List.map_id' _)

theorem not_granted_of_forges {write : BatchWrite}
    (hcaller : insertsAppendOnly ctx collection = true) (hforges : write.Forges collection) :
    ¬Granted ctx schemaColumns write := by
  intro hgranted
  have hchange : write.collection = collection → write.access = .write → False := by
    rintro rfl haccess
    have hwritten := hgranted.access
    rw [haccess, ← RuntimeContext.resourceAccessAdmitted_eq_true] at hwritten
    rw [insertsAppendOnly, hwritten] at hcaller
    exact absurd hcaller (by decide)
  rcases write with ⟨c, data⟩ | _ | _ | _ | _ | _
  · obtain ⟨rfl, key, hkey, owned, howned, heq⟩ := hforges
    have hrow := hgranted.row _ _ rfl hcaller
    have hplain : ∀ o ∈ serverOwnedColumns, isPlainIdent o = true := by decide
    have hlower : key.toList = owned.toList := by
      rw [← asciiLower_of_isPlainIdent (hrow.plain key hkey),
        ← asciiLower_of_isPlainIdent (hplain owned howned)]
      exact of_decide_eq_true heq
    exact hrow.unowned key hkey (String.toList_injective hlower ▸ howned)
  all_goals exact hchange hforges rfl

end

/-- **A caller that may only append cannot forge.** Whatever writes a request carries, each of its
statements adds one row to a collection that the caller may not write, or leaves it alone; the row
is one that the server and the database have filled. The rows already there stay as they are,
except those that a foreign key of the collection makes follow a row of another collection, one the
caller may write. Where no foreign key does, the request only adds rows. A request that would choose
what the server fills, or change rows of the collection, is refused before a statement is run. -/
theorem append_only_requests (E : SqlEngine Row Rec) (hE : E.Lawful) (ctx : RuntimeContext)
    (schemaColumns : String → Except DatabaseError (List String)) (moment : ℕ → Moment)
    (collection : String)
    (hschema : ∀ columns, schemaColumns collection = .ok columns →
      ∀ c ∈ columns, E.IsColumn collection c)
    (hwrite : ctx.checkResourceAccess collection .db .write ≠ .ok ()) (request : WriteRequest)
    (tables : Tables Row) :
    Relation.ReflTransGen (AppendStep E ctx moment collection) tables
        (respond E ctx schemaColumns moment request tables).2 ∧
      ((∀ written, Relation.TransGen E.References collection written →
          ctx.checkResourceAccess written .db .write ≠ .ok ()) →
        ∃ rows, ((respond E ctx schemaColumns moment request tables).2 collection).Perm
            (rows ++ tables collection) ∧
          ∀ row ∈ rows, ∃ i json tables',
            ServerFilled E (moment i) json collection tables' row) ∧
      ((∃ write ∈ request.writes, write.Forges collection) →
        ∃ e, respond E ctx schemaColumns moment request tables = (.error e, tables)) := by
  have hcaller : insertsAppendOnly ctx collection = true := by
    rw [insertsAppendOnly, Bool.not_eq_true', ← Bool.not_eq_true,
      RuntimeContext.resourceAccessAdmitted_eq_true]
    exact hwrite
  have hsteps : Relation.ReflTransGen (AppendStep E ctx moment collection) tables
      (respond E ctx schemaColumns moment request tables).2 :=
    appendSteps_of_respond hE hschema hcaller request tables
  refine ⟨hsteps, fun hfree ↦ exists_inserted_of_steps hfree hsteps, ?_⟩
  rintro ⟨write, hmem, hforges⟩
  rcases hhandle : handle ctx schemaColumns request with e | call
  · exact ⟨e, by rw [respond, hhandle]⟩
  · exact absurd (granted_of_handle hhandle write hmem) (not_granted_of_forges hcaller hforges)

/-! ## An audit trail of orders -/

/-- A row as it is read: its columns with their values. -/
abbrev StoredRow := List (String × Json)

namespace AuditTrail

def cell (row : StoredRow) (column : String) : Json := (row.lookup column).getD .null

def holds (row : StoredRow) (column text : String) : Bool :=
  match cell row column with
  | .string s => s = text
  | _ => false

def orders : String := "acme__shop__order"

def entries : String := "acme__audit__entry"

def columnsOf (table : String) : List String :=
  serverOwnedColumns ++ if table = entries then ["order_id"] else []

def insertRow (table : String) (pairs : StoredRow) (tables : Tables StoredRow) : Tables StoredRow :=
  fun t ↦ if t = table then (pairs ++ [("id", .string "row-1")]) :: tables t else tables t

/-- Delete a row. The entries about an order go with it: `ON DELETE CASCADE`. -/
def deleteRow (table id : String) (tables : Tables StoredRow) : Tables StoredRow := fun t ↦
  if t = table then (tables t).filter fun row ↦ !holds row "id" id
  else if t = entries ∧ table = orders then (tables t).filter fun row ↦ !holds row "order_id" id
  else tables t

/-- A database with an audit trail that refers to orders. -/
def database : SqlEngine StoredRow Unit where
  backend := .sqlite
  toDouble _ := 0
  satisfies _ _ := true
  compare _ _ _ := .eq
  arrange _ rows := rows
  record _ _ := ()
  quote s := "\"" ++ s ++ "\""
  display _ := ""
  cell
  stored _ _ v := v
  IsColumn table column := column ∈ columnsOf table
  References child parent := child = entries ∧ parent = orders
  assignedId _ _ := .string "row-1"
  exec st tables :=
    match st with
    | .setReadCommitted | .advisoryLock _ | .guardProbe _ _ => .ok tables
    | .insert table pairs => .ok (insertRow table pairs tables)
    | .deleteById table id => .ok (deleteRow table id tables)
    | _ => .error (.internal "not supported")
  acknowledge _ := .ok ()

theorem cell_cons_of_ne {p : String × Json} {column : String} (h : column ≠ p.1)
    (row : StoredRow) : cell (p :: row) column = cell row column := by
  obtain ⟨name, v⟩ := p
  rw [cell, cell, lookup_cons, beq_false_of_ne h]

theorem cell_append_of_nodup {pairs rest : StoredRow} (h : (pairs.map Prod.fst).Nodup)
    {p : String × Json} (hp : p ∈ pairs) : cell (pairs ++ rest) p.1 = p.2 := by
  induction pairs with
  | nil => exact absurd hp not_mem_nil
  | cons q pairs ih =>
    rw [map_cons, nodup_cons] at h
    rcases mem_cons.mp hp with rfl | hp
    · obtain ⟨name, v⟩ := p
      rw [cell, cons_append, lookup_cons_self]
      rfl
    · have hne : p.1 ≠ q.1 := fun heq ↦ h.1 (heq ▸ mem_map_of_mem hp)
      rw [cons_append, cell_cons_of_ne hne, ih h.2 hp]

theorem cell_id_of_forall_ne {pairs : StoredRow} (h : ∀ p ∈ pairs, p.1 ≠ "id") :
    cell (pairs ++ [("id", .string "row-1")]) "id" = .string "row-1" := by
  induction pairs with
  | nil => rfl
  | cons q pairs ih =>
    rw [cons_append, cell_cons_of_ne (h q mem_cons_self).symm,
      ih fun p hp ↦ h p (mem_cons_of_mem _ hp)]

theorem inserted_insertRow (table : String) (pairs : StoredRow) (tables : Tables StoredRow) :
    Inserted database table pairs tables (insertRow table pairs tables)
      (pairs ++ [("id", .string "row-1")]) where
  rows := by rw [insertRow, if_pos rfl]
  others other hne := if_neg hne
  cells hnodup p hp := cell_append_of_nodup hnodup hp
  id _ h := cell_id_of_forall_ne h

theorem database_lawful : database.Lawful where
  read st before after hst h := by
    cases st with
    | setReadCommitted | advisoryLock | guardProbe => exact (Except.ok.inj h).symm
    | _ => exact hst.elim
  insert table pairs before after h :=
    ⟨_, Except.ok.inj h ▸ inserted_insertRow table pairs before⟩
  insertGuarded _ _ _ _ _ h := absurd h nofun
  change st table before after hst h other hne := by
    cases st with
    | deleteById t id =>
      obtain rfl := Option.some.inj hst
      rw [← Except.ok.inj h, deleteRow, if_neg hne]
      split
      · rename_i hfollows
        exact .inr ⟨.single hfollows, Option.guard fun row ↦ !holds row "order_id" id,
          by rw [filterMap_eq_filter]⟩
      · exact .inl rfl
    | setReadCommitted | advisoryLock | guardProbe | insert => exact absurd hst nofun
    | _ => exact absurd h nofun

/-- The shop, which owns the orders and may append to the audit trail. -/
def shop : RuntimeContext where
  host := ⟨.ascii, fun _ ↦ none, fun s ↦ "\"" ++ s ++ "\""⟩
  parseUrl _ := none
  callerId := some "acme/shop"
  capabilities _ := none
  wrapGrants := [⟨"acme/shop", entries, .append, some .db⟩]
  wrapAdminBlock := "acme/admin"

def schemaColumns (table : String) : Except DatabaseError (List String) := .ok (columnsOf table)

def moment (_ : ℕ) : Moment where
  idPolicy _ := .ok .database
  jsonColumns _ := .ok []
  view table := .ok ⟨columnsOf table, false, columnsOf table, ["id"]⟩
  mintedId := "0199-0001"
  now := "2026-09-24T10:00:00+00:00"

def stored : Tables StoredRow := fun table ↦
  if table = orders then [[("id", .string "o1")]]
  else if table = entries then [[("id", .string "e1"), ("order_id", .string "o1")]]
  else []

def answered : Except WaferError Unit × Tables StoredRow :=
  respond database shop schemaColumns moment (.batch [.delete orders "o1"]) stored

/-- The shop may only append to the trail. It deletes an order, and the entry about it is gone. -/
theorem entry_deleted_with_order :
    shop.checkResourceAccess entries .db .append = .ok () ∧
      shop.checkResourceAccess entries .db .write ≠ .ok () ∧ database.Lawful ∧
      stored entries = [[("id", .string "e1"), ("order_id", .string "o1")]] ∧
      answered.1 = .ok () ∧ answered.2 entries = [] :=
  ⟨rfl, nofun, database_lawful, rfl, rfl, rfl⟩

end AuditTrail

theorem append_only_requests_auditTrail :
    Relation.ReflTransGen
        (AppendStep AuditTrail.database AuditTrail.shop AuditTrail.moment AuditTrail.entries)
        AuditTrail.stored
        (respond AuditTrail.database AuditTrail.shop AuditTrail.schemaColumns AuditTrail.moment
          (.batch [.create AuditTrail.entries ∅, .delete AuditTrail.orders "o1"])
          AuditTrail.stored).2 :=
  (append_only_requests AuditTrail.database AuditTrail.database_lawful AuditTrail.shop
    AuditTrail.schemaColumns AuditTrail.moment AuditTrail.entries
    (fun _ h _ hc ↦ show _ ∈ AuditTrail.columnsOf _ from Except.ok.inj h ▸ hc) nofun _ _).1

end WaferRun.Database

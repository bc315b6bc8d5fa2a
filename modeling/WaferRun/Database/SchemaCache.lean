import Mathlib.Algebra.Group.Nat.Defs
import WaferRun.Lib.Text

/-!
# The schema cache

A backend remembers what it has learned about the tables of its database: that a table exists, its
columns, its primary key, and where the id of a new row comes from. A fact is read from the
database in one moment and written to the cache in a later one, so the cache counts the
invalidations: a write-back that was started before the last invalidation is dropped.

The counter is a 64-bit number that wraps around.
-/

namespace WaferRun.Database

open Text

/-! ## What the database says -/

/-- Where the id of a row that is inserted without one comes from. -/
inductive IdPolicy
  | mint
  | database
  | caller
deriving DecidableEq, Repr

def IdPolicy.fromCode : ℤ → Option IdPolicy
  | 0 => some .mint
  | 1 => some .database
  | 2 => some .caller
  | _ => none

inductive IdPolicyProbe
  | table (policy : IdPolicy)
  | noTable
deriving DecidableEq, Repr

def IdPolicyProbe.fromCode (code : ℤ) : Option IdPolicyProbe :=
  if code = 3 then some .noTable else (IdPolicy.fromCode code).map .table

structure ColumnRow where
  name : Option String
  declType : Option String
deriving DecidableEq, Repr

structure TableInfo where
  columns : List ColumnRow
  primaryKey : List (Option String)
  idPolicy : IdPolicy
deriving DecidableEq, Repr

abbrev Schema := String → Option TableInfo

namespace Schema

variable (db : Schema) (table : String)

def tableExists : Bool := (db table).isSome

def listColumns : List ColumnRow := (db table).elim [] TableInfo.columns

def listPrimaryKey : List (Option String) := (db table).elim [] TableInfo.primaryKey

def idPolicyCode : ℤ :=
  match db table with
  | none => 3
  | some info =>
    match info.idPolicy with
    | .mint => 0
    | .database => 1
    | .caller => 2

end Schema

/-! ## Facts -/

def isJsonDeclType (declType : String) : Bool :=
  ["json", "jsonb", "JSON TEXT"].any fun json ↦
    eqIgnoreAsciiCase (trim declType.toList) json.toList

structure TableColumns where
  names : List String
  json : List String
deriving DecidableEq, Repr

def introspectColumns (U : CaseTables) (rows : List ColumnRow) : TableColumns :=
  let named := rows.filterMap fun row ↦
    row.name.map fun name ↦ (String.ofList (U.lower name.toList), row.declType.getD "")
  ⟨named.map Prod.fst, (named.filter fun (_, declType) ↦ isJsonDeclType declType).map Prod.fst⟩

def keyColumns (rows : List (Option String)) : List String := rows.filterMap id

structure TableSchema where
  present : Bool
  columns : Option TableColumns
  primaryKey : Option (List String)
  idPolicy : Option IdPolicy
deriving DecidableEq, Repr

/-- Nothing is known. -/
def TableSchema.unknown : TableSchema := ⟨false, none, none, none⟩

structure SchemaCache where
  generation : ℕ
  tables : String → Option TableSchema

namespace SchemaCache

def new : SchemaCache := ⟨0, fun _ ↦ none⟩

variable (cache : SchemaCache) (table : String)

def entry : TableSchema := (cache.tables table).getD .unknown

def put (entry : TableSchema) : SchemaCache :=
  { cache with tables := fun t ↦ if t = table then some entry else cache.tables t }

def tableKnownPresent : Bool := (cache.tables table).any TableSchema.present

def markTablePresentIfGen (expectedGen : ℕ) : SchemaCache :=
  if cache.generation ≠ expectedGen then cache
  else cache.put table { cache.entry table with present := true }

/-- Record the columns of a table. An empty list may be that of a missing table and is dropped. -/
def setColumnsIfGen (columns : TableColumns) (expectedGen : ℕ) : SchemaCache :=
  if columns.names = [] then cache
  else if cache.generation ≠ expectedGen then cache
  else cache.put table { cache.entry table with present := true, columns := some columns }

/-- Record the primary key of a table. An empty key is only recorded for a table that is known to
exist; otherwise the entry is left as it is, or created empty. -/
def setPrimaryKeyIfGen (key : List String) (expectedGen : ℕ) : SchemaCache :=
  if cache.generation ≠ expectedGen then cache
  else if key ≠ [] then
    cache.put table { cache.entry table with present := true, primaryKey := some key }
  else if (cache.entry table).present then
    cache.put table { cache.entry table with primaryKey := some key }
  else cache.put table (cache.entry table)

def setIdPolicyIfGen (policy : IdPolicy) (expectedGen : ℕ) : SchemaCache :=
  if cache.generation ≠ expectedGen then cache
  else cache.put table { cache.entry table with present := true, idPolicy := some policy }

/-- Forget a table. -/
def invalidate : SchemaCache where
  generation := (cache.generation + 1) % 2 ^ 64
  tables t := if t = table then none else cache.tables t

/-- Forget everything. -/
def clear : SchemaCache where
  generation := (cache.generation + 1) % 2 ^ 64
  tables _ := none

end SchemaCache

/-! ## Coherence -/

/-- Every fact about a table is what the database says about it. -/
structure TableSchema.Coherent (U : CaseTables) (info : Option TableInfo) (entry : TableSchema) :
    Prop where
  present : entry.present = true → info ≠ none
  columns : ∀ columns, entry.columns = some columns →
    ∃ i, info = some i ∧ columns = introspectColumns U i.columns
  primaryKey : ∀ key, entry.primaryKey = some key →
    ∃ i, info = some i ∧ key = keyColumns i.primaryKey
  idPolicy : ∀ policy, entry.idPolicy = some policy → ∃ i, info = some i ∧ policy = i.idPolicy

theorem TableSchema.Coherent.unknown (U : CaseTables) (info : Option TableInfo) :
    TableSchema.unknown.Coherent U info := by
  constructor <;> simp [TableSchema.unknown]

def SchemaCache.CoherentAt (U : CaseTables) (db : Schema) (cache : SchemaCache) (table : String) :
    Prop := (cache.entry table).Coherent U (db table)

namespace SchemaCache

variable {U : CaseTables} {db : Schema} {cache : SchemaCache} {table : String}

@[simp] theorem entry_put_self (e : TableSchema) : (cache.put table e).entry table = e := by
  simp [put, entry]

theorem entry_put_of_ne {t : String} (h : t ≠ table) (e : TableSchema) :
    (cache.put table e).entry t = cache.entry t := by
  simp [put, entry, h]

theorem CoherentAt.congr {db' : Schema} {cache' : SchemaCache} (h : cache.CoherentAt U db table)
    (hdb : db' table = db table) (hentry : cache'.entry table = cache.entry table) :
    cache'.CoherentAt U db' table := by
  rw [CoherentAt, hdb, hentry]
  exact h

structure WritesOnly (table : String) (cache cache' : SchemaCache) : Prop where
  generation : cache'.generation = cache.generation
  other : ∀ t, t ≠ table → cache'.entry t = cache.entry t

theorem WritesOnly.refl (table : String) (cache : SchemaCache) : WritesOnly table cache cache :=
  ⟨rfl, fun _ _ ↦ rfl⟩

theorem writesOnly_put (e : TableSchema) : WritesOnly table cache (cache.put table e) :=
  ⟨rfl, fun _ h ↦ entry_put_of_ne h e⟩

structure WriteBack (U : CaseTables) (db : Schema) (table : String) (gen0 : ℕ) (fact : Prop)
    (cache cache' : SchemaCache) : Prop where
  writesOnly : WritesOnly table cache cache'
  /-- A write-back that was started in an earlier generation changes nothing. -/
  dropped : cache.generation ≠ gen0 → cache' = cache
  /-- A fact that is still true keeps the cache coherent. -/
  coherent : fact → cache.CoherentAt U db table → cache'.CoherentAt U db table

theorem writeBack_refl {gen0 : ℕ} {fact : Prop} : WriteBack U db table gen0 fact cache cache :=
  ⟨.refl _ _, fun _ ↦ rfl, fun _ h ↦ h⟩

theorem writeBack_put {gen0 : ℕ} {fact : Prop} (hgen : ¬cache.generation ≠ gen0) {e : TableSchema}
    (h : fact → cache.CoherentAt U db table → e.Coherent U (db table)) :
    WriteBack U db table gen0 fact cache (cache.put table e) := by
  refine ⟨writesOnly_put e, fun hne ↦ absurd hne hgen, fun hfact hold ↦ ?_⟩
  rw [CoherentAt, entry_put_self]
  exact h hfact hold

theorem writeBack_markTablePresent (gen0 : ℕ) :
    WriteBack U db table gen0 (db table ≠ none) cache (cache.markTablePresentIfGen table gen0) := by
  rw [markTablePresentIfGen]
  split
  · exact writeBack_refl
  · rename_i hgen
    exact writeBack_put hgen fun hfact hold ↦ ⟨fun _ ↦ hfact, hold.columns, hold.primaryKey,
      hold.idPolicy⟩

theorem writeBack_setColumns (columns : TableColumns) (gen0 : ℕ) :
    WriteBack U db table gen0 (columns = introspectColumns U (db.listColumns table)) cache
      (cache.setColumnsIfGen table columns gen0) := by
  rw [setColumnsIfGen]
  split
  · exact writeBack_refl
  · split
    · exact writeBack_refl
    · rename_i hnames hgen
      refine writeBack_put hgen fun hfact hold ↦ ?_
      -- a column list with a name in it is that of a table that exists
      obtain ⟨info, hinfo⟩ : ∃ info, db table = some info := by
        cases hdb : db table with
        | some info => exact ⟨info, rfl⟩
        | none =>
          rw [Schema.listColumns, hdb] at hfact
          exact absurd (congrArg TableColumns.names hfact) hnames
      rw [Schema.listColumns, hinfo] at hfact
      refine ⟨fun _ ↦ by simp [hinfo], fun c hc ↦ ?_, hold.primaryKey, hold.idPolicy⟩
      cases hc
      exact ⟨info, hinfo, hfact⟩

theorem writeBack_setPrimaryKey (key : List String) (gen0 : ℕ) :
    WriteBack U db table gen0 (key = keyColumns (db.listPrimaryKey table)) cache
      (cache.setPrimaryKeyIfGen table key gen0) := by
  rw [setPrimaryKeyIfGen]
  split
  · exact writeBack_refl
  · rename_i hgen
    have hrecord : db table ≠ none → key = keyColumns (db.listPrimaryKey table) →
        ∀ k, some key = some k → ∃ i, db table = some i ∧ k = keyColumns i.primaryKey := by
      intro hne hfact k hk
      cases hk
      obtain ⟨info, hinfo⟩ := Option.ne_none_iff_exists'.mp hne
      rw [Schema.listPrimaryKey, hinfo] at hfact
      exact ⟨info, hinfo, hfact⟩
    split
    · rename_i hkey
      refine writeBack_put hgen fun hfact hold ↦ ?_
      have hne : db table ≠ none := by
        intro hnone
        rw [Schema.listPrimaryKey, hnone] at hfact
        exact hkey hfact
      exact ⟨fun _ ↦ hne, hold.columns, hrecord hne hfact, hold.idPolicy⟩
    · split
      · rename_i hpresent
        refine writeBack_put hgen fun hfact hold ↦ ?_
        exact ⟨hold.present, hold.columns, hrecord (hold.present hpresent) hfact, hold.idPolicy⟩
      · exact writeBack_put hgen fun _ hold ↦ hold

theorem writeBack_setIdPolicy (policy : IdPolicy) (gen0 : ℕ) :
    WriteBack U db table gen0 (∃ i, db table = some i ∧ policy = i.idPolicy) cache
      (cache.setIdPolicyIfGen table policy gen0) := by
  rw [setIdPolicyIfGen]
  split
  · exact writeBack_refl
  · rename_i hgen
    refine writeBack_put hgen fun ⟨info, hinfo, hpolicy⟩ hold ↦ ?_
    refine ⟨fun _ ↦ by simp [hinfo], hold.columns, hold.primaryKey, fun q hq ↦ ?_⟩
    cases hq
    exact ⟨info, hinfo, hpolicy⟩

end SchemaCache

end WaferRun.Database

import WaferRun.Block.Capabilities
import WaferRun.Database.WriteRequest
import WaferRun.Lib.Fallible
import WaferRun.Wrap.CheckAccess

/-!
# The handler of database writes

Who may write what. The handler checks the names of a request, then the caller's access to every
collection the request writes, and only then hands the writes to the executor. An insert needs less
access than any other write, and a caller that holds no more than that is bound by further rules:
it names no column that the server fills, and no column that the table does not have. They are
checked for every row of a request before the first of its writes is run.

A write counts with the access it needs, whatever the shape of the request that carries it:
`WriteRequest.writes` lists the writes of a request, `ServiceCall.writes` those the executor is
handed, and `exists_write_of_handle` says what is known of each of the latter.
-/

open List Fallible

namespace WaferRun

/-! ## The decision about a resource -/

def ResourceType.display : ResourceType → String
  | .db => "db" | .config => "config" | .storage => "storage" | .crypto => "crypto"
  | .network => "network" | .vector => "vector" | .auth => "auth" | .llm => "llm"
  | .image => "image" | .embedding => "embedding"

structure RuntimeContext where
  host : WrapHost
  parseUrl : String → Option NetworkUrl
  callerId : Option String
  /-- The capabilities of a block, unless it is not registered or not bound by any. -/
  capabilities : String → Option BlockCapabilities
  wrapGrants : List ResourceGrant
  wrapAdminBlock : String

namespace RuntimeContext

variable (ctx : RuntimeContext)

def capabilityFor (resource : String) : ResourceType → Option CapabilityRequest
  | .db => some <|
    if resource = rawSqlResource then .rawSql
    else if resource = ddlResource then .ddl
    else if resource = schemaResource then .schema
    else .collection resource
  | .storage => some (.storageFolder resource)
  | .config => some (.configKey resource)
  | .crypto => some .crypto
  | .network => some (.networkUrl resource)
  | .vector => some (.vectorIndex resource)
  | .auth | .llm | .image | .embedding => none

/-- The check of the policy, then that of the caller's capabilities. -/
def authorizeResource (resource : String) (resourceType : ResourceType)
    (access : ResourceAccess) : Except WaferError Unit := do
  checkAccess ctx.host ctx.callerId resource access (some resourceType) ctx.wrapGrants
    ctx.wrapAdminBlock
  match ctx.callerId.bind ctx.capabilities, capabilityFor resource resourceType with
  | some caps, some request =>
    if caps.allows ctx.parseUrl request then return
    else
      throw (.new .permissionDenied ("block capability denies access to " ++
        resourceType.display ++ " '" ++ resource ++ "'"))
  | _, _ => return

def checkResourceAccess : String → ResourceType → ResourceAccess → Except WaferError Unit :=
  ctx.authorizeResource

/-- The same decision, asked without acting on it. -/
def resourceAccessAdmitted (resource : String) (resourceType : ResourceType)
    (access : ResourceAccess) : Bool :=
  match ctx.authorizeResource resource resourceType access with
  | .ok () => true
  | .error _ => false

theorem resourceAccessAdmitted_eq_true {resource : String} {resourceType : ResourceType}
    {access : ResourceAccess} : ctx.resourceAccessAdmitted resource resourceType access = true ↔
      ctx.checkResourceAccess resource resourceType access = .ok () := by
  unfold resourceAccessAdmitted checkResourceAccess
  split <;> simp_all

end RuntimeContext

end WaferRun

namespace WaferRun.Database

/-! ## Requests and the access they need -/

inductive DatabaseOp
  | create | createMany | batch | insertGuarded
deriving DecidableEq, Repr

def DatabaseOp.name : DatabaseOp → String
  | create => "database.create"
  | createMany => "database.create_many"
  | batch => "database.batch"
  | insertGuarded => "database.insert_guarded"

/-- The access an operation needs: on its one collection, or write by write. -/
inductive DatabaseOpAccess
  | on (accesses : List ResourceAccess)
  | perWrite
deriving DecidableEq, Repr

def databaseOpAccess : DatabaseOp → DatabaseOpAccess
  | .create => .on [.append]
  | .createMany => .on [.append]
  | .batch => .perWrite
  | .insertGuarded => .on [.append, .read]

inductive WriteRequest
  | create (collection : String) (data : RowData)
  | createMany (collection : String) (rows : List RowData)
  | batch (ops : List BatchWrite)
  | insertGuarded (collection : String) (data : RowData) (guards : List (CapGuard FilterNode))

def WriteRequest.writes : WriteRequest → List BatchWrite
  | create collection data => [.create collection data]
  | createMany collection rows => rows.map (.create collection)
  | batch ops => ops
  | insertGuarded collection data _ => [.create collection data]

inductive ServiceCall
  | create (collection : String) (data : RowData)
  | createMany (collection : String) (rows : List RowData)
  | batch (ops : List WriteOp)
  | insertGuarded (collection : String) (data : RowData) (guards : List (CapGuard Filter))

def ServiceCall.writes : ServiceCall → List WriteOp
  | create collection data => [.create collection data]
  | createMany collection rows => rows.map (.create collection)
  | batch ops => ops
  | insertGuarded collection data _ => [.create collection data]

/-! ## The handler -/

def noteOnce {α : Type} [DecidableEq α] (l : List α) (a : α) : List α :=
  if a ∈ l then l else l ++ [a]

theorem mem_noteOnce {α : Type} [DecidableEq α] {l : List α} {a b : α} :
    b ∈ noteOnce l a ↔ b ∈ l ∨ b = a := by
  unfold noteOnce
  split
  · exact ⟨.inl, fun h ↦ h.elim id fun hb ↦ hb ▸ ‹a ∈ l›⟩
  · rw [mem_append, mem_singleton]

section

variable (ctx : RuntimeContext) (schemaColumns : String → Except DatabaseError (List String))

abbrev AccessCheck := String × ResourceType × ResourceAccess

def authorizeAll (checks : List AccessCheck) : Except WaferError Unit :=
  checks.forM fun (resource, resourceType, access) ↦
    ctx.checkResourceAccess resource resourceType access

def opChecks (op : DatabaseOp) (resource : String) : Except WaferError (List AccessCheck) := do
  checkName ctx.host.quote resource
  match databaseOpAccess op with
  | .on accesses => return accesses.map fun access ↦ (resource, .db, access)
  | .perWrite =>
    throw (.new .internal ("BUG: DATABASE_OP_ACCESS names no single-resource access for `" ++
      op.name ++ "`"))

def authorizeOp (op : DatabaseOp) (resource : String) : Except WaferError Unit := do
  authorizeAll ctx (← opChecks ctx op resource)

def batchChecks (checks : List AccessCheck) :
    List BatchWrite → Except WaferError (List AccessCheck)
  | [] => .ok checks
  | op :: ops => do
    checkName ctx.host.quote op.collection
    batchChecks (noteOnce checks (op.collection, .db, op.access)) ops

def serverOwnedColumns : List String := ["id", "created_at", "updated_at"]

def insertsAppendOnly (collection : String) : Bool :=
  !ctx.resourceAccessAdmitted collection .db .write

def nameColumns (collection : String) (named : List String) :
    List String → Except WaferError (List String)
  | [] => .ok named
  | key :: keys => do
    checkName ctx.host.quote key
    if key ∈ serverOwnedColumns then
      throw (.new .permissionDenied ("an append-only insert into `" ++ collection ++
        "` cannot set `" ++ key ++ "`; the server assigns it"))
    else nameColumns collection (noteOnce named key) keys

def checkAppendOnlyRows (collection : String) (rows : List RowData) : Except WaferError Unit := do
  let named ← nameColumns ctx collection [] (rows.flatMap AList.keys)
  let existing ← (schemaColumns collection).mapError dbErrorToWafer
  match (serverOwnedColumns ++ named).find? fun c ↦ !existing.contains c with
  | some column =>
    throw (.new .permissionDenied ("`" ++ collection ++ "` has no column `" ++ column ++
      "`, and an append-only insert cannot add one"))
  | none => return

def checkInsert (collection : String) (rows : List RowData) : Except WaferError Unit :=
  if insertsAppendOnly ctx collection then checkAppendOnlyRows ctx schemaColumns collection rows
  else .ok ()

/-- Note the collection of a `create` that the caller may only append to. -/
def noteAppendOnly (collections : List String) : BatchWrite → List String
  | .create collection _ =>
    if insertsAppendOnly ctx collection then noteOnce collections collection else collections
  | _ => collections

def appendOnlyCollections (ops : List BatchWrite) : List String :=
  ops.foldl (noteAppendOnly ctx) []

def createdRows (collection : String) (ops : List BatchWrite) : List RowData :=
  ops.filterMap fun op ↦
    match op with
    | .create c data => if c = collection then some data else none
    | _ => none

def handle : WriteRequest → Except WaferError ServiceCall
  | .create collection data => do
    authorizeOp ctx .create collection
    checkDataNames ctx.host.quote data
    checkInsert ctx schemaColumns collection [data]
    return .create collection data
  | .createMany collection rows => do
    authorizeOp ctx .createMany collection
    rows.forM (checkDataNames ctx.host.quote)
    checkInsert ctx schemaColumns collection rows
    return .createMany collection rows
  | .batch ops => do
    authorizeAll ctx (← batchChecks ctx [] ops)
    (appendOnlyCollections ctx ops).forM fun collection ↦
      checkAppendOnlyRows ctx schemaColumns collection (createdRows collection ops)
    return .batch (← ops.mapM (toWriteOp ctx.host.quote))
  | .insertGuarded collection data guards => do
    authorizeOp ctx .insertGuarded collection
    let guards ← toCapGuards ctx.host.quote guards
    checkDataNames ctx.host.quote data
    checkInsert ctx schemaColumns collection [data]
    return .insertGuarded collection data guards

end

/-! ## What is known of a request that is not refused -/

theorem checkName_eq_ok {quote : String → String} {name : String} :
    checkName quote name = .ok () ↔ isPlainIdent name = true := by
  unfold checkName
  split <;> simp_all

structure AppendOnlyRow (schemaColumns : String → Except DatabaseError (List String))
    (collection : String) (data : RowData) : Prop where
  plain : ∀ key ∈ data, isPlainIdent key = true
  unowned : ∀ key ∈ data, key ∉ serverOwnedColumns
  existing : ∃ columns, schemaColumns collection = .ok columns ∧ serverOwnedColumns ⊆ columns ∧
    ∀ key ∈ data, key ∈ columns

section

variable {ctx : RuntimeContext} {schemaColumns : String → Except DatabaseError (List String)}
variable {collection : String} {named keys columns : List String} {rows : List RowData}

theorem nameColumns_eq_ok (h : nameColumns ctx collection named keys = .ok columns) :
    named ⊆ columns ∧
      ∀ key ∈ keys, isPlainIdent key = true ∧ key ∉ serverOwnedColumns ∧ key ∈ columns := by
  induction keys generalizing named with
  | nil => exact ⟨fun _ hc ↦ Except.ok.inj h ▸ hc, fun _ hk ↦ absurd hk not_mem_nil⟩
  | cons key keys ih =>
    obtain ⟨hname, h⟩ := check_bind_eq_ok.mp h
    split at h
    · exact absurd h nofun
    · rename_i howned
      obtain ⟨hsub, hkeys⟩ := ih h
      refine ⟨fun c hc ↦ hsub (mem_noteOnce.mpr (.inl hc)), fun k hk ↦ ?_⟩
      rcases mem_cons.mp hk with rfl | hk
      · exact ⟨checkName_eq_ok.mp hname, howned, hsub (mem_noteOnce.mpr (.inr rfl))⟩
      · exact hkeys k hk

theorem checkAppendOnlyRows_eq_ok
    (h : checkAppendOnlyRows ctx schemaColumns collection rows = .ok ()) :
    ∀ row ∈ rows, AppendOnlyRow schemaColumns collection row := by
  intro row hrow
  obtain ⟨named, hnamed, h⟩ := bind_eq_ok.mp h
  obtain ⟨existing, hexisting, h⟩ := bind_eq_ok.mp h
  have hall : ∀ key ∈ row,
      isPlainIdent key = true ∧ key ∉ serverOwnedColumns ∧ key ∈ named := fun key hkey ↦
    (nameColumns_eq_ok hnamed).2 key (mem_flatMap.mpr ⟨row, hrow, AList.mem_keys.mpr hkey⟩)
  split at h
  · exact absurd h nofun
  · rename_i hmissing
    have hcontains : ∀ c ∈ serverOwnedColumns ++ named, c ∈ existing := by
      simpa using List.find?_eq_none.mp hmissing
    exact ⟨fun key hkey ↦ (hall key hkey).1, fun key hkey ↦ (hall key hkey).2.1, existing,
      mapError_eq_ok.mp hexisting,
      fun c hc ↦ hcontains c (mem_append_left _ hc),
      fun key hkey ↦ hcontains _ (mem_append_right _ (hall key hkey).2.2)⟩

theorem checkInsert_eq_ok (h : checkInsert ctx schemaColumns collection rows = .ok ())
    (hcaller : insertsAppendOnly ctx collection = true) :
    ∀ row ∈ rows, AppendOnlyRow schemaColumns collection row := by
  rw [checkInsert, if_pos hcaller] at h
  exact checkAppendOnlyRows_eq_ok h

theorem authorizeAll_eq_ok {checks : List AccessCheck} (h : authorizeAll ctx checks = .ok ())
    {resource : String} {resourceType : ResourceType} {access : ResourceAccess}
    (hcheck : (resource, resourceType, access) ∈ checks) :
    ctx.checkResourceAccess resource resourceType access = .ok () :=
  forM_eq_ok.mp h _ hcheck

theorem authorizeOp_eq_ok {op : DatabaseOp} {accesses : List ResourceAccess}
    (hop : databaseOpAccess op = .on accesses) (h : authorizeOp ctx op collection = .ok ())
    {access : ResourceAccess} (haccess : access ∈ accesses) :
    ctx.checkResourceAccess collection .db access = .ok () := by
  obtain ⟨checks, hchecks, h⟩ := bind_eq_ok.mp h
  rw [opChecks, hop] at hchecks
  obtain ⟨-, hchecks⟩ := check_bind_eq_ok.mp hchecks
  rw [← Except.ok.inj hchecks] at h
  exact authorizeAll_eq_ok h (mem_map_of_mem haccess)

theorem batchChecks_eq_ok {checks checks' : List AccessCheck} {ops : List BatchWrite}
    (h : batchChecks ctx checks ops = .ok checks') :
    checks ⊆ checks' ∧ ∀ op ∈ ops, (op.collection, ResourceType.db, op.access) ∈ checks' := by
  induction ops generalizing checks with
  | nil => exact ⟨fun _ hc ↦ Except.ok.inj h ▸ hc, fun _ hop ↦ absurd hop not_mem_nil⟩
  | cons op ops ih =>
    obtain ⟨-, h⟩ := check_bind_eq_ok.mp h
    obtain ⟨hsub, hops⟩ := ih h
    refine ⟨fun c hc ↦ hsub (mem_noteOnce.mpr (.inl hc)), fun op' hop ↦ ?_⟩
    rcases mem_cons.mp hop with rfl | hop
    · exact hsub (mem_noteOnce.mpr (.inr rfl))
    · exact hops op' hop

theorem subset_noteAppendOnly {collections : List String} {op : BatchWrite} :
    collections ⊆ noteAppendOnly ctx collections op := by
  intro c hc
  unfold noteAppendOnly
  split
  · split
    · exact mem_noteOnce.mpr (.inl hc)
    · exact hc
  · exact hc

theorem mem_appendOnlyCollections {ops : List BatchWrite} {data : RowData}
    (hop : BatchWrite.create collection data ∈ ops)
    (hcaller : insertsAppendOnly ctx collection = true) :
    collection ∈ appendOnlyCollections ctx ops := by
  suffices ∀ collections : List String, collection ∈ collections ∨
      BatchWrite.create collection data ∈ ops →
        collection ∈ ops.foldl (noteAppendOnly ctx) collections from this [] (.inr hop)
  clear hop
  intro collections h
  induction ops generalizing collections with
  | nil => exact h.resolve_right not_mem_nil
  | cons op ops ih =>
    refine ih _ ?_
    rcases h with h | h
    · exact .inl (subset_noteAppendOnly h)
    · rcases mem_cons.mp h with rfl | h
      · rw [noteAppendOnly, if_pos hcaller]
        exact .inl (mem_noteOnce.mpr (.inr rfl))
      · exact .inr h

/-- A write the handler lets pass: the caller has the access it needs, and it keeps the rules for
rows if it has no more. -/
structure Granted (ctx : RuntimeContext)
    (schemaColumns : String → Except DatabaseError (List String)) (write : BatchWrite) : Prop where
  access : ctx.checkResourceAccess write.collection .db write.access = .ok ()
  row : ∀ collection data, write = .create collection data →
    insertsAppendOnly ctx collection = true → AppendOnlyRow schemaColumns collection data

theorem granted_create {data : RowData}
    (haccess : ctx.checkResourceAccess collection .db .append = .ok ())
    (hrow : insertsAppendOnly ctx collection = true → AppendOnlyRow schemaColumns collection data) :
    Granted ctx schemaColumns (.create collection data) where
  access := haccess
  row c d heq hcaller := by
    obtain ⟨rfl, rfl⟩ := BatchWrite.create.inj heq
    exact hrow hcaller

theorem granted_of_handle {request : WriteRequest} {call : ServiceCall}
    (h : handle ctx schemaColumns request = .ok call) :
    ∀ write ∈ request.writes, Granted ctx schemaColumns write := by
  intro write hwrite
  rcases request with ⟨c, data⟩ | ⟨c, rows⟩ | ops | ⟨c, data, guards⟩
  · obtain ⟨hauth, h⟩ := check_bind_eq_ok.mp h
    obtain ⟨-, h⟩ := check_bind_eq_ok.mp h
    obtain ⟨hinsert, -⟩ := check_bind_eq_ok.mp h
    rw [mem_singleton.mp hwrite]
    exact granted_create (authorizeOp_eq_ok rfl hauth (mem_singleton_self _))
      fun hcaller ↦ checkInsert_eq_ok hinsert hcaller data (mem_singleton_self _)
  · obtain ⟨hauth, h⟩ := check_bind_eq_ok.mp h
    obtain ⟨-, h⟩ := check_bind_eq_ok.mp h
    obtain ⟨hinsert, -⟩ := check_bind_eq_ok.mp h
    obtain ⟨data, hdata, rfl⟩ := mem_map.mp hwrite
    exact granted_create (authorizeOp_eq_ok rfl hauth (mem_singleton_self _))
      fun hcaller ↦ checkInsert_eq_ok hinsert hcaller data hdata
  · obtain ⟨checks, hchecks, h⟩ := bind_eq_ok.mp h
    obtain ⟨hauth, h⟩ := check_bind_eq_ok.mp h
    obtain ⟨hinserts, -⟩ := check_bind_eq_ok.mp h
    refine ⟨authorizeAll_eq_ok hauth ((batchChecks_eq_ok hchecks).2 write hwrite), ?_⟩
    rintro c data rfl hcaller
    have hrows := forM_eq_ok.mp hinserts c (mem_appendOnlyCollections hwrite hcaller)
    exact checkAppendOnlyRows_eq_ok hrows data (mem_filterMap.mpr ⟨_, hwrite, if_pos rfl⟩)
  · obtain ⟨hauth, h⟩ := check_bind_eq_ok.mp h
    obtain ⟨_, -, h⟩ := bind_eq_ok.mp h
    obtain ⟨-, h⟩ := check_bind_eq_ok.mp h
    obtain ⟨hinsert, -⟩ := check_bind_eq_ok.mp h
    rw [mem_singleton.mp hwrite]
    exact granted_create (authorizeOp_eq_ok rfl hauth mem_cons_self)
      fun hcaller ↦ checkInsert_eq_ok hinsert hcaller data (mem_singleton_self _)

end

/-! ## What the executor is handed -/

def WriteOp.collection : WriteOp → String
  | create collection _ => collection
  | update collection _ _ => collection
  | delete collection _ => collection
  | updateWhere collection _ _ => collection
  | deleteWhere collection _ => collection
  | upsert collection _ => collection

/-- What the executor is handed is the write that was asked for: an insert of the same row, or a
change of the same collection. -/
def WriteOp.For (op : WriteOp) (write : BatchWrite) : Prop :=
  op.collection = write.collection ∧
    match op with
    | .create collection data => write = .create collection data
    | _ => write.access = .write

theorem toWriteOp_for {quote : String → String} {write : BatchWrite} {op : WriteOp}
    (h : toWriteOp quote write = .ok op) : op.For write := by
  rcases write with ⟨c, data⟩ | ⟨c, id, data⟩ | ⟨c, id⟩ | ⟨c, filters, data⟩ | ⟨c, filters⟩ | request
  · obtain ⟨-, h⟩ := check_bind_eq_ok.mp h
    rw [← Except.ok.inj h]
    exact ⟨rfl, rfl⟩
  · obtain ⟨-, h⟩ := check_bind_eq_ok.mp h
    rw [← Except.ok.inj h]
    exact ⟨rfl, rfl⟩
  · rw [← Except.ok.inj h]
    exact ⟨rfl, rfl⟩
  · obtain ⟨-, h⟩ := check_bind_eq_ok.mp h
    obtain ⟨fs, -, h⟩ := bind_eq_ok.mp h
    rw [← Except.ok.inj h]
    exact ⟨rfl, rfl⟩
  · obtain ⟨fs, -, h⟩ := bind_eq_ok.mp h
    rw [← Except.ok.inj h]
    exact ⟨rfl, rfl⟩
  · obtain ⟨⟨c, spec⟩, hspec, h⟩ := bind_eq_ok.mp h
    rw [← Except.ok.inj h]
    obtain ⟨-, hspec⟩ := check_bind_eq_ok.mp hspec
    obtain ⟨-, hspec⟩ := check_bind_eq_ok.mp hspec
    obtain ⟨conflict, -, hspec⟩ := bind_eq_ok.mp hspec
    exact ⟨(congrArg Prod.fst (Except.ok.inj hspec)).symm, rfl⟩

theorem exists_write_of_handle {ctx : RuntimeContext}
    {schemaColumns : String → Except DatabaseError (List String)} {request : WriteRequest}
    {call : ServiceCall} (h : handle ctx schemaColumns request = .ok call) {op : WriteOp}
    (hop : op ∈ call.writes) : ∃ write ∈ request.writes, op.For write := by
  rcases request with ⟨c, data⟩ | ⟨c, rows⟩ | ops | ⟨c, data, guards⟩
  · obtain ⟨-, h⟩ := check_bind_eq_ok.mp h
    obtain ⟨-, h⟩ := check_bind_eq_ok.mp h
    obtain ⟨-, h⟩ := check_bind_eq_ok.mp h
    rw [← Except.ok.inj h] at hop
    rw [mem_singleton.mp hop]
    exact ⟨_, mem_singleton_self _, rfl, rfl⟩
  · obtain ⟨-, h⟩ := check_bind_eq_ok.mp h
    obtain ⟨-, h⟩ := check_bind_eq_ok.mp h
    obtain ⟨-, h⟩ := check_bind_eq_ok.mp h
    rw [← Except.ok.inj h] at hop
    obtain ⟨data, hdata, rfl⟩ := mem_map.mp hop
    exact ⟨_, mem_map_of_mem hdata, rfl, rfl⟩
  · obtain ⟨_, -, h⟩ := bind_eq_ok.mp h
    obtain ⟨-, h⟩ := check_bind_eq_ok.mp h
    obtain ⟨-, h⟩ := check_bind_eq_ok.mp h
    obtain ⟨ops', hops, h⟩ := bind_eq_ok.mp h
    rw [← Except.ok.inj h] at hop
    obtain ⟨write, hwrite, heq⟩ := mem_of_mapM_eq_ok hops hop
    exact ⟨write, hwrite, toWriteOp_for heq⟩
  · obtain ⟨-, h⟩ := check_bind_eq_ok.mp h
    obtain ⟨_, -, h⟩ := bind_eq_ok.mp h
    obtain ⟨-, h⟩ := check_bind_eq_ok.mp h
    obtain ⟨-, h⟩ := check_bind_eq_ok.mp h
    rw [← Except.ok.inj h] at hop
    rw [mem_singleton.mp hop]
    exact ⟨_, mem_singleton_self _, rfl, rfl⟩

end WaferRun.Database

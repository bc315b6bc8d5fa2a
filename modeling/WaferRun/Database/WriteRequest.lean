import WaferRun.Block.HttpResponse
import WaferRun.Database.Pagination
import WaferRun.Database.WindowedCounter
import WaferRun.Wrap.Grants

/-!
# Requests that write to the database

What a caller sends when it asks for rows to be written, and how it is checked and turned into what
the executor is handed. Every name of a request is a plain identifier or the request is refused:
none is rewritten. The filters of a write are a list of comparisons; a tree of filters is bounded in
depth and size before it is found to be no such list.
-/

namespace WaferRun.Database

/-- The columns a write names, with the value for each. -/
abbrev RowData := AList fun _ : String ↦ Json

def maxFilterDepth : ℕ := 16

def maxFilterNodes : ℕ := 256

def maxWriteGuards : ℕ := 16

/-! ## What is sent -/

/-- A comparison as it is sent: with a value, or with a column. -/
structure FilterDef where
  field : String
  operator : String
  value : Json
  column : Option String

inductive FilterNode
  | leaf (f : FilterDef)
  | all (children : List FilterNode)
  | any (children : List FilterNode)

inductive OnConflict
  | setColumns (columns : List String)
  | windowedCounter (countField windowField : String) (now windowCutoff : ℤ)
      (createdFields updatedFields : List String)

structure UpsertRequest where
  collection : String
  data : List (String × Json)
  conflictColumns : List String
  onConflict : OnConflict

inductive BatchWrite
  | create (collection : String) (data : RowData)
  | update (collection id : String) (data : RowData)
  | delete (collection id : String)
  | updateWhere (collection : String) (filters : List FilterNode) (data : RowData)
  | deleteWhere (collection : String) (filters : List FilterNode)
  | upsert (request : UpsertRequest)

namespace BatchWrite

def collection : BatchWrite → String
  | create collection _ => collection
  | update collection _ _ => collection
  | delete collection _ => collection
  | updateWhere collection _ _ => collection
  | deleteWhere collection _ => collection
  | upsert request => request.collection

/-- The access a write needs: a `create` only inserts, all others change rows. -/
def access : BatchWrite → ResourceAccess
  | create _ _ => .append
  | update _ _ _ | delete _ _ | updateWhere _ _ _ | deleteWhere _ _ | upsert _ => .write

end BatchWrite

/-! ## What the executor is handed -/

inductive UpsertConflict
  | setColumns (columns : List String)
  | windowedCounter (countField windowField : String) (now windowCutoff : ℤ)
      (createdFields updatedFields : List String)

structure UpsertSpec where
  data : List (String × Json)
  conflictColumns : List String
  onConflict : UpsertConflict

inductive WriteOp
  | create (collection : String) (data : RowData)
  | update (collection id : String) (data : RowData)
  | delete (collection id : String)
  | updateWhere (collection : String) (filters : List Filter) (data : RowData)
  | deleteWhere (collection : String) (filters : List Filter)
  | upsert (collection : String) (spec : UpsertSpec)

/-! ## Errors -/

namespace DatabaseError

def code : DatabaseError → ErrorCode
  | notFound => .notFound
  | alreadyExists _ => .alreadyExists
  | invalidArgument _ => .invalidArgument
  | unavailable _ | contended _ => .unavailable
  | callBudgetExhausted _ => .resourceExhausted
  | internal _ | other _ => .internal

def detailCode : DatabaseError → Option String
  | unavailable _ => some "database.unavailable"
  | contended _ => some "database.contended"
  | callBudgetExhausted _ => some "database.call_budget_exhausted"
  | notFound | alreadyExists _ | invalidArgument _ | internal _ | other _ => none

/-- Whether the text of an error is passed on: it names a schema object that is there already. -/
def isPreserved (message : String) : Bool :=
  let lower := Text.asciiLower message.toList
  ["duplicate column name", "already exists"].any fun needle ↦
    (Text.splitOnce needle.toList lower).isSome

def answer : DatabaseError → String
  | notFound => "record not found"
  | alreadyExists _ => "a record with this key already exists"
  | invalidArgument message | callBudgetExhausted message => message
  | unavailable _ => "database temporarily unavailable"
  | contended _ => "database busy, retry"
  | internal message => if isPreserved message then message else "internal database error"
  | other message => if isPreserved message then message else "internal database error"

end DatabaseError

def dbErrorToWafer (e : DatabaseError) : WaferError :=
  ⟨e.code, e.answer, (e.detailCode.map fun d ↦ ⟨metaErrorCode, d⟩).toList⟩

def invalid (message : String) : WaferError := .new .invalidArgument message

/-! ## Checks and conversions -/

section

variable (quote : String → String)

def checkName (name : String) : Except WaferError Unit :=
  if isPlainIdent name then .ok ()
  else
    .error (invalid (quote name ++
      " is not a collection or column name (1 to 63 of: lowercase letters, digits and `_`)"))

def checkDataNames (data : RowData) : Except WaferError Unit :=
  data.keys.forM (checkName quote)

def FilterOp.parseWire (op : String) : Except WaferError FilterOp :=
  if op = "eq" ∨ op = "=" ∨ op = "equal" then .ok .equal
  else if op = "neq" ∨ op = "!=" ∨ op = "not_equal" then .ok .notEqual
  else if op = "gt" ∨ op = ">" ∨ op = "greater_than" then .ok .greaterThan
  else if op = "gte" ∨ op = ">=" ∨ op = "greater_equal" then .ok .greaterEqual
  else if op = "lt" ∨ op = "<" ∨ op = "less_than" then .ok .lessThan
  else if op = "lte" ∨ op = "<=" ∨ op = "less_equal" then .ok .lessEqual
  else if op = "like" then .ok .like
  else if op = "contains_ignore_case" then .ok .containsIgnoreCase
  else if op = "starts_with" then .ok .startsWith
  else if op = "in" then .ok .isIn
  else if op = "is_null" then .ok .isNull
  else if op = "is_not_null" then .ok .isNotNull
  else .error (invalid ("unknown filter operator: " ++ quote op))

def ColumnCompareOp.fromFilterOp : FilterOp → Option ColumnCompareOp
  | .equal => some .equal
  | .notEqual => some .notEqual
  | .greaterThan => some .greaterThan
  | .greaterEqual => some .greaterEqual
  | .lessThan => some .lessThan
  | .lessEqual => some .lessEqual
  | .like | .containsIgnoreCase | .startsWith | .isIn | .isNull | .isNotNull => none

def convertLeaf (f : FilterDef) : Except WaferError FilterTree := do
  let operator ← FilterOp.parseWire quote f.operator
  checkName quote f.field
  match f.column with
  | none => return .leaf ⟨f.field, operator, f.value⟩
  | some column =>
    match f.value with
    | .null =>
      match ColumnCompareOp.fromFilterOp operator with
      | none =>
        throw (invalid ("filter operator " ++ quote f.operator ++ " cannot compare two columns"))
      | some operator => do
        checkName quote column
        return .columnCompare ⟨f.field, operator, column⟩
    | _ => throw (invalid "a filter compares its field to either `value` or `column`, not both")

mutual

/-- Convert a node; `count` nodes have been met before it. -/
def convertNode (depth : ℕ) (node : FilterNode) (count : ℕ) :
    Except WaferError (FilterTree × ℕ) :=
  if maxFilterDepth < depth then .error (invalid "filter tree too deep")
  else if maxFilterNodes < count + 1 then .error (invalid "filter tree has too many nodes")
  else
    match node with
    | .leaf f => (convertLeaf quote f).map fun tree ↦ (tree, count + 1)
    | .all children =>
      if children.isEmpty then .error (invalid "filter group must have at least one child")
      else
        (convertNodes (depth + 1) children (count + 1)).map fun (trees, n) ↦ (.all trees, n)
    | .any children =>
      if children.isEmpty then .error (invalid "filter group must have at least one child")
      else
        (convertNodes (depth + 1) children (count + 1)).map fun (trees, n) ↦ (.any trees, n)

def convertNodes (depth : ℕ) (nodes : List FilterNode) (count : ℕ) :
    Except WaferError (List FilterTree × ℕ) :=
  match nodes with
  | [] => .ok ([], count)
  | node :: nodes => do
    let (tree, n) ← convertNode depth node count
    let (trees, n) ← convertNodes depth nodes n
    return (tree :: trees, n)

end

def convertFilterTree (nodes : List FilterNode) : Except WaferError (List FilterTree) :=
  (convertNodes quote 1 nodes 0).map Prod.fst

def flattenLeaves : List FilterTree → Except WaferError (List Filter)
  | [] => .ok []
  | .leaf f :: nodes => (flattenLeaves nodes).map (f :: ·)
  | .columnCompare _ :: _ =>
    .error (invalid "operation does not support column-to-column filters")
  | .all _ :: _ => .error (invalid "operation does not support filter groups")
  | .any _ :: _ => .error (invalid "operation does not support filter groups")

def convertFilters (nodes : List FilterNode) : Except WaferError (List Filter) := do
  flattenLeaves (← convertFilterTree quote nodes)

structure WindowedCounterRow where
  id : String
  conflictColumn : String
  conflictValue : String

def windowedCounterError (message : String) : DatabaseError :=
  .invalidArgument ("windowed-counter upsert " ++ message)

def requiresString (column : String) : DatabaseError :=
  windowedCounterError ("requires a string `" ++ column ++ "` value in data")

def windowedCounterSlots (conflictColumn : String) (id value : Option String) :
    List (String × Json) → Except DatabaseError (Option String × Option String)
  | [] => .ok (id, value)
  | (column, v) :: data =>
    if column = "id" then
      if id.isSome then
        .error (windowedCounterError ("data names `" ++ column ++ "` twice"))
      else
        match v with
        | .string s => windowedCounterSlots conflictColumn (some s) value data
        | _ => .error (requiresString column)
    else if column = conflictColumn then
      if value.isSome then
        .error (windowedCounterError ("data names `" ++ column ++ "` twice"))
      else
        match v with
        | .string s => windowedCounterSlots conflictColumn id (some s) data
        | _ => .error (requiresString column)
    else
      .error (windowedCounterError ("writes only `id` and the conflict column `" ++ conflictColumn ++
        "` from data; `" ++ column ++ "` would not be written"))

def windowedCounterRow (data : List (String × Json)) (conflictColumns : List String) :
    Except DatabaseError WindowedCounterRow := do
  let conflictColumn ← match conflictColumns with
    | [only] =>
      if only ≠ "id" then pure only
      else throw (windowedCounterError ("cannot key the counter by `id`: `id` is the per-call " ++
        "row id, not the counter's key"))
    | _ => throw (windowedCounterError ("requires exactly one conflict column, got " ++
        toString conflictColumns.length))
  let (id, value) ← windowedCounterSlots conflictColumn none none data
  let id ← id.elim (throw (requiresString "id")) pure
  let conflictValue ← value.elim (throw (requiresString conflictColumn)) pure
  return { id, conflictColumn, conflictValue }

def toUpsertConflict (request : UpsertRequest) : Except WaferError UpsertConflict :=
  match request.onConflict with
  | .setColumns columns => do
    columns.forM (checkName quote)
    return .setColumns columns
  | .windowedCounter countField windowField now windowCutoff createdFields updatedFields => do
    checkName quote countField
    checkName quote windowField
    (createdFields ++ updatedFields).forM (checkName quote)
    let _ ← (windowedCounterRow request.data request.conflictColumns).mapError dbErrorToWafer
    return .windowedCounter countField windowField now windowCutoff createdFields updatedFields

def toUpsertSpec (request : UpsertRequest) : Except WaferError (String × UpsertSpec) := do
  (request.data.map Prod.fst).forM (checkName quote)
  request.conflictColumns.forM (checkName quote)
  let onConflict ← toUpsertConflict quote request
  return (request.collection,
    { data := request.data, conflictColumns := request.conflictColumns, onConflict })

def toWriteOp : BatchWrite → Except WaferError WriteOp
  | .create collection data => do
    checkDataNames quote data
    return .create collection data
  | .update collection id data => do
    checkDataNames quote data
    return .update collection id data
  | .delete collection id => return .delete collection id
  | .updateWhere collection filters data => do
    checkDataNames quote data
    return .updateWhere collection (← convertFilters quote filters) data
  | .deleteWhere collection filters => do
    return .deleteWhere collection (← convertFilters quote filters)
  | .upsert request => do
    let (collection, spec) ← toUpsertSpec quote request
    return .upsert collection spec

def toCapGuard : CapGuard FilterNode → Except WaferError (CapGuard Filter)
  | .countBelow filters cap => do return .countBelow (← convertFilters quote filters) cap
  | .sumAtMost field filters add cap => do
    checkName quote field
    return .sumAtMost field (← convertFilters quote filters) add cap

def toCapGuards (guards : List (CapGuard FilterNode)) :
    Except WaferError (List (CapGuard Filter)) :=
  if maxWriteGuards < guards.length then
    .error (invalid (toString guards.length ++ " guards; at most " ++ toString maxWriteGuards ++
      " per call"))
  else guards.mapM (toCapGuard quote)

end

end WaferRun.Database

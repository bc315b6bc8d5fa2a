import WaferRun.Database.Guard
import WaferRun.Database.Ident
import WaferRun.Flow.Plan
import WaferRun.Lib.Paging

/-!
# Row selects

The statements behind a list: a select with filters, an order and a page, and a count with the same
filters. What a database makes of them is left to an engine, which evaluates single predicates,
compares two rows in one column and decides in which order rows come out; of that order it promises
no more than the `ORDER BY` says (`Engine.Lawful`).
-/

namespace WaferRun.Database

/-! ## Filters -/

inductive FilterOp
  | equal | notEqual | greaterThan | greaterEqual | lessThan | lessEqual
  | like | containsIgnoreCase | startsWith | isIn | isNull | isNotNull
deriving DecidableEq, Repr

/-- A comparison of a column with a value. -/
structure Filter where
  field : String
  operator : FilterOp
  value : Json

inductive ColumnCompareOp
  | equal | notEqual | greaterThan | greaterEqual | lessThan | lessEqual
deriving DecidableEq, Repr

structure ColumnFilter where
  field : String
  operator : ColumnCompareOp
  column : String

/-- Comparisons in groups of which all, or any, must hold. -/
inductive FilterTree
  | leaf (f : Filter)
  | columnCompare (f : ColumnFilter)
  | all (children : List FilterTree)
  | any (children : List FilterTree)

structure SortField where
  field : String
  desc : Bool
deriving DecidableEq, Repr

structure ListOptions where
  filters : List Filter
  sort : List SortField
  limit : Option ℕ
  offset : ℤ
  skipCount : Bool
  filterTree : Option (List FilterTree)
  columns : Option (List String)

/-! ## Predicates -/

inductive SeaValue
  | string (s : Option String)
  | bool (b : Bool)
  | bigInt (n : ℤ)
  | double (bits : UInt64)
  | json (v : Json)

/-- Bind a value; a number that is not a 64-bit integer is bound as the float nearest to it. -/
def jsonToSeaValue (toDouble : JsonNumber → UInt64) : Json → SeaValue
  | .null => .string none
  | .bool b => .bool b
  | .number (.posInt n) => if n < 2 ^ 63 then .bigInt n else .double (toDouble (.posInt n))
  | .number (.negInt n) => .bigInt (-n)
  | .number (.float bits) => .double bits
  | .string s => .string (some s)
  | v@(.array _) => .json v
  | v@(.object _) => .json v

/-- A predicate of a `WHERE`. -/
inductive SqlPred
  | isNull (field : String)
  | isNotNull (field : String)
  | isIn (field : String) (values : List SeaValue)
  | compare (op : ColumnCompareOp) (field : String) (value : SeaValue)
  | compareColumns (op : ColumnCompareOp) (field column : String)
  | lowerLikeEscaped (field : String) (pattern : List Char)
  | likeEscaped (field : String) (pattern : List Char)
  | glob (field : String) (pattern : List Char)
  | never

/-- Take the wildcards of `LIKE` literally. -/
def escapeLike (text : List Char) : List Char :=
  text.flatMap fun c ↦ if c = '\\' ∨ c = '%' ∨ c = '_' then ['\\', c] else [c]

/-- Take the wildcards of `GLOB` literally. -/
def escapeGlob (text : List Char) : List Char :=
  text.flatMap fun c ↦ if c = '*' ∨ c = '?' ∨ c = '[' then ['[', c, ']'] else [c]

def leafExpr (toDouble : JsonNumber → UInt64) (filter : Filter) (backend : Backend) : SqlPred :=
  let col := filter.field
  let value := jsonToSeaValue toDouble filter.value
  match filter.operator with
  | .isNull => .isNull col
  | .isNotNull => .isNotNull col
  | .isIn =>
    match filter.value with
    | .array items => .isIn col (items.map (jsonToSeaValue toDouble))
    | _ => .never
  | .equal => .compare .equal col value
  | .notEqual => .compare .notEqual col value
  | .greaterThan => .compare .greaterThan col value
  | .greaterEqual => .compare .greaterEqual col value
  | .lessThan => .compare .lessThan col value
  | .lessEqual => .compare .lessEqual col value
  | .containsIgnoreCase =>
    match filter.value with
    | .string text => .lowerLikeEscaped col ('%' :: escapeLike text.toList ++ ['%'])
    | _ => .never
  | .startsWith =>
    match filter.value with
    | .string text =>
      if '\x00' ∈ text.toList then .never
      else
        match backend with
        | .sqlite => .glob col (escapeGlob text.toList ++ ['*'])
        | .postgres => .likeEscaped col (escapeLike text.toList ++ ['%'])
    | _ => .never
  | .like =>
    match filter.value with
    | .string pattern => .likeEscaped col pattern.toList
    | _ => .never

def columnCompareExpr (filter : ColumnFilter) : SqlPred :=
  .compareColumns filter.operator filter.field filter.column

inductive Cond
  | pred (p : SqlPred)
  | all (conds : List Cond)
  | any (conds : List Cond)

def buildCondition (toDouble : JsonNumber → UInt64) (filters : List Filter) (backend : Backend) :
    Option Cond :=
  if filters.isEmpty then none
  else some (.all (filters.map fun f ↦ .pred (leafExpr toDouble f backend)))

mutual

def nodeToCond (toDouble : JsonNumber → UInt64) (backend : Backend) : FilterTree → Cond
  | .leaf f => .all [.pred (leafExpr toDouble f backend)]
  | .columnCompare f => .all [.pred (columnCompareExpr f)]
  | .all children => .all (nodesToConds toDouble backend children)
  | .any children => .any (nodesToConds toDouble backend children)

def nodesToConds (toDouble : JsonNumber → UInt64) (backend : Backend) : List FilterTree → List Cond
  | [] => []
  | node :: nodes => nodeToCond toDouble backend node :: nodesToConds toDouble backend nodes

end

def buildConditionTree (toDouble : JsonNumber → UInt64) (nodes : List FilterTree)
    (backend : Backend) : Option Cond :=
  if nodes.isEmpty then none else some (.all (nodesToConds toDouble backend nodes))

/-! ## Statements -/

/-- A term of an `ORDER BY`. -/
structure OrderTerm where
  field : String
  desc : Bool
deriving DecidableEq, Repr

structure SelectStatement where
  table : String
  /-- `none` selects every column. -/
  columns : Option (List String)
  conds : List Cond
  order : List OrderTerm
  limit : Option ℕ
  offset : Option ℕ

structure CountStatement where
  table : String
  conds : List Cond

def applyOrder (sort : List SortField) : List OrderTerm := sort.map fun s ↦ ⟨s.field, s.desc⟩

/-- Whether the select for the options has an `ORDER BY`. -/
def ordersRows (opts : ListOptions) : Bool :=
  !opts.sort.isEmpty || opts.limit.isSome || decide (0 < opts.offset)

def applyOrderWithUniqueKey (opts : ListOptions) (uniqueKey : List String) : List OrderTerm :=
  if !ordersRows opts then
    []
  else
    let desc := opts.sort.getLast?.any SortField.desc
    applyOrder opts.sort ++
      (uniqueKey.filter fun col ↦ !opts.sort.any fun s ↦ s.field = col).map fun col ↦ ⟨col, desc⟩

def checkPagination (limit : Option ℕ) (offset : ℤ) : Except SqlBuildError Unit :=
  match limit with
  | some 0 => .error .zeroLimit
  | none => if 0 < offset then .error (.offsetWithoutLimit offset) else .ok ()
  | _ => .ok ()

def applyPagination (limit : Option ℕ) (offset : ℤ) :
    Except SqlBuildError (Option ℕ × Option ℕ) := do
  checkPagination limit offset
  return (limit, if 0 < offset then some offset.toNat else none)

/-- The conditions of a `WHERE`: those of the filters, and an extra one. -/
def conditions (toDouble : JsonNumber → UInt64) (filters : List Filter) (extra : Option Cond)
    (backend : Backend) : List Cond :=
  (buildCondition toDouble filters backend).toList ++ extra.toList

def selectWithProjection (toDouble : JsonNumber → UInt64) (table : String)
    (columns : Option (List String)) (opts : ListOptions) (extraCondition : Option Cond)
    (uniqueKey : List String) (backend : Backend) : Except SqlBuildError SelectStatement := do
  let conds := conditions toDouble opts.filters extraCondition backend
  let order := applyOrderWithUniqueKey opts uniqueKey
  let (limit, offset) ← applyPagination opts.limit opts.offset
  return { table, columns, conds, order, limit, offset }

def buildSelectWithCondition (toDouble : JsonNumber → UInt64) (table : String) (opts : ListOptions)
    (extraCondition : Option Cond) (uniqueKey : List String) (backend : Backend) :
    Except SqlBuildError SelectStatement :=
  selectWithProjection toDouble table none opts extraCondition uniqueKey backend

def buildSelectColumns (toDouble : JsonNumber → UInt64) (table : String) (columns : List String)
    (opts : ListOptions) (extraCondition : Option Cond) (uniqueKey : List String)
    (backend : Backend) : Except SqlBuildError SelectStatement :=
  selectWithProjection toDouble table (some columns) opts extraCondition uniqueKey backend

def buildCountWithCondition (toDouble : JsonNumber → UInt64) (table : String)
    (filters : List Filter) (extraCondition : Option Cond) (backend : Backend) : CountStatement :=
  { table, conds := conditions toDouble filters extraCondition backend }

/-! ## The database -/

/-- What the database decides: whether a row meets a predicate, how two rows compare in a column, in
which order the rows of a select come out, and the record of a row; and how a text is quoted. -/
structure Engine (Row Rec : Type) where
  backend : Backend
  toDouble : JsonNumber → UInt64
  satisfies : SqlPred → Row → Bool
  compare : String → Row → Row → Ordering
  arrange : SelectStatement → List Row → List Row
  record : Option (List String) → Row → Rec
  quote : String → String

variable {Row Rec : Type}

namespace Engine

variable (E : Engine Row Rec)

mutual

def meets (row : Row) : Cond → Bool
  | .pred p => E.satisfies p row
  | .all conds => meetsAll row conds
  | .any conds => meetsAny row conds

def meetsAll (row : Row) : List Cond → Bool
  | [] => true
  | c :: conds => meets row c && meetsAll row conds

def meetsAny (row : Row) : List Cond → Bool
  | [] => false
  | c :: conds => meets row c || meetsAny row conds

end

/-- The rows that meet the conditions of a `WHERE`. -/
def found (conds : List Cond) (rows : List Row) : List Row :=
  rows.filter fun row ↦ conds.all (E.meets row)

/-- The comparison of a term of an `ORDER BY`: descending turns it around. -/
def termOrder (t : OrderTerm) (a b : Row) : Ordering :=
  if t.desc then E.compare t.field b a else E.compare t.field a b

/-- The comparison of an `ORDER BY`. -/
def rowOrder (order : List OrderTerm) : Row → Row → Ordering :=
  Paging.lexOrder (order.map E.termOrder)

def select (s : SelectStatement) (rows : List Row) : List Row :=
  let arranged := (E.arrange s (E.found s.conds rows)).drop (s.offset.getD 0)
  match s.limit with
  | some n => arranged.take n
  | none => arranged

def count (s : CountStatement) (rows : List Row) : ℤ := (E.found s.conds rows).length

/-- What is promised of an order: comparing in a column orders, and rows come out sorted by the
`ORDER BY`, with ties anywhere. -/
structure Lawful : Prop where
  compare : ∀ column, Std.TransCmp (E.compare column)
  perm : ∀ s rows, (E.arrange s rows).Perm rows
  sorted : ∀ s rows, (E.arrange s rows).Pairwise fun a b ↦ (E.rowOrder s.order a b).isLE

end Engine

end WaferRun.Database

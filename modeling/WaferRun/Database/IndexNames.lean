import WaferRun.Database.Guard
import WaferRun.Database.Ident
import WaferRun.Lib.Joined

/-!
# Names of indexes

An index without a name gets one from its table and columns, joined with underscores. It is created
only if no index of its name exists.

An underscore may also stand in the name of a table or a column, so the name of an index does not
say where the table ends and where a column does. It says what the pieces between underscores are.
PostgreSQL keeps 63 characters of a name, which leaves 59 for the pieces, and a declared name is
held to that length while a joined one is not. Two declarations are taken for one exactly if their
pieces agree as far as that reaches (`indexName_distinct_iff`), and then the index of the second is
not created.
-/

open List

namespace WaferRun.Database

open JoinedTexts

/-! ## Statements -/

structure Index where
  name : String
  columns : List String
  unique : Bool

/-- A column of a table, and whether it refers to another table. -/
structure KeyColumn where
  name : String
  references : Bool

structure IndexStatement where
  sql : String
  table : String

def quoteIdent (name : String) : Except SqlBuildError String :=
  (validateIdent name).map fun name ↦ "\"" ++ name ++ "\""

def indexName (tableName : String) (idx : Index) : Except SqlBuildError String := do
  if idx.name = "" then
    let tableName ← validateIdent tableName
    let columns ← idx.columns.mapM validateIdent
    return columns.foldl (fun name col ↦ name ++ "_" ++ col) ("idx_" ++ tableName)
  else
    validateIdent idx.name

def buildCreateIndex (tableName : String) (idx : Index) : Except SqlBuildError IndexStatement := do
  let name ← indexName tableName idx
  let table ← quoteIdent tableName
  let columns ← idx.columns.mapM quoteIdent
  return ⟨"CREATE " ++ (if idx.unique then "UNIQUE " else "") ++ "INDEX IF NOT EXISTS " ++ name ++
    " ON " ++ table ++ "(" ++ ", ".intercalate columns ++ ")", tableName⟩

def buildFkIndexes (tableName : String) (columns : List KeyColumn) :
    Except SqlBuildError (List IndexStatement) :=
  (columns.filter KeyColumn.references).mapM fun col ↦
    buildCreateIndex tableName ⟨"", [col.name], false⟩

def keptName : Backend → String → String
  | .sqlite, name => name
  | .postgres, name => String.ofList (name.toList.take maxIdentLen)

structure IndexDecl where
  table : String
  columns : List String
deriving DecidableEq

/-- The indexes of a database, with the names it keeps of them. -/
abbrev IndexCatalog := List (String × IndexDecl)

def IndexCatalog.create (backend : Backend) (catalog : IndexCatalog) (name : String)
    (d : IndexDecl) : IndexCatalog :=
  if keptName backend name ∈ catalog.map Prod.fst then catalog
  else (keptName backend name, d) :: catalog

namespace IndexDecl

def Valid (d : IndexDecl) : Prop := isPlainIdent d.table ∧ ∀ c ∈ d.columns, isPlainIdent c

instance (d : IndexDecl) : Decidable d.Valid := inferInstanceAs (Decidable (_ ∧ _))

def texts (d : IndexDecl) : List (List Char) := d.table.toList :: d.columns.map String.toList

end IndexDecl

/-! ## Names -/

end WaferRun.Database

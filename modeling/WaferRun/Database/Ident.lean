import WaferRun.Runtime.BlockName

/-!
# Identifiers and refusals of the statement builders

A table or column name goes into a statement as it is or not at all.
-/

namespace WaferRun

inductive SqlBuildError
  | invalidIdentifier (value : String)
  | invalidDefault (reason : String)
  | duplicateColumn (column : String)
  | zeroLimit
  | offsetWithoutLimit (offset : ℤ)
deriving DecidableEq

/-- The text of a refusal; `quote` is how a quoted text is printed. -/
def SqlBuildError.display (quote : String → String) : SqlBuildError → String
  | invalidIdentifier value => "identifier " ++ quote value ++ " is not a plain identifier " ++
      "(1 to 63 of: lowercase ASCII letters, digits, underscore)"
  | invalidDefault reason => "invalid column default: " ++ reason
  | duplicateColumn column =>
    "column " ++ quote column ++ " is named for more than one role in the statement"
  | zeroLimit => "limit must be at least 1; omit it to return every row"
  | offsetWithoutLimit offset => "offset " ++ toString offset ++ " needs a limit"

/-- Whether a name can stand in a statement as it is. -/
def isPlainIdent (name : String) : Bool :=
  let chars := name.toList
  chars ≠ [] ∧ chars.length ≤ maxIdentLen ∧
    chars.all fun c ↦ ('a' ≤ c ∧ c ≤ 'z') ∨ ('0' ≤ c ∧ c ≤ '9') ∨ c = '_'

def validateIdent (name : String) : Except SqlBuildError String :=
  if isPlainIdent name then .ok name else .error (.invalidIdentifier name)

theorem validateIdent_eq_ok {name v : String} (h : validateIdent name = .ok v) : v = name := by
  unfold validateIdent at h
  split at h
  · exact (Except.ok.inj h).symm
  · cases h

end WaferRun

import WaferRun.Block.OpenResponse
import WaferRun.Flow.Overlay

/-!
# Route patterns

A pattern is a path, a path with placeholders for single segments, or a path followed by `/**`, which
stands for everything below it.
-/

namespace WaferRun.Router

def metaReqParamPrefix : String := "req.param."

/-- The pattern before `/**`, if it ends so. -/
def stripRest (pattern : List Char) : Option (List Char) :=
  if "/**".toList <:+ pattern then some (pattern.take (pattern.length - 3)) else none

def isPlaceholder (segment : List Char) : Bool :=
  segment.head? = some '{' && segment.getLast? = some '}'

def matchSegment (segment actual : List Char) : Bool :=
  if isPlaceholder segment then actual ≠ [] else segment = actual

def matchPath (pattern path : List Char) : Bool :=
  if pattern = path then true
  else
    match stripRest pattern with
    | some base => path = base || (base ++ ['/']).isPrefixOf path
    | none =>
      (pattern.splitOn '/').length = (path.splitOn '/').length &&
        ((pattern.splitOn '/').zip (path.splitOn '/')).all fun p ↦ matchSegment p.1 p.2

def extractPathVars (pattern path : List Char) (entries : List MetaEntry) : List MetaEntry :=
  let parts := ((stripRest pattern).getD pattern).splitOn '/'
  (parts.zip (path.splitOn '/')).foldl (fun entries p ↦
    if isPlaceholder p.1 then
      setByKey ⟨metaReqParamPrefix ++ String.ofList p.1.tail.dropLast, String.ofList p.2⟩ entries
    else entries) entries

/-- What is set last is read. -/
theorem metaGet_setByKeys (base top : List MetaEntry) (key : String) :
    metaGet (setByKeys base top) key = (lastValue top key).or (metaGet base key) := by
  rw [metaGet, ← List.head?_filter, filter_key_setByKeys, lastValue, metaGet, ← List.head?_filter]
  cases (top.filter fun e ↦ e.key = key).getLast? <;> rfl

end WaferRun.Router

import WaferRun.Discovery.SchemaRef
import WaferRun.Lib.Worklist
import WaferRun.Runtime.ConfigExpand

/-!
# Inlining the references of a schema

`inlineRefs` rewrites a schema into one that stands alone: a reference to a definition is replaced
by the definition, except where the definition lies on a cycle of references. Such a definition is
kept, once, in a `$defs` table of the output, and the references to it stay.

One walk over the schema does this. It carries the issues it met, the nodes it has emitted, and the
definitions it keeps; a budget of emitted nodes bounds it. The walk calls itself on subschemas and
on the targets of references, so it is written as one layer over the walk one level down
(`resolveNode`), and `resolve` stacks as many layers as it is given.
-/

namespace WaferRun.Discovery

/-! ## Values -/

/-- Put a value under a key of an object: in place if the key is there, else behind the rest. -/
def insertField (key : String) (value : Json) : List (String × Json) → List (String × Json)
  | [] => [(key, value)]
  | (k, v) :: fields =>
    if k = key then (key, value) :: fields else (k, v) :: insertField key value fields

mutual

def countNodes : Json → ℕ
  | .object fields => 1 + countFields fields
  | .array items => 1 + countItems items
  | _ => 1

def countFields : List (String × Json) → ℕ
  | [] => 0
  | (_, value) :: fields => countNodes value + countFields fields

def countItems : List Json → ℕ
  | [] => 0
  | item :: items => countNodes item + countItems items

end

/-! ## Local references -/

/-- A local reference: the root of the schema, or an entry of its `$defs`. -/
inductive LocalRef
  | root
  | definition (name : String)
deriving DecidableEq

/-- What stands before the name in a pointer to a definition. -/
def defsPrefix : List Char := "#/$defs/".toList

def LocalRef.pointer : LocalRef → String
  | .root => "#"
  | .definition name => String.ofList (defsPrefix ++ (encodeRefName name).toList)

def definitionNamed (reference : String) : Option String :=
  if defsPrefix <+: reference.toList then
    decodeRefName (String.ofList (reference.toList.drop defsPrefix.length))
  else none

def readLocalRef (reference : String) : Option LocalRef :=
  if reference = "#" then some .root else (definitionNamed reference).map .definition

/-- The `$ref` of a schema object, where it is a string. -/
def stringRef (fields : List (String × Json)) : Option String :=
  match fields.lookup "$ref" with
  | some (.string reference) => some reference
  | _ => none

mutual

def collectLocalRefs : Json → List LocalRef
  | .object fields => ((stringRef fields).bind readLocalRef).toList ++ collectMemberRefs fields
  | .array items => collectItemRefs items
  | _ => []

/-- The references behind the keywords of a schema object. -/
def collectMemberRefs : List (String × Json) → List LocalRef
  | [] => []
  | (key, value) :: fields =>
    (if key = "$ref" ∨ key = "$defs" then []
      else match keywordValue key, value with
        | .literal, _ => []
        | .subschemaMap, .object members => collectNamedRefs members
        | _, value => collectLocalRefs value) ++ collectMemberRefs fields

/-- The references in the values of a map from names to schemas. -/
def collectNamedRefs : List (String × Json) → List LocalRef
  | [] => []
  | (_, value) :: fields => collectLocalRefs value ++ collectNamedRefs fields

def collectItemRefs : List Json → List LocalRef
  | [] => []
  | item :: items => collectLocalRefs item ++ collectItemRefs items

end

def edges (table : List (String × Json)) (name : String) : List String :=
  match table.lookup name with
  | none => []
  | some body =>
    (collectLocalRefs body).filterMap fun target ↦
      match target with
      | .definition name => if (table.lookup name).isSome then some name else none
      | .root => none

def searchTurns (table : List (String × Json)) (start : String) : ℕ :=
  (edges table start).length +
    ∑ name ∈ (table.map Prod.fst).toFinset, (edges table name).length + 1

/-- The definitions that can reach themselves through references. -/
def definitionsOnACycle : Json → List String
  | .object table =>
    (table.map Prod.fst).filter fun start ↦
      Worklist.worklist (edges table) start (searchTurns table start)
        (edges table start).reverse ∅ = some true
  | _ => []

/-! ## The name of the root -/

/-- The title of a schema, or `Root`. -/
def rootTitle (schema : Json) : String :=
  match schema.get "title" with
  | some (.string title) => if title = "" then "Root" else title
  | _ => "Root"

/-- Append `_` until the table does not have the name. -/
def freeName (defs : Json) : ℕ → String → String
  | 0, name => name
  | n + 1, name => if (defs.get name).isSome then freeName defs n (name.push '_') else name

def tableSize : Json → ℕ
  | .object table => table.length
  | _ => 0

def rootDefinitionName (schema defs : Json) : String :=
  freeName defs (tableSize defs + 1) (rootTitle schema)

/-! ## The walk -/

/-- The ways in which inlining can fail to produce a schema that stands alone. -/
structure RefIssues where
  unresolved : Bool := false
  oversized : Bool := false
deriving DecidableEq

/-- What the walk resolves references against. -/
structure RefTable where
  defs : Json
  cyclic : List String
  rootName : String

structure RefWalk where
  issues : RefIssues := {}
  emitted : ℕ := 0
  kept : List (String × Json) := []
  started : List String := []
  rootRecursive : Bool := false

def maxInlinedNodes : ℕ := 100000

/-- The `{}` that stands where the walk gave up. -/
def unconstrained : Json := .object []

def referenceTo (name : String) : Json :=
  .object [("$ref", .string (LocalRef.definition name).pointer)]

namespace RefWalk

/-- Charge nodes to the budget, and say whether it still holds. -/
def spend (nodes : ℕ) (walk : RefWalk) : Bool × RefWalk :=
  let walk := { walk with emitted := walk.emitted + nodes }
  if walk.emitted > maxInlinedNodes then
    (false, { walk with issues := { walk.issues with oversized := true } })
  else (true, walk)

def setUnresolved (walk : RefWalk) : RefWalk :=
  { walk with issues := { walk.issues with unresolved := true } }

def setRootRecursive (walk : RefWalk) : RefWalk := { walk with rootRecursive := true }

def start (name : String) (walk : RefWalk) : RefWalk :=
  { walk with started := name :: walk.started }

def insertKept (name : String) (body : Json) (walk : RefWalk) : RefWalk :=
  { walk with kept := insertField name body walk.kept }

end RefWalk

/-- One step of the walk: from a value and a state to the rewritten value and the next state. -/
abbrev Resolver := Json → RefWalk → Option (Json × RefWalk)

section Layer

variable (T : RefTable) (rec : Resolver)

/-- Walk the entries of an object one after the other, and put each result under its key. -/
def resolveEach (member : String → Resolver) :
    List (String × Json) → List (String × Json) → RefWalk →
      Option (List (String × Json) × RefWalk)
  | [], out, walk => some (out, walk)
  | (key, value) :: fields, out, walk =>
    match member key value walk with
    | none => none
    | some (resolved, walk) => resolveEach member fields (insertField key resolved out) walk

def resolveItems : List Json → RefWalk → Option (List Json × RefWalk)
  | [], walk => some ([], walk)
  | item :: items, walk =>
    match rec item walk with
    | none => none
    | some (resolved, walk) =>
      match resolveItems items walk with
      | none => none
      | some (out, walk) => some (resolved :: out, walk)

def resolveSchemaMap (node : Json) (walk : RefWalk) : Option (Json × RefWalk) :=
  match node with
  | .object fields =>
    match walk.spend 1 with
    | (false, walk) => some (unconstrained, walk)
    | (true, walk) =>
      (resolveEach (fun _ ↦ rec) fields [] walk).map fun (out, walk) ↦ (.object out, walk)
  | node => rec node walk

def resolveMember (key : String) (value : Json) (walk : RefWalk) : Option (Json × RefWalk) :=
  match keywordValue key with
  | .literal =>
    match walk.spend (countNodes value) with
    | (false, walk) => some (unconstrained, walk)
    | (true, walk) => some (value, walk)
  | .subschemaMap => resolveSchemaMap rec value walk
  | .subschema | .subschemaList | .other => rec value walk

/-- Resolve the body of a cyclic definition into the table, once. -/
def keep (name : String) (body : Json) (walk : RefWalk) : Option RefWalk :=
  if name ∈ walk.started then some walk
  else
    -- the name is marked first, so that the references inside the body do not start it again
    (rec body (walk.start name)).map fun (resolved, walk) ↦ walk.insertKept name resolved

def resolveRefTarget (reference : String) (inlineCyclic : Bool) (walk : RefWalk) :
    Option (Json × RefWalk) :=
  if reference = "#" then some (referenceTo T.rootName, walk.setRootRecursive)
  else
    match definitionNamed reference with
    | none => some (unconstrained, walk.setUnresolved)
    | some name =>
      match T.defs.get name with
      | none => some (unconstrained, walk.setUnresolved)
      | some target =>
        if name ∈ T.cyclic ∧ inlineCyclic = false then
          (keep rec name target walk).map fun walk ↦ (referenceTo name, walk)
        else rec target walk

/-- The keywords beside the `$ref` of a schema object. -/
def siblings (fields : List (String × Json)) : List (String × Json) :=
  fields.filter fun field ↦ field.1 ≠ "$ref" ∧ field.1 ≠ "$defs"

/-- Resolve a schema object that carries a reference, and lay the keywords beside it over what the
reference stands for. -/
def resolveRefNode (reference : String) (fields : List (String × Json)) (inlineCyclic : Bool)
    (walk : RefWalk) : Option (Json × RefWalk) :=
  match resolveRefTarget T rec reference inlineCyclic walk with
  | none => none
  | some (.object out, walk) =>
    (resolveEach (resolveMember rec) (siblings fields) out walk).map fun (out, walk) ↦
      (.object out, walk)
  | some (resolved, walk) => some (resolved, walk)

/-- The members of a schema object apart from the table of definitions. -/
def keywords (fields : List (String × Json)) : List (String × Json) :=
  fields.filter fun field ↦ field.1 ≠ "$defs"

def resolveNode (node : Json) (walk : RefWalk) : Option (Json × RefWalk) :=
  match walk.spend 1 with
  | (false, walk) => some (unconstrained, walk)
  | (true, walk) =>
    match node with
    | .object fields =>
      match stringRef fields with
      | some reference => resolveRefNode T rec reference fields false walk
      | none =>
        (resolveEach (resolveMember rec) (keywords fields) [] walk).map fun (out, walk) ↦
          (.object out, walk)
    | .array items => (resolveItems rec items walk).map fun (out, walk) ↦ (.array out, walk)
    | other => some (other, walk)

def resolveRoot (schema : Json) (walk : RefWalk) : Option (Json × RefWalk) :=
  match schema with
  | .object fields =>
    match stringRef fields with
    | some reference =>
      match walk.spend 1 with
      | (false, walk) => some (unconstrained, walk)
      | (true, walk) => resolveRefNode T rec reference fields true walk
    | none => rec schema walk
  | schema => rec schema walk

end Layer

/-- The walk, with calls nested at most so deep. -/
def resolve (T : RefTable) : ℕ → Resolver
  | 0, _, _ => none
  | n + 1, node, walk => resolveNode T (resolve T n) node walk

def resolveDocument (T : RefTable) (n : ℕ) : Resolver := resolveRoot T (resolve T n)

def definitions (schema : Json) : Json := (schema.get "$defs").getD .null

def refTable (schema : Json) : RefTable where
  defs := definitions schema
  cyclic := definitionsOnACycle (definitions schema)
  rootName := rootDefinitionName schema (definitions schema)

def keptDefinitions (T : RefTable) (resolved : Json) (walk : RefWalk) : List (String × Json) :=
  if walk.rootRecursive then insertField T.rootName (resolved.remove "$defs") walk.kept
  else walk.kept

def attachDefinitions (resolved : Json) (kept : List (String × Json)) (issues : RefIssues) :
    Json × RefIssues :=
  if kept.isEmpty then (resolved, issues)
  else
    match resolved with
    | .object fields => (.object (insertField "$defs" (.object kept) fields), issues)
    | resolved => (resolved, { issues with unresolved := true })

def inlineRefs (n : ℕ) (schema : Json) : Option (Json × RefIssues) :=
  match resolveDocument (refTable schema) n schema {} with
  | none => none
  | some (resolved, walk) =>
    some (attachDefinitions resolved (keptDefinitions (refTable schema) resolved walk) walk.issues)

end WaferRun.Discovery

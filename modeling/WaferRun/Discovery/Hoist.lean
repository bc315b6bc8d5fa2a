import WaferRun.Crypto.CanonicalJson
import WaferRun.Discovery.SchemaGraph
import WaferRun.Lib.Closure

/-!
# Hoisting definitions into components

`hoist` moves the `$defs` of a schema into a table of components that all schemas of a document
share, and points the local references of the schema there. Names are decided first. A definition is
published under the key that its name gives; if that key holds another definition, under the key
with a digest behind it. Two definitions are one if their identities are equal: their bodies
together with the bodies of all that they reach, each under the reference that names it.

A root that is referenced is published like a definition, under its title.
-/

namespace WaferRun.Discovery

/-- The digest and the writer of JSON values. -/
structure HoistTools where
  sha256 : String → List UInt8
  write : Json → String

/-! ## Documents -/

/-- A schema taken apart: its definitions in the order of their names, and the rest. -/
structure Document where
  table : List (String × Json)
  rootBody : Json

def document (schema : Json) : Document where
  table :=
    match schema.get "$defs" with
    | some (.object table) => SortedKeys.sortKeys table
    | _ => []
  rootBody := schema.remove "$defs"

namespace Document

def body (d : Document) : LocalRef → Option Json
  | .root => some d.rootBody
  | .definition name => d.table.lookup name

def resolve (d : Document) (reference : String) : Option Json :=
  (readLocalRef reference).bind d.body

def bodies (d : Document) : List Json := d.rootBody :: d.table.map Prod.snd

def successors (d : Document) (target : LocalRef) : List LocalRef :=
  ((d.body target).map collectLocalRefs).getD []

def turns (d : Document) (start : Json) : ℕ :=
  (collectLocalRefs start).length +
    ∑ t ∈ (collectLocalRefs start ++ d.bodies.flatMap collectLocalRefs).toFinset,
      (d.successors t).length + 1

def reached (d : Document) (start : Json) : List LocalRef :=
  Closure.closure d.successors (d.turns start) (collectLocalRefs start) []

def componentIdentity (d : Document) (start : Json) : Json :=
  .object [("body", start),
    ("reaches", .object ((d.reached start).map fun t ↦ (t.pointer, (d.body t).getD .null)))]

def rootReferenced (d : Document) : Bool :=
  d.bodies.any fun body ↦ decide (LocalRef.root ∈ collectLocalRefs body)

end Document

/-! ## Names -/

/-- `is_component_key_byte`. No byte of a character outside ASCII is one. -/
def isComponentKeyChar (c : Char) : Bool := c.isAlphanum || c = '.' || c = '-' || c = '_'

def hexByte (b : UInt8) : List Char :=
  [Nat.digitChar (b.toNat / 16), Nat.digitChar (b.toNat % 16)]

namespace HoistTools

variable (H : HoistTools)

def shortSha256 (text : String) : String :=
  String.ofList (((H.sha256 text).take 8).flatMap hexByte)

def componentKey (name : String) : String :=
  if name ≠ "" ∧ name.toList.all isComponentKeyChar then name
  else
    String.ofList (name.toList.map fun c ↦ if isComponentKeyChar c then c else '_') ++ "_" ++
      H.shortSha256 name

def canonicalJson (v : Json) : String := H.write v.sortAllObjects

def saltedText (identity : Json) (salt : ℕ) : String :=
  if salt = 0 then H.canonicalJson identity
  else toString salt ++ ":" ++ H.canonicalJson identity

end HoistTools

/-- A definition with the key it will be published under and its identity. -/
structure Pending where
  key : String
  identity : Json
  body : Json

/-- The components: the identity and the rewritten body under each key. -/
structure Components where
  published : List (String × Json)
  bodies : List (String × Json)

def Components.empty : Components := ⟨[], []⟩

def holder (published : List (String × Json)) (pending : List Pending) (key : String) :
    Option Json :=
  (published.lookup key).or ((pending.find? fun p ↦ p.key = key).map Pending.identity)

/-- Go on to the next salted digest while another identity holds the key. There are so many turns;
the salt stands for a `u32`. -/
def freeKey (H : HoistTools) (held : String → Option Json) (identity : Json) (base : String) :
    ℕ → ℕ → String → Option String
  | 0, _, _ => none
  | n + 1, salt, key =>
    if (held key).any fun other ↦ !other.equal identity then
      freeKey H held identity base n (salt + 1)
        (base ++ "_" ++ H.shortSha256 (H.saltedText identity salt))
    else some key

def nameFor (H : HoistTools) (d : Document) (published : List (String × Json))
    (pending : List Pending) (name : String) (body : Json) : Option (String × List Pending) :=
  let identity := d.componentIdentity body
  let base := H.componentKey name
  let turns := published.length + pending.length + 1
  (freeKey H (holder published pending) identity base turns 0 base).map fun key ↦
    (key, pending ++ [⟨key, identity, body⟩])

def nameAll (H : HoistTools) (d : Document) (published : List (String × Json)) :
    List (String × Json) → List Pending → Option (List (String × String) × List Pending)
  | [], pending => some ([], pending)
  | (name, body) :: table, pending => do
    let (key, pending) ← nameFor H d published pending name body
    let (defs, pending) ← nameAll H d published table pending
    some ((name, key) :: defs, pending)

/-- The published names. -/
structure Renames where
  defs : List (String × String)
  root : Option String

/-- The first pass: the names of the definitions, then the name of the root if it is referenced. -/
def decideNames (H : HoistTools) (d : Document) (title : String)
    (published : List (String × Json)) : Option (Renames × List Pending) := do
  let (defs, pending) ← nameAll H d published d.table []
  if d.rootReferenced then
    let (key, pending) ← nameFor H d published pending title d.rootBody
    some (⟨defs, some key⟩, pending)
  else some (⟨defs, none⟩, pending)

/-! ## Rewriting -/

/-- What stands before the key in a pointer to a component. -/
def componentsPrefix : List Char := "#/components/schemas/".toList

def componentRef (key : String) : String :=
  String.ofList (componentsPrefix ++ (encodeRefName key).toList)

def Renames.rewriteRef (renames : Renames) (reference : String) : Option String :=
  if reference = "#" then renames.root.map componentRef
  else
    (definitionNamed reference).map fun name ↦
      componentRef ((renames.defs.lookup name).getD name)

/-- The `$ref` of a schema object, rewritten. -/
def Renames.rewriteRefValue (renames : Renames) : Json → Option String
  | .string reference => renames.rewriteRef reference
  | _ => none

mutual

def rewriteLocalRefs (renames : Renames) : Json → Json
  | .object fields => .object (rewriteMembers renames fields)
  | .array items => .array (rewriteItems renames items)
  | v => v

/-- `rewrite_schema_member` for each member. -/
def rewriteMembers (renames : Renames) : List (String × Json) → List (String × Json)
  | [] => []
  | (key, value) :: fields =>
    (key,
      match if key = "$ref" then renames.rewriteRefValue value else none with
      | some reference => .string reference
      | none =>
        match keywordValue key, value with
        | .literal, value => value
        | .subschemaMap, .object members => .object (rewriteSchemaMap renames members)
        | _, value => rewriteLocalRefs renames value) :: rewriteMembers renames fields

def rewriteSchemaMap (renames : Renames) : List (String × Json) → List (String × Json)
  | [] => []
  | (key, value) :: fields =>
    (key, rewriteLocalRefs renames value) :: rewriteSchemaMap renames fields

def rewriteItems (renames : Renames) : List Json → List Json
  | [] => []
  | item :: items => rewriteLocalRefs renames item :: rewriteItems renames items

end

/-! ## Hoisting -/

/-- One endpoint schema after hoisting: what to embed in the document in its place, and the names
that its references were given. -/
structure Hoisted where
  schema : Json
  renames : Renames

def publish (renames : Renames) : List Pending → Components → Components
  | [], c => c
  | p :: pending, c =>
    publish renames pending
      (if (c.published.lookup p.key).isSome then c
      else
        ⟨c.published ++ [(p.key, p.identity)],
          c.bodies ++ [(p.key, rewriteLocalRefs renames p.body)]⟩)

def hoist (H : HoistTools) (schema : Json) (c : Components) : Option (Hoisted × Components) :=
  let d := document schema
  (decideNames H d (rootTitle schema) c.published).map fun (renames, pending) ↦
    (⟨rewriteLocalRefs renames d.rootBody, renames⟩, publish renames pending c)

/-- Hoist schemas one after the other into one table. -/
def hoistAll (H : HoistTools) : List Json → Components → Option (List Hoisted × Components)
  | [], c => some ([], c)
  | schema :: schemas, c => do
    let (h, c) ← hoist H schema c
    let (hs, c) ← hoistAll H schemas c
    some (h :: hs, c)

def Components.resolve (c : Components) (reference : String) : Option Json :=
  if componentsPrefix <+: reference.toList then
    (decodeRefName (String.ofList (reference.toList.drop componentsPrefix.length))).bind
      fun key ↦ c.bodies.lookup key
  else none

end WaferRun.Discovery

import WaferRun.Discovery.SchemaGraph

/-!
# Scalar parameters

A parameter travels in a URL, so its schema has to say that its values are scalars. The check reads
one keyword: the types if there are any, else the listed values, else the branches of the first
composition, and each of these alone bounds the valid instances (`scalar_of_paramIsScalarValued`).
-/

namespace WaferRun.Discovery

def asString : Json → Option String
  | .string s => some s
  | _ => none

/-- The strings that a `type` keyword names, one or several. -/
def namedStrings : Json → List String
  | .array items => items.filterMap asString
  | v => (asString v).toList

/-- An instance has a type; `integral` are the numbers without a fractional part. -/
def hasType (integral : JsonNumber → Bool) (i : Json) (type : String) : Bool :=
  match i with
  | .null => type = "null"
  | .bool _ => type = "boolean"
  | .number n => type = "number" || (type = "integer" && integral n)
  | .string _ => type = "string"
  | .array _ => type = "array"
  | .object _ => type = "object"

/-- The types whose values are scalars. -/
def scalarTypeNames : List String := ["string", "number", "integer", "boolean", "null"]

/-- A literal value is no array and no object. -/
def scalarLiteral : Json → Bool
  | .array _ | .object _ => false
  | _ => true

/-- The branches of a composition. -/
def branchesUnder (fields : List (String × Json)) (keyword : String) : Option (List Json) :=
  match fields.lookup keyword with
  | some (.array branches) => some branches
  | _ => none

/-- What a schema object says by itself, or the branches that all have to be scalar. -/
def scalarCheck (fields : List (String × Json)) : Bool ⊕ List Json :=
  match fields.lookup "type" with
  | some (.string name) => .inl (scalarTypeNames.contains name)
  | some (.array names) =>
    .inl (!names.isEmpty && names.all fun name ↦ (asString name).any scalarTypeNames.contains)
  | some _ => .inl false
  | none =>
    match branchesUnder fields "enum", fields.lookup "const" with
    | some members, _ => .inl (!members.isEmpty && members.all scalarLiteral)
    | none, some value => .inl (scalarLiteral value)
    | none, none =>
      match ["anyOf", "oneOf", "allOf"].findSome? (branchesUnder fields) with
      | some branches => .inr branches
      | none => .inl false

theorem lookup_of_branchesUnder {fields : List (String × Json)} {keyword : String}
    {branches : List Json} (h : branchesUnder fields keyword = some branches) :
    fields.lookup keyword = some (.array branches) := by
  unfold branchesUnder at h
  split at h
  · rename_i hlookup
    rw [hlookup, Option.some.inj h]
  · cases h

theorem exists_keyword_of_scalarCheck {fields : List (String × Json)} {branches : List Json}
    (h : scalarCheck fields = .inr branches) : ∃ keyword ∈ ["anyOf", "oneOf", "allOf"],
      fields.lookup keyword = some (.array branches) := by
  unfold scalarCheck at h
  split at h
  · cases h
  · cases h
  · cases h
  · split at h
    · cases h
    · cases h
    · split at h
      · rename_i hfind
        obtain ⟨keyword, hmem, hunder⟩ := List.exists_of_findSome?_eq_some hfind
        rw [Sum.inr.inj h] at hunder
        exact ⟨keyword, hmem, lookup_of_branchesUnder hunder⟩
      · cases h

theorem sizeOf_lt_of_scalarCheck {fields : List (String × Json)} {branches : List Json}
    (h : scalarCheck fields = .inr branches) {s : Json} (hs : s ∈ branches) :
    sizeOf s < sizeOf (Json.object fields) := by
  obtain ⟨keyword, -, hlookup⟩ := exists_keyword_of_scalarCheck h
  obtain ⟨i, hi⟩ := List.getElem?_of_mem hs
  have hchild : (Json.object fields).child (.key keyword) = some (.array branches) := hlookup
  have hbranch : (Json.array branches).child (.index i) = some s := hi
  exact (Position.sizeOf_child_lt hbranch).trans (Position.sizeOf_child_lt hchild)

/-- Whether all values of a parameter are scalars, as far as its schema shows. -/
def paramIsScalarValued : Json → Bool
  | .object fields =>
    match _h : scalarCheck fields with
    | .inl b => b
    | .inr branches => !branches.isEmpty && branches.attach.all fun s ↦ paramIsScalarValued s.1
  | _ => false
termination_by s => sizeOf s
decreasing_by exact sizeOf_lt_of_scalarCheck _h s.2

/-- What the keywords say about a valid instance. An instance that is listed is equal to a value that
is written in the schema. -/
structure Keywords (integral : JsonNumber → Bool) (equal valid : Json → Json → Prop) : Prop where
  type : ∀ fields i v, valid (.object fields) i → fields.lookup "type" = some v →
    (namedStrings v).any (hasType integral i) = true
  enum : ∀ fields i members, valid (.object fields) i →
    fields.lookup "enum" = some (.array members) → ∃ v ∈ members, equal v i
  const : ∀ fields i v, valid (.object fields) i → fields.lookup "const" = some v → equal v i
  someBranch : ∀ fields i branches, valid (.object fields) i → ∀ keyword ∈ ["anyOf", "oneOf"],
    fields.lookup keyword = some (.array branches) → ∃ s ∈ branches, valid s i
  allOf : ∀ fields i branches, valid (.object fields) i →
    fields.lookup "allOf" = some (.array branches) → ∀ s ∈ branches, valid s i
  scalar_of_equal : ∀ v i, equal v i → scalarLiteral v = scalarLiteral i

variable {integral : JsonNumber → Bool} {equal valid : Json → Json → Prop}

theorem scalar_of_hasType {i : Json} {type : String} (h : type ∈ scalarTypeNames)
    (hi : hasType integral i type = true) : scalarLiteral i = true := by
  cases i with
  | array items =>
    rw [of_decide_eq_true hi] at h
    exact absurd h (by decide)
  | object fields =>
    rw [of_decide_eq_true hi] at h
    exact absurd h (by decide)
  | _ => rfl

theorem Keywords.scalar_of_type (hK : Keywords integral equal valid)
    {fields : List (String × Json)} {i v : Json} (hi : valid (.object fields) i)
    (hv : fields.lookup "type" = some v) (hnames : ∀ t ∈ namedStrings v, t ∈ scalarTypeNames) :
    scalarLiteral i = true := by
  obtain ⟨t, ht, htype⟩ := List.any_eq_true.mp (hK.type fields i v hi hv)
  exact scalar_of_hasType (hnames t ht) htype

theorem Keywords.scalar_of_inl (hK : Keywords integral equal valid)
    {fields : List (String × Json)} (h : scalarCheck fields = .inl true) {i : Json}
    (hi : valid (.object fields) i) : scalarLiteral i = true := by
  unfold scalarCheck at h
  split at h
  · rename_i name hname
    refine hK.scalar_of_type hi hname fun t ht ↦ ?_
    rw [List.mem_singleton.mp ht]
    exact List.contains_iff_mem.mp (Sum.inl.inj h)
  · rename_i names hnames
    obtain ⟨-, hall⟩ := (Bool.and_eq_true _ _).mp (Sum.inl.inj h)
    refine hK.scalar_of_type hi hnames fun t ht ↦ ?_
    obtain ⟨name, hname, ht⟩ := List.mem_filterMap.mp ht
    have hname := List.all_eq_true.mp hall name hname
    rw [ht] at hname
    exact List.contains_iff_mem.mp hname
  · cases h
  · split at h
    · rename_i members hmembers
      obtain ⟨-, hall⟩ := (Bool.and_eq_true _ _).mp (Sum.inl.inj h)
      obtain ⟨v, hv, heq⟩ := hK.enum fields i members hi (lookup_of_branchesUnder hmembers)
      rw [← hK.scalar_of_equal v i heq]
      exact List.all_eq_true.mp hall v hv
    · rename_i value hmembers hvalue
      rw [← hK.scalar_of_equal value i (hK.const fields i value hi hvalue)]
      exact Sum.inl.inj h
    · split at h
      · cases h
      · cases h

/-- **Scalar parameters.** Every instance that is valid against a schema that passes the check is a
scalar. -/
theorem scalar_of_paramIsScalarValued (hK : Keywords integral equal valid) (schema : Json)
    (h : paramIsScalarValued schema = true) (i : Json) (hi : valid schema i) :
    scalarLiteral i = true := by
  induction schema using paramIsScalarValued.induct with
  | case1 fields b hcheck =>
    unfold paramIsScalarValued at h
    split at h
    · rename_i hb
      exact hK.scalar_of_inl (h ▸ hb) hi
    · rename_i hb
      rw [hcheck] at hb
      cases hb
  | case2 fields branches hcheck ih =>
    unfold paramIsScalarValued at h
    split at h
    · rename_i hb
      rw [hcheck] at hb
      cases hb
    · rename_i bs hbs
      obtain rfl : branches = bs := Sum.inr.inj (hcheck.symm.trans hbs)
      obtain ⟨hne, hall⟩ := (Bool.and_eq_true _ _).mp h
      have hscalar : ∀ s ∈ branches, valid s i → scalarLiteral i = true := fun s hs hvalid ↦
        ih ⟨s, hs⟩ (List.all_eq_true.mp hall ⟨s, hs⟩ (List.mem_attach _ _)) hvalid
      obtain ⟨keyword, hkeyword, hlookup⟩ := exists_keyword_of_scalarCheck hcheck
      -- all branches are scalar, so one that accepts the instance is enough
      have hsome : ∃ s ∈ branches, valid s i := by
        rcases List.mem_append.mp (show keyword ∈ ["anyOf", "oneOf"] ++ ["allOf"] from hkeyword)
          with hkeyword | hkeyword
        · exact hK.someBranch fields i branches hi keyword hkeyword hlookup
        · have hnil : branches ≠ [] := by
            rintro rfl
            cases hne
          obtain ⟨s, hs⟩ := List.exists_mem_of_ne_nil branches hnil
          rw [List.mem_singleton.mp hkeyword] at hlookup
          exact ⟨s, hs, hK.allOf fields i branches hi hlookup s hs⟩
      obtain ⟨s, hs, hvalid⟩ := hsome
      exact hscalar s hs hvalid
  | case3 s hs =>
    cases s with
    | object fields => exact absurd rfl (hs fields)
    | _ =>
      unfold paramIsScalarValued at h
      cases h

/-! ## A composed schema -/

def textSchema : Json := .object [("type", .string "string")]

def flagSchema : Json := .object [("const", .bool true)]

def textOrFlag : Json := .object [("anyOf", .array [textSchema, flagSchema])]

/-- What is valid against the three schemas. -/
inductive TextOrFlag : Json → Json → Prop
  | text (t : String) : TextOrFlag textSchema (.string t)
  | flag : TextOrFlag flagSchema (.bool true)
  | ofText (t : String) : TextOrFlag textOrFlag (.string t)
  | ofFlag : TextOrFlag textOrFlag (.bool true)

theorem keywords_textOrFlag : Keywords (fun _ ↦ true) Eq TextOrFlag where
  type fields i v hvalid hv := by
    cases hvalid with
    | text t => cases hv; rfl
    | _ => cases hv
  enum fields i members hvalid hmembers := by
    cases hvalid <;> cases hmembers
  const fields i v hvalid hv := by
    cases hvalid with
    | flag => cases hv; rfl
    | _ => cases hv
  someBranch fields i branches hvalid keyword hkeyword hlookup := by
    have hany : keyword = "anyOf" ∨ keyword = "oneOf" := by simpa using hkeyword
    rcases hany with rfl | rfl
    · cases hvalid with
      | ofText t =>
        cases hlookup
        exact ⟨textSchema, List.mem_cons_self, .text t⟩
      | ofFlag =>
        cases hlookup
        exact ⟨flagSchema, List.mem_cons_of_mem _ List.mem_cons_self, .flag⟩
      | _ => cases hlookup
    · cases hvalid <;> cases hlookup
  allOf fields i branches hvalid hlookup := by
    cases hvalid <;> cases hlookup
  scalar_of_equal v i h := congrArg scalarLiteral h

theorem paramIsScalarValued_textOrFlag : paramIsScalarValued textOrFlag = true := by
  have htext : paramIsScalarValued textSchema = true := by
    unfold paramIsScalarValued
    rfl
  have hflag : paramIsScalarValued flagSchema = true := by
    unfold paramIsScalarValued
    rfl
  have hcheck : scalarCheck [("anyOf", .array [textSchema, flagSchema])] =
      .inr [textSchema, flagSchema] := rfl
  unfold textOrFlag paramIsScalarValued
  split
  · rename_i hb
    rw [hcheck] at hb
    cases hb
  · rename_i bs hbs
    obtain rfl : [textSchema, flagSchema] = bs := Sum.inr.inj (hcheck.symm.trans hbs)
    simp [htext, hflag]

theorem scalar_of_paramIsScalarValued_text :
    paramIsScalarValued textOrFlag = true ∧ TextOrFlag textOrFlag (.string "a") ∧
      scalarLiteral (.string "a") = true :=
  ⟨paramIsScalarValued_textOrFlag, .ofText "a", scalar_of_paramIsScalarValued keywords_textOrFlag
    textOrFlag paramIsScalarValued_textOrFlag _ (.ofText "a")⟩

end WaferRun.Discovery

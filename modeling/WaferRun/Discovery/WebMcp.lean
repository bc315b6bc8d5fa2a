import Mathlib.Data.List.Dedup
import Mathlib.Order.Lattice
import WaferRun.Flow.Plan

/-!
# The manifest of agent tools

The endpoints that opted in are published to agents as tools, one manifest for each caller
(`webmcpReportResolved`). An endpoint whose declaration is broken is refused, one above the level
of the caller is left out, and a name that two endpoints visible to the caller claim is given to
neither.

Broken declarations are found before the levels are compared and names are counted before
declarations are checked. The results say what can be told from a manifest nevertheless. Nothing in
it depends on an endpoint the caller cannot see, because the count is taken over visible endpoints
only and a tool is made from its endpoint alone. And a name never changes its meaning between
callers, because whatever a lower caller sees a higher one sees as well: two endpoints behind one
name would both be counted for the higher of the two.

What the schemas of an endpoint become is a function of the endpoint, and a parameter here. So is
the level an endpoint is published at.
-/

open List

namespace WaferRun.Discovery

/-! ## Endpoints -/

inductive HttpMethod
  | get
  | post
  | patch
  | delete
deriving DecidableEq, Repr

inductive AuthLevel
  | «public»
  | authenticated
  | admin
deriving DecidableEq, Repr

def AuthLevel.rank : AuthLevel → ℕ
  | «public» => 0
  | authenticated => 1
  | admin => 2

instance : LinearOrder AuthLevel :=
  LinearOrder.lift' AuthLevel.rank fun a b h ↦ by cases a <;> cases b <;> first | rfl | cases h

structure AgentTool where
  name : String
  description : String
deriving DecidableEq, Repr

namespace AgentTool

def maxNameLen : ℕ := 128

def isValidName (name : String) : Bool :=
  name ≠ "" && decide (name.utf8ByteSize ≤ maxNameLen) &&
    name.toList.all fun c ↦ c.isAlphanum || c = '_' || c = '-'

end AgentTool

structure BlockEndpoint where
  method : HttpMethod
  path : String
  summary : String
  auth : AuthLevel
  description : String
  inputSchema : Option Json
  outputSchema : Option Json
  pathParams : Option Json
  queryParams : Option Json
  tags : List String
  deprecated : Bool
  agentTool : Option AgentTool
  serverOnly : Bool

structure BlockInfo (δ : Type*) where
  name : String
  endpoints : List BlockEndpoint
  declarations : δ

/-! ## Path templates -/

inductive PathTemplateError
  | malformed
  | wildcard (segment : List Char)
deriving DecidableEq, Repr

structure PathPlaceholder where
  name : List Char
  rest : Bool
deriving DecidableEq, Repr

def restMarker : List Char := "...".toList

def classifySegment (segment : List Char) : Except PathTemplateError (Option PathPlaceholder) :=
  if segment = ['*'] ∨ segment = ['*', '*'] then .error (.wildcard segment)
  else if '{' ∉ segment ∧ '}' ∉ segment then .ok none
  else if segment.length < 2 ∨ segment.head? ≠ some '{' ∨ segment.getLast? ≠ some '}' then
    .error .malformed
  else
    let inner := segment.tail.dropLast
    if '{' ∈ inner ∨ '}' ∈ inner then .error .malformed
    else
      let placeholder : PathPlaceholder :=
        if restMarker <:+ inner then ⟨inner.take (inner.length - restMarker.length), true⟩
        else ⟨inner, false⟩
      if placeholder.name = [] then .error .malformed else .ok (some placeholder)

def pathPlaceholders (path : String) : Except PathTemplateError (List String) := do
  let placeholders ← (path.toList.splitOn '/').mapM classifySegment
  return placeholders.filterMap fun p ↦ p.map fun p ↦ String.ofList p.name

def publishedSegment (segment : List Char) : List Char :=
  match classifySegment segment with
  | .ok (some ⟨name, true⟩) => '{' :: name ++ ['}']
  | .ok (some ⟨_, false⟩) | .ok none | .error _ => segment

def publishedPathTemplate (path : String) : String :=
  String.ofList (['/'].intercalate ((path.toList.splitOn '/').map publishedSegment))

/-! ## Refusals -/

inductive WebMcpRefusal
  | invalidToolName
  | duplicateToolName (count : ℕ)
  | collidingParameterNames (names : List String)
  | unrepresentableSources (sources : List String)
  | unresolvedRefs (sources : List String)
  | collidingDefinitions (names : List String)
  | schemaTooLarge (sources : List String)
  | requiredNotDeclared (names : List String)
  | nonScalarPathOrQueryParams (params : List String)
  | malformedPathTemplate
  | wildcardPathSegment (segment : String)
  | pathParamsDisagreeWithTemplate (placeholders declared : List String)
  | bodyOnBodylessMethod (bodyParams : List String)
  | outputSchemaNotAnObject
  | outputSchemaUnrepresentable
  | outputSchemaUnresolvedRef
  | outputSchemaTooLarge
deriving DecidableEq, Repr

inductive WebMcpRefusalScope
  | tool
  | outputSchema
deriving DecidableEq, Repr

structure WebMcpRefusalReport where
  block : String
  method : HttpMethod
  path : String
  toolName : String
  scope : WebMcpRefusalScope
  reason : WebMcpRefusal
  visibleToCaller : Bool
deriving DecidableEq, Repr

/-- Who may read the refusals of a manifest. -/
inductive Mode
  | declared
  | selected
deriving DecidableEq, Repr

/-! ## The projection of one endpoint -/

/-- The schema of the arguments of a tool, where each of them goes, and what is wrong with it. -/
structure AgentInputSchema where
  schema : Json
  pathParams : List String
  queryParams : List String
  bodyParams : List String
  collisions : List String
  unrepresentable : List String
  unresolvedRefs : List String
  collidingDefs : List String
  oversizedSchemas : List String
  undeclaredRequired : List String
  nonScalarParams : List String

/-- The schema of the result of a tool, or why there is none. -/
structure AgentOutputSchema where
  schema : Option Json
  dropped : Option WebMcpRefusal

structure SchemaProjection where
  agentInputSchema : BlockEndpoint → AgentInputSchema
  agentOutputSchema : BlockEndpoint → AgentOutputSchema

def methodKey : HttpMethod → String
  | .get => "get"
  | .post => "post"
  | .patch => "patch"
  | .delete => "delete"

def methodCanCarryBody : HttpMethod → Bool
  | .post | .patch => true
  | .get | .delete => false

section

variable {δ : Type*} (S : SchemaProjection)

def templateDefect (path : String) (declared : List String) : Option WebMcpRefusal :=
  match pathPlaceholders path with
  | .error .malformed => some .malformedPathTemplate
  | .error (.wildcard segment) => some (.wildcardPathSegment (String.ofList segment))
  | .ok placeholders =>
    let placeholders := (placeholders.mergeSort fun a b ↦ decide (a ≤ b)).dedup
    if placeholders ≠ declared then some (.pathParamsDisagreeWithTemplate placeholders declared)
    else none

def toolDefect (ep : BlockEndpoint) (tool : AgentTool) : Option WebMcpRefusal :=
  let input := S.agentInputSchema ep
  if ¬AgentTool.isValidName tool.name then some .invalidToolName
  else if input.collisions ≠ [] then some (.collidingParameterNames input.collisions)
  -- past its budget the schema is truncated, and nothing else can be read from it
  else if input.oversizedSchemas ≠ [] then some (.schemaTooLarge input.oversizedSchemas)
  else if input.unrepresentable ≠ [] then some (.unrepresentableSources input.unrepresentable)
  else if input.unresolvedRefs ≠ [] then some (.unresolvedRefs input.unresolvedRefs)
  else if input.collidingDefs ≠ [] then some (.collidingDefinitions input.collidingDefs)
  else if input.undeclaredRequired ≠ [] then some (.requiredNotDeclared input.undeclaredRequired)
  else if input.nonScalarParams ≠ [] then
    some (.nonScalarPathOrQueryParams input.nonScalarParams)
  else
    match templateDefect ep.path input.pathParams with
    | some defect => some defect
    | none =>
      if input.bodyParams ≠ [] ∧ ¬methodCanCarryBody ep.method then
        some (.bodyOnBodylessMethod input.bodyParams)
      else none

def jsonTexts (texts : List String) : Json := .array (texts.map Json.string)

def emitTool (ep : BlockEndpoint) (tool : AgentTool) : Json :=
  let input := S.agentInputSchema ep
  let description :=
    if ep.deprecated then "[Deprecated] " ++ tool.description else tool.description
  .object <|
    [("name", .string tool.name), ("description", .string description)] ++
    (if ep.deprecated then [("deprecated", .bool true)] else []) ++
    [("inputSchema", input.schema)] ++
    ((S.agentOutputSchema ep).schema.toList.map fun schema ↦ ("outputSchema", schema)) ++
    [("invocation", .object
      [("method", .string (methodKey ep.method)),
        ("path", .string (publishedPathTemplate ep.path)),
        ("path_params", jsonTexts input.pathParams),
        ("query_params", jsonTexts input.queryParams),
        ("body_params", jsonTexts input.bodyParams)])]

abbrev Published (δ : Type*) := BlockInfo δ × BlockEndpoint × Option AuthLevel

def visibleAt (caller : AuthLevel) (level : Option AuthLevel) : Bool :=
  level.any fun required ↦ decide (required ≤ caller)

def claimsName (caller : AuthLevel) (name : String) (p : Published δ) : Bool :=
  p.2.1.agentTool.any fun tool ↦
    AgentTool.isValidName tool.name && visibleAt caller p.2.2 && decide (tool.name = name)

/-- What becomes of one endpoint, when `count` endpoints claim each name. -/
def projectEndpoint (count : String → ℕ) (caller : AuthLevel) (mode : Mode) (p : Published δ) :
    Option Json × List WebMcpRefusalReport :=
  let (block, ep, level) := p
  match ep.agentTool with
  | none => (none, [])
  | some tool =>
    match level with
    | none => (none, [])
    | some required =>
      let visible := decide (required ≤ caller)
      let refuse (scope : WebMcpRefusalScope) (reason : WebMcpRefusal) : WebMcpRefusalReport :=
        ⟨block.name, ep.method, ep.path, tool.name, scope, reason,
          visible && decide (mode = .declared)⟩
      match toolDefect S ep tool with
      | some defect => (none, [refuse .tool defect])
      | none =>
        if visible = false then (none, [])
        else if count tool.name ≠ 1 then
          (none, [refuse .tool (.duplicateToolName (count tool.name))])
        else
          (some (emitTool S ep tool),
            (S.agentOutputSchema ep).dropped.toList.map (refuse .outputSchema))

/-! ## The manifest -/

def publishedEndpoints (blocks : List (BlockInfo δ)) (levels : List (List (Option AuthLevel))) :
    List (Published δ) :=
  (blocks.zip levels).flatMap fun bl ↦ (bl.1.endpoints.zip bl.2).map fun el ↦ (bl.1, el)

def nameCount (caller : AuthLevel) (published : List (Published δ)) (name : String) : ℕ :=
  published.countP (claimsName caller name)

def manifestTools (caller : AuthLevel) (mode : Mode) (published : List (Published δ)) :
    List Json :=
  published.filterMap fun p ↦
    (projectEndpoint S (nameCount caller published) caller mode p).1

def webmcpReportResolved (blocks : List (BlockInfo δ)) (levels : List (List (Option AuthLevel)))
    (caller : AuthLevel) (mode : Mode) : Json × List WebMcpRefusalReport :=
  let published := publishedEndpoints blocks levels
  (.object
    [("schema_version", .number (.posInt 1)),
      ("tools", .array (manifestTools S caller mode published))],
    published.flatMap fun p ↦ (projectEndpoint S (nameCount caller published) caller mode p).2)

/-! ## What a manifest depends on -/

def shownEndpoints (caller : AuthLevel) (published : List (Published δ)) : List BlockEndpoint :=
  (published.filter fun p ↦ visibleAt caller p.2.2).map fun p ↦ p.2.1

/-- The tool of an endpoint that is shown, when `count` endpoints claim each name. -/
def toolOf (count : String → ℕ) (ep : BlockEndpoint) : Option Json :=
  ep.agentTool.bind fun tool ↦
    if toolDefect S ep tool = none ∧ count tool.name = 1 then some (emitTool S ep tool) else none

def claims (name : String) (ep : BlockEndpoint) : Bool :=
  ep.agentTool.any fun tool ↦ AgentTool.isValidName tool.name && decide (tool.name = name)

theorem projectEndpoint_fst (count : String → ℕ) (caller : AuthLevel) (mode : Mode)
    (p : Published δ) :
    (projectEndpoint S count caller mode p).1 =
      if visibleAt caller p.2.2 then toolOf S count p.2.1 else none := by
  obtain ⟨block, ep, level⟩ := p
  simp only [projectEndpoint, toolOf]
  rcases ep.agentTool with - | tool
  · exact (ite_self none).symm
  · rcases level with - | required
    · rfl
    · simp only [visibleAt, Option.any_some, Option.bind_some]
      rcases toolDefect S ep tool with - | defect
      · by_cases hvisible : required ≤ caller
        · by_cases hcount : count tool.name = 1
          · simp [hvisible, hcount]
          · simp [hvisible, hcount]
        · simp [hvisible]
      · simp

theorem nameCount_eq (caller : AuthLevel) (published : List (Published δ)) (name : String) :
    nameCount caller published name = (shownEndpoints caller published).countP (claims name) := by
  rw [nameCount, shownEndpoints, countP_map, countP_filter]
  refine countP_congr fun p _ ↦ ?_
  rw [claimsName, Function.comp_apply, claims]
  rcases p.2.1.agentTool with - | tool
  · simp
  · cases AgentTool.isValidName tool.name <;> cases visibleAt caller p.2.2 <;> simp

theorem manifestTools_eq (caller : AuthLevel) (mode : Mode) (published : List (Published δ)) :
    manifestTools S caller mode published =
      (shownEndpoints caller published).filterMap
        (toolOf S fun name ↦ (shownEndpoints caller published).countP (claims name)) := by
  have hcount : nameCount caller published =
      fun name ↦ (shownEndpoints caller published).countP (claims name) :=
    funext (nameCount_eq caller published)
  rw [manifestTools, hcount]
  generalize (fun name ↦ (shownEndpoints caller published).countP (claims name)) = count
  rw [shownEndpoints, filterMap_map, filterMap_filter]
  refine filterMap_congr fun p _ ↦ ?_
  rw [projectEndpoint_fst, Function.comp_apply]

def visibleBlock (caller : AuthLevel) (block : BlockInfo δ) (levels : List (Option AuthLevel)) :
    BlockInfo δ :=
  { block with
    endpoints := ((block.endpoints.zip levels).filter fun el ↦ visibleAt caller el.2).map
      Prod.fst }

def visibleBlocks (caller : AuthLevel) (blocks : List (BlockInfo δ))
    (levels : List (List (Option AuthLevel))) : List (BlockInfo δ) :=
  (blocks.zip levels).map fun bl ↦ visibleBlock caller bl.1 bl.2

theorem shownEndpoints_publishedEndpoints (caller : AuthLevel) (blocks : List (BlockInfo δ))
    (levels : List (List (Option AuthLevel))) :
    shownEndpoints caller (publishedEndpoints blocks levels) =
      (visibleBlocks caller blocks levels).flatMap BlockInfo.endpoints := by
  rw [shownEndpoints, publishedEndpoints, visibleBlocks, filter_flatMap, map_flatMap,
    flatMap_map]
  refine flatMap_congr fun bl _ ↦ ?_
  rw [filter_map, map_map, visibleBlock]
  rfl

/-! ## What a name denotes -/

def MadeFrom (caller : AuthLevel) (mode : Mode) (published : List (Published δ)) (i : ℕ)
    (t : Json) : Prop :=
  ∃ p, published[i]? = some p ∧
    (projectEndpoint S (nameCount caller published) caller mode p).1 = some t

theorem mem_manifestTools_iff {caller : AuthLevel} {mode : Mode} {published : List (Published δ)}
    {t : Json} :
    t ∈ manifestTools S caller mode published ↔ ∃ i, MadeFrom S caller mode published i t := by
  rw [manifestTools, mem_filterMap]
  constructor
  · rintro ⟨p, hp, ht⟩
    obtain ⟨i, hi⟩ := List.mem_iff_getElem?.mp hp
    exact ⟨i, p, hi, ht⟩
  · rintro ⟨i, p, hi, ht⟩
    exact ⟨p, List.mem_of_getElem? hi, ht⟩

def toolName (t : Json) : Option String :=
  match t with
  | .object (("name", .string name) :: _) => some name
  | _ => none

theorem isValidName_of_toolDefect {ep : BlockEndpoint} {tool : AgentTool}
    (h : toolDefect S ep tool = none) : AgentTool.isValidName tool.name = true := by
  rw [toolDefect] at h
  by_contra hvalid
  rw [if_pos hvalid] at h
  cases h

theorem MadeFrom.claims {caller : AuthLevel} {mode : Mode} {published : List (Published δ)} {i : ℕ}
    {t : Json} (h : MadeFrom S caller mode published i t) :
    ∃ p name, published[i]? = some p ∧ toolName t = some name ∧
      claimsName caller name p = true ∧ nameCount caller published name = 1 := by
  obtain ⟨p, hp, ht⟩ := h
  rw [projectEndpoint_fst] at ht
  split at ht
  · next hvisible =>
    obtain ⟨tool, htool, hemit⟩ := Option.bind_eq_some_iff.mp ht
    split at hemit
    · next hsound =>
      obtain rfl := Option.some.inj hemit
      refine ⟨p, tool.name, hp, rfl, ?_, hsound.2⟩
      rw [claimsName, htool, Option.any_some, isValidName_of_toolDefect S hsound.1, hvisible,
        decide_eq_true rfl]
      rfl
    · cases hemit
  · cases ht

theorem position_unique {α : Type*} {p : α → Bool} {l : List α} (hcount : l.countP p ≤ 1) {i j : ℕ}
    {a b : α} (hi : l[i]? = some a) (ha : p a = true) (hj : l[j]? = some b) (hb : p b = true) :
    i = j := by
  induction l generalizing i j with
  | nil => cases hi
  | cons c l ih =>
    rw [countP_cons] at hcount
    -- an element counted behind the first one leaves nothing for the first
    have hlater : ∀ {k : ℕ} {d : α}, l[k]? = some d → p d = true → p c = false := by
      intro k d hk hd
      have := countP_pos_iff.mpr ⟨d, List.mem_of_getElem? hk, hd⟩
      refine Bool.eq_false_iff.mpr fun hc ↦ ?_
      rw [if_pos hc] at hcount
      omega
    rcases i with - | i <;> rcases j with - | j
    · rfl
    · obtain rfl := Option.some.inj hi
      rw [hlater hj hb] at ha
      cases ha
    · obtain rfl := Option.some.inj hj
      rw [hlater hi ha] at hb
      cases hb
    · exact congrArg (· + 1) (ih (by omega) hi hj)

theorem visibleAt_mono {caller caller' : AuthLevel} (h : caller ≤ caller') {level : Option AuthLevel}
    (hl : visibleAt caller level = true) : visibleAt caller' level = true := by
  rcases level with - | required
  · exact hl
  · exact decide_eq_true ((of_decide_eq_true hl).trans h)

theorem claimsName_mono {caller caller' : AuthLevel} (h : caller ≤ caller') {name : String}
    {p : Published δ} (hp : claimsName caller name p = true) : claimsName caller' name p = true := by
  rw [claimsName] at hp ⊢
  rcases htool : p.2.1.agentTool with - | tool <;> rw [htool] at hp
  · exact hp
  · rw [Option.any_some, Bool.and_eq_true, Bool.and_eq_true] at hp ⊢
    exact ⟨⟨hp.1.1, visibleAt_mono h hp.1.2⟩, hp.2⟩

theorem MadeFrom.position_eq {caller caller' : AuthLevel} (hle : caller ≤ caller') {mode mode' : Mode}
    {published : List (Published δ)} {i j : ℕ} {t t' : Json}
    (h : MadeFrom S caller mode published i t) (h' : MadeFrom S caller' mode' published j t')
    (hname : toolName t = toolName t') : i = j := by
  obtain ⟨p, name, hp, ht, hclaims, -⟩ := h.claims
  obtain ⟨p', name', hp', ht', hclaims', hcount⟩ := h'.claims
  obtain rfl : name = name' := Option.some.inj (ht.symm.trans (hname.trans ht'))
  exact position_unique hcount.le hp (claimsName_mono hle hclaims) hp' hclaims'

theorem MadeFrom.unique {caller : AuthLevel} {mode mode' : Mode} {published : List (Published δ)}
    {i j : ℕ} {t t' : Json} (h : MadeFrom S caller mode published i t)
    (h' : MadeFrom S caller mode' published j t') (hname : toolName t = toolName t') : i = j :=
  h.position_eq S le_rfl h' hname

theorem manifestTools_congr {caller : AuthLevel} {mode : Mode} {blocks blocks' : List (BlockInfo δ)}
    {levels levels' : List (List (Option AuthLevel))}
    (h : visibleBlocks caller blocks levels = visibleBlocks caller blocks' levels') :
    manifestTools S caller mode (publishedEndpoints blocks levels) =
      manifestTools S caller mode (publishedEndpoints blocks' levels') := by
  rw [manifestTools_eq, manifestTools_eq, shownEndpoints_publishedEndpoints,
    shownEndpoints_publishedEndpoints, h]

/-- **A manifest says nothing about hidden endpoints.** Two lists of blocks that agree on what a
caller may invoke give that caller the same manifest. A name that two callers find denotes the
endpoint at one position for both. -/
theorem manifest_opaque (S : SchemaProjection) :
    (∀ (caller : AuthLevel) (mode : Mode) (blocks blocks' : List (BlockInfo δ))
      (levels levels' : List (List (Option AuthLevel))),
      visibleBlocks caller blocks levels = visibleBlocks caller blocks' levels' →
        (webmcpReportResolved S blocks levels caller mode).1 =
          (webmcpReportResolved S blocks' levels' caller mode).1) ∧
    ∀ (caller caller' : AuthLevel) (mode mode' : Mode) (blocks : List (BlockInfo δ))
      (levels : List (List (Option AuthLevel))) (t t' : Json),
      t ∈ manifestTools S caller mode (publishedEndpoints blocks levels) →
        t' ∈ manifestTools S caller' mode' (publishedEndpoints blocks levels) →
          toolName t = toolName t' →
            ∃ i, ∀ j, (MadeFrom S caller mode (publishedEndpoints blocks levels) j t ↔ j = i) ∧
              (MadeFrom S caller' mode' (publishedEndpoints blocks levels) j t' ↔ j = i) := by
  refine ⟨fun caller mode blocks blocks' levels levels' h ↦ ?_, ?_⟩
  · rw [webmcpReportResolved, webmcpReportResolved, manifestTools_congr S h]
  · intro caller caller' mode mode' blocks levels t t' ht ht' hname
    obtain ⟨i, hi⟩ := (mem_manifestTools_iff S).mp ht
    obtain ⟨i', hi'⟩ := (mem_manifestTools_iff S).mp ht'
    obtain rfl : i = i' := by
      rcases le_total caller caller' with hle | hle
      · exact hi.position_eq S hle hi' hname
      · exact (hi'.position_eq S hle hi hname.symm).symm
    refine ⟨i, fun j ↦ ⟨⟨fun h ↦ h.unique S hi rfl, ?_⟩, ⟨fun h ↦ h.unique S hi' rfl, ?_⟩⟩⟩
    · rintro rfl
      exact hi
    · rintro rfl
      exact hi'

end

end WaferRun.Discovery

import WaferRun.Flow.Document

/-!
# Compiling a flow

When the runtime is sealed every flow document is compiled into a plan: blocks are looked up, step
configs flattened, jump targets turned into indices and expressions parsed. An expression that does
not parse is no error at this point. The error is stored and comes up again whenever the expression
is evaluated.

So there are two forms of a plan. A `SealedFlow` is what is stored, with parsed expressions or the
errors in their place, and `SealedFlow.plan` is what the executor runs: each stored expression as
the function of the accumulator that it evaluates to.

Validation and compilation walk a document independently of each other. For a document that is valid
the stored plan has no error in it (`compileFlow_sound`).
-/

open List Option

namespace WaferRun

/-! ## Evaluating expressions -/

/-- What the evaluation of expressions uses of the JSON library and of floating point numbers:
equality of values, the order of two numbers as doubles, and whether a number is zero. -/
structure JsonCompare where
  eq : Json → Json → Bool
  lt : JsonNumber → JsonNumber → Bool
  le : JsonNumber → JsonNumber → Bool
  isZero : JsonNumber → Bool

/-- Read an index. -/
def parseUsize (s : List Char) : Option ℕ :=
  let digits := match s with
    | '+' :: t => t
    | s => s
  if digits = [] ∨ ¬digits.all Char.isDigit then none
  else
    let n := Nat.ofDigitChars 10 digits 0
    if n < 2 ^ 64 then some n else none

section Evaluation

variable (host : Host)

/-- Walk from a value along the rest of a path; `walked` is the part of the path that leads to the
value. -/
def resolveFrom (walked : List String) : Json → List String → Except String Json
  | current, [] => .ok current
  | .object fields, seg :: rest =>
    match fields.lookup seg with
    | some v => resolveFrom (walked ++ [seg]) v rest
    | none => .error ("unresolved reference: $." ++ ".".intercalate (walked ++ [seg]))
  | .array items, seg :: rest =>
    match parseUsize seg.toList with
    | none =>
      .error ("type error: cannot index array with non-numeric key '" ++ seg ++ "'")
    | some index =>
      match items[index]? with
      | some v => resolveFrom (walked ++ [seg]) v rest
      | none =>
        .error ("unresolved reference: array index " ++ toString index ++ " out of bounds")
  | current, seg :: _ =>
    .error ("type error: cannot traverse into " ++ host.display current ++ " with key '" ++ seg ++
      "'")

def resolveSegments (get : Lookup) : List String → Except String Json
  | [] => .error "invalid path expression: empty path"
  | root :: rest =>
    match get root with
    | none => .error ("unresolved reference: $." ++ root)
    | some v => resolveFrom host [root] v rest

def typeName : Json → String
  | .null => "null"
  | .bool _ => "boolean"
  | .number _ => "number"
  | .string _ => "string"
  | .array _ => "array"
  | .object _ => "object"

variable (compare : JsonCompare)

def asBool : Json → Bool
  | .bool b => b
  | .null => false
  | .number n => !compare.isZero n
  | .string s => s ≠ ""
  | .array items => !items.isEmpty
  | .object fields => !fields.isEmpty

def compareValues (left : Json) (op : CompareOp) (right : Json) : Except String Bool :=
  match op with
  | .eq => .ok (compare.eq left right)
  | .ne => .ok (!compare.eq left right)
  | op =>
    match left, right with
    | .number l, .number r =>
      .ok (match op with
        | .gt => compare.lt r l
        | .lt => compare.lt l r
        | .ge => compare.le r l
        | _ => compare.le l r)
    | left, right =>
      .error ("type error: ordered comparison '" ++ op.asStr ++
        "' requires numeric operands, got " ++ typeName left ++ " and " ++ typeName right)

/-- Evaluate a parsed expression; the right side of a logical operator only if it matters. -/
def evalExpr (resolve : List String → Except String Json) : Expr → Except String Json
  | .path segments => resolve segments
  | .literal v => .ok v
  | .compare left op right => do
    let lv ← evalExpr resolve left
    let rv ← evalExpr resolve right
    return .bool (← compareValues compare lv op rv)
  | .logical left op right => do
    let lv ← evalExpr resolve left
    match op, asBool compare lv with
    | .and, false => return .bool false
    | .or, true => return .bool true
    | _, _ => return .bool (asBool compare (← evalExpr resolve right))
  | .membership value op list => do
    let v ← evalExpr resolve value
    match ← evalExpr resolve list with
    | .array items =>
      let found := items.any fun item ↦ compare.eq item v
      return .bool (match op with
        | .isIn => found
        | .notIn => !found)
    | _ => .error "type error: membership test requires an array on the right side"

end Evaluation

/-! ## Compiled expressions -/

abbrev CompiledPath := Except ExprError (List String)

def CompiledPath.compile (path : String) : CompiledPath := parsePath path.toList

def CompiledPath.resolve (host : Host) (path : CompiledPath) (get : Lookup) : Except String Json :=
  match path with
  | .ok segments => resolveSegments host get segments
  | .error e => .error e.display

abbrev CompiledCondition := Except ExprError Expr

def CompiledCondition.compile (J : JsonReader) (condition : String) : CompiledCondition :=
  parseExpr J condition.toList

def CompiledCondition.eval (host : Host) (compare : JsonCompare) (condition : CompiledCondition)
    (get : Lookup) : Except String Bool :=
  match condition with
  | .ok e =>
    (evalExpr compare (resolveSegments host get) e).map fun
      | .bool b => b
      | .null => false
      | _ => true
  | .error e => .error e.display

inductive TemplateNode
  | path (segments : List String)
  | invalidPath (e : ExprError)
  | literal (v : Json)
  | object (entries : List (String × TemplateNode))
  | array (items : List TemplateNode)

mutual

/-- Parse the references of a template; a part without references is kept as it is. -/
def compileNode : Json → TemplateNode
  | .string s =>
    if isReference s then
      match parsePath s.toList with
      | .ok segments => .path segments
      | .error e => .invalidPath e
    else .literal (.string s)
  | .object fields =>
    if (Json.object fields).references.isEmpty then .literal (.object fields)
    else .object (compileFields fields)
  | .array items =>
    if (Json.array items).references.isEmpty then .literal (.array items)
    else .array (compileItems items)
  | .null => .literal .null
  | .bool b => .literal (.bool b)
  | .number n => .literal (.number n)
termination_by structural v => v

def compileFields : List (String × Json) → List (String × TemplateNode)
  | [] => []
  | (key, v) :: fields => (key, compileNode v) :: compileFields fields
termination_by structural fields => fields

def compileItems : List Json → List TemplateNode
  | [] => []
  | v :: items => compileNode v :: compileItems items
termination_by structural items => items

end

mutual

def resolveNode (host : Host) (get : Lookup) : TemplateNode → Except String Json
  | .path segments => resolveSegments host get segments
  | .invalidPath e => .error e.display
  | .literal v => .ok v
  | .object entries => (resolveEntries host get entries).map .object
  | .array items => (resolveItems host get items).map .array
termination_by structural node => node

def resolveEntries (host : Host) (get : Lookup) :
    List (String × TemplateNode) → Except String (List (String × Json))
  | [] => .ok []
  | (key, node) :: entries => do
    let v ← resolveNode host get node
    let rest ← resolveEntries host get entries
    return (key, v) :: rest
termination_by structural entries => entries

def resolveItems (host : Host) (get : Lookup) : List TemplateNode → Except String (List Json)
  | [] => .ok []
  | node :: items => do
    let v ← resolveNode host get node
    let rest ← resolveItems host get items
    return v :: rest
termination_by structural items => items

end

/-! ## The stored plan -/

structure SealedEntry where
  when? : Option (String × CompiledCondition)
  target : NextTarget

structure SealedStep where
  id : String
  blockLabel : String
  target : Option String
  input : Option TemplateNode
  config : List (String × String)
  each : Option (String × CompiledPath)
  next : Option (List SealedEntry)

structure SealedFlow where
  id : String
  timeout : Option ℕ
  maxSteps : ℕ
  onError : OnError
  usesAccumulator : Bool
  steps : List (Branched SealedStep)

/-- What compilation uses of the runtime: the libraries it is linked with, and the blocks that are
registered. -/
structure Wafer where
  reader : JsonReader
  host : Host
  compare : JsonCompare
  /-- The canonical name of a block, if it is registered. -/
  lookupWithAlias : String → Option String

def parseConfigMap (host : Host) : Json → List (String × String)
  | .object fields =>
    fields.filterMap fun
      | (key, .string s) => some (key, s)
      | (key, .number n) => some (key, host.display (.number n))
      | (key, .bool b) => some (key, if b then "true" else "false")
      | _ => none
  | _ => []

def defaultMaxSteps : ℕ := 1000

section Compile

variable (wafer : Wafer)

def compileTarget (index : String → Option ℕ) (entry : NextEntry) : NextTarget :=
  match entry.step, entry.flow with
  | some s, _ =>
    match index s with
    | none => .missingStep s
    | some i => .step i
  | none, some f => .flow f
  | none, none => .none

def compileEntry (index : String → Option ℕ) (entry : NextEntry) : SealedEntry where
  when? := entry.when?.map fun w ↦ (w, CompiledCondition.compile wafer.reader w)
  target := compileTarget index entry

def compileStep (index : String → Option ℕ) (step : StepFields) : SealedStep where
  id := step.id
  blockLabel := step.block
  target := wafer.lookupWithAlias step.block
  input := step.input.map compileNode
  config := (step.config.map (parseConfigMap wafer.host)).getD []
  each := step.each.map fun raw ↦ (raw, CompiledPath.compile raw)
  next := step.next.map (List.map (compileEntry wafer index))

/-- Whether any step, in a branch or not, reads or writes the accumulator through its own fields. -/
def stepsUseAccumulator (flow : WaferFlow) : Bool :=
  flow.fields.any fun step ↦ step.input.isSome || step.each.isSome

def FlowConfig.effectiveTimeout (config : FlowConfig) : Option ℕ :=
  config.timeout.or config.timeoutMs

/-- Compile a flow. A jump target is the first top-level step of its id. -/
def compileFlow (flow : WaferFlow) : SealedFlow :=
  let config := flow.config.getD ⟨none, none, none, none⟩
  let index id := flow.steps.findIdx? fun s ↦ s.head.id = id
  { id := flow.id
    timeout := config.effectiveTimeout
    maxSteps := config.maxSteps.getD defaultMaxSteps
    onError := config.onError.getD .stop
    usesAccumulator := stepsUseAccumulator flow
    steps := flow.steps.map (Branched.map (compileStep wafer index)) }

/-! ## What the executor runs -/

def SealedEntry.plan (entry : SealedEntry) : CompiledNextEntry where
  when? := entry.when?.map fun (w, condition) ↦ (w, condition.eval wafer.host wafer.compare)
  target := entry.target

def SealedStep.plan (step : SealedStep) : StepPlan where
  id := step.id
  blockLabel := step.blockLabel
  target := step.target
  input := step.input.map fun node get ↦ resolveNode wafer.host get node
  config := step.config
  each := step.each.map fun (raw, path) ↦ ⟨raw, path.resolve wafer.host⟩
  next := step.next.map (List.map (SealedEntry.plan wafer))

def stepPlan : Branched SealedStep → CompiledStep :=
  Branched.fold fun step branches ↦ .mk (step.plan wafer) branches

def SealedFlow.plan (flow : SealedFlow) : CompiledFlow where
  id := flow.id
  timeout := flow.timeout
  maxSteps := flow.maxSteps
  onError := flow.onError
  usesAccumulator := flow.usesAccumulator
  steps := flow.steps.map (stepPlan wafer)

def flowPlan (flow : WaferFlow) : CompiledFlow := (compileFlow wafer flow).plan wafer

end Compile

/-! ## A stored plan without errors -/

mutual

def TemplateNode.errors : TemplateNode → List ExprError
  | .path _ | .literal _ => []
  | .invalidPath e => [e]
  | .object entries => entryErrors entries
  | .array items => itemErrors items
termination_by structural node => node

def TemplateNode.entryErrors : List (String × TemplateNode) → List ExprError
  | [] => []
  | (_, node) :: entries => node.errors ++ entryErrors entries
termination_by structural entries => entries

def TemplateNode.itemErrors : List TemplateNode → List ExprError
  | [] => []
  | node :: items => node.errors ++ itemErrors items
termination_by structural items => items

end

/-- A stored routing entry that leads to a step of the flow or to another flow, and whose condition
was parsed. -/
structure SealedEntry.Sound (flow : SealedFlow) (entry : SealedEntry) : Prop where
  target : (∃ i < flow.steps.length, entry.target = .step i) ∨
    ∃ other ≠ flow.id, entry.target = .flow other
  condition : ∀ w c, entry.when? = some (w, c) → ∃ e, c = .ok e

/-- A stored step without parse errors, with a default if it routes. -/
structure SealedStep.Sound (flow : SealedFlow) (step : SealedStep) : Prop where
  entries : ∀ es, step.next = some es → ∀ e ∈ es, e.Sound flow
  default : ∀ es, step.next = some es → ∃ e ∈ es, e.when? = none
  each : ∀ raw path, step.each = some (raw, path) → ∃ segments, path = .ok segments
  input : ∀ node, step.input = some node → node.errors = []

def SealedFlow.nodes (flow : SealedFlow) : List SealedStep := flow.steps.flatMap Branched.heads

/-- A stored plan the executor can rely on: unique ids, none of them reserved, no errors in its
steps, and no routing in its branches. -/
structure SealedFlow.Sound (flow : SealedFlow) : Prop where
  nodup : (flow.nodes.map SealedStep.id).Nodup
  reserved : ∀ s ∈ flow.nodes, s.id ≠ "input" ∧ s.id ≠ "each"
  nodes : ∀ s ∈ flow.nodes, s.Sound flow
  noNext : ∀ s ∈ flow.steps, ∀ n ∈ s.inner, n.next = none

mutual

theorem errors_compileNode : ∀ v : Json,
    (∀ s ∈ v.references, ∃ segments, parsePath s.toList = .ok segments) →
      (compileNode v).errors = []
  | .string s => by
    intro h
    rw [compileNode]
    split
    · rename_i href
      rw [Json.references, if_pos href] at h
      obtain ⟨segments, hpath⟩ := h s mem_cons_self
      rw [hpath, TemplateNode.errors]
    · rw [TemplateNode.errors]
  | .object fields => by
    intro h
    rw [compileNode]
    split
    · rw [TemplateNode.errors]
    · rw [Json.references] at h
      rw [TemplateNode.errors, entryErrors_compileFields fields h]
  | .array items => by
    intro h
    rw [compileNode]
    split
    · rw [TemplateNode.errors]
    · rw [Json.references] at h
      rw [TemplateNode.errors, itemErrors_compileItems items h]
  | .null => fun _ ↦ rfl
  | .bool _ => fun _ ↦ rfl
  | .number _ => fun _ ↦ rfl

theorem entryErrors_compileFields : ∀ fields : List (String × Json),
    (∀ s ∈ Json.fieldReferences fields, ∃ segments, parsePath s.toList = .ok segments) →
      TemplateNode.entryErrors (compileFields fields) = []
  | [] => fun _ ↦ rfl
  | (_, v) :: fields => by
    intro h
    rw [Json.fieldReferences, List.forall_mem_append] at h
    rw [compileFields, TemplateNode.entryErrors, errors_compileNode v h.1,
      entryErrors_compileFields fields h.2, append_nil]

theorem itemErrors_compileItems : ∀ items : List Json,
    (∀ s ∈ Json.itemReferences items, ∃ segments, parsePath s.toList = .ok segments) →
      TemplateNode.itemErrors (compileItems items) = []
  | [] => fun _ ↦ rfl
  | v :: items => by
    intro h
    rw [Json.itemReferences, List.forall_mem_append] at h
    rw [compileItems, TemplateNode.itemErrors, errors_compileNode v h.1,
      itemErrors_compileItems items h.2, append_nil]

end

section Sound

variable {wafer : Wafer} {flow : WaferFlow}

theorem nodes_compileFlow : ∃ index : String → Option ℕ,
    (compileFlow wafer flow).steps = flow.steps.map (Branched.map (compileStep wafer index)) ∧
    (compileFlow wafer flow).nodes = flow.fields.map (compileStep wafer index) ∧
    ∀ s ∈ flow.steps, ∃ i < flow.steps.length, index s.head.id = some i := by
  refine ⟨fun id ↦ flow.steps.findIdx? fun s ↦ s.head.id = id, rfl, ?_, fun s hs ↦ ?_⟩
  · rw [SealedFlow.nodes, compileFlow, WaferFlow.fields, map_flatMap, flatMap_map]
    simp only [Branched.heads_map]
  · obtain ⟨i, hi⟩ : ∃ i, flow.steps.findIdx? (fun t ↦ t.head.id = s.head.id) = some i := by
      rw [← isSome_iff_exists, List.findIdx?_isSome, List.any_eq_true]
      exact ⟨s, hs, decide_eq_true rfl⟩
    exact ⟨i, (List.findIdx?_eq_some_iff_getElem.mp hi).1, hi⟩

theorem compileEntry_sound {index : String → Option ℕ}
    (hindex : ∀ s ∈ flow.steps, ∃ i < flow.steps.length, index s.head.id = some i)
    {entry : NextEntry} (h : entry.Valid wafer.reader flow) :
    (compileEntry wafer index entry).Sound (compileFlow wafer flow) where
  target := by
    rw [compileEntry, compileTarget]
    obtain ⟨s, hs, hstep, -⟩ | ⟨other, hne, hstep, hother⟩ := h.target
    · obtain ⟨i, hi, hfound⟩ := hindex s hs
      have hlength : i < (compileFlow wafer flow).steps.length := by
        rwa [compileFlow, length_map]
      refine .inl ⟨i, hlength, ?_⟩
      simp only [hstep, hfound]
    · refine .inr ⟨other, hne, ?_⟩
      simp only [hstep, hother]
  condition w c hw := by
    obtain ⟨w', hcond, heq⟩ := map_eq_some_iff.mp hw
    obtain ⟨rfl, rfl⟩ := Prod.mk.inj heq
    exact h.condition w' hcond

theorem compileStep_sound {index : String → Option ℕ}
    (hindex : ∀ s ∈ flow.steps, ∃ i < flow.steps.length, index s.head.id = some i)
    {step : StepFields} (h : step.Valid wafer.reader flow) :
    (compileStep wafer index step).Sound (compileFlow wafer flow) where
  entries es hes e he := by
    obtain ⟨entries, hnext, rfl⟩ := map_eq_some_iff.mp hes
    obtain ⟨entry, hentry, rfl⟩ := List.mem_map.mp he
    exact compileEntry_sound hindex (h.entries entries hnext entry hentry)
  default es hes := by
    obtain ⟨entries, hnext, rfl⟩ := map_eq_some_iff.mp hes
    obtain ⟨entry, hentry, hwhen⟩ := h.default entries hnext
    refine ⟨_, List.mem_map_of_mem hentry, ?_⟩
    rw [compileEntry, hwhen, map_none]
  each raw path heach := by
    obtain ⟨raw', hraw, heq⟩ := map_eq_some_iff.mp heach
    obtain ⟨rfl, rfl⟩ := Prod.mk.inj heq
    exact h.each raw' hraw
  input node hnode := by
    obtain ⟨v, hv, rfl⟩ := map_eq_some_iff.mp hnode
    exact errors_compileNode v (h.input v hv)

/-- **Compiling a valid document stores no error.** -/
theorem compileFlow_sound (h : flow.Valid wafer.reader) : (compileFlow wafer flow).Sound := by
  obtain ⟨index, hsteps, hnodes, hindex⟩ := @nodes_compileFlow wafer flow
  refine ⟨?_, fun s hs ↦ ?_, fun s hs ↦ ?_, fun s hs n hn ↦ ?_⟩
  · have hids : SealedStep.id ∘ compileStep wafer index = StepFields.id := rfl
    rw [hnodes, List.map_map, hids]
    exact h.nodup
  · rw [hnodes] at hs
    obtain ⟨f, hf, rfl⟩ := List.mem_map.mp hs
    exact h.reserved f hf
  · rw [hnodes] at hs
    obtain ⟨f, hf, rfl⟩ := List.mem_map.mp hs
    exact compileStep_sound hindex (h.valid f hf)
  · rw [hsteps] at hs
    obtain ⟨t, ht, rfl⟩ := List.mem_map.mp hs
    rw [Branched.inner_map] at hn
    obtain ⟨f, hf, rfl⟩ := List.mem_map.mp hn
    rw [compileStep, h.noNext t ht f hf, map_none]

end Sound

/-! ## The plan the executor gets -/

theorem parallelIds_eq (p : Option (List (List CompiledStep))) :
    parallelIds p = Branched.branchHeads stepIds p := by
  cases p with
  | none => rfl
  | some bs => rw [parallelIds, branchIds_eq_flatMap, Branched.branchHeads, getD_some]

theorem noNextInBranch_of_forall {ss : List CompiledStep}
    (h : ∀ s ∈ ss, s.plan.next = none ∧ noNextInBranches s = true) : noNextInBranch ss = true := by
  induction ss with
  | nil => rfl
  | cons s ss ih =>
    obtain ⟨⟨hnext, hbranches⟩, hss⟩ := forall_mem_cons.mp h
    rw [noNextInBranch, hnext, hbranches, ih hss]
    rfl

theorem noNextInBranchList_of_forall {bs : List (List CompiledStep)}
    (h : ∀ b ∈ bs, noNextInBranch b = true) : noNextInBranchList bs = true := by
  induction bs with
  | nil => rfl
  | cons b bs ih =>
    obtain ⟨hb, hbs⟩ := forall_mem_cons.mp h
    rw [noNextInBranchList, hb, ih hbs]
    rfl

section Plan

variable (wafer : Wafer)

theorem stepPlan_mk (step : SealedStep) (branches : Option (List (List (Branched SealedStep)))) :
    stepPlan wafer (.mk step branches) =
      .mk (step.plan wafer) (branches.map (List.map (List.map (stepPlan wafer)))) :=
  Branched.fold_mk _ _ _

theorem plan_stepPlan (t : Branched SealedStep) : (stepPlan wafer t).plan = t.head.plan wafer := by
  obtain ⟨step, branches⟩ := t
  rw [stepPlan_mk]
  rfl

theorem stepIds_stepPlan (t : Branched SealedStep) :
    stepIds (stepPlan wafer t) = t.heads.map SealedStep.id := by
  induction t using Branched.induct with
  | h step branches ih =>
    rw [stepPlan_mk, stepIds, parallelIds_eq, Branched.branchHeads_map, Branched.heads_mk,
      map_cons, Branched.map_branchHeads]
    exact congrArg _ (Branched.branchHeads_congr ih)

theorem noNextInBranches_stepPlan {t : Branched SealedStep} (h : ∀ n ∈ t.inner, n.next = none) :
    noNextInBranches (stepPlan wafer t) = true := by
  induction t using Branched.induct with
  | h step branches ih =>
    rw [stepPlan_mk, noNextInBranches]
    cases branches with
    | none => rfl
    | some bs =>
      refine noNextInBranchList_of_forall fun b hb ↦ noNextInBranch_of_forall fun s hs ↦ ?_
      obtain ⟨c, hc, rfl⟩ := List.mem_map.mp hb
      obtain ⟨t, ht, rfl⟩ := List.mem_map.mp hs
      have hheads : ∀ n ∈ t.heads, n.next = none := fun n hn ↦
        h n (Branched.mem_branchHeads.mpr ⟨c, hc, t, ht, hn⟩)
      rw [Branched.heads_eq, forall_mem_cons] at hheads
      refine ⟨?_, ih bs rfl c hc t ht hheads.2⟩
      rw [plan_stepPlan, SealedStep.plan, hheads.1, map_none]

theorem SealedFlow.Sound.validated {flow : SealedFlow} (h : flow.Sound) :
    Validated (flow.plan wafer).steps := by
  have hids : stepsIds (flow.plan wafer).steps = flow.nodes.map SealedStep.id := by
    rw [stepsIds_eq_flatMap, SealedFlow.plan, flatMap_map, SealedFlow.nodes, map_flatMap]
    simp only [stepIds_stepPlan]
  refine ⟨hids ▸ h.nodup, ?_, fun s hs ↦ ?_⟩
  · rw [hids]
    refine ⟨fun hmem ↦ ?_, fun hmem ↦ ?_⟩
    · obtain ⟨s, hs, heq⟩ := List.mem_map.mp hmem
      exact (h.reserved s hs).1 heq
    · obtain ⟨s, hs, heq⟩ := List.mem_map.mp hmem
      exact (h.reserved s hs).2 heq
  · obtain ⟨t, ht, rfl⟩ := List.mem_map.mp hs
    exact noNextInBranches_stepPlan wafer (h.noNext t ht)

end Plan

end WaferRun

import WaferRun.Flow.Compile

/-!
# Compiled templates and the naive walk

A template is compiled once: its references are parsed, or the error of parsing them is stored, and
a part without references is kept as it is. Resolving the compiled template gives what a walk over
the template itself gives that resolves each reference where it finds it (`resolve_compileNode`): a
part without references is what the walk makes of it, and both visit the references in the same
order, so that the first error is the same.

Whether a run has to parse its input into the accumulator is decided when the flow is compiled, by
looking for templates and for fan-outs. The conditions of the routing entries are not looked at,
although they are evaluated against the same accumulator (`accumulator_flag_iff`).
-/

namespace WaferRun

/-! ## The naive walk -/

section Walk

variable (host : Host) (get : Lookup)

def resolveReference (s : String) : Except String Json :=
  match parsePath s.toList with
  | .ok segments => resolveSegments host get segments
  | .error e => .error e.display

mutual

/-- Walk a template and put the value of every reference in its place. -/
def substitute : Json → Except String Json
  | .string s => if isReference s then resolveReference host get s else .ok (.string s)
  | .object fields => (substituteFields fields).map .object
  | .array items => (substituteItems items).map .array
  | .null => .ok .null
  | .bool b => .ok (.bool b)
  | .number n => .ok (.number n)
termination_by structural v => v

def substituteFields : List (String × Json) → Except String (List (String × Json))
  | [] => .ok []
  | (key, v) :: fields => do
    let v ← substitute v
    let rest ← substituteFields fields
    return (key, v) :: rest
termination_by structural fields => fields

def substituteItems : List Json → Except String (List Json)
  | [] => .ok []
  | v :: items => do
    let v ← substitute v
    let rest ← substituteItems items
    return v :: rest
termination_by structural items => items

end

/-! ### Parts without references -/

mutual

theorem substitute_of_references_eq_nil : ∀ v : Json, v.references = [] → substitute host get v = .ok v
  | .string s => by
    intro h
    rw [Json.references] at h
    rw [substitute, if_neg fun href ↦ ?_]
    rw [if_pos href] at h
    cases h
  | .object fields => by
    intro h
    rw [Json.references] at h
    rw [substitute, substituteFields_of_references_eq_nil fields h]
    rfl
  | .array items => by
    intro h
    rw [Json.references] at h
    rw [substitute, substituteItems_of_references_eq_nil items h]
    rfl
  | .null => fun _ ↦ rfl
  | .bool _ => fun _ ↦ rfl
  | .number _ => fun _ ↦ rfl

theorem substituteFields_of_references_eq_nil : ∀ fields : List (String × Json),
    Json.fieldReferences fields = [] → substituteFields host get fields = .ok fields
  | [] => fun _ ↦ rfl
  | (_, v) :: fields => by
    intro h
    rw [Json.fieldReferences] at h
    obtain ⟨hv, hfields⟩ := List.append_eq_nil_iff.mp h
    rw [substituteFields, substitute_of_references_eq_nil v hv,
      substituteFields_of_references_eq_nil fields hfields]
    rfl

theorem substituteItems_of_references_eq_nil : ∀ items : List Json,
    Json.itemReferences items = [] → substituteItems host get items = .ok items
  | [] => fun _ ↦ rfl
  | v :: items => by
    intro h
    rw [Json.itemReferences] at h
    obtain ⟨hv, hitems⟩ := List.append_eq_nil_iff.mp h
    rw [substituteItems, substitute_of_references_eq_nil v hv,
      substituteItems_of_references_eq_nil items hitems]
    rfl

end

/-! ### The compiled walk -/

mutual

/-- **Compiling a template does not change what it resolves to**, nor which error it gives. -/
theorem resolve_compileNode : ∀ v : Json,
    resolveNode host get (compileNode v) = substitute host get v
  | .string s => by
    rw [compileNode, substitute]
    by_cases href : isReference s = true
    · rw [if_pos href, if_pos href, resolveReference]
      cases parsePath s.toList <;> rw [resolveNode]
    · rw [if_neg href, if_neg href, resolveNode]
  | .object fields => by
    rw [compileNode]
    split
    next hrefs =>
      rw [resolveNode, substitute_of_references_eq_nil host get _ (List.isEmpty_iff.mp hrefs)]
    · rw [resolveNode, resolve_compileFields fields, substitute]
  | .array items => by
    rw [compileNode]
    split
    next hrefs =>
      rw [resolveNode, substitute_of_references_eq_nil host get _ (List.isEmpty_iff.mp hrefs)]
    · rw [resolveNode, resolve_compileItems items, substitute]
  | .null => rfl
  | .bool _ => rfl
  | .number _ => rfl

theorem resolve_compileFields : ∀ fields : List (String × Json),
    resolveEntries host get (compileFields fields) = substituteFields host get fields
  | [] => rfl
  | (_, v) :: fields => by
    rw [compileFields, resolveEntries, resolve_compileNode v, resolve_compileFields fields,
      substituteFields]

theorem resolve_compileItems : ∀ items : List Json,
    resolveItems host get (compileItems items) = substituteItems host get items
  | [] => rfl
  | v :: items => by
    rw [compileItems, resolveItems, resolve_compileNode v, resolve_compileItems items,
      substituteItems]

end

end Walk

/-! ## References to the accumulator -/

def Expr.refers : Expr → Bool
  | .path _ => true
  | .literal _ => false
  | .compare left _ right => left.refers || right.refers
  | .logical left _ right => left.refers || right.refers
  | .membership value _ list => value.refers || list.refers

def conditionRefers (J : JsonReader) (condition : String) : Bool :=
  match CompiledCondition.compile J condition with
  | .ok e => e.refers
  | .error _ => false

def StepFields.ConditionRefers (J : JsonReader) (step : StepFields) : Prop :=
  ∃ entries, step.next = some entries ∧ ∃ entry ∈ entries, ∃ w, entry.when? = some w ∧
    conditionRefers J w = true

def StepFields.Refers (J : JsonReader) (step : StepFields) : Prop :=
  (∃ template, step.input = some template ∧ template.references ≠ []) ∨ step.each.isSome ∨
    step.ConditionRefers J

/-- Only conditions refer to the accumulator: no step of the flow, in a branch or not, has a
template or fans out, and some condition has a path in it. -/
def WaferFlow.OnlyConditionsRefer (J : JsonReader) (flow : WaferFlow) : Prop :=
  (∀ step ∈ flow.fields, step.input = none ∧ step.each = none) ∧
    ∃ step ∈ flow.fields, step.ConditionRefers J

/-- **Compiled templates equal the naive walk** on every accumulator, and a flow whose steps refer
to the accumulator is compiled as using it exactly if it is not conditions alone that refer to
it. -/
theorem accumulator_flag_iff (wafer : Wafer) :
    (∀ (acc : Accumulator) (template : Json),
      resolveNode wafer.host acc.get (compileNode template) =
        substitute wafer.host acc.get template) ∧
    ∀ flow : WaferFlow,
      ((∃ step ∈ flow.fields, step.Refers wafer.reader) →
        (compileFlow wafer flow).usesAccumulator = true) ↔
      ¬flow.OnlyConditionsRefer wafer.reader := by
  refine ⟨fun acc template ↦ resolve_compileNode wafer.host acc.get template, fun flow ↦ ?_⟩
  have hflag : (compileFlow wafer flow).usesAccumulator = true ↔
      ∃ step ∈ flow.fields, step.input.isSome = true ∨ step.each.isSome = true := by
    change (flow.fields.any fun step ↦ step.input.isSome || step.each.isSome) = true ↔ _
    rw [List.any_eq_true]
    exact exists_congr fun step ↦ and_congr_right fun _ ↦ Bool.or_eq_true_iff
  rw [hflag]
  constructor
  · rintro h ⟨hnone, step, hstep, hrefers⟩
    obtain ⟨step', hstep', hsome⟩ := h ⟨step, hstep, .inr (.inr hrefers)⟩
    rw [(hnone step' hstep').1, (hnone step' hstep').2] at hsome
    rcases hsome with hsome | hsome <;> cases hsome
  · rintro h ⟨step, hstep, ⟨template, htemplate, -⟩ | heach | hcondition⟩
    · exact ⟨step, hstep, .inl (Option.isSome_iff_exists.mpr ⟨template, htemplate⟩)⟩
    · exact ⟨step, hstep, .inr heach⟩
    · by_contra hno
      refine h ⟨fun step' hstep' ↦ ⟨?_, ?_⟩, step, hstep, hcondition⟩
      · by_contra hinput
        exact hno ⟨step', hstep', .inl (Option.isSome_iff_ne_none.mpr hinput)⟩
      · by_contra heach
        exact hno ⟨step', hstep', .inr (Option.isSome_iff_ne_none.mpr heach)⟩

/-! ## A flow that routes on its input -/

namespace RoutingFlow

def gate : StepFields :=
  ⟨"gate", "org/gate", none,
    some [⟨some "$.input.ok", some "serve", none⟩, ⟨none, none, some "org/refuse"⟩], none, none⟩

def flow : WaferFlow :=
  ⟨"org/route", [.mk gate none, .mk ⟨"serve", "org/serve", none, none, none, none⟩ none], none⟩

/-- No literal is read in this flow, and no block is registered. -/
def wafer : Wafer where
  reader := .empty
  host := ⟨fun _ ↦ none, fun _ ↦ .ok [], fun _ ↦ "", fun s ↦ s⟩
  compare := ⟨fun _ _ ↦ false, fun _ _ ↦ false, fun _ _ ↦ false, fun _ ↦ false⟩
  lookupWithAlias _ := none

end RoutingFlow

open RoutingFlow in
/-- The condition reads the input, but the flow is compiled as not using the accumulator, so the
input is not stored and the condition fails, whatever the input is. -/
theorem routing_on_input_misses_accumulator :
    (∃ step ∈ flow.fields, step.Refers wafer.reader) ∧
    (compileFlow wafer flow).usesAccumulator = false ∧
    (CompiledCondition.compile wafer.reader "$.input.ok").eval wafer.host wafer.compare
      (Accumulator.new.set "input" (.object [("ok", .bool true)])).get = .ok true ∧
    (CompiledCondition.compile wafer.reader "$.input.ok").eval wafer.host wafer.compare
      Accumulator.new.get = .error "unresolved reference: $.input" := by
  refine ⟨⟨gate, List.mem_cons_self, .inr (.inr ⟨_, rfl, _, List.mem_cons_self, _, rfl, ?_⟩)⟩, rfl,
    ?_, ?_⟩
  · decide +kernel
  · decide +kernel
  · decide +kernel

end WaferRun

import WaferRun.Flow.Expr
import WaferRun.Lib.Branched

/-!
# Flow documents and their validation

A flow is registered as a document: steps with templates, expressions and routing entries as their
author wrote them. Validation refuses a document whose steps could not run. It returns all problems
it finds, so it goes through the whole tree of steps twice: once for the ids, once for everything
else.

`validate_eq_ok` says what a document is that has passed (`WaferFlow.Valid`).
-/

open List

namespace WaferRun

/-! ## Documents -/

/-- A routing rule: without `when?` it is always taken. -/
structure NextEntry where
  when? : Option String
  step : Option String
  flow : Option String

structure StepFields where
  id : String
  block : String
  input : Option Json
  next : Option (List NextEntry)
  each : Option String
  config : Option Json

abbrev FlowStep := Branched StepFields

structure FlowConfig where
  timeoutMs : Option ℕ
  timeout : Option ℕ
  maxSteps : Option ℕ
  onError : Option OnError

structure WaferFlow where
  id : String
  steps : List FlowStep
  config : Option FlowConfig

def WaferFlow.fields (flow : WaferFlow) : List StepFields := flow.steps.flatMap Branched.heads

/-! ## Validation -/

/-- A problem of a document. -/
inductive ValidationError
  | duplicateStepId (id : String)
  | reservedStepId (id : String)
  | unknownNextTarget (origin target : String)
  | nextEntryWithTwoTargets (step : String)
  | nextInParallelBranch (step : String)
  | transferToSelf (step flow : String)
  | nextEntryMissingTarget (step : String)
  | missingDefaultNext (step : String)
  | invalidExpression (step reason : String)
  | conflictingTimeouts
  | emptyFlow
deriving DecidableEq, Repr

def ExprError.display : ExprError → String
  | invalidPath reason => "invalid path expression: " ++ reason
  | parse reason => "parse error: " ++ reason

/-- The ids seen so far, and the problems. -/
abbrev Collected := List String × List ValidationError

def collectId (found : Collected) (step : StepFields) : Collected :=
  let (ids, errors) := found
  let errors :=
    if step.id = "input" ∨ step.id = "each" then errors ++ [.reservedStepId step.id] else errors
  let errors := if step.id ∈ ids then errors ++ [.duplicateStepId step.id] else errors
  (step.id :: ids, errors)

mutual

def collectStepId (found : Collected) : FlowStep → Collected
  | .mk step branches => collectParallelIds (collectId found step) branches
termination_by structural s => s

def collectParallelIds (found : Collected) : Option (List (List FlowStep)) → Collected
  | none => found
  | some branches => collectBranchIds found branches
termination_by structural p => p

def collectBranchIds (found : Collected) : List (List FlowStep) → Collected
  | [] => found
  | b :: bs => collectBranchIds (collectStepIds found b) bs
termination_by structural bs => bs

def collectStepIds (found : Collected) : List FlowStep → Collected
  | [] => found
  | s :: ss => collectStepIds (collectStepId found s) ss
termination_by structural ss => ss

end

def parseErrors {α : Type} (step : String) : Except ExprError α → List ValidationError
  | .ok _ => []
  | .error e => [.invalidExpression step e.display]

def isReference (s : String) : Bool := "$.".toList.isPrefixOf s.toList

mutual

def validateInputExpressions (step : String) : Json → List ValidationError
  | .string s => if isReference s then parseErrors step (parsePath s.toList) else []
  | .object fields => validateFieldExpressions step fields
  | .array items => validateItemExpressions step items
  | .null | .bool _ | .number _ => []
termination_by structural v => v

def validateFieldExpressions (step : String) : List (String × Json) → List ValidationError
  | [] => []
  | (_, v) :: fields => validateInputExpressions step v ++ validateFieldExpressions step fields
termination_by structural fields => fields

def validateItemExpressions (step : String) : List Json → List ValidationError
  | [] => []
  | v :: items => validateInputExpressions step v ++ validateItemExpressions step items
termination_by structural items => items

end

section Steps

variable (J : JsonReader) (flowId : String) (jumpTargets : List String)

/-- A routing entry names one target, a top-level step or another flow, and its condition parses. -/
def validateEntry (step : String) (entry : NextEntry) : List ValidationError :=
  (match entry.step, entry.flow with
    | none, none => [.nextEntryMissingTarget step]
    | some _, some _ => [.nextEntryWithTwoTargets step]
    | some target, none => if target ∈ jumpTargets then [] else [.unknownNextTarget step target]
    | none, some target => if target = flowId then [.transferToSelf step flowId] else []) ++
  match entry.when? with
  | none => []
  | some condition => parseErrors step (parseExpr J condition.toList)

def validateNext (inBranch : Bool) (step : StepFields) : List ValidationError :=
  match step.next with
  | none => []
  | some entries =>
    (if inBranch then [.nextInParallelBranch step.id] else []) ++
      entries.flatMap (validateEntry J flowId jumpTargets step.id) ++
      if entries.any fun entry ↦ entry.when?.isNone then [] else [.missingDefaultNext step.id]

def validateFields (inBranch : Bool) (step : StepFields) : List ValidationError :=
  validateNext J flowId jumpTargets inBranch step ++
    (match step.each with
      | none => []
      | some each => parseErrors step.id (parsePath each.toList)) ++
    match step.input with
    | none => []
    | some input => validateInputExpressions step.id input

mutual

def validateStep (inBranch : Bool) : FlowStep → List ValidationError
  | .mk step branches =>
    validateFields J flowId jumpTargets inBranch step ++ validateParallel branches
termination_by structural s => s

def validateParallel : Option (List (List FlowStep)) → List ValidationError
  | none => []
  | some branches => validateBranches branches
termination_by structural p => p

def validateBranches : List (List FlowStep) → List ValidationError
  | [] => []
  | b :: bs => validateSteps true b ++ validateBranches bs
termination_by structural bs => bs

def validateSteps (inBranch : Bool) : List FlowStep → List ValidationError
  | [] => []
  | s :: ss => validateStep inBranch s ++ validateSteps inBranch ss
termination_by structural ss => ss

end

end Steps

def timeoutErrors : Option FlowConfig → List ValidationError
  | none => []
  | some config =>
    if config.timeout.isSome ∧ config.timeoutMs.isSome then [.conflictingTimeouts] else []

def validate (J : JsonReader) (flow : WaferFlow) : Except (List ValidationError) Unit :=
  if flow.steps.isEmpty then .error [.emptyFlow]
  else
    let jumpTargets := flow.steps.map fun s ↦ s.head.id
    let errors := timeoutErrors flow.config ++ (collectStepIds ([], []) flow.steps).2 ++
      validateSteps J flow.id jumpTargets false flow.steps
    if errors.isEmpty then .ok () else .error errors

/-! ## What a valid document is -/

structure NextEntry.Valid (J : JsonReader) (flow : WaferFlow) (entry : NextEntry) : Prop where
  target : (∃ s ∈ flow.steps, entry.step = some s.head.id ∧ entry.flow = none) ∨
    ∃ target ≠ flow.id, entry.step = none ∧ entry.flow = some target
  condition : ∀ w, entry.when? = some w → ∃ e, parseExpr J w.toList = .ok e

mutual

def Json.references : Json → List String
  | .string s => if isReference s then [s] else []
  | .object fields => fieldReferences fields
  | .array items => itemReferences items
  | .null | .bool _ | .number _ => []
termination_by structural v => v

def Json.fieldReferences : List (String × Json) → List String
  | [] => []
  | (_, v) :: fields => v.references ++ fieldReferences fields
termination_by structural fields => fields

def Json.itemReferences : List Json → List String
  | [] => []
  | v :: items => v.references ++ itemReferences items
termination_by structural items => items

end

structure StepFields.Valid (J : JsonReader) (flow : WaferFlow) (step : StepFields) : Prop where
  entries : ∀ es, step.next = some es → ∀ e ∈ es, e.Valid J flow
  default : ∀ es, step.next = some es → ∃ e ∈ es, e.when? = none
  each : ∀ raw, step.each = some raw → ∃ segments, parsePath raw.toList = .ok segments
  input : ∀ v, step.input = some v → ∀ s ∈ v.references,
    ∃ segments, parsePath s.toList = .ok segments

structure WaferFlow.Valid (J : JsonReader) (flow : WaferFlow) : Prop where
  steps : flow.steps ≠ []
  timeouts : timeoutErrors flow.config = []
  nodup : (flow.fields.map StepFields.id).Nodup
  reserved : ∀ s ∈ flow.fields, s.id ≠ "input" ∧ s.id ≠ "each"
  valid : ∀ s ∈ flow.fields, s.Valid J flow
  noNext : ∀ s ∈ flow.steps, ∀ f ∈ s.inner, f.next = none

/-! ### The ids -/

theorem collectStepIds_eq_foldl (ss : List FlowStep) (found : Collected) :
    collectStepIds found ss = ss.foldl collectStepId found := by
  induction ss generalizing found with
  | nil => rfl
  | cons s ss ih => rw [collectStepIds, ih, foldl_cons]

theorem collectBranchIds_eq_foldl (bs : List (List FlowStep)) (found : Collected) :
    collectBranchIds found bs = bs.foldl collectStepIds found := by
  induction bs generalizing found with
  | nil => rfl
  | cons b bs ih => rw [collectBranchIds, ih, foldl_cons]

theorem foldl_collectStepId {ss : List FlowStep} (found : Collected)
    (h : ∀ s ∈ ss, ∀ found, collectStepId found s = s.heads.foldl collectId found) :
    ss.foldl collectStepId found = (ss.flatMap Branched.heads).foldl collectId found := by
  induction ss generalizing found with
  | nil => rfl
  | cons s ss ih =>
    rw [forall_mem_cons] at h
    rw [foldl_cons, h.1, ih _ h.2, flatMap_cons, foldl_append]

theorem collectStepId_eq (s : FlowStep) :
    ∀ found, collectStepId found s = s.heads.foldl collectId found := by
  induction s using Branched.induct with
  | h step branches ih =>
    intro found
    rw [collectStepId, Branched.heads_mk, foldl_cons]
    generalize collectId found step = found
    cases branches with
    | none => rfl
    | some bs =>
      rw [collectParallelIds, collectBranchIds_eq_foldl]
      change _ = (bs.flatMap fun b ↦ b.flatMap Branched.heads).foldl collectId found
      replace ih := ih bs rfl
      induction bs generalizing found with
      | nil => rfl
      | cons b bs ihbs =>
        rw [forall_mem_cons] at ih
        rw [foldl_cons, collectStepIds_eq_foldl, foldl_collectStepId found ih.1, ihbs _ ih.2,
          flatMap_cons, foldl_append]

theorem collectStepIds_eq (ss : List FlowStep) (found : Collected) :
    collectStepIds found ss = (ss.flatMap Branched.heads).foldl collectId found := by
  rw [collectStepIds_eq_foldl, foldl_collectStepId found fun s _ ↦ collectStepId_eq s]

theorem foldl_collectId_eq_nil {hs : List StepFields} {ids : List String}
    {errors : List ValidationError} :
    (hs.foldl collectId (ids, errors)).2 = [] ↔
      errors = [] ∧ (∀ h ∈ hs, h.id ≠ "input" ∧ h.id ≠ "each") ∧
        (hs.map StepFields.id).Nodup ∧ ∀ h ∈ hs, h.id ∉ ids := by
  induction hs generalizing ids errors with
  | nil => simp
  | cons h hs ih =>
    have hhead : (collectId (ids, errors) h).2 = [] ↔
        errors = [] ∧ (h.id ≠ "input" ∧ h.id ≠ "each") ∧ h.id ∉ ids := by
      rw [ne_eq, ne_eq, ← not_or]
      by_cases hreserved : h.id = "input" ∨ h.id = "each" <;> by_cases hseen : h.id ∈ ids <;>
        simp [collectId, hreserved, hseen]
    have hpair : collectId (ids, errors) h = (h.id :: ids, (collectId (ids, errors) h).2) := rfl
    have hids : (∀ g ∈ hs, g.id ∉ h.id :: ids) ↔
        h.id ∉ hs.map StepFields.id ∧ ∀ g ∈ hs, g.id ∉ ids := by
      simp only [mem_cons, not_or, forall₂_and, mem_map, not_exists, not_and]
    rw [foldl_cons, hpair, ih, hhead, hids, forall_mem_cons, forall_mem_cons,
      map_cons, nodup_cons]
    tauto

/-! ### The steps -/

theorem parseErrors_eq_nil {α : Type} {step : String} {r : Except ExprError α} :
    parseErrors step r = [] ↔ ∃ v, r = .ok v := by
  cases r with
  | ok v => exact ⟨fun _ ↦ ⟨v, rfl⟩, fun _ ↦ rfl⟩
  | error e => simp [parseErrors]

mutual

theorem validateInputExpressions_eq (step : String) : ∀ v : Json,
    validateInputExpressions step v =
      v.references.flatMap fun s ↦ parseErrors step (parsePath s.toList)
  | .string s => by
    rw [validateInputExpressions, Json.references]
    split <;> simp
  | .object fields => by
    rw [validateInputExpressions, Json.references, validateFieldExpressions_eq step fields]
  | .array items => by
    rw [validateInputExpressions, Json.references, validateItemExpressions_eq step items]
  | .null => rfl
  | .bool _ => rfl
  | .number _ => rfl

theorem validateFieldExpressions_eq (step : String) : ∀ fields : List (String × Json),
    validateFieldExpressions step fields =
      (Json.fieldReferences fields).flatMap fun s ↦ parseErrors step (parsePath s.toList)
  | [] => rfl
  | (_, v) :: fields => by
    rw [validateFieldExpressions, Json.fieldReferences, validateInputExpressions_eq step v,
      validateFieldExpressions_eq step fields, flatMap_append]

theorem validateItemExpressions_eq (step : String) : ∀ items : List Json,
    validateItemExpressions step items =
      (Json.itemReferences items).flatMap fun s ↦ parseErrors step (parsePath s.toList)
  | [] => rfl
  | v :: items => by
    rw [validateItemExpressions, Json.itemReferences, validateInputExpressions_eq step v,
      validateItemExpressions_eq step items, flatMap_append]

end

theorem validateEntry_eq_nil {J : JsonReader} {flow : WaferFlow} {step : String}
    {entry : NextEntry} :
    validateEntry J flow.id (flow.steps.map fun s ↦ s.head.id) step entry = [] ↔
      entry.Valid J flow := by
  obtain ⟨condition, target, transfer⟩ := entry
  have hcondition : (match condition with
      | none => []
      | some w => parseErrors step (parseExpr J w.toList)) = [] ↔
      ∀ w, condition = some w → ∃ e, parseExpr J w.toList = .ok e := by
    cases condition with
    | none => simp
    | some w => simp [parseErrors_eq_nil]
  rw [validateEntry, append_eq_nil_iff, hcondition]
  constructor
  · rintro ⟨htarget, hparse⟩
    refine ⟨?_, hparse⟩
    dsimp only at htarget ⊢
    split at htarget
    · exact absurd htarget (cons_ne_nil _ _)
    · exact absurd htarget (cons_ne_nil _ _)
    · split_ifs at htarget with hmem
      obtain ⟨s, hs, rfl⟩ := mem_map.mp hmem
      exact .inl ⟨s, hs, rfl, rfl⟩
    · split_ifs at htarget with hself
      exact .inr ⟨_, hself, rfl, rfl⟩
  · rintro ⟨htarget, hparse⟩
    refine ⟨?_, hparse⟩
    obtain ⟨s, hs, hstep, hflow⟩ | ⟨other, hne, hstep, hflow⟩ := htarget
    · dsimp only at hstep hflow
      rw [hstep, hflow]
      exact if_pos (mem_map.mpr ⟨s, hs, rfl⟩)
    · dsimp only at hstep hflow
      rw [hstep, hflow]
      exact if_neg hne

theorem validateNext_eq_nil {J : JsonReader} {flow : WaferFlow} {inBranch : Bool}
    {step : StepFields} :
    validateNext J flow.id (flow.steps.map fun s ↦ s.head.id) inBranch step = [] ↔
      (inBranch = true → step.next = none) ∧
      (∀ es, step.next = some es → ∀ e ∈ es, e.Valid J flow) ∧
      ∀ es, step.next = some es → ∃ e ∈ es, e.when? = none := by
  rw [validateNext]
  cases step.next with
  | none => simp
  | some entries =>
    have hentries : entries.flatMap (validateEntry J flow.id (flow.steps.map fun s ↦ s.head.id)
        step.id) = [] ↔ ∀ e ∈ entries, e.Valid J flow := by
      rw [flatMap_eq_nil_iff]
      exact forall₂_congr fun e _ ↦ validateEntry_eq_nil
    simp only [append_eq_nil_iff, hentries]
    cases inBranch <;> simp

theorem validateFields_eq_nil {J : JsonReader} {flow : WaferFlow} {inBranch : Bool}
    {step : StepFields} :
    validateFields J flow.id (flow.steps.map fun s ↦ s.head.id) inBranch step = [] ↔
      (inBranch = true → step.next = none) ∧ step.Valid J flow := by
  have heach : (match step.each with
      | none => []
      | some each => parseErrors step.id (parsePath each.toList)) = [] ↔
      ∀ raw, step.each = some raw → ∃ segments, parsePath raw.toList = .ok segments := by
    cases step.each with
    | none => simp
    | some raw => simp [parseErrors_eq_nil]
  have hinput : (match step.input with
      | none => []
      | some input => validateInputExpressions step.id input) = [] ↔
      ∀ v, step.input = some v → ∀ s ∈ v.references, ∃ segments,
        parsePath s.toList = .ok segments := by
    cases step.input with
    | none => simp
    | some v => simp [validateInputExpressions_eq, parseErrors_eq_nil]
  rw [validateFields, append_eq_nil_iff, append_eq_nil_iff, validateNext_eq_nil, heach,
    hinput]
  constructor
  · rintro ⟨⟨⟨hbranch, hentries, hdefault⟩, heach⟩, hinput⟩
    exact ⟨hbranch, hentries, hdefault, heach, hinput⟩
  · rintro ⟨hbranch, hentries, hdefault, heach, hinput⟩
    exact ⟨⟨⟨hbranch, hentries, hdefault⟩, heach⟩, hinput⟩

section Steps

variable {J : JsonReader} {flowId : String} {jumpTargets : List String}

theorem validateSteps_eq_nil {inBranch : Bool} {ss : List FlowStep} :
    validateSteps J flowId jumpTargets inBranch ss = [] ↔
      ∀ s ∈ ss, validateStep J flowId jumpTargets inBranch s = [] := by
  induction ss with
  | nil => simp [validateSteps]
  | cons s ss ih => rw [validateSteps, append_eq_nil_iff, ih, forall_mem_cons]

theorem validateBranches_eq_nil {bs : List (List FlowStep)} :
    validateBranches J flowId jumpTargets bs = [] ↔
      ∀ b ∈ bs, ∀ s ∈ b, validateStep J flowId jumpTargets true s = [] := by
  induction bs with
  | nil => simp [validateBranches]
  | cons b bs ih =>
    rw [validateBranches, append_eq_nil_iff, ih, validateSteps_eq_nil, forall_mem_cons]

theorem validateStep_eq_nil {inBranch : Bool} {s : FlowStep} :
    validateStep J flowId jumpTargets inBranch s = [] ↔
      validateFields J flowId jumpTargets inBranch s.head = [] ∧
        ∀ f ∈ s.inner, validateFields J flowId jumpTargets true f = [] := by
  induction s using Branched.induct generalizing inBranch with
  | h step branches ih =>
    rw [validateStep, append_eq_nil_iff]
    refine and_congr_right fun _ ↦ ?_
    cases branches with
    | none => exact ⟨fun _ f hf ↦ absurd hf not_mem_nil, fun _ ↦ rfl⟩
    | some bs =>
      rw [validateParallel, validateBranches_eq_nil]
      constructor
      · intro h f hf
        obtain ⟨b, hb, s, hs, hf⟩ := Branched.mem_branchHeads.mp hf
        obtain ⟨hhead, hinner⟩ := (ih bs rfl b hb s hs).mp (h b hb s hs)
        rw [Branched.heads_eq] at hf
        rcases mem_cons.mp hf with rfl | hf
        · exact hhead
        · exact hinner f hf
      · intro h b hb s hs
        have hmem : ∀ f ∈ s.heads, validateFields J flowId jumpTargets true f = [] := fun f hf ↦
          h f (Branched.mem_branchHeads.mpr ⟨b, hb, s, hs, hf⟩)
        rw [Branched.heads_eq, forall_mem_cons] at hmem
        exact (ih bs rfl b hb s hs).mpr hmem

end Steps

/-- **What validation accepts.** -/
theorem validate_eq_ok {J : JsonReader} {flow : WaferFlow} :
    validate J flow = .ok () ↔ flow.Valid J := by
  have hsteps : validateSteps J flow.id (flow.steps.map fun s ↦ s.head.id) false flow.steps = [] ↔
      (∀ f ∈ flow.fields, f.Valid J flow) ∧ ∀ s ∈ flow.steps, ∀ f ∈ s.inner, f.next = none := by
    rw [validateSteps_eq_nil]
    simp only [validateStep_eq_nil, validateFields_eq_nil]
    constructor
    · intro h
      refine ⟨fun f hf ↦ ?_, fun s hs f hf ↦ ((h s hs).2 f hf).1 trivial⟩
      obtain ⟨s, hs, hf⟩ := mem_flatMap.mp hf
      rw [Branched.heads_eq] at hf
      rcases mem_cons.mp hf with rfl | hf
      · exact (h s hs).1.2
      · exact ((h s hs).2 f hf).2
    · rintro ⟨hvalid, hnext⟩ s hs
      have hheads : ∀ f ∈ s.heads, f.Valid J flow := fun f hf ↦
        hvalid f (mem_flatMap.mpr ⟨s, hs, hf⟩)
      rw [Branched.heads_eq, forall_mem_cons] at hheads
      exact ⟨⟨fun h ↦ absurd h Bool.false_ne_true, hheads.1⟩,
        fun f hf ↦ ⟨fun _ ↦ hnext s hs f hf, hheads.2 f hf⟩⟩
  have herrors : (timeoutErrors flow.config ++ (collectStepIds ([], []) flow.steps).2 ++
      validateSteps J flow.id (flow.steps.map fun s ↦ s.head.id) false flow.steps).isEmpty = true ↔
      timeoutErrors flow.config = [] ∧ (∀ f ∈ flow.fields, f.id ≠ "input" ∧ f.id ≠ "each") ∧
        (flow.fields.map StepFields.id).Nodup ∧
        (∀ f ∈ flow.fields, f.Valid J flow) ∧ ∀ s ∈ flow.steps, ∀ f ∈ s.inner, f.next = none := by
    rw [List.isEmpty_iff, append_eq_nil_iff, append_eq_nil_iff, collectStepIds_eq,
      foldl_collectId_eq_nil, hsteps]
    constructor
    · rintro ⟨⟨htimeout, -, hreserved, hnodup, -⟩, hvalid, hnext⟩
      exact ⟨htimeout, hreserved, hnodup, hvalid, hnext⟩
    · rintro ⟨htimeout, hreserved, hnodup, hvalid, hnext⟩
      exact ⟨⟨htimeout, rfl, hreserved, hnodup, fun _ _ ↦ not_mem_nil⟩, hvalid, hnext⟩
  rw [validate]
  split
  · rename_i hempty
    exact iff_of_false (fun h ↦ by cases h) fun h ↦ h.steps (List.isEmpty_iff.mp hempty)
  · rename_i hempty
    dsimp only
    split
    · rename_i hnone
      obtain ⟨htimeout, hreserved, hnodup, hvalid, hnext⟩ := herrors.mp hnone
      exact iff_of_true rfl ⟨fun h ↦ hempty (List.isEmpty_iff.mpr h), htimeout, hnodup, hreserved,
        hvalid, hnext⟩
    · rename_i hsome
      refine iff_of_false (fun h ↦ by cases h) fun h ↦ hsome (herrors.mpr ?_)
      exact ⟨h.timeouts, h.reserved, h.nodup, h.valid, h.noNext⟩

end WaferRun

import WaferRun.Block.Output

/-!
# Accumulators and compiled flows

The accumulator of a flow holds the output of every step that recorded one, under the id of the
step. A parallel branch gets a layer of its own over the accumulator it starts from: it reads
through to the layers below and writes into its own.

A compiled flow is what the executor walks. The expressions in it (input templates, fan-out paths,
routing conditions) are given by the values they have: an expression reads the accumulator by
looking ids up, so it is a function of the lookup.
-/

open List

namespace WaferRun

inductive JsonNumber
  | posInt (n : ℕ)
  | negInt (n : ℕ)
  | float (bits : UInt64)
deriving DecidableEq, Repr

inductive Json
  | null
  | bool (b : Bool)
  | number (n : JsonNumber)
  | string (s : String)
  | array (items : List Json)
  | object (fields : List (String × Json))

/-- What the executor uses of the libraries it is linked with: reading and writing JSON, and the
two ways of showing a value in an error message. -/
structure Host where
  fromSlice : Bytes → Option Json
  toVec : Json → Except String Bytes
  display : Json → String
  debug : String → String

/-! ## The accumulator -/

abbrev Lookup := String → Option Json

/-- Step outputs by id, in layers: `data` is written to, `parents` are frozen. -/
structure Accumulator where
  data : Lookup
  parents : List Lookup

namespace Accumulator

def new : Accumulator := ⟨fun _ ↦ none, []⟩

def branchFrom (parent : Accumulator) : Accumulator :=
  ⟨fun _ ↦ none, parent.data :: parent.parents⟩

def set (acc : Accumulator) (id : String) (value : Json) : Accumulator :=
  { acc with data := Function.update acc.data id (some value) }

def get (acc : Accumulator) (id : String) : Option Json :=
  (acc.data :: acc.parents).findSome? fun layer ↦ layer id

def remove (acc : Accumulator) (id : String) : Accumulator :=
  { acc with data := Function.update acc.data id none }

/-- The top layer alone. -/
def intoData (acc : Accumulator) : Lookup := acc.data

theorem get_eq (acc : Accumulator) (id : String) :
    acc.get id = (acc.data id).or (acc.parents.findSome? fun layer ↦ layer id) := by
  rw [get, List.findSome?_cons]
  cases acc.data id <;> rfl

theorem data_set_of_ne (acc : Accumulator) {id k : String} (value : Json) (hk : k ≠ id) :
    (acc.set id value).data k = acc.data k :=
  Function.update_of_ne hk _ _

theorem get_set (acc : Accumulator) (id : String) (value : Json) :
    (acc.set id value).get = Function.update acc.get id (some value) := by
  funext k
  by_cases hk : k = id
  · subst hk
    rw [get_eq]
    simp [set]
  · rw [get_eq, Function.update_of_ne hk, get_eq]
    simp [set, hk]

end Accumulator

/-! ## Compiled flows -/

/-- What a flow does when a block answers with an error. -/
inductive OnError
  | stop
  | continue
deriving DecidableEq, Repr

/-- Where a routing entry leads. -/
inductive NextTarget
  | step (index : ℕ)
  | missingStep (id : String)
  | flow (id : String)
  | none
deriving DecidableEq, Repr

structure CompiledNextEntry where
  when? : Option (String × (Lookup → Except String Bool))
  target : NextTarget

/-- A fan-out expression with its text. -/
structure CompiledEach where
  raw : String
  path : Lookup → Except String Json

structure StepPlan where
  id : String
  blockLabel : String
  /-- The canonical name of the block, if it is registered. -/
  target : Option String
  input : Option (Lookup → Except String Json)
  config : List (String × String)
  each : Option CompiledEach
  next : Option (List CompiledNextEntry)

inductive CompiledStep
  | mk (plan : StepPlan) (parallel : Option (List (List CompiledStep)))

namespace CompiledStep

def plan : CompiledStep → StepPlan
  | mk plan _ => plan

def parallel : CompiledStep → Option (List (List CompiledStep))
  | mk _ parallel => parallel

theorem induct {P : CompiledStep → Prop}
    (h : ∀ plan parallel, (∀ bs, parallel = some bs → ∀ b ∈ bs, ∀ s ∈ b, P s) → P (mk plan parallel)) :
    ∀ s, P s := by
  refine @CompiledStep.rec P (fun p ↦ ∀ bs, p = some bs → ∀ b ∈ bs, ∀ s ∈ b, P s)
    (fun bs ↦ ∀ b ∈ bs, ∀ s ∈ b, P s) (fun ss ↦ ∀ s ∈ ss, P s) h ?_ ?_ ?_ ?_ ?_ ?_
  · intro bs hbs
    cases hbs
  · intro bs ih cs hcs
    cases hcs
    exact ih
  · intro b hb
    exact absurd hb not_mem_nil
  · intro b bs ihb ihbs
    exact forall_mem_cons.mpr ⟨ihb, ihbs⟩
  · intro s hs
    exact absurd hs not_mem_nil
  · intro s ss ihs ihss
    exact forall_mem_cons.mpr ⟨ihs, ihss⟩

end CompiledStep

structure CompiledFlow where
  id : String
  timeout : Option ℕ
  maxSteps : ℕ
  onError : OnError
  usesAccumulator : Bool
  steps : List CompiledStep

/-! ## What validation promises -/

mutual

def stepIds : CompiledStep → List String
  | .mk plan parallel => plan.id :: parallelIds parallel
termination_by structural s => s

def parallelIds : Option (List (List CompiledStep)) → List String
  | none => []
  | some branches => branchIds branches
termination_by structural p => p

def branchIds : List (List CompiledStep) → List String
  | [] => []
  | b :: bs => stepsIds b ++ branchIds bs
termination_by structural bs => bs

def stepsIds : List CompiledStep → List String
  | [] => []
  | s :: ss => stepIds s ++ stepsIds ss
termination_by structural ss => ss

end

theorem stepsIds_eq_flatMap (ss : List CompiledStep) : stepsIds ss = ss.flatMap stepIds := by
  induction ss with
  | nil => rfl
  | cons s ss ih => rw [stepsIds, ih, flatMap_cons]

theorem branchIds_eq_flatMap (bs : List (List CompiledStep)) :
    branchIds bs = bs.flatMap fun b ↦ b.flatMap stepIds := by
  induction bs with
  | nil => rfl
  | cons b bs ih => rw [branchIds, ih, stepsIds_eq_flatMap, flatMap_cons]

mutual

def noNextInBranches : CompiledStep → Bool
  | .mk _ parallel => noNextInParallel parallel
termination_by structural s => s

def noNextInParallel : Option (List (List CompiledStep)) → Bool
  | none => true
  | some branches => noNextInBranchList branches
termination_by structural p => p

def noNextInBranchList : List (List CompiledStep) → Bool
  | [] => true
  | b :: bs => noNextInBranch b && noNextInBranchList bs
termination_by structural bs => bs

def noNextInBranch : List CompiledStep → Bool
  | [] => true
  | s :: ss => s.plan.next.isNone && noNextInBranches s && noNextInBranch ss
termination_by structural ss => ss

end

/-- The checks of validation the executor relies on for its branches: ids are unique across all
branches, no id is one the executor uses itself, and no step of a branch routes. -/
structure Validated (steps : List CompiledStep) : Prop where
  nodup : (stepsIds steps).Nodup
  reserved : "input" ∉ stepsIds steps ∧ "each" ∉ stepsIds steps
  noNext : ∀ s ∈ steps, noNextInBranches s = true

theorem stepIds_sublist {steps : List CompiledStep} {s : CompiledStep} (h : s ∈ steps) :
    (stepIds s).Sublist (stepsIds steps) := by
  induction steps with
  | nil => exact absurd h not_mem_nil
  | cons c steps ih =>
    rw [stepsIds]
    rcases mem_cons.mp h with rfl | h
    · exact sublist_append_left _ _
    · exact (ih h).trans (sublist_append_right _ _)

theorem Validated.branchIds {steps : List CompiledStep} (hv : Validated steps) {plan : StepPlan}
    {bs : List (List CompiledStep)} (h : .mk plan (some bs) ∈ steps) :
    (branchIds bs).Nodup ∧ "each" ∉ branchIds bs := by
  have hsub : (WaferRun.branchIds bs).Sublist (stepsIds steps) :=
    (sublist_cons_self plan.id _).trans (stepIds_sublist h)
  exact ⟨hv.nodup.sublist hsub, fun he ↦ hv.reserved.2 (hsub.subset he)⟩

end WaferRun

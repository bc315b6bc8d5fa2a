import WaferRun.Lib.Nesting
import WaferRun.Runtime.InitProtocol

/-!
# Calls and inits nested on one dispatch

A block called from a frame runs one level deeper than the frame, and `admit_call` refuses a call
from a frame at the maximum depth. A block that is reached before its init has run is initialised
first, on a context of its own whose depth is zero again. The frames of all dispatches form a
forest: a call lies in the frame that makes it, and an init in the frame that reached the block.

The inits are the pipeline runs of `WaferRun.Runtime.InitProtocol`, so every step here is at most
one step there. A block's code calls on the context it was given. Work on a context it keeps
(`clone_arc`) does not lie in the call that handed the context out; it is the root of a stack of its
own and starts at the depth and under the attempt of that context. Every gate of `admit_call` but
the first only refuses more calls, and a frame may stop calling at any time.

## Main result

`nested_frames_bounded`: at most `(max_call_depth + 1) * (n + 1)` calls and inits ever lie in one
another, where `n` is the number of registered blocks.
-/

open List Option Function

namespace WaferRun

namespace InitPhase

def returned : InitPhase → Bool
  | refused _ | done => true
  | _ => false

end InitPhase

namespace InitSystem.Action

/-- The steps a pipeline run takes by itself between being entered and returning. -/
def isInner : InitSystem.Action → Bool
  | wait _ | attempt _ | lock _ | settled _ | cancel _ | unlock _ | dropWait _ => true
  | enter _ _ _ | own _ | dropOwner _ | forget _ => false

end InitSystem.Action

namespace InitSystem

/-- A step moves one pipeline run, or none. It gives a name only to a run that is new, and a running
init is moved only by the drop of its owner guard. -/
theorem step_changes {s t : InitSystem} {a : Action} (h : step s a = some t) :
    (∀ e, s.phase e ≠ .absent → t.name e = s.name e) ∧
      (t.phase = s.phase ∨ ∃ d p, t.phase = Function.update s.phase d p ∧ p ≠ .absent ∧
        ∀ b, s.phase d = .running b → a = .dropOwner d) := by
  rcases a with ⟨d, name, waiter⟩ | d | d | d | d | d | d | d | d | d | a <;>
    simp only [step] at h
  · obtain ⟨⟨hphase, -⟩, h⟩ := ite_none_right_eq_some.mp h
    cases h
    refine ⟨fun e he ↦ ?_, .inr ⟨d, .entered, rfl, by simp, by simp [hphase]⟩⟩
    refine update_of_ne (fun heq ↦ he ?_) _ _
    rw [heq, hphase]
  · obtain ⟨hphase, h⟩ := ite_none_right_eq_some.mp h
    split at h
    · cases h
      exact ⟨fun _ _ ↦ rfl, .inr ⟨d, .waiting, rfl, by simp, by simp [hphase]⟩⟩
    · obtain ⟨-, h⟩ := ite_none_right_eq_some.mp h
      split at h
      · cases h
        exact ⟨fun _ _ ↦ rfl, .inr ⟨d, _, rfl, by simp, by simp [hphase]⟩⟩
      · cases h
        exact ⟨fun _ _ ↦ rfl, .inr ⟨d, _, rfl, by simp, by simp [hphase]⟩⟩
  · obtain ⟨hphase, h⟩ := ite_none_right_eq_some.mp h
    cases h
    exact ⟨fun _ _ ↦ rfl, .inr ⟨d, _, rfl, by simp, by simp [hphase]⟩⟩
  · split at h
    · next a hphase =>
      obtain ⟨-, h⟩ := ite_none_right_eq_some.mp h
      cases h
      exact ⟨fun _ _ ↦ rfl, .inr ⟨d, _, rfl, by simp, by simp [hphase]⟩⟩
    · cases h
  · split at h
    · next a hphase =>
      cases h
      exact ⟨fun _ _ ↦ rfl, .inr ⟨d, _, rfl, by simp, by simp [hphase]⟩⟩
    · cases h
  · split at h
    · next a hphase =>
      cases h
      exact ⟨fun _ _ ↦ rfl, .inr ⟨d, _, rfl, by simp, by simp [hphase]⟩⟩
    · cases h
  · split at h
    · next a hphase =>
      cases h
      exact ⟨fun _ _ ↦ rfl, .inr ⟨d, _, rfl, by simp, by simp [hphase]⟩⟩
    · cases h
  · split at h
    · next a hphase =>
      cases h
      exact ⟨fun _ _ ↦ rfl, .inr ⟨d, _, rfl, by simp, fun _ _ ↦ rfl⟩⟩
    · cases h
  · split at h
    · next a hphase =>
      cases h
      exact ⟨fun _ _ ↦ rfl, .inr ⟨d, _, rfl, by simp, by simp [hphase]⟩⟩
    · cases h
  · obtain ⟨hphase, h⟩ := ite_none_right_eq_some.mp h
    split at h
    · cases h
      exact ⟨fun _ _ ↦ rfl, .inr ⟨d, _, rfl, by simp, by simp [hphase]⟩⟩
    · cases h
      exact ⟨fun _ _ ↦ rfl, .inr ⟨d, _, rfl, by simp, by simp [hphase]⟩⟩
  · obtain ⟨-, h⟩ := ite_none_right_eq_some.mp h
    cases h
    exact ⟨fun _ _ ↦ rfl, .inl rfl⟩

theorem step_enter {s t : InitSystem} {d : ℕ} {name : String} {waiter : Option InitAttempt}
    (h : step s (.enter d name waiter) = some t) : t.phase d ≠ .absent ∧ t.name d = name := by
  rw [step] at h
  obtain ⟨-, h⟩ := ite_none_right_eq_some.mp h
  cases h
  exact ⟨by simp, update_self _ _ _⟩

theorem step_own {s t : InitSystem} {d : ℕ} {a : InitAttempt} (h : step s (.own d) = some t)
    (hphase : s.phase d = .locked a) : t.phase d = .running a := by
  rw [step, hphase] at h
  cases h
  exact update_self _ _ _

theorem name_of_step {s t : InitSystem} {a : Action} (h : step s a = some t) {d : ℕ}
    (hd : s.phase d ≠ .absent) : t.phase d ≠ .absent ∧ t.name d = s.name d := by
  obtain ⟨hname, hphase | ⟨e, p, hphase, hp, -⟩⟩ := step_changes h
  · exact ⟨hphase ▸ hd, hname d hd⟩
  refine ⟨?_, hname d hd⟩
  rw [hphase, update_apply]
  split
  · exact hp
  · exact hd

theorem running_of_step {s t : InitSystem} {a : Action} (h : step s a = some t) {d : ℕ}
    {b : InitAttempt} (hd : s.phase d = .running b) (ha : a ≠ .dropOwner d) :
    t.phase d = .running b := by
  obtain ⟨-, hphase | ⟨e, p, hphase, -, hrunning⟩⟩ := step_changes h
  · rw [hphase, hd]
  have hne : d ≠ e := by
    rintro rfl
    exact ha (hrunning b hd)
  rw [hphase, update_of_ne hne, hd]

theorem Reachable.running_inj {s : InitSystem} (hs : s.Reachable) {d e : ℕ} {a b : InitAttempt}
    (hd : s.phase d = .running a) (he : s.phase e = .running b) (hname : s.name d = s.name e) :
    d = e := by
  have hlock := hs.locks.held d (by rw [hd]; rfl)
  rw [hname, hs.locks.held e (by rw [he]; rfl)] at hlock
  exact (some.inj hlock).symm

theorem Reachable.step {s t : InitSystem} (hs : s.Reachable) {a : Action}
    (h : InitSystem.step s a = some t) : t.Reachable := by
  obtain ⟨as, has⟩ := hs
  refine ⟨as ++ [a], ?_⟩
  rw [Actions.run_append, has, bind_some, Actions.run_cons_eq_some]
  exact ⟨t, h, rfl⟩

end InitSystem

structure CallContext where
  callDepth : ℕ
  initAttempt : Option InitAttempt
deriving DecidableEq, Repr

namespace CallContext

def top : CallContext := ⟨0, none⟩

def forInit (attempt : InitAttempt) : CallContext := ⟨0, some attempt⟩

def sub (ctx : CallContext) : CallContext := ⟨ctx.callDepth + 1, ctx.initAttempt⟩

end CallContext

inductive FrameKind
  /-- A block dispatched from outside: `run_block`, `init_block` or a step of a flow. -/
  | dispatch
  /-- Work on a context that was kept. -/
  | deferred
  /-- A `call_block`. -/
  | call
  /-- The `lifecycle(Init)` a pipeline run owns. -/
  | init (d : ℕ)
deriving DecidableEq, Repr

inductive Stage
  /-- Admitted, the block's init is not looked at yet. -/
  | admitted
  /-- The block's init pipeline is running. -/
  | initializing (d : ℕ)
  /-- The block's own code runs. -/
  | running
deriving DecidableEq, Repr

structure Frame where
  kind : FrameKind
  /-- The frame this one lies in. -/
  parent : Option ℕ
  block : String
  ctx : CallContext
deriving DecidableEq, Repr

structure NestedCalls where
  inits : InitSystem
  /-- The frames that have not returned. -/
  frames : ℕ → Option Frame
  stage : ℕ → Stage
  /-- The number of the next frame. -/
  next : ℕ
  /-- The contexts that were handed to code. -/
  handed : List CallContext

namespace NestedCalls

/-- Nothing dispatched yet. -/
def init : NestedCalls where
  inits := InitSystem.init
  frames _ := none
  stage _ := .admitted
  next := 0
  handed := []

inductive Action
  /-- A block is dispatched from outside. -/
  | dispatch (block : String)
  /-- Work on a kept context begins. -/
  | defer (ctx : CallContext)
  /-- A frame calls a block. -/
  | call (f : ℕ) (block : String)
  /-- A frame finds its block's init unsettled and enters the pipeline. -/
  | lazyInit (f d : ℕ)
  /-- A pipeline run proceeds. -/
  | pipeline (a : InitSystem.Action)
  /-- The `lifecycle(Init)` of a frame's block starts. -/
  | runInit (f : ℕ)
  /-- A `lifecycle(Init)` returns or is dropped. -/
  | endInit (i : ℕ)
  /-- A frame hands over to its block's `handle`. -/
  | handle (f : ℕ)
  /-- A frame returns or is dropped. -/
  | finish (f : ℕ)

def push (s : NestedCalls) (fr : Frame) (stage : Stage) : NestedCalls :=
  { s with
    frames := Function.update s.frames s.next (some fr)
    stage := Function.update s.stage s.next stage
    next := s.next + 1 }

def pop (s : NestedCalls) (f : ℕ) : NestedCalls :=
  { s with frames := Function.update s.frames f none }

def setStage (s : NestedCalls) (f : ℕ) (stage : Stage) : NestedCalls :=
  { s with stage := Function.update s.stage f stage }

@[simp] theorem frames_push (s : NestedCalls) (fr : Frame) (stage : Stage) :
    (s.push fr stage).frames = Function.update s.frames s.next (some fr) := rfl

@[simp] theorem stage_push (s : NestedCalls) (fr : Frame) (stage : Stage) :
    (s.push fr stage).stage = Function.update s.stage s.next stage := rfl

@[simp] theorem frames_pop (s : NestedCalls) (f : ℕ) :
    (s.pop f).frames = Function.update s.frames f none := rfl

@[simp] theorem stage_setStage (s : NestedCalls) (f : ℕ) (stage : Stage) :
    (s.setStage f stage).stage = Function.update s.stage f stage := rfl

def Childless (s : NestedCalls) (f : ℕ) : Prop :=
  ∀ j < s.next, (s.frames j).bind Frame.parent ≠ some f

instance (s : NestedCalls) (f : ℕ) : Decidable (s.Childless f) :=
  inferInstanceAs (Decidable (∀ j < s.next, _))

variable (blocks : Finset String) (maxCallDepth : ℕ)

/-- One step; `none` when the action is not enabled. -/
def step (s : NestedCalls) : Action → Option NestedCalls
  | .dispatch block =>
    if block ∈ blocks then some (s.push ⟨.dispatch, none, block, .top⟩ .admitted) else none
  | .defer ctx =>
    if ctx ∈ s.handed then some (s.push ⟨.deferred, none, "", ctx⟩ .running) else none
  | .call f block =>
    match s.frames f with
    | none => none
    | some fr =>
      -- the first gate of `admit_call`, and the lookup
      if s.stage f = .running ∧ fr.ctx.callDepth < maxCallDepth ∧ block ∈ blocks then
        some (s.push ⟨.call, some f, block, fr.ctx.sub⟩ .admitted)
      else none
  | .lazyInit f d =>
    match s.frames f with
    | none => none
    | some fr =>
      if s.stage f = .admitted then
        -- the callee inherits the attempt of its caller, so this is the template's
        (s.inits.step (.enter d fr.block fr.ctx.initAttempt)).map fun inits ↦
          { s.setStage f (.initializing d) with inits }
      else none
  | .pipeline a =>
    if a.isInner then (s.inits.step a).map fun inits ↦ { s with inits } else none
  | .runInit f =>
    match s.frames f with
    | none => none
    | some fr =>
      match s.stage f with
      | .initializing d =>
        match s.inits.phase d with
        | .locked attempt =>
          (s.inits.step (.own d)).map fun inits ↦
            { s.push ⟨.init d, some f, fr.block, .forInit attempt⟩ .running with
              inits, handed := .forInit attempt :: s.handed }
        | _ => none
      | _ => none
  | .endInit i =>
    match s.frames i with
    | none => none
    | some fr =>
      match fr.kind with
      | .init d =>
        if s.Childless i then
          (s.inits.step (.dropOwner d)).map fun inits ↦ { s.pop i with inits }
        else none
      | _ => none
  | .handle f =>
    match s.frames f with
    | none => none
    | some fr =>
      match s.stage f with
      | .admitted => some { s.setStage f .running with handed := fr.ctx :: s.handed }
      | .initializing d =>
        if s.inits.phase d = .done then
          some { s.setStage f .running with handed := fr.ctx :: s.handed }
        else none
      | .running => none
  | .finish f =>
    match s.frames f with
    | none => none
    | some fr =>
      match fr.kind, s.stage f with
      | .init _, _ => none
      | _, .initializing d =>
        if (s.inits.phase d).returned ∧ s.Childless f then some (s.pop f) else none
      | _, _ => if s.Childless f then some (s.pop f) else none

def Reachable : NestedCalls → Prop := Actions.Reachable (step blocks maxCallDepth) init

variable {blocks maxCallDepth}

/-- What a step can do. -/
inductive Moves (blocks : Finset String) (maxCallDepth : ℕ) (s : NestedCalls) : NestedCalls → Prop
  | dispatch {block : String} (hblock : block ∈ blocks) :
      Moves blocks maxCallDepth s (s.push ⟨.dispatch, none, block, .top⟩ .admitted)
  | defer {ctx : CallContext} (hctx : ctx ∈ s.handed) :
      Moves blocks maxCallDepth s (s.push ⟨.deferred, none, "", ctx⟩ .running)
  | call {f : ℕ} {fr : Frame} {block : String} (hf : s.frames f = some fr)
      (hdepth : fr.ctx.callDepth < maxCallDepth) (hblock : block ∈ blocks) :
      Moves blocks maxCallDepth s (s.push ⟨.call, some f, block, fr.ctx.sub⟩ .admitted)
  | lazyInit {f d : ℕ} {fr : Frame} {inits : InitSystem} (hf : s.frames f = some fr)
      (hstage : s.stage f = .admitted)
      (hinits : s.inits.step (.enter d fr.block fr.ctx.initAttempt) = some inits) :
      Moves blocks maxCallDepth s { s.setStage f (.initializing d) with inits }
  | pipeline {a : InitSystem.Action} {inits : InitSystem} (ha : a.isInner = true)
      (hinits : s.inits.step a = some inits) : Moves blocks maxCallDepth s { s with inits }
  | runInit {f d : ℕ} {fr : Frame} {attempt : InitAttempt} {inits : InitSystem}
      (hf : s.frames f = some fr) (hstage : s.stage f = .initializing d)
      (hphase : s.inits.phase d = .locked attempt) (hinits : s.inits.step (.own d) = some inits) :
      Moves blocks maxCallDepth s
        { s.push ⟨.init d, some f, fr.block, .forInit attempt⟩ .running with
          inits, handed := .forInit attempt :: s.handed }
  | endInit {i d : ℕ} {fr : Frame} {inits : InitSystem} (hi : s.frames i = some fr)
      (hkind : fr.kind = .init d) (hchildless : s.Childless i)
      (hinits : s.inits.step (.dropOwner d) = some inits) :
      Moves blocks maxCallDepth s { s.pop i with inits }
  | handle {f : ℕ} {fr : Frame} (hf : s.frames f = some fr) :
      Moves blocks maxCallDepth s { s.setStage f .running with handed := fr.ctx :: s.handed }
  | finish {f : ℕ} {fr : Frame} (hf : s.frames f = some fr) (hkind : ∀ d, fr.kind ≠ .init d)
      (hchildless : s.Childless f) : Moves blocks maxCallDepth s (s.pop f)

theorem moves_of_step {s t : NestedCalls} {a : Action}
    (h : step blocks maxCallDepth s a = some t) : Moves blocks maxCallDepth s t := by
  rcases a with block | ctx | ⟨f, block⟩ | ⟨f, d⟩ | a | f | i | f | f <;> rw [step] at h
  · obtain ⟨hblock, h⟩ := ite_none_right_eq_some.mp h
    cases h
    exact .dispatch hblock
  · obtain ⟨hctx, h⟩ := ite_none_right_eq_some.mp h
    cases h
    exact .defer hctx
  · split at h; · cases h
    next fr hf =>
    obtain ⟨⟨-, hdepth, hblock⟩, h⟩ := ite_none_right_eq_some.mp h
    cases h
    exact .call hf hdepth hblock
  · split at h; · cases h
    next fr hf =>
    obtain ⟨hstage, h⟩ := ite_none_right_eq_some.mp h
    obtain ⟨inits, hinits, rfl⟩ := map_eq_some_iff.mp h
    exact .lazyInit hf hstage hinits
  · obtain ⟨ha, h⟩ := ite_none_right_eq_some.mp h
    obtain ⟨inits, hinits, rfl⟩ := map_eq_some_iff.mp h
    exact .pipeline ha hinits
  · split at h; · cases h
    next fr hf =>
    split at h
    · next d hstage =>
      split at h
      · next attempt hphase =>
        obtain ⟨inits, hinits, rfl⟩ := map_eq_some_iff.mp h
        exact .runInit hf hstage hphase hinits
      · cases h
    · cases h
  · split at h; · cases h
    next fr hi =>
    split at h
    · next d hkind =>
      obtain ⟨hchildless, h⟩ := ite_none_right_eq_some.mp h
      obtain ⟨inits, hinits, rfl⟩ := map_eq_some_iff.mp h
      exact .endInit hi hkind hchildless hinits
    · cases h
  · split at h; · cases h
    next fr hf =>
    split at h
    · cases h
      exact .handle hf
    · obtain ⟨-, h⟩ := ite_none_right_eq_some.mp h
      cases h
      exact .handle hf
    · cases h
  · split at h; · cases h
    next fr hf =>
    split at h
    · cases h
    · next hkind =>
      obtain ⟨⟨-, hchildless⟩, h⟩ := ite_none_right_eq_some.mp h
      cases h
      exact .finish hf hkind hchildless
    · next hkind _ =>
      obtain ⟨hchildless, h⟩ := ite_none_right_eq_some.mp h
      cases h
      exact .finish hf hkind hchildless

/-! ## What holds of every frame -/

def LiesIn (fr outer : Frame) : Prop :=
  fr.kind = .call ∧ fr.ctx.callDepth = outer.ctx.callDepth + 1 ∨
    (∃ d, fr.kind = .init d) ∧ fr.ctx.callDepth = 0

structure Inv (blocks : Finset String) (maxCallDepth : ℕ) (s : NestedCalls) : Prop where
  inits : s.inits.Reachable
  fresh : ∀ f fr, s.frames f = some fr → f < s.next
  /-- A frame lies in an earlier one that has not returned. -/
  lies : ∀ f fr p, s.frames f = some fr → fr.parent = some p →
    p < f ∧ ∃ outer, s.frames p = some outer ∧ LiesIn fr outer
  root : ∀ f fr, s.frames f = some fr → fr.parent = none → fr.kind = .dispatch ∨ fr.kind = .deferred
  depth : ∀ f fr, s.frames f = some fr → fr.ctx.callDepth ≤ maxCallDepth
  handed : ∀ ctx ∈ s.handed, ctx.callDepth ≤ maxCallDepth
  registered : ∀ f fr, s.frames f = some fr → (s.stage f ≠ .running ∨ ∃ d, fr.kind = .init d) →
    fr.block ∈ blocks
  /-- The init of a frame is the one its pipeline run owns, -/
  running : ∀ f fr d, s.frames f = some fr → fr.kind = .init d →
    ∃ a, s.inits.phase d = .running a ∧ s.inits.name d = fr.block
  /-- and no other frame has it. -/
  init_inj : ∀ f g fr fr' d, s.frames f = some fr → s.frames g = some fr' →
    fr.kind = .init d → fr'.kind = .init d → f = g
  entered : ∀ f fr d, s.frames f = some fr → s.stage f = .initializing d →
    s.inits.phase d ≠ .absent ∧ s.inits.name d = fr.block

theorem inv_init : Inv blocks maxCallDepth init where
  inits := ⟨[], rfl⟩
  fresh _ _ h := by cases h
  lies _ _ _ h := by cases h
  root _ _ h := by cases h
  depth _ _ h := by cases h
  handed _ h := absurd h not_mem_nil
  registered _ _ h := by cases h
  running _ _ _ h := by cases h
  init_inj _ _ _ _ _ h := by cases h
  entered _ _ _ h := by cases h

variable {s : NestedCalls}

theorem eq_or_of_frames_push {fr fr' : Frame} {stage : Stage} {f : ℕ}
    (h : (s.push fr stage).frames f = some fr') :
    f = s.next ∧ fr' = fr ∨ f ≠ s.next ∧ s.frames f = some fr' := by
  rw [frames_push, update_apply] at h
  split at h
  · next hf => exact Or.inl ⟨hf, (some.inj h).symm⟩
  · next hf => exact Or.inr ⟨hf, h⟩

/-- A frame is entered that lies where it should and, if it is an init, is the only one of its
run. -/
theorem Inv.push (h : Inv blocks maxCallDepth s) {fr : Frame} {stage : Stage}
    (hparent : fr.parent = none ∧ (fr.kind = .dispatch ∨ fr.kind = .deferred) ∨
      ∃ p outer, fr.parent = some p ∧ s.frames p = some outer ∧ LiesIn fr outer)
    (hdepth : fr.ctx.callDepth ≤ maxCallDepth)
    (hblock : (stage ≠ .running ∨ ∃ d, fr.kind = .init d) → fr.block ∈ blocks)
    (hinit : ∀ d, fr.kind = .init d →
      (∃ a, s.inits.phase d = .running a ∧ s.inits.name d = fr.block) ∧
        ∀ g fr', s.frames g = some fr' → fr'.kind ≠ .init d)
    (hstage : ∀ d, stage ≠ .initializing d) : Inv blocks maxCallDepth (s.push fr stage) where
  inits := h.inits
  fresh f fr' hf := by
    obtain ⟨rfl, -⟩ | ⟨-, hf⟩ := eq_or_of_frames_push hf
    · exact Nat.lt_succ_self _
    · exact (h.fresh f fr' hf).trans (Nat.lt_succ_self _)
  lies f fr' p hf hp := by
    have hold {q : ℕ} {outer : Frame} (hq : s.frames q = some outer) :
        (s.push fr stage).frames q = some outer := by
      have hne : q ≠ s.next := (h.fresh q outer hq).ne
      rw [frames_push, update_of_ne hne, hq]
    obtain ⟨rfl, rfl⟩ | ⟨-, hf⟩ := eq_or_of_frames_push hf
    · obtain ⟨hnone, -⟩ | ⟨q, outer, hq, houter, hlies⟩ := hparent
      · rw [hnone] at hp
        cases hp
      · obtain rfl : q = p := some.inj (hq.symm.trans hp)
        exact ⟨h.fresh q outer houter, outer, hold houter, hlies⟩
    · obtain ⟨hlt, outer, houter, hlies⟩ := h.lies f fr' p hf hp
      exact ⟨hlt, outer, hold houter, hlies⟩
  root f fr' hf hnone := by
    obtain ⟨-, rfl⟩ | ⟨-, hf⟩ := eq_or_of_frames_push hf
    · obtain ⟨-, hkind⟩ | ⟨q, outer, hq, -⟩ := hparent
      · exact hkind
      · rw [hq] at hnone
        cases hnone
    · exact h.root f fr' hf hnone
  depth f fr' hf := by
    obtain ⟨-, rfl⟩ | ⟨-, hf⟩ := eq_or_of_frames_push hf
    · exact hdepth
    · exact h.depth f fr' hf
  handed := h.handed
  registered f fr' hf hkind := by
    obtain ⟨rfl, rfl⟩ | ⟨hne, hf⟩ := eq_or_of_frames_push hf
    · rw [stage_push, update_self] at hkind
      exact hblock hkind
    · rw [stage_push, update_of_ne hne] at hkind
      exact h.registered f fr' hf hkind
  running f fr' d hf hkind := by
    obtain ⟨-, rfl⟩ | ⟨-, hf⟩ := eq_or_of_frames_push hf
    · exact (hinit d hkind).1
    · exact h.running f fr' d hf hkind
  init_inj f g fr₁ fr₂ d hf hg h₁ h₂ := by
    obtain ⟨hf', rfl⟩ | ⟨-, hf'⟩ := eq_or_of_frames_push hf
    · obtain ⟨hg', -⟩ | ⟨-, hg'⟩ := eq_or_of_frames_push hg
      · exact hf'.trans hg'.symm
      · exact absurd h₂ ((hinit d h₁).2 g fr₂ hg')
    · obtain ⟨-, rfl⟩ | ⟨-, hg'⟩ := eq_or_of_frames_push hg
      · exact absurd h₁ ((hinit d h₂).2 f fr₁ hf')
      · exact h.init_inj f g fr₁ fr₂ d hf' hg' h₁ h₂
  entered f fr' d hf hd := by
    obtain ⟨rfl, rfl⟩ | ⟨hne, hf⟩ := eq_or_of_frames_push hf
    · rw [stage_push, update_self] at hd
      exact absurd hd (hstage d)
    · refine h.entered f fr' d hf ?_
      rwa [stage_push, update_of_ne hne] at hd

theorem Inv.pop (h : Inv blocks maxCallDepth s) {f : ℕ} (hf : s.Childless f) :
    Inv blocks maxCallDepth (s.pop f) := by
  have hold {g : ℕ} {fr : Frame} (hg : (s.pop f).frames g = some fr) :
      g ≠ f ∧ s.frames g = some fr := by
    rw [frames_pop, update_apply] at hg
    split at hg
    · cases hg
    · next hne => exact ⟨hne, hg⟩
  exact {
    inits := h.inits
    fresh := fun g fr hg ↦ h.fresh g fr (hold hg).2
    lies := fun g fr p hg hp ↦ by
      obtain ⟨-, hg'⟩ := hold hg
      obtain ⟨hlt, outer, houter, hlies⟩ := h.lies g fr p hg' hp
      have hne : p ≠ f := by
        intro hpf
        refine hf g (h.fresh g fr hg') ?_
        rw [hg', bind_some, hp, hpf]
      refine ⟨hlt, outer, ?_, hlies⟩
      rw [frames_pop, update_of_ne hne, houter]
    root := fun g fr hg ↦ h.root g fr (hold hg).2
    depth := fun g fr hg ↦ h.depth g fr (hold hg).2
    handed := h.handed
    registered := fun g fr hg ↦ h.registered g fr (hold hg).2
    running := fun g fr d hg ↦ h.running g fr d (hold hg).2
    init_inj := fun g g' fr fr' d hg hg' ↦ h.init_inj g g' fr fr' d (hold hg).2 (hold hg').2
    entered := fun g fr d hg ↦ h.entered g fr d (hold hg).2 }

theorem Inv.stepInits (h : Inv blocks maxCallDepth s) {a : InitSystem.Action} {inits : InitSystem}
    (hinits : s.inits.step a = some inits)
    (hdrop : ∀ d, a = .dropOwner d → ∀ f fr, s.frames f = some fr → fr.kind ≠ .init d) :
    Inv blocks maxCallDepth { s with inits } where
  inits := h.inits.step hinits
  fresh := h.fresh
  lies := h.lies
  root := h.root
  depth := h.depth
  handed := h.handed
  registered := h.registered
  running f fr d hf hkind := by
    obtain ⟨b, hphase, hname⟩ := h.running f fr d hf hkind
    have hne : s.inits.phase d ≠ .absent := by simp [hphase]
    refine ⟨b, InitSystem.running_of_step hinits hphase fun ha ↦ hdrop d ha f fr hf hkind, ?_⟩
    exact (InitSystem.name_of_step hinits hne).2.trans hname
  init_inj := h.init_inj
  entered f fr d hf hd := by
    obtain ⟨hphase, hname⟩ := h.entered f fr d hf hd
    obtain ⟨hphase', hname'⟩ := InitSystem.name_of_step hinits hphase
    exact ⟨hphase', hname'.trans hname⟩

theorem Inv.setStage (h : Inv blocks maxCallDepth s) {f : ℕ} {stage : Stage}
    (hblock : ∀ fr, s.frames f = some fr → stage ≠ .running → fr.block ∈ blocks)
    (hstage : ∀ fr d, s.frames f = some fr → stage = .initializing d →
      s.inits.phase d ≠ .absent ∧ s.inits.name d = fr.block) :
    Inv blocks maxCallDepth (s.setStage f stage) where
  inits := h.inits
  fresh := h.fresh
  lies := h.lies
  root := h.root
  depth := h.depth
  handed := h.handed
  registered g fr hg hkind := by
    rw [stage_setStage, update_apply] at hkind
    rcases hkind with hkind | hkind
    · split at hkind
      · next hgf => exact hblock fr (hgf ▸ hg) hkind
      · exact h.registered g fr hg (Or.inl hkind)
    · exact h.registered g fr hg (Or.inr hkind)
  running := h.running
  init_inj := h.init_inj
  entered g fr d hg hd := by
    rw [stage_setStage, update_apply] at hd
    split at hd
    · next hgf => exact hstage fr d (hgf ▸ hg) hd
    · exact h.entered g fr d hg hd

theorem Inv.hand (h : Inv blocks maxCallDepth s) {c : CallContext}
    (hc : c.callDepth ≤ maxCallDepth) :
    Inv blocks maxCallDepth { s with handed := c :: s.handed } where
  inits := h.inits
  fresh := h.fresh
  lies := h.lies
  root := h.root
  depth := h.depth
  handed c' hc' := by
    rcases mem_cons.mp hc' with rfl | hc'
    · exact hc
    · exact h.handed c' hc'
  registered := h.registered
  running := h.running
  init_inj := h.init_inj
  entered := h.entered

theorem Inv.moves (h : Inv blocks maxCallDepth s) {t : NestedCalls}
    (hst : Moves blocks maxCallDepth s t) : Inv blocks maxCallDepth t := by
  cases hst with
  | dispatch hblock =>
    exact h.push (Or.inl ⟨rfl, Or.inl rfl⟩) (Nat.zero_le _) (fun _ ↦ hblock) (by simp) (by simp)
  | defer hctx =>
    exact h.push (Or.inl ⟨rfl, Or.inr rfl⟩) (h.handed _ hctx) (by simp) (by simp) (by simp)
  | call hf hdepth hblock =>
    exact h.push (Or.inr ⟨_, _, rfl, hf, Or.inl ⟨rfl, rfl⟩⟩) hdepth (fun _ ↦ hblock) (by simp)
      (by simp)
  | @lazyInit f d fr inits hf hstage hinits =>
    -- the run is entered under the name of the frame's block
    have hnew := InitSystem.step_enter hinits
    have hblock := h.registered f fr hf (Or.inl (by simp [hstage]))
    have hrun := h.stepInits hinits (by simp)
    refine hrun.setStage (fun fr' hf' _ ↦ ?_) fun fr' d' hf' hd' ↦ ?_
    · obtain rfl := some.inj (hf.symm.trans hf')
      exact hblock
    · obtain rfl := some.inj (hf.symm.trans hf')
      obtain rfl := Stage.initializing.inj hd'
      exact hnew
  | pipeline ha hinits =>
    refine h.stepInits hinits fun d hd ↦ ?_
    rw [hd] at ha
    cases ha
  | @runInit f d fr attempt inits hf hstage hphase hinits =>
    -- no frame had the run before, since its init was not running
    have hrunning := InitSystem.step_own hinits hphase
    obtain ⟨hentered, hname⟩ := h.entered f fr d hf hstage
    have hname' := (InitSystem.name_of_step hinits hentered).2.trans hname
    have hblock := h.registered f fr hf (Or.inl (by simp [hstage]))
    have hrun := (h.stepInits hinits (by simp)).hand (c := .forInit attempt) (Nat.zero_le _)
    refine hrun.push (Or.inr ⟨f, fr, rfl, hf, Or.inr ⟨⟨d, rfl⟩, rfl⟩⟩) (Nat.zero_le _)
      (fun _ ↦ hblock) (fun d' hd' ↦ ?_) (by simp)
    obtain rfl := FrameKind.init.inj hd'
    refine ⟨⟨attempt, hrunning, hname'⟩, fun g fr' hg hk ↦ ?_⟩
    obtain ⟨a, hrun, -⟩ := h.running g fr' d hg hk
    rw [hphase] at hrun
    cases hrun
  | @endInit i d fr inits hi hkind hchildless hinits =>
    -- with its frame gone, no frame has the run that ends
    refine (h.pop hchildless).stepInits hinits fun d' hd g fr' hg hk ↦ ?_
    obtain rfl := InitSystem.Action.dropOwner.inj hd
    rw [frames_pop, update_apply] at hg
    split at hg
    · cases hg
    · next hne => exact hne (h.init_inj g i fr' fr d hg hi hk hkind)
  | handle hf => exact (h.setStage (by simp) (by simp)).hand (h.depth _ _ hf)
  | finish hf hkind hchildless => exact h.pop hchildless

theorem Reachable.inv (h : Reachable blocks maxCallDepth s) : Inv blocks maxCallDepth s :=
  Actions.Reachable.invariant h inv_init fun _ _ _ hs hst ↦ hs.moves (moves_of_step hst)

/-! ## Stacks -/

/-- The frames that lie in one another, from the innermost to the one dispatched from outside. -/
inductive Stack (s : NestedCalls) : List ℕ → Prop
  | root {f : ℕ} {fr : Frame} (hf : s.frames f = some fr) (hparent : fr.parent = none) : Stack s [f]
  | inner {f p : ℕ} {fr : Frame} {l : List ℕ} (hf : s.frames f = some fr)
      (hparent : fr.parent = some p) (h : Stack s (p :: l)) : Stack s (f :: p :: l)

def isNested (s : NestedCalls) (f : ℕ) : Bool :=
  match (s.frames f).map Frame.kind with
  | some .call | some (.init _) => true
  | _ => false

def depthOf (s : NestedCalls) (f : ℕ) : ℕ := ((s.frames f).map fun fr ↦ fr.ctx.callDepth).getD 0

def initOf (s : NestedCalls) (f : ℕ) : Option String :=
  (s.frames f).bind fun fr ↦
    match fr.kind with
    | .init _ => some fr.block
    | _ => none

theorem initOf_eq_some {f : ℕ} {block : String} :
    s.initOf f = some block ↔
      ∃ fr d, s.frames f = some fr ∧ fr.kind = .init d ∧ fr.block = block := by
  rw [initOf, bind_eq_some_iff]
  constructor
  · rintro ⟨fr, hf, h⟩
    split at h
    · next d hkind =>
      cases h
      exact ⟨fr, d, hf, hkind, rfl⟩
    · cases h
  · rintro ⟨fr, d, hf, hkind, rfl⟩
    refine ⟨fr, hf, ?_⟩
    rw [hkind]

theorem Stack.mem_frames {l : List ℕ} (h : s.Stack l) : ∀ f ∈ l, ∃ fr, s.frames f = some fr := by
  induction h with
  | root hf hparent =>
    intro g hg
    rw [mem_singleton.mp hg]
    exact ⟨_, hf⟩
  | inner hf hparent _ ih =>
    intro g hg
    rcases mem_cons.mp hg with rfl | hg
    · exact ⟨_, hf⟩
    · exact ih g hg

theorem Inv.exists_stack (h : Inv blocks maxCallDepth s) (f : ℕ) (fr : Frame)
    (hf : s.frames f = some fr) : ∃ l, s.Stack (f :: l) := by
  induction f using Nat.strong_induction_on generalizing fr with
  | _ f ih =>
    rcases hparent : fr.parent with - | p
    · exact ⟨[], .root hf hparent⟩
    · obtain ⟨hlt, outer, houter, -⟩ := h.lies f fr p hf hparent
      obtain ⟨l, hl⟩ := ih p hlt outer houter
      exact ⟨p :: l, .inner hf hparent hl⟩

theorem Inv.stack_pairwise (h : Inv blocks maxCallDepth s) {l : List ℕ} (hl : s.Stack l) :
    l.Pairwise (· > ·) := by
  induction hl with
  | root hf hparent => exact pairwise_singleton _ _
  | @inner f p fr l hf hparent _ ih =>
    obtain ⟨hlt, -⟩ := h.lies f fr p hf hparent
    refine pairwise_cons.mpr ⟨fun g hg ↦ ?_, ih⟩
    rcases mem_cons.mp hg with rfl | hg
    · exact hlt
    · exact ((pairwise_cons.mp ih).1 g hg).trans hlt

theorem Inv.stack_nested (h : Inv blocks maxCallDepth s) {l : List ℕ} (hl : s.Stack l) :
    Nesting.Nested s.depthOf s.initOf l := by
  have hnone {f : ℕ} {fr : Frame} (hf : s.frames f = some fr) (hkind : ∀ d, fr.kind ≠ .init d) :
      s.initOf f = none := by
    refine eq_none_iff_forall_not_mem.mpr fun block hblock ↦ ?_
    obtain ⟨fr', d, hf', hd, -⟩ := initOf_eq_some.mp hblock
    obtain rfl := some.inj (hf.symm.trans hf')
    exact hkind d hd
  have hdepth {f : ℕ} {fr : Frame} (hf : s.frames f = some fr) :
      s.depthOf f = fr.ctx.callDepth := by
    rw [depthOf, hf]
    rfl
  induction hl with
  | root hf hparent =>
    refine .base (hnone hf fun d hd ↦ ?_)
    rcases h.root _ _ hf hparent with hkind | hkind <;>
    · rw [hkind] at hd
      cases hd
  | inner hf hparent _ ih =>
    obtain ⟨-, outer, houter, ⟨hkind, hd⟩ | ⟨⟨d, hkind⟩, hd⟩⟩ := h.lies _ _ _ hf hparent
    · refine .deeper (hnone hf fun d hd ↦ ?_) ?_ ih
      · rw [hkind] at hd
        cases hd
      · rw [hdepth hf, hdepth houter, hd]
    · exact .restart (initOf_eq_some.mpr ⟨_, d, hf, hkind, rfl⟩) ((hdepth hf).trans hd) ih

theorem Inv.initOf_inj (h : Inv blocks maxCallDepth s) {f g : ℕ} {block : String}
    (hf : s.initOf f = some block) (hg : s.initOf g = some block) : f = g := by
  obtain ⟨fr, d, hf, hd, hblock⟩ := initOf_eq_some.mp hf
  obtain ⟨fr', e, hg, he, hblock'⟩ := initOf_eq_some.mp hg
  obtain ⟨a, hrunning, hname⟩ := h.running f fr d hf hd
  obtain ⟨b, hrunning', hname'⟩ := h.running g fr' e hg he
  obtain rfl := h.inits.running_inj hrunning hrunning'
    (hname.trans (hblock.trans (hblock'.symm.trans hname'.symm)))
  exact h.init_inj f g fr fr' d hf hg hd he

theorem Inv.countP_lt_length (h : Inv blocks maxCallDepth s) {l : List ℕ} (hl : s.Stack l) :
    l.countP s.isNested < l.length := by
  induction hl with
  | @root f fr hf hparent =>
    have hroot : s.isNested f = false := by
      rw [isNested, hf]
      rcases h.root f fr hf hparent with hkind | hkind <;> simp [hkind]
    simp [hroot]
  | @inner f p fr l hf hparent _ ih =>
    have hle := countP_le_length (p := s.isNested) (l := [f])
    have hcons : (f :: p :: l).countP s.isNested =
        [f].countP s.isNested + (p :: l).countP s.isNested := by
      rw [← countP_append]
      rfl
    rw [hcons, length_cons]
    rw [length_singleton] at hle
    omega

/-- **Nested calls are bounded.** In whatever way the blocks call each other, in `handle` and in
`lifecycle(Init)`, and however the dispatches interleave: every frame lies in a stack, and no stack
holds more than `(max_call_depth + 1) * (n + 1)` calls and inits, `n` the number of blocks. -/
theorem nested_frames_bounded (hs : Reachable blocks maxCallDepth s) :
    (∀ f fr, s.frames f = some fr → ∃ l, s.Stack (f :: l)) ∧
    ∀ l, s.Stack l → l.countP s.isNested ≤ (maxCallDepth + 1) * (blocks.card + 1) := by
  have h := hs.inv
  refine ⟨h.exists_stack, fun l hl ↦ ?_⟩
  have hlen : l.length ≤ 1 + maxCallDepth + (maxCallDepth + 1) * blocks.card := by
    refine (h.stack_nested hl).length_le (fun f hf ↦ ?_) ?_ fun block hblock ↦ ?_
    · obtain ⟨fr, hfr⟩ := hl.mem_frames f hf
      rw [depthOf, hfr]
      exact h.depth f fr hfr
    · refine List.Nodup.filterMap (fun f g block hf hg ↦ h.initOf_inj hf hg) ?_
      exact (h.stack_pairwise hl).imp fun hgt ↦ Nat.ne_of_gt hgt
    · obtain ⟨f, -, hinit⟩ := mem_filterMap.mp hblock
      obtain ⟨fr, d, hf, hkind, rfl⟩ := initOf_eq_some.mp hinit
      exact h.registered f fr hf (Or.inr ⟨d, hkind⟩)
  have hcount := h.countP_lt_length hl
  rw [Nat.mul_succ]
  omega

/-- A dispatch initialises `t/a`, whose init calls `t/b`, which is initialised in turn. -/
def initInInit : List Action :=
  [.dispatch "t/a", .lazyInit 0 0, .pipeline (.wait 0), .pipeline (.attempt 0), .pipeline (.lock 0),
    .runInit 0, .call 1 "t/b", .lazyInit 2 1, .pipeline (.wait 1), .pipeline (.attempt 1),
    .pipeline (.lock 1), .runInit 2]

theorem nested_frames_bounded_initInInit :
    ∃ s, Reachable {"t/a", "t/b"} 1 s ∧ s.Stack [3, 2, 1, 0] ∧
      [3, 2, 1, 0].countP s.isNested ≤ (1 + 1) * (({"t/a", "t/b"} : Finset String).card + 1) := by
  have hsome : (Actions.run (step {"t/a", "t/b"} 1) init initInInit).isSome := by decide
  obtain ⟨s, hs⟩ := isSome_iff_exists.mp hsome
  obtain rfl : (Actions.run (step {"t/a", "t/b"} 1) init initInInit).get hsome = s := by simp [hs]
  have hstack : ((Actions.run (step {"t/a", "t/b"} 1) init initInInit).get hsome).Stack
      [3, 2, 1, 0] := by
    refine .inner rfl rfl (.inner rfl rfl (.inner rfl rfl (.root rfl rfl)))
  exact ⟨_, ⟨_, hs⟩, hstack, (nested_frames_bounded ⟨_, hs⟩).2 _ hstack⟩

end NestedCalls

end WaferRun

import Mathlib.Algebra.Group.Nat.Defs
import WaferRun.Lib.Actions
import WaferRun.Runtime.InitWaits

/-!
# Concurrent dispatches and the wait-for graph

`run_init_pipeline` as a step relation. A dispatch that needs a block initialised first records the
wait of the Init it runs under, if it runs under one; then it makes a fresh attempt, takes the
slot's attempt lock, owns the block while the init runs, and gives the guards back in the opposite
order. Any number of dispatches do this at once, and each step below is one critical section of the
graph's mutex or one lock operation, so every interleaving is a list of actions.

Three features of the pipeline carry the proof, and all three are visible in `step`:

* the wait is requested before the lock is queued for;
* a fresh attempt owns its block only while its dispatch holds the block's attempt lock;
* code runs on an attempt's behalf, and so can wait for it, only once the attempt owns its block:
  the Init context leaves `run_init_pipeline` in the closure that has just called `own`.

A context may outlive its Init (`clone_arc`): the waits of an attempt that has ended are steps of
the model too, until the last of its contexts is dropped (`forget`).

An attempt is known to the graph by a number, and the counter the numbers come from wraps. The
results are about the runs in which no new attempt gets the number of one that is still in use
(`Fresh`); a run of fewer than `2 ^ 64` attempts is one of them (`along_fresh_of_countP_lt`).

## Main results

* `waitGraph_deadlock_free`: in every state such a run reaches the wait-for graph has no cycle, and
  a wait is refused exactly when it would close one, with a path that spells the cycle out.
* `cycle_after_wraparound`: an attempt that waits while `2 ^ 64` others are begun may come to wait
  for its own number.
-/

open Relation

open List Function

namespace WaferRun

/-! ## Dispatches -/

/-- Where a dispatch stands in `run_init_pipeline`. -/
inductive InitPhase
  /-- No such dispatch yet. -/
  | absent
  /-- Called, nothing done. -/
  | entered
  /-- The wait was refused: `InitError::Cycle`. -/
  | refused (path : List String)
  /-- The wait, if any, is recorded. -/
  | waiting
  /-- A fresh attempt is made and the slot's attempt lock is awaited. -/
  | queued (attempt : InitAttempt)
  /-- The lock is held, the slot's state is being read. -/
  | locked (attempt : InitAttempt)
  /-- The init runs: the attempt owns its block. -/
  | running (attempt : InitAttempt)
  /-- The owner guard is gone, the lock is still held. -/
  | closing (attempt : InitAttempt)
  /-- The lock is released, the wait guard is still held. -/
  | leaving
  | done
  deriving DecidableEq

namespace InitPhase

/-- The attempt a dispatch has made and not yet let go of. -/
def attempt : InitPhase → Option InitAttempt
  | queued a | locked a | running a | closing a => some a
  | _ => none

def pending : InitPhase → Option InitAttempt
  | queued a | locked a => some a
  | _ => none

def holdsLock : InitPhase → Bool
  | locked _ | running _ | closing _ => true
  | _ => false

theorem attempt_of_pending {p : InitPhase} {a : InitAttempt} (h : p.pending = some a) :
    p.attempt = some a := by
  cases p <;> simp_all [pending, attempt]

theorem holdsLock_of_attempt {p : InitPhase} (h : p.attempt = none) : p.holdsLock = false := by
  cases p <;> simp_all [attempt, holdsLock]

end InitPhase

/-- The runtime as the init pipeline sees it. A dispatch is one call of `run_init_pipeline`. -/
structure InitSystem where
  waits : InitWaits
  /-- The dispatch that holds a block's attempt lock. -/
  lock : String → Option ℕ
  /-- The block a dispatch needs initialised. -/
  name : ℕ → String
  /-- The Init a dispatch is made under: its template's `init_attempt`. -/
  waiter : ℕ → Option InitAttempt
  /-- How far a dispatch has come. -/
  phase : ℕ → InitPhase
  /-- The attempts whose Init context has been handed to code and is not dropped. -/
  contexts : List InitAttempt

namespace InitSystem

/-- Nothing dispatched yet. -/
def init : InitSystem where
  waits := InitWaits.default
  lock := fun _ ↦ none
  name := fun _ ↦ ""
  waiter := fun _ ↦ none
  phase := fun _ ↦ .absent
  contexts := []

/-- The steps a dispatch takes. -/
inductive Action
  /-- Call `run_init_pipeline(name, .., template)`. -/
  | enter (d : ℕ) (name : String) (waiter : Option InitAttempt)
  /-- `wait_for`, or nothing when the template carries no attempt. -/
  | wait (d : ℕ)
  /-- `attempt()`. -/
  | attempt (d : ℕ)
  /-- The attempt lock is granted. -/
  | lock (d : ℕ)
  /-- The slot turned out to be settled: return its outcome. -/
  | settled (d : ℕ)
  /-- The dispatch is dropped while it awaits the lock. -/
  | cancel (d : ℕ)
  /-- `own()`: the init starts to run. -/
  | own (d : ℕ)
  /-- The init ends or is dropped: the owner guard drops. -/
  | dropOwner (d : ℕ)
  /-- The lock guard drops. -/
  | unlock (d : ℕ)
  /-- The wait guard drops. -/
  | dropWait (d : ℕ)
  /-- The last context of an attempt is dropped. -/
  | forget (a : InitAttempt)

/-- The steps that draw a number from the counter. -/
def Action.begins : Action → Bool
  | attempt _ => true
  | _ => false

/-- One step of the runtime; `none` when the action is not enabled. -/
def step (s : InitSystem) : Action → Option InitSystem
  | .enter d name waiter =>
    -- a template carries an attempt only if that attempt's Init context has reached code
    if s.phase d = .absent ∧ ∀ a ∈ waiter, a ∈ s.contexts then
      some { s with
        name := Function.update s.name d name
        waiter := Function.update s.waiter d waiter
        phase := Function.update s.phase d .entered }
    else none
  | .wait d =>
    if s.phase d = .entered then
      match s.waiter d with
      | none => some { s with phase := Function.update s.phase d .waiting }
      | some waiter =>
        -- the template, which the dispatch borrows, is such a context
        if waiter ∈ s.contexts then
          match s.waits.waitFor waiter (s.name d) with
          | (.error path, _) => some { s with phase := Function.update s.phase d (.refused path) }
          | (.ok _, waits) => some { s with waits, phase := Function.update s.phase d .waiting }
        else none
    else none
  | .attempt d =>
    if s.phase d = .waiting then
      let (a, waits) := s.waits.attempt (s.name d)
      some { s with waits, phase := Function.update s.phase d (.queued a) }
    else none
  | .lock d =>
    match s.phase d with
    | .queued a =>
      if s.lock (s.name d) = none then
        some { s with
          lock := Function.update s.lock (s.name d) (some d)
          phase := Function.update s.phase d (.locked a) }
      else none
    | _ => none
  | .settled d =>
    match s.phase d with
    | .locked _ => some { s with
        lock := Function.update s.lock (s.name d) none
        phase := Function.update s.phase d .leaving }
    | _ => none
  | .cancel d =>
    match s.phase d with
    | .queued _ => some { s with phase := Function.update s.phase d .leaving }
    | _ => none
  | .own d =>
    match s.phase d with
    | .locked a => some { s with
        waits := (s.waits.own a).2
        phase := Function.update s.phase d (.running a)
        contexts := a :: s.contexts }
    | _ => none
  | .dropOwner d =>
    match s.phase d with
    | .running a => some { s with
        waits := s.waits.dropOwner ⟨a⟩
        phase := Function.update s.phase d (.closing a) }
    | _ => none
  | .unlock d =>
    match s.phase d with
    | .closing _ => some { s with
        lock := Function.update s.lock (s.name d) none
        phase := Function.update s.phase d .leaving }
    | _ => none
  | .dropWait d =>
    if s.phase d = .leaving then
      match s.waiter d with
      | none => some { s with phase := Function.update s.phase d .done }
      | some waiter => some { s with
          waits := s.waits.dropWait ⟨waiter.id, s.name d⟩
          phase := Function.update s.phase d .done }
    else none
  | .forget a =>
    -- the Init holds its context while it runs, and a dispatch its template while it waits
    if s.waits.isRunning a = false ∧ s.waits.graph.waitsOf a.id = [] then
      some { s with contexts := s.contexts.filter (· ≠ a) }
    else none

def Reachable : InitSystem → Prop := Actions.Reachable step init

/-- What a step can do, guards and results. The graph operations are named, not unfolded, except
that a recorded wait says why it was admitted. -/
inductive Moves (s : InitSystem) : Action → InitSystem → Prop
  | enter {d : ℕ} {name : String} {waiter : Option InitAttempt} (hphase : s.phase d = .absent) :
      Moves s (.enter d name waiter) { s with
        name := Function.update s.name d name
        waiter := Function.update s.waiter d waiter
        phase := Function.update s.phase d .entered }
  | plain {x : Action} {d : ℕ} {phase : InitPhase} (hx : x.begins = false)
      (hphase : s.phase d ≠ .absent) (hlock : (s.phase d).holdsLock = false) (hnew : phase.attempt = none) :
      Moves s x { s with phase := Function.update s.phase d phase }
  | wait {d : ℕ} {waiter : InitAttempt} (hphase : s.phase d = .entered)
      (hctx : waiter ∈ s.contexts)
      (hok : ¬∃ k, s.waits.graph.owner (s.name d) = some k ∧
        ReflTransGen s.waits.graph.Edge k waiter.id) :
      Moves s (.wait d) { s with
        waits := { s.waits with graph := s.waits.graph.addWait waiter.id (s.name d) }
        phase := Function.update s.phase d .waiting }
  | attempt {d : ℕ} (hphase : s.phase d = .waiting) :
      Moves s (.attempt d) { s with
        waits := { s.waits with nextAttempt := s.waits.nextAttempt + 1 }
        phase := Function.update s.phase d (.queued ⟨s.waits.nextAttempt, s.name d⟩) }
  | lock {d : ℕ} {a : InitAttempt} (hphase : s.phase d = .queued a)
      (hfree : s.lock (s.name d) = none) :
      Moves s (.lock d) { s with
        lock := Function.update s.lock (s.name d) (some d)
        phase := Function.update s.phase d (.locked a) }
  | unlock {x : Action} {d : ℕ} (hx : x.begins = false) (hphase : (s.phase d).holdsLock)
      (hrun : ∀ a, s.phase d ≠ .running a) :
      Moves s x { s with
        lock := Function.update s.lock (s.name d) none
        phase := Function.update s.phase d .leaving }
  | own {d : ℕ} {a : InitAttempt} (hphase : s.phase d = .locked a) :
      Moves s (.own d) { s with
        waits := (s.waits.own a).2
        phase := Function.update s.phase d (.running a)
        contexts := a :: s.contexts }
  | dropOwner {d : ℕ} {a : InitAttempt} (hphase : s.phase d = .running a) :
      Moves s (.dropOwner d) { s with
        waits := s.waits.dropOwner ⟨a⟩
        phase := Function.update s.phase d (.closing a) }
  | dropWait {d : ℕ} {waiter : InitAttempt} (hphase : s.phase d = .leaving) :
      Moves s (.dropWait d) { s with
        waits := s.waits.dropWait ⟨waiter.id, s.name d⟩
        phase := Function.update s.phase d .done }
  | forget {a : InitAttempt} (hwaits : s.waits.graph.waitsOf a.id = []) :
      Moves s (.forget a) { s with contexts := s.contexts.filter (· ≠ a) }

theorem moves_of_step {s t : InitSystem} {a : Action} (h : step s a = some t) : Moves s a t := by
  cases a with
  | enter d name waiter =>
    simp only [step, Option.ite_none_right_eq_some, Option.some.injEq] at h
    obtain ⟨⟨hphase, -⟩, rfl⟩ := h
    exact .enter hphase
  | wait d =>
    simp only [step, Option.ite_none_right_eq_some] at h
    obtain ⟨hphase, h⟩ := h
    have hplain : ∀ p : InitPhase, p.attempt = none →
        Moves s (.wait d) { s with phase := Function.update s.phase d p } := fun p hp ↦
      .plain rfl (by simp [hphase]) (by simp [hphase, InitPhase.holdsLock]) hp
    split at h
    · cases h
      exact hplain _ rfl
    · next waiter hwaiter =>
      obtain ⟨hctx, h⟩ := Option.ite_none_right_eq_some.mp h
      rcases s.waits.waitFor_spec waiter (s.name d) with ⟨-, tail, hw, -, -⟩ | ⟨hok, hw⟩
      · rw [hw] at h
        cases h
        exact hplain _ rfl
      · rw [hw] at h
        cases h
        exact .wait hphase hctx hok
  | attempt d =>
    simp only [step, Option.ite_none_right_eq_some] at h
    obtain ⟨hphase, h⟩ := h
    cases h
    exact .attempt hphase
  | lock d =>
    simp only [step] at h
    split at h
    · next a hphase =>
      simp only [Option.ite_none_right_eq_some] at h
      obtain ⟨hfree, h⟩ := h
      cases h
      exact .lock hphase hfree
    · cases h
  | settled d =>
    simp only [step] at h
    split at h
    · next a hphase =>
      cases h
      exact .unlock rfl (by rw [hphase]; rfl) (by simp [hphase])
    · cases h
  | cancel d =>
    simp only [step] at h
    split at h
    · next a hphase =>
      cases h
      exact .plain rfl (by simp [hphase]) (by simp [hphase, InitPhase.holdsLock]) rfl
    · cases h
  | own d =>
    simp only [step] at h
    split at h
    · next a hphase =>
      cases h
      exact .own hphase
    · cases h
  | dropOwner d =>
    simp only [step] at h
    split at h
    · next a hphase =>
      cases h
      exact .dropOwner hphase
    · cases h
  | unlock d =>
    simp only [step] at h
    split at h
    · next a hphase =>
      cases h
      exact .unlock rfl (by rw [hphase]; rfl) (by simp [hphase])
    · cases h
  | dropWait d =>
    simp only [step, Option.ite_none_right_eq_some] at h
    obtain ⟨hphase, h⟩ := h
    split at h
    · cases h
      exact .plain rfl (by simp [hphase]) (by simp [hphase, InitPhase.holdsLock]) rfl
    · next waiter hwaiter =>
      cases h
      exact .dropWait hphase
  | forget a =>
    simp only [step, Option.ite_none_right_eq_some] at h
    obtain ⟨⟨-, hwaits⟩, h⟩ := h
    cases h
    exact .forget hwaits

/-! ## The dispatch table

Everything but the graph: which dispatch holds which lock, and which attempts are in use. -/

structure Locks (s : InitSystem) : Prop where
  named : ∀ d a, (s.phase d).attempt = some a → a.block = s.name d
  held : ∀ d, (s.phase d).holdsLock → s.lock (s.name d) = some d

/-- The attempts in use: those that a dispatch has, and those with a context. -/
def Known (s : InitSystem) (a : InitAttempt) : Prop :=
  a ∈ s.contexts ∨ ∃ d, (s.phase d).attempt = some a

/-- The step begins no attempt, or one whose number no attempt in use has. -/
def Fresh (s : InitSystem) : Action → Prop
  | .attempt _ => ∀ a, s.Known a → a.id ≠ s.waits.nextAttempt
  | _ => True

structure Table (s : InitSystem) : Prop extends Locks s where
  /-- An id names one attempt, -/
  known_inj : ∀ a a', s.Known a → s.Known a' → a.id = a'.id → a = a'
  /-- and an attempt belongs to one dispatch. -/
  dispatch_inj : ∀ d d' a, (s.phase d).attempt = some a → (s.phase d').attempt = some a → d = d'
  /-- An attempt that has not started has no context. -/
  pending : ∀ d a, (s.phase d).pending = some a → a ∉ s.contexts

theorem locks_init : Locks init where
  named d a h := by simp [init, InitPhase.attempt] at h
  held d h := by simp [init, InitPhase.holdsLock] at h

theorem table_init : Table init where
  toLocks := locks_init
  known_inj a a' h := by simp [Known, init, InitPhase.attempt] at h
  dispatch_inj d d' a h := by simp [init, InitPhase.attempt] at h
  pending d a h := by simp [init, InitPhase.pending] at h

/-- A step moves one dispatch, which keeps its attempt, lets go of it, or makes the one the counter
names. -/
theorem phase_moves {s t : InitSystem} {x : Action} (hst : Moves s x t) :
    ∃ d p, t.phase = Function.update s.phase d p ∧
      (p.attempt = none ∨ p.attempt = (s.phase d).attempt ∨
        p.attempt = some ⟨s.waits.nextAttempt, s.name d⟩ ∧ x = .attempt d) := by
  cases hst with
  | enter _ => exact ⟨_, _, rfl, .inl rfl⟩
  | plain _ _ _ hnew => exact ⟨_, _, rfl, .inl hnew⟩
  | wait _ _ _ => exact ⟨_, _, rfl, .inl rfl⟩
  | attempt _ => exact ⟨_, _, rfl, .inr (.inr ⟨rfl, rfl⟩)⟩
  | lock hphase _ => exact ⟨_, _, rfl, .inr (.inl (by rw [hphase]; rfl))⟩
  | unlock _ _ _ => exact ⟨_, _, rfl, .inl rfl⟩
  | own hphase => exact ⟨_, _, rfl, .inr (.inl (by rw [hphase]; rfl))⟩
  | dropOwner hphase => exact ⟨_, _, rfl, .inr (.inl (by rw [hphase]; rfl))⟩
  | dropWait _ => exact ⟨_, _, rfl, .inl rfl⟩
  | forget _ => exact ⟨0, _, (update_eq_self 0 _).symm, .inr (.inl rfl)⟩

theorem contexts_moves {s t : InitSystem} {x : Action} (hst : Moves s x t) :
    t.contexts ⊆ s.contexts ∨ ∃ d a, s.phase d = .locked a ∧ t.contexts = a :: s.contexts ∧
      t.phase = Function.update s.phase d (.running a) := by
  cases hst with
  | own hphase => exact .inr ⟨_, _, hphase, rfl, rfl⟩
  | forget _ => exact .inl (filter_subset_self _)
  | _ => exact .inl (List.Subset.refl _)

theorem known_of_moves {s t : InitSystem} {x : Action} (hst : Moves s x t) :
    ∃ d, ∀ a, t.Known a → s.Known a ∨
      a = ⟨s.waits.nextAttempt, s.name d⟩ ∧ x = .attempt d := by
  obtain ⟨d, p, hphase, hp⟩ := phase_moves hst
  refine ⟨d, ?_⟩
  rintro a (ha | ⟨d', hd'⟩)
  · rcases contexts_moves hst with hctx | ⟨d₁, a₁, hlocked, hctx, -⟩
    · exact .inl (.inl (hctx ha))
    · rw [hctx] at ha
      rcases mem_cons.mp ha with rfl | ha
      · exact .inl (.inr ⟨d₁, by rw [hlocked]; rfl⟩)
      · exact .inl (.inl ha)
  · rw [hphase, update_apply] at hd'
    split at hd'
    · rcases hp with hp | hp | ⟨hp, hx⟩
      · rw [hp] at hd'
        cases hd'
      · exact .inl (.inr ⟨d, hp ▸ hd'⟩)
      · rw [hp, Option.some.injEq] at hd'
        exact .inr ⟨hd'.symm, hx⟩
    · exact .inl (.inr ⟨d', hd'⟩)

theorem dispatch_inj_moves {s t : InitSystem} {x : Action} (h : Table s) (hst : Moves s x t)
    (hfresh : s.Fresh x) {d₁ d₂ : ℕ} {a : InitAttempt} (h₁ : (t.phase d₁).attempt = some a)
    (h₂ : (t.phase d₂).attempt = some a) : d₁ = d₂ := by
  obtain ⟨d, p, hphase, hp⟩ := phase_moves hst
  rw [hphase, update_apply] at h₁ h₂
  -- an attempt two dispatches share is old on one side, so it is not the fresh one on the other
  have key : ∀ d', p.attempt = some a → (s.phase d').attempt = some a → d = d' := by
    intro d' hpa hd'
    rcases hp with hp | hp | ⟨hp, rfl⟩
    · rw [hp] at hpa
      cases hpa
    · exact h.dispatch_inj d d' a (hp ▸ hpa) hd'
    · rw [hp, Option.some.injEq] at hpa
      exact absurd (congrArg InitAttempt.id hpa).symm (hfresh a (.inr ⟨d', hd'⟩))
  split at h₁ <;> split at h₂
  · next h₁' h₂' => exact h₁'.trans h₂'.symm
  · next h₁' _ => exact h₁'.trans (key d₂ h₁ h₂)
  · next _ h₂' => exact ((key d₁ h₂ h₁).symm).trans h₂'.symm
  · exact h.dispatch_inj _ _ a h₁ h₂

theorem pending_moves {s t : InitSystem} {x : Action} (h : Table s) (hst : Moves s x t)
    (hfresh : s.Fresh x) {d : ℕ} {a : InitAttempt} (hd : (t.phase d).pending = some a) :
    a ∉ t.contexts := by
  rcases contexts_moves hst with hctx | ⟨d', a', hlocked, hctx, hphase⟩
  · -- no context is new, and a pending attempt was pending before or is fresh
    refine fun ha ↦ absurd (hctx ha) ?_
    cases hst with
    | @attempt d₁ hwaiting =>
      simp only [update_apply] at hd
      split at hd
      · obtain rfl : (⟨s.waits.nextAttempt, s.name d₁⟩ : InitAttempt) = a := by
          simpa [InitPhase.pending] using hd
        exact fun ha ↦ hfresh _ (.inl ha) rfl
      · exact h.pending d a hd
    | @lock d₁ a₁ hqueued hfree =>
      simp only [update_apply] at hd
      split at hd
      · exact h.pending d₁ a (by rw [hqueued]; exact hd)
      · exact h.pending d a hd
    | @plain _ d₁ p _ hne hlock hnew =>
      simp only [update_apply] at hd
      split at hd
      · rw [InitPhase.attempt_of_pending hd] at hnew
        cases hnew
      · exact h.pending d a hd
    | forget _ => exact h.pending d a hd
    | _ =>
      simp only [update_apply] at hd
      split at hd
      · cases hd
      · exact h.pending d a hd
  · rw [hphase, update_apply] at hd
    split at hd
    · cases hd
    · next hne =>
      rw [hctx, mem_cons, not_or]
      refine ⟨fun haa ↦ hne (h.dispatch_inj d d' a ?_ ?_), h.pending d a hd⟩
      · exact InitPhase.attempt_of_pending hd
      · rw [hlocked, haa]
        rfl

theorem named_moves {s t : InitSystem} {x : Action} (h : Locks s) (hst : Moves s x t) {d : ℕ}
    {a : InitAttempt} (hd : (t.phase d).attempt = some a) : a.block = t.name d := by
  have hold : ∀ {d' : ℕ}, d' = d → (s.phase d').attempt = some a → a.block = s.name d :=
    fun hdd ha ↦ h.named d a (hdd ▸ ha)
  cases hst with
  | enter hphase =>
    simp only [update_apply] at hd ⊢
    split at hd
    · cases hd
    · next hne => rw [if_neg hne]; exact h.named d a hd
  | forget _ => exact h.named d a hd
  | attempt hphase =>
    simp only [update_apply] at hd
    split at hd
    · next heq =>
      rw [InitPhase.attempt, Option.some.injEq] at hd
      rw [← hd, heq]
    · exact h.named d a hd
  | plain _ hne hlock hnew =>
    simp only [update_apply] at hd
    split at hd
    · rw [hnew] at hd
      cases hd
    · exact h.named d a hd
  | lock hphase _ =>
    simp only [update_apply] at hd
    split at hd
    · next heq => exact hold heq.symm (by rw [hphase]; exact hd)
    · exact h.named d a hd
  | own hphase =>
    simp only [update_apply] at hd
    split at hd
    · next heq => exact hold heq.symm (by rw [hphase]; exact hd)
    · exact h.named d a hd
  | dropOwner hphase =>
    simp only [update_apply] at hd
    split at hd
    · next heq => exact hold heq.symm (by rw [hphase]; exact hd)
    · exact h.named d a hd
  | _ =>
    simp only [update_apply] at hd
    split at hd
    · cases hd
    · exact h.named d a hd

theorem held_moves {s t : InitSystem} {x : Action} (h : Locks s) (hst : Moves s x t) {d : ℕ}
    (hd : (t.phase d).holdsLock) : t.lock (t.name d) = some d := by
  cases hst with
  | forget _ => exact h.held d hd
  | @enter d₁ name waiter hphase =>
    simp only [update_apply] at hd ⊢
    split at hd
    · cases hd
    · next hne => rw [if_neg hne]; exact h.held d hd
  | @lock d₁ a hphase hfree =>
    simp only [update_apply] at hd ⊢
    split at hd
    · next heq => rw [heq, if_pos rfl]
    · have hlock := h.held d hd
      rw [if_neg fun hname ↦ by rw [hname, hfree] at hlock; cases hlock]
      exact hlock
  | @unlock _ d₁ _ hphase hrun =>
    simp only [update_apply] at hd ⊢
    split at hd
    · cases hd
    · next hne =>
      have hlock := h.held d hd
      rw [if_neg fun hname ↦ by
        rw [hname, h.held d₁ hphase, Option.some.injEq] at hlock
        exact hne hlock.symm]
      exact hlock
  | @plain _ d₁ p _ hne hlock hnew =>
    simp only [update_apply] at hd
    split at hd
    · rw [InitPhase.holdsLock_of_attempt hnew] at hd
      cases hd
    · exact h.held d hd
  | @own d₁ a hphase =>
    simp only [update_apply] at hd
    split at hd
    · next heq => exact heq ▸ h.held d₁ (by rw [hphase]; rfl)
    · exact h.held d hd
  | @dropOwner d₁ a hphase =>
    simp only [update_apply] at hd
    split at hd
    · next heq => exact heq ▸ h.held d₁ (by rw [hphase]; rfl)
    · exact h.held d hd
  | _ =>
    simp only [update_apply] at hd
    split at hd
    · cases hd
    · exact h.held d hd

theorem locks_moves {s t : InitSystem} {x : Action} (h : Locks s) (hst : Moves s x t) : Locks t :=
  ⟨fun _ _ hd ↦ named_moves h hst hd, fun _ hd ↦ held_moves h hst hd⟩

theorem Reachable.locks {s : InitSystem} (h : s.Reachable) : Locks s :=
  Actions.Reachable.invariant h locks_init fun _ _ _ hs hst ↦ locks_moves hs (moves_of_step hst)

theorem table_moves {s t : InitSystem} {x : Action} (h : Table s) (hst : Moves s x t)
    (hfresh : s.Fresh x) : Table t where
  toLocks := locks_moves h.toLocks hst
  known_inj a a' ha ha' heq := by
    obtain ⟨d, hknown⟩ := known_of_moves hst
    rcases hknown a ha with ha | ⟨rfl, rfl⟩ <;> rcases hknown a' ha' with ha' | ⟨rfl, hx⟩
    · exact h.known_inj a a' ha ha' heq
    · rw [hx] at hfresh
      exact absurd heq (hfresh a ha)
    · exact absurd heq.symm (hfresh a' ha')
    · rfl
  dispatch_inj _ _ _ h₁ h₂ := dispatch_inj_moves h hst hfresh h₁ h₂
  pending _ _ hd := pending_moves h hst hfresh hd

/-! ## Numbers that come back -/

theorem nextAttempt_moves {s t : InitSystem} {x : Action} (hst : Moves s x t) :
    t.waits.nextAttempt = s.waits.nextAttempt + if x.begins then 1 else 0 := by
  cases hst with
  | attempt _ => rfl
  | plain hx _ _ _ | unlock hx _ _ => simp [hx]
  | @dropOwner d a _ =>
    rw [InitWaits.dropOwner]
    split <;> simp [Action.begins]
  | dropWait _ =>
    rw [InitWaits.dropWait]
    split <;> simp [Action.begins]
  | _ => simp [Action.begins, InitWaits.own]

/-- While the counter does not wrap, it is above every number in use. -/
theorem along_fresh {s : InitSystem} {as : List Action}
    (hcount : s.waits.nextAttempt.toNat + as.countP Action.begins < 2 ^ 64)
    (hlt : ∀ a, s.Known a → a.id < s.waits.nextAttempt) : Actions.Along step Fresh s as := by
  induction as generalizing s with
  | nil => trivial
  | cons x as ih =>
    have hfresh : s.Fresh x := by
      cases x with
      | attempt d => exact fun a ha ↦ UInt64.ne_of_lt (hlt a ha)
      | _ => trivial
    refine ⟨hfresh, fun t ht ↦ ih ?_ fun a ha ↦ ?_⟩
    · rw [nextAttempt_moves (moves_of_step ht)]
      rw [countP_cons] at hcount
      cases hx : x.begins <;> simp [hx, UInt64.toNat_add] at hcount ⊢ <;> omega
    · obtain ⟨d, hknown⟩ := known_of_moves (moves_of_step ht)
      rw [UInt64.lt_iff_toNat_lt, nextAttempt_moves (moves_of_step ht)]
      rw [countP_cons] at hcount
      rcases hknown a ha with ha | ⟨rfl, rfl⟩
      · have hold := UInt64.lt_iff_toNat_lt.mp (hlt a ha)
        cases hx : x.begins <;> simp [hx, UInt64.toNat_add] at hcount ⊢ <;> omega
      · simp [Action.begins, UInt64.toNat_add] at hcount ⊢
        omega

theorem along_fresh_of_countP_lt {as : List Action} (h : as.countP Action.begins < 2 ^ 64) :
    Actions.Along step Fresh init as :=
  along_fresh (by simpa [init, InitWaits.default] using h) fun a ha ↦ by
    simp [Known, init, InitPhase.attempt] at ha

/-! ## The graph

An owner is a running attempt, so at most one dispatch per block stands behind it, and a wait is
recorded only for an attempt whose context is in use. A fresh attempt has neither, which is why
`own` cannot close a cycle: it adds edges into an attempt that waits for nothing. -/

structure Inv (s : InitSystem) : Prop extends Table s where
  /-- The wait-for graph has no cycle. -/
  acyclic : Search.Acyclic s.waits.graph.Edge
  /-- An owner is the running attempt of some dispatch. -/
  owned : ∀ b k, s.waits.graph.owner b = some k →
    ∃ d a, s.phase d = .running a ∧ a.id = k ∧ a.block = b
  /-- Only code that runs on an attempt's behalf waits for it. -/
  waits_context : ∀ k b, b ∈ s.waits.graph.waitsOf k → ∃ a ∈ s.contexts, a.id = k

theorem inv_init : Inv init where
  toTable := table_init
  acyclic a ha := by
    obtain ⟨_, ⟨b, hb, _⟩, -⟩ := TransGen.head'_iff.mp ha
    simp [init, InitWaits.default, WaitGraph.waitsOf] at hb
  owned b k h := by simp [init, InitWaits.default, WaitGraph.owner] at h
  waits_context k b h := by simp [init, InitWaits.default, WaitGraph.waitsOf] at h

theorem Inv.owner_eq_none {s : InitSystem} (h : Inv s) {d : ℕ} {a : InitAttempt}
    (hphase : s.phase d = .locked a) : s.waits.graph.owner a.block = none := by
  by_contra hne
  obtain ⟨k, hk⟩ := Option.ne_none_iff_exists'.mp hne
  obtain ⟨d', a', hrun, -, hblock⟩ := h.owned _ _ hk
  have hname : s.name d' = s.name d := by
    rw [← h.named d' a' (by rw [hrun]; rfl), ← h.named d a (by rw [hphase]; rfl), hblock]
  have hd : s.lock (s.name d) = some d := h.held d (by rw [hphase]; rfl)
  have hd' : s.lock (s.name d') = some d' := h.held d' (by rw [hrun]; rfl)
  rw [hname, hd, Option.some.injEq] at hd'
  rw [← hd', hphase] at hrun
  cases hrun

theorem Inv.waitsOf_pending {s : InitSystem} (h : Inv s) {d : ℕ} {a : InitAttempt}
    (hphase : (s.phase d).pending = some a) : s.waits.graph.waitsOf a.id = [] := by
  refine eq_nil_iff_forall_not_mem.mpr fun b hb ↦ ?_
  obtain ⟨a', ha', hid⟩ := h.waits_context _ _ hb
  have ha : s.Known a := .inr ⟨d, InitPhase.attempt_of_pending hphase⟩
  exact h.pending d a hphase (h.known_inj a' a (.inl ha') ha hid ▸ ha')

theorem acyclic_moves {s t : InitSystem} {x : Action} (h : Inv s) (hst : Moves s x t) :
    Search.Acyclic t.waits.graph.Edge := by
  cases hst with
  | wait hphase hctx hok =>
    refine h.acyclic.add_source (fun k k' hk ↦ WaitGraph.edge_addWait.mpr (.inl hk))
      (fun k k' hk ↦ WaitGraph.edge_addWait.mp hk) fun k hk hpath ↦ hok ⟨k, hk, hpath⟩
  | @own d a hphase =>
    have hnone := h.owner_eq_none hphase
    refine h.acyclic.add_sink (v := a.id) (fun k k' hk ↦ ?_) fun k hk ↦ ?_
    · obtain ⟨b, hb, hkb⟩ := hk
      rw [InitWaits.owner_own] at hkb
      split at hkb
      · exact .inr (by simpa [eq_comm] using hkb)
      · exact .inl ⟨b, hb, hkb⟩
    · obtain ⟨b, hb, -⟩ := hk
      have hb' : b ∈ s.waits.graph.waitsOf a.id := hb
      rw [h.waitsOf_pending (d := d) (by rw [hphase]; rfl)] at hb'
      cases hb'
  | dropOwner hphase =>
    refine h.acyclic.mono fun k k' hk ↦ ?_
    obtain ⟨b, hb, hkb⟩ := hk
    rw [InitWaits.owner_dropOwner] at hkb
    split at hkb
    · cases hkb
    · rw [WaitGraph.waitsOf, InitWaits.waits_dropOwner] at hb
      exact ⟨b, hb, hkb⟩
  | dropWait hphase =>
    refine h.acyclic.mono fun k k' hk ↦ ?_
    obtain ⟨b, hb, hkb⟩ := hk
    rw [InitWaits.owner_dropWait] at hkb
    exact ⟨b, InitWaits.waitsOf_dropWait_subset _ _ _ b hb, hkb⟩
  | _ => exact h.acyclic

theorem owned_moves {s t : InitSystem} {x : Action} (h : Inv s) (hst : Moves s x t) (b : String)
    (k : UInt64) (hk : t.waits.graph.owner b = some k) :
    ∃ d a, t.phase d = .running a ∧ a.id = k ∧ a.block = b := by
  have howned := h.owned b k
  have hsame : ∀ {d : ℕ} {p : InitPhase}, (∀ a, s.phase d ≠ .running a) →
      (∃ d a, s.phase d = .running a ∧ a.id = k ∧ a.block = b) →
        ∃ d' a, Function.update s.phase d p d' = .running a ∧ a.id = k ∧ a.block = b := by
    rintro d p hd ⟨d', a, hrun, hid, hblock⟩
    have hne : d' ≠ d := fun hdd ↦ hd a (hdd ▸ hrun)
    exact ⟨d', a, (update_of_ne hne _ _).trans hrun, hid, hblock⟩
  cases hst with
  | @own d a hphase =>
    rw [InitWaits.owner_own] at hk
    split at hk
    · next hb => exact ⟨d, a, update_self .., by simpa using hk, hb.symm⟩
    · obtain ⟨d', a', hrun, hid, hblock⟩ := howned hk
      have hd : d' ≠ d := by
        rintro rfl
        rw [hphase] at hrun
        cases hrun
      exact ⟨d', a', (update_of_ne hd _ _).trans hrun, hid, hblock⟩
  | @dropOwner d a hphase =>
    rw [InitWaits.owner_dropOwner] at hk
    split at hk
    · cases hk
    · next hne =>
      obtain ⟨d', a', hrun, hid, hblock⟩ := howned hk
      have hd : d' ≠ d := by
        rintro rfl
        rw [hphase] at hrun
        cases hrun
        exact hne ⟨hblock.symm, hid ▸ hk⟩
      exact ⟨d', a', (update_of_ne hd _ _).trans hrun, hid, hblock⟩
  | dropWait hphase =>
    rw [InitWaits.owner_dropWait] at hk
    exact hsame (by simp [hphase]) (howned hk)
  | forget _ => exact howned hk
  | enter hphase | wait hphase _ _ | attempt hphase | lock hphase _ =>
    exact hsame (by simp [hphase]) (howned hk)
  | plain _ _ hlock _ => exact hsame (fun a ha ↦ by rw [ha] at hlock; cases hlock) (howned hk)
  | unlock _ _ hrun => exact hsame hrun (howned hk)

theorem waits_context_moves {s t : InitSystem} {x : Action} (h : Inv s) (hst : Moves s x t)
    (k : UInt64) (b : String) (hb : b ∈ t.waits.graph.waitsOf k) : ∃ a ∈ t.contexts, a.id = k := by
  have hctx := h.waits_context k
  cases hst with
  | @wait d waiter hphase hwaiter hok =>
    rw [WaitGraph.waitsOf_addWait] at hb
    split at hb
    · next hk => exact ⟨waiter, hwaiter, hk.symm⟩
    · exact hctx b hb
  | own hphase =>
    obtain ⟨a', ha', hid⟩ := hctx b hb
    exact ⟨a', mem_cons_of_mem _ ha', hid⟩
  | dropOwner hphase =>
    rw [WaitGraph.waitsOf, InitWaits.waits_dropOwner] at hb
    exact hctx b hb
  | dropWait hphase => exact hctx b (InitWaits.waitsOf_dropWait_subset _ _ _ b hb)
  | @forget a hwaits =>
    obtain ⟨a', ha', hid⟩ := hctx b hb
    refine ⟨a', mem_filter.mpr ⟨ha', ?_⟩, hid⟩
    -- an attempt that waits for `b` is not the one that is forgotten
    have hne : a' ≠ a := by
      rintro rfl
      rw [hid] at hwaits
      have hnil : b ∈ s.waits.graph.waitsOf k := hb
      rw [hwaits] at hnil
      cases hnil
    simpa using hne
  | _ => exact hctx b hb

theorem inv_step {s t : InitSystem} {a : Action} (h : Inv s) (hfresh : s.Fresh a)
    (hst : step s a = some t) : Inv t :=
  have hm := moves_of_step hst
  ⟨table_moves h.toTable hm hfresh, acyclic_moves h hm, owned_moves h hm,
    waits_context_moves h hm⟩

theorem inv_of_run {as : List Action} {s : InitSystem} (hrun : Actions.run step init as = some s)
    (hfresh : Actions.Along step Fresh init as) : Inv s :=
  Actions.Along.invariant (fun _ _ _ hs hf hst ↦ inv_step hs hf hst) inv_init hfresh hrun

/-! ## Deadlock freedom -/

/-- **Init deadlock freedom.** In every state that is reached without giving a new attempt the
number of one in use, the graph attempt → awaited block → owning attempt has no cycle. A wait that
code on behalf of `waiter` asks for is refused exactly when it would close a cycle through `waiter`,
and the path it is refused with starts and ends at the waiter's block, every pair after the first a
recorded hop and the first the hop the wait would have added. -/
theorem waitGraph_deadlock_free {as : List Action} {s : InitSystem}
    (hrun : Actions.run step init as = some s) (hfresh : Actions.Along step Fresh init as) :
    Search.Acyclic s.waits.graph.Edge ∧
    ∀ waiter ∈ s.contexts, ∀ target : String,
      ((∃ path, (s.waits.waitFor waiter target).1 = .error path) ↔
        TransGen (s.waits.graph.addWait waiter.id target).Edge waiter.id waiter.id) ∧
      ∀ path, (s.waits.waitFor waiter target).1 = .error path →
        path.head? = some waiter.block ∧ path.getLast? = some waiter.block ∧
        path.tail.head? = some target ∧ s.waits.graph.owner waiter.block = some waiter.id ∧
        List.IsChain (s.waits.graph.addWait waiter.id target).Hop path ∧
        List.IsChain s.waits.graph.Hop path.tail := by
  have hinv := inv_of_run hrun hfresh
  refine ⟨hinv.acyclic, fun waiter hwaiter target ↦ ?_⟩
  -- a cycle through the waiter uses the new edge, whose target is the owner of `target`
  have hcycle : TransGen (s.waits.graph.addWait waiter.id target).Edge waiter.id waiter.id ↔
      ∃ k, s.waits.graph.owner target = some k ∧ ReflTransGen s.waits.graph.Edge k waiter.id := by
    constructor
    · intro hc
      rcases Search.transGen_of_added_source (r := s.waits.graph.Edge)
        (fun _ _ hr ↦ WaitGraph.edge_addWait.mp hr) hc with hc | ⟨k, hk, -, -, hpath⟩
      · exact absurd hc (hinv.acyclic _)
      · exact ⟨k, hk, hpath⟩
    · rintro ⟨k, hk, hpath⟩
      refine TransGen.head' (WaitGraph.edge_addWait.mpr (.inr ⟨rfl, hk⟩)) ?_
      exact ReflTransGen.mono (fun _ _ hr ↦ WaitGraph.edge_addWait.mpr (.inl hr)) _ _ hpath
  rw [hcycle]
  rcases s.waits.waitFor_spec waiter target with ⟨hk, tail, hw, hchain, hlast⟩ | ⟨hk, hw⟩
  · -- the block at the end of the path is owned by the waiter, so it is the waiter's own
    have hend : (target :: tail).getLast (cons_ne_nil _ _) = waiter.block := by
      obtain ⟨d, a, hrun, hid, hblock⟩ := hinv.owned _ _ hlast
      have ha : s.Known a := .inr ⟨d, by rw [hrun]; rfl⟩
      rw [← hblock, hinv.known_inj a waiter ha (.inl hwaiter) hid]
    rw [hw]
    refine ⟨⟨fun _ ↦ hk, fun _ ↦ ⟨_, rfl⟩⟩, fun path hpath ↦ ?_⟩
    obtain rfl : waiter.block :: target :: tail = path := by simpa using hpath
    rw [hend] at hlast
    have hmono : List.IsChain (s.waits.graph.addWait waiter.id target).Hop (target :: tail) := by
      refine hchain.imp fun b b' hb ↦ ?_
      obtain ⟨k, hkb, hb'⟩ := hb
      refine ⟨k, hkb, ?_⟩
      rw [WaitGraph.waitsOf_addWait]
      split
      · next heq => exact mem_append_left _ (heq ▸ hb')
      · exact hb'
    refine ⟨rfl, ?_, rfl, hlast, isChain_cons_cons.mpr ⟨⟨waiter.id, hlast, ?_⟩, hmono⟩, hchain⟩
    · rw [List.getLast?_cons_cons, List.getLast?_eq_some_getLast (cons_ne_nil _ _), hend]
    · simp [WaitGraph.waitsOf_addWait]
  · rw [hw]
    exact ⟨⟨fun h ↦ by simp at h, fun h ↦ absurd h hk⟩, fun _ h ↦ by simp at h⟩

def twoInits : List Action :=
  [.enter 0 "t/a" none, .wait 0, .attempt 0, .lock 0, .own 0,
    .enter 1 "t/b" none, .wait 1, .attempt 1, .lock 1, .own 1,
    .enter 2 "t/b" (some ⟨0, "t/a"⟩), .wait 2]

theorem waitGraph_deadlock_free_twoInits :
    ∃ s, Actions.run step init twoInits = some s ∧ Search.Acyclic s.waits.graph.Edge ∧
      (s.waits.waitFor ⟨1, "t/b"⟩ "t/a").1 = .error ["t/b", "t/a", "t/b"] ∧
      TransGen (s.waits.graph.addWait 1 "t/a").Edge 1 1 := by
  have hsome : (Actions.run step init twoInits).isSome := by decide
  obtain ⟨s, hs⟩ := Option.isSome_iff_exists.mp hsome
  have hpath : (s.waits.waitFor ⟨1, "t/b"⟩ "t/a").1 = .error ["t/b", "t/a", "t/b"] := by
    obtain rfl : (Actions.run step init twoInits).get hsome = s := by simp [hs]
    rfl
  have hctx : (⟨1, "t/b"⟩ : InitAttempt) ∈ s.contexts := by
    obtain rfl : (Actions.run step init twoInits).get hsome = s := by simp [hs]
    exact mem_cons_self
  obtain ⟨hac, hwait⟩ := waitGraph_deadlock_free hs (along_fresh_of_countP_lt (by decide))
  exact ⟨s, hs, hac, hpath, (hwait _ hctx "t/a").1.mp ⟨_, hpath⟩⟩

/-! ## After a wraparound

An attempt is begun under no init and given up while it awaits the lock, over and over, until the
counter is back at the number of an attempt that waits. -/

def beginAndCancel (d : ℕ) : List Action := [.enter d "t/c" none, .wait d, .attempt d, .cancel d]

def cancelled (s : InitSystem) (d : ℕ) : InitSystem :=
  { s with
    waits := { s.waits with nextAttempt := s.waits.nextAttempt + 1 }
    name := Function.update s.name d "t/c"
    waiter := Function.update s.waiter d none
    phase := Function.update s.phase d .leaving }

theorem run_beginAndCancel {s : InitSystem} {d : ℕ} (h : s.phase d = .absent) :
    Actions.run step s (beginAndCancel d) = some (s.cancelled d) := by
  simp [beginAndCancel, Actions.run, step, h, InitWaits.attempt, cancelled]

/-- The dispatches below `m` are as they were, and those from `m'` on are still to come. -/
structure Keeps (m m' : ℕ) (s t : InitSystem) : Prop where
  graph : t.waits.graph = s.waits.graph
  lock : t.lock = s.lock
  phase : ∀ d < m, t.phase d = s.phase d
  name : ∀ d < m, t.name d = s.name d
  absent : ∀ d ≥ m', t.phase d = .absent

theorem exists_keeps {s : InitSystem} {m : ℕ} (habsent : ∀ d ≥ m, s.phase d = .absent) (n : ℕ) :
    ∃ as t, Actions.run step s as = some t ∧ Keeps m (m + n) s t ∧
      t.waits.nextAttempt = s.waits.nextAttempt + UInt64.ofNat n := by
  induction n with
  | zero => exact ⟨[], s, rfl, ⟨rfl, rfl, fun _ _ ↦ rfl, fun _ _ ↦ rfl, habsent⟩, by simp⟩
  | succ n ih =>
    obtain ⟨as, t, has, hkeeps, hnext⟩ := ih
    refine ⟨as ++ beginAndCancel (m + n), t.cancelled (m + n), ?_, ?_, ?_⟩
    · rw [Actions.run_append, has, Option.bind_some,
        run_beginAndCancel (hkeeps.absent (m + n) (le_refl _))]
    · exact {
        graph := hkeeps.graph
        lock := hkeeps.lock
        phase := fun d hd ↦ (update_of_ne (by omega) _ _).trans (hkeeps.phase d hd)
        name := fun d hd ↦ (update_of_ne (by omega) _ _).trans (hkeeps.name d hd)
        absent := fun d hd ↦ (update_of_ne (by omega) _ _).trans (hkeeps.absent d (by omega)) }
    · simp [cancelled, hnext, UInt64.ofNat_add, UInt64.add_assoc]

/-- The init of `t/a`, attempt `0`, waits for `t/b`. -/
def waitsForB : List Action :=
  [.enter 0 "t/a" none, .wait 0, .attempt 0, .lock 0, .own 0,
    .enter 1 "t/b" (some ⟨0, "t/a"⟩), .wait 1]

/-- **The numbers of attempts come back.** While the init of `t/a`, which waits for `t/b`, holds
number `0`, the counter passes `2 ^ 64`; the attempt at `t/b` gets number `0` too, and the graph has
an edge from `0` to itself. -/
theorem cycle_after_wraparound : ∃ s, Reachable s ∧ ¬Search.Acyclic s.waits.graph.Edge := by
  have hsome : (Actions.run step init waitsForB).isSome := by decide
  obtain ⟨s, hs⟩ := Option.isSome_iff_exists.mp hsome
  obtain rfl : (Actions.run step init waitsForB).get hsome = s := by simp [hs]
  obtain ⟨as, t, has, hkeeps, hnext⟩ := exists_keeps
    (s := (Actions.run step init waitsForB).get hsome) (m := 2) (fun d hd ↦ by
      -- the seven steps moved dispatches `0` and `1`
      iterate 7 refine (update_of_ne (by omega) _ _).trans ?_
      rfl) (2 ^ 64 - 1)
  have hphase : t.phase 1 = .waiting := hkeeps.phase 1 (by decide)
  have hname : t.name 1 = "t/b" := hkeeps.name 1 (by decide)
  have hlock : t.lock "t/b" = none := by rw [hkeeps.lock]; rfl
  have hone : ((Actions.run step init waitsForB).get hsome).waits.nextAttempt = 1 := rfl
  have hzero : t.waits.nextAttempt = 0 := by
    rw [hnext, hone]
    decide
  have hwait : t.waits.graph.waitsOf 0 = ["t/b"] := by rw [hkeeps.graph]; rfl
  have hown : Actions.run step t [.attempt 1, .lock 1, .own 1] = some { t with
      waits := (InitWaits.own { t.waits with nextAttempt := 1 } ⟨0, "t/b"⟩).2
      lock := Function.update t.lock "t/b" (some 1)
      phase := Function.update t.phase 1 (.running ⟨0, "t/b"⟩)
      contexts := ⟨0, "t/b"⟩ :: t.contexts } := by
    simp [Actions.run, step, hphase, hname, hlock, hzero, InitWaits.attempt]
  have hrun : Actions.run step init (waitsForB ++ as ++ [.attempt 1, .lock 1, .own 1])
      = Actions.run step t [.attempt 1, .lock 1, .own 1] := by
    rw [Actions.run_append, Actions.run_append, hs, Option.bind_some, has, Option.bind_some]
  refine ⟨_, ⟨_, hrun.trans hown⟩, fun hacyclic ↦ hacyclic 0 (.single ⟨"t/b", ?_, ?_⟩)⟩
  · change "t/b" ∈ t.waits.graph.waitsOf 0
    simp [hwait]
  · simp [InitWaits.owner_own]

end InitSystem

end WaferRun

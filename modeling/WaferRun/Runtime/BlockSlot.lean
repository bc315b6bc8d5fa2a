import Mathlib.Algebra.Group.Nat.Defs
import Mathlib.Order.MinMax
import Mathlib.Tactic.Common
import WaferRun.Lib.Actions

/-!
# The init slot of a block

A block is initialized by the first call that needs it. The slot runs one attempt at a time, under
the attempt lock, and keeps its outcome under a second lock that is never held across a wait. A
success or a permanent failure is kept for good. A transient failure starts a backoff, in which
callers are answered with the failure and no attempt is made.

Any number of callers move in any order. A caller waits for the attempt lock, looks at the slot once
it has it, and either returns what it finds or runs its init. It can be dropped wherever it waits,
which includes the whole time its init runs. Each critical section of the state lock is one action,
and carries the reading of the clock that the section makes. Readings never go back.

Times are in nanoseconds.
-/

namespace WaferRun

def transientRetryBase : ℕ := 100 * 1000000

def transientRetryMax : ℕ := 30 * 1000000000

structure TransientFailure where
  message : String
  detailCode : Option String
deriving DecidableEq, Repr

inductive InitError
  | permanent (msg : String)
  | transient (failure : TransientFailure)
  | cycle (path : List String)
deriving DecidableEq, Repr

/-- The result of a successful init, which carries nothing. -/
structure InitializedState where
deriving DecidableEq, Repr

abbrev InitResult := Except InitError InitializedState

inductive CachedOutcome
  | ok (state : InitializedState)
  | permanent (msg : String)
deriving DecidableEq, Repr

def CachedOutcome.answer : CachedOutcome → InitResult
  | ok state => .ok state
  | permanent msg => .error (.permanent msg)

structure TransientBackoff where
  failures : ℕ
  retryAt : ℕ
  failure : TransientFailure
deriving DecidableEq, Repr

namespace TransientBackoff

/-- The backoff after a number of consecutive failures. -/
def delay (failures : ℕ) : ℕ :=
  min (transientRetryBase * 2 ^ min (failures - 1) 16) transientRetryMax

/-- A failure as it is reported while `wait` of its backoff is left. -/
def reported (failure : TransientFailure) (wait : ℕ) : TransientFailure :=
  ⟨failure.message ++ " (retry backoff: " ++ toString (wait / 1000000) ++ " ms left)",
    failure.detailCode⟩

def pending (b : TransientBackoff) (now : ℕ) : Option InitError :=
  if now < b.retryAt then some (.transient (reported b.failure (b.retryAt - now))) else none

end TransientBackoff

structure SlotState where
  outcome : Option CachedOutcome
  backoff : Option TransientBackoff
  inFlight : Bool
deriving DecidableEq, Repr

namespace SlotState

def settled (s : SlotState) (now : ℕ) : Option InitResult :=
  match s.outcome with
  | some cached => some cached.answer
  | none => (s.backoff.bind fun b ↦ b.pending now).map .error

def nextFailures (s : SlotState) : ℕ :=
  ((s.backoff.map TransientBackoff.failures).getD 0 + 1) % 2 ^ 32

def record (s : SlotState) (now : ℕ) : InitResult → SlotState
  | .ok state => ⟨some (.ok state), none, false⟩
  | .error (.permanent msg) => ⟨some (.permanent msg), none, false⟩
  | .error (.transient failure) =>
    ⟨s.outcome,
      some ⟨s.nextFailures, now + TransientBackoff.delay s.nextFailures, failure⟩, false⟩
  | .error (.cycle _) => { s with inFlight := false }

end SlotState

/-! ## Callers -/

/-- Where a caller of `get_or_init` is. A caller that was dropped while its init ran still has to
let go of the attempt lock, and returns nothing. -/
inductive CallerPhase
  | idle
  | waiting
  | entered
  | running
  | returning (answer : Option InitResult)
deriving DecidableEq

namespace CallerPhase

def holdsLock : CallerPhase → Bool
  | idle | waiting => false
  | entered | running | returning _ => true

end CallerPhase

structure SlotSystem where
  slot : SlotState
  /-- The caller that holds the attempt lock. -/
  attempt : Option ℕ
  callers : ℕ → CallerPhase
  /-- The last reading of the clock. -/
  now : ℕ
  /-- The transient failures so far, the last one first, with the times they were recorded at. The
  code keeps the last one and the count. -/
  transients : List (ℕ × TransientFailure)

inductive SlotAct
  | call (i : ℕ)
  | acquire (i : ℕ)
  /-- The caller looks at the slot, and goes on to run its init if nothing is settled. -/
  | check (i : ℕ) (now : ℕ)
  /-- The init of a caller returns, and its result is recorded. -/
  | complete (i : ℕ) (result : InitResult) (now : ℕ)
  /-- A caller is dropped, or its init panics. -/
  | cancel (i : ℕ)
  | release (i : ℕ)

namespace SlotSystem

def init : SlotSystem := ⟨⟨none, none, false⟩, none, fun _ ↦ .idle, 0, []⟩

variable (s : SlotSystem)

def moved (i : ℕ) (phase : CallerPhase) : ℕ → CallerPhase := Function.update s.callers i phase

def noted (now : ℕ) : InitResult → List (ℕ × TransientFailure)
  | .error (.transient failure) => (now, failure) :: s.transients
  | _ => s.transients

def step : SlotAct → Option SlotSystem
  | .call i => if s.callers i = .idle then some { s with callers := s.moved i .waiting } else none
  | .acquire i =>
    if s.callers i = .waiting ∧ s.attempt = none then
      some { s with attempt := some i, callers := s.moved i .entered }
    else none
  | .check i now =>
    if s.callers i = .entered ∧ s.now ≤ now then
      match s.slot.settled now with
      | some answer => some { s with callers := s.moved i (.returning (some answer)), now := now }
      | none =>
        some { s with
          slot := { s.slot with inFlight := true }
          callers := s.moved i .running
          now := now }
    else none
  | .complete i result now =>
    if s.callers i = .running ∧ s.now ≤ now then
      some { s with
        slot := s.slot.record now result
        callers := s.moved i (.returning (some result))
        now := now
        transients := s.noted now result }
    else none
  | .cancel i =>
    match s.callers i with
    | .waiting => some { s with callers := s.moved i .idle }
    | .running =>
      some { s with
        slot := { s.slot with inFlight := false }
        callers := s.moved i (.returning none) }
    | _ => none
  | .release i =>
    match s.callers i with
    | .returning _ => some { s with attempt := none, callers := s.moved i .idle }
    | _ => none

end SlotSystem

/-! ## The invariant -/

namespace SlotSystem

variable {s t : SlotSystem}

@[simp] theorem moved_self (s : SlotSystem) (i : ℕ) (phase : CallerPhase) :
    s.moved i phase i = phase := Function.update_self ..

theorem moved_of_ne (s : SlotSystem) {i j : ℕ} (h : j ≠ i) (phase : CallerPhase) :
    s.moved i phase j = s.callers j := Function.update_of_ne h ..

def lastBackoff : List (ℕ × TransientFailure) → Option TransientBackoff
  | [] => none
  | (failedAt, failure) :: rest =>
    some ⟨(rest.length + 1) % 2 ^ 32,
      failedAt + TransientBackoff.delay ((rest.length + 1) % 2 ^ 32), failure⟩

structure Inv (s : SlotSystem) : Prop where
  /-- One caller at a time is past the attempt lock. -/
  locked : ∀ i, (s.callers i).holdsLock = true ↔ s.attempt = some i
  flight : s.slot.inFlight = true ↔ ∃ i, s.callers i = .running
  /-- No attempt is made once there is an outcome. -/
  quiet : s.slot.outcome ≠ none → s.slot.inFlight = false
  backoff : s.slot.outcome = none → s.slot.backoff = lastBackoff s.transients
  /-- An attempt is made, or an outcome is there, only after the backoff. -/
  elapsed : s.slot.outcome ≠ none ∨ s.slot.inFlight = true →
    ∀ b, lastBackoff s.transients = some b → b.retryAt ≤ s.now

theorem inv_init : init.Inv :=
  ⟨by simp [init, CallerPhase.holdsLock], by simp [init], by simp [init], by simp [init, lastBackoff],
    by simp [init]⟩

theorem Inv.locked_moved (hs : s.Inv) {i : ℕ} (phase : CallerPhase)
    (h : (s.callers i).holdsLock = phase.holdsLock) (j : ℕ) :
    (s.moved i phase j).holdsLock = true ↔ s.attempt = some j := by
  by_cases hj : j = i
  · rw [hj, moved_self, ← h]
    exact hs.locked i
  · rw [moved_of_ne s hj]
    exact hs.locked j

theorem exists_running_moved {i : ℕ} {phase : CallerPhase} (hi : s.callers i ≠ .running)
    (hphase : phase ≠ .running) :
    (∃ j, s.moved i phase j = .running) ↔ ∃ j, s.callers j = .running := by
  refine exists_congr fun j ↦ ?_
  by_cases hj : j = i
  · simp [hj, hi, hphase]
  · rw [moved_of_ne s hj]

theorem Inv.not_running_moved (hs : s.Inv) {i : ℕ} (phase : CallerPhase)
    (hi : s.callers i = .running) (hphase : phase ≠ .running) (j : ℕ) :
    s.moved i phase j ≠ .running := by
  by_cases hj : j = i
  · rwa [hj, moved_self]
  · rw [moved_of_ne s hj]
    intro hrun
    have h₁ := (hs.locked i).mp (by rw [hi]; rfl)
    have h₂ := (hs.locked j).mp (by rw [hrun]; rfl)
    exact hj (Option.some.inj (h₂.symm.trans h₁))

theorem Inv.of_slot_eq (hs : s.Inv) {i : ℕ} {phase : CallerPhase} {attempt : Option ℕ} {now : ℕ}
    (hi : s.callers i ≠ .running) (hphase : phase ≠ .running) (hnow : s.now ≤ now)
    (hlocked : ∀ j, (s.moved i phase j).holdsLock = true ↔ attempt = some j) :
    Inv { s with attempt := attempt, callers := s.moved i phase, now := now } := by
  refine ⟨hlocked, ?_, hs.quiet, hs.backoff, fun h b hb ↦ (hs.elapsed h b hb).trans hnow⟩
  rw [exists_running_moved hi hphase]
  exact hs.flight

theorem settled_eq_none {slot : SlotState} {now : ℕ} (h : slot.settled now = none) :
    slot.outcome = none ∧ ∀ b, slot.backoff = some b → b.retryAt ≤ now := by
  unfold SlotState.settled at h
  split at h
  · cases h
  · rename_i hout
    refine ⟨hout, fun b hb ↦ ?_⟩
    rw [hb, Option.map_eq_none_iff, Option.bind_some, TransientBackoff.pending] at h
    split_ifs at h with hlt
    exact Nat.le_of_not_lt hlt

theorem settled_retryAt {slot : SlotState} {b : TransientBackoff} (hout : slot.outcome = none)
    (hb : slot.backoff = some b) : slot.settled b.retryAt = none := by
  simp [SlotState.settled, hout, hb, TransientBackoff.pending]

theorem nextFailures_eq {slot : SlotState} {transients : List (ℕ × TransientFailure)}
    (h : slot.backoff = lastBackoff transients) :
    slot.nextFailures = (transients.length + 1) % 2 ^ 32 := by
  rw [SlotState.nextFailures, h]
  rcases transients with _ | ⟨⟨failedAt, failure⟩, rest⟩
  · rfl
  · simp [lastBackoff, Nat.add_mod]

theorem Inv.complete (hs : s.Inv) {i now : ℕ} (hi : s.callers i = .running) (hnow : s.now ≤ now)
    (result : InitResult) :
    Inv { s with
      slot := s.slot.record now result
      callers := s.moved i (.returning (some result))
      now := now
      transients := s.noted now result } := by
  have hflight : s.slot.inFlight = true := hs.flight.mpr ⟨i, hi⟩
  have hout : s.slot.outcome = none := by
    by_contra hne
    rw [hs.quiet hne] at hflight
    cases hflight
  have hrun := hs.not_running_moved (.returning (some result)) hi (by simp)
  have hlocked := hs.locked_moved (i := i) (.returning (some result)) (by rw [hi]; rfl)
  have helapsed (b : TransientBackoff) (hb : lastBackoff s.transients = some b) : b.retryAt ≤ now :=
    (hs.elapsed (.inr hflight) b hb).trans hnow
  rcases result with (msg | failure | path) | state
  · exact ⟨hlocked, by simpa [SlotState.record] using hrun, by simp [SlotState.record],
      by simp [SlotState.record], fun _ ↦ helapsed⟩
  · refine ⟨hlocked, by simpa [SlotState.record] using hrun, by simp [SlotState.record], ?_, ?_⟩
    · intro _
      simp [SlotState.record, noted, lastBackoff, nextFailures_eq (hs.backoff hout)]
    · simp [SlotState.record, hout]
  · exact ⟨hlocked, by simpa [SlotState.record] using hrun, by simp [SlotState.record],
      hs.backoff, by simp [SlotState.record, hout]⟩
  · exact ⟨hlocked, by simpa [SlotState.record] using hrun, by simp [SlotState.record],
      by simp [SlotState.record], fun _ ↦ helapsed⟩

theorem Inv.step (hs : s.Inv) {a : SlotAct} (h : s.step a = some t) : t.Inv := by
  cases a with
  | call i =>
    rw [SlotSystem.step] at h
    split_ifs at h with hi
    cases h
    exact hs.of_slot_eq (by simp [hi]) (by simp) le_rfl (hs.locked_moved .waiting (by rw [hi]; rfl))
  | acquire i =>
    rw [SlotSystem.step] at h
    split_ifs at h with hi
    cases h
    refine hs.of_slot_eq (by simp [hi.1]) (by simp) le_rfl fun j ↦ ?_
    by_cases hj : j = i
    · simp [hj, CallerPhase.holdsLock]
    · rw [moved_of_ne s hj, hs.locked j, hi.2]
      simp [Ne.symm hj]
  | check i now =>
    rw [SlotSystem.step] at h
    split_ifs at h with hi
    have hlocked (phase : CallerPhase) (hp : phase.holdsLock = true) :=
      hs.locked_moved (i := i) phase (by rw [hi.1, hp]; rfl)
    split at h
    · cases h
      exact hs.of_slot_eq (by simp [hi.1]) (by simp) hi.2 (hlocked _ rfl)
    · rename_i hsettled
      cases h
      obtain ⟨hout, hretry⟩ := settled_eq_none hsettled
      refine ⟨hlocked _ rfl, ?_, by simp [hout], hs.backoff, fun _ ↦ ?_⟩
      · exact ⟨fun _ ↦ ⟨i, s.moved_self i _⟩, fun _ ↦ rfl⟩
      · rwa [← hs.backoff hout]
  | complete i result now =>
    rw [SlotSystem.step] at h
    split_ifs at h with hi
    cases h
    exact hs.complete hi.1 hi.2 result
  | cancel i =>
    rw [SlotSystem.step] at h
    split at h
    · rename_i hi
      cases h
      exact hs.of_slot_eq (by simp [hi]) (by simp) le_rfl (hs.locked_moved .idle (by rw [hi]; rfl))
    · rename_i hi
      cases h
      have hflight : s.slot.inFlight = true := hs.flight.mpr ⟨i, hi⟩
      refine ⟨hs.locked_moved _ (by rw [hi]; rfl), ?_, fun _ ↦ rfl, hs.backoff, ?_⟩
      · simpa using hs.not_running_moved (.returning none) hi (by simp)
      · exact fun _ ↦ hs.elapsed (.inr hflight)
    · cases h
  | release i =>
    rw [SlotSystem.step] at h
    split at h
    · rename_i answer hi
      cases h
      refine hs.of_slot_eq (by simp [hi]) (by simp) le_rfl fun j ↦ ?_
      by_cases hj : j = i
      · simp [hj, CallerPhase.holdsLock]
      · have hheld := (hs.locked i).mp (by rw [hi]; rfl)
        rw [moved_of_ne s hj, hs.locked j, hheld]
        simp [Ne.symm hj]
    · cases h

theorem inv_run {acts : List SlotAct} (h : Actions.run step init acts = some s) : s.Inv :=
  Actions.run_invariant (fun _ _ _ hs hstep ↦ hs.step hstep) inv_init h

/-! ## Outcomes -/

/-- What holds from the moment an outcome is recorded: it stays, nobody runs, and whoever returns
after it returns it. -/
structure Settled (s₀ : SlotSystem) (cached : CachedOutcome) (s : SlotSystem) : Prop where
  inv : s.Inv
  outcome : s.slot.outcome = some cached
  answers : ∀ i answer, s.callers i = .returning (some answer) →
    answer = cached.answer ∨ s₀.callers i = .returning (some answer)

theorem Inv.not_running (hs : s.Inv) {cached : CachedOutcome}
    (h : s.slot.outcome = some cached) (i : ℕ) : s.callers i ≠ .running := by
  intro hi
  have hflight := hs.flight.mpr ⟨i, hi⟩
  rw [hs.quiet (by simp [h])] at hflight
  cases hflight

theorem Settled.answers_moved {s₀ : SlotSystem} {cached : CachedOutcome}
    (hs : Settled s₀ cached s) {i : ℕ} {phase : CallerPhase}
    (hphase : ∀ answer, phase = .returning (some answer) → answer = cached.answer) (j : ℕ)
    (answer : InitResult) (h : s.moved i phase j = .returning (some answer)) :
    answer = cached.answer ∨ s₀.callers j = .returning (some answer) := by
  by_cases hj : j = i
  · rw [hj, moved_self] at h
    exact .inl (hphase answer h)
  · rw [moved_of_ne s hj] at h
    exact hs.answers j answer h

theorem Settled.step {s₀ : SlotSystem} {cached : CachedOutcome} (hs : Settled s₀ cached s)
    {a : SlotAct} (h : s.step a = some t) : Settled s₀ cached t := by
  have hinv := hs.inv.step h
  cases a with
  | call i =>
    rw [SlotSystem.step] at h
    split_ifs at h
    cases h
    exact ⟨hinv, hs.outcome, hs.answers_moved (by simp)⟩
  | acquire i =>
    rw [SlotSystem.step] at h
    split_ifs at h
    cases h
    exact ⟨hinv, hs.outcome, hs.answers_moved (by simp)⟩
  | check i now =>
    rw [SlotSystem.step] at h
    split_ifs at h
    have hsettled : s.slot.settled now = some cached.answer := by
      rw [SlotState.settled, hs.outcome]
    rw [hsettled] at h
    cases h
    exact ⟨hinv, hs.outcome, hs.answers_moved (by simp)⟩
  | complete i result now =>
    rw [SlotSystem.step] at h
    split_ifs at h with hi
    exact absurd hi.1 (hs.inv.not_running hs.outcome i)
  | cancel i =>
    rw [SlotSystem.step] at h
    split at h
    · cases h
      exact ⟨hinv, hs.outcome, hs.answers_moved (by simp)⟩
    · rename_i hi
      exact absurd hi (hs.inv.not_running hs.outcome i)
    · cases h
  | release i =>
    rw [SlotSystem.step] at h
    split at h
    · cases h
      exact ⟨hinv, hs.outcome, hs.answers_moved (by simp)⟩
    · cases h

theorem settled_run {cached : CachedOutcome} (hs : s.Inv) (hout : s.slot.outcome = some cached)
    {acts : List SlotAct} (h : Actions.run SlotSystem.step s acts = some t) : Settled s cached t :=
  Actions.run_invariant (fun _ _ _ ht hstep ↦ Settled.step ht hstep)
    ⟨hs, hout, fun _ _ h ↦ .inr h⟩ h

/-! ## The backoff -/

theorem delay_succ (n : ℕ) :
    TransientBackoff.delay (n + 1) = min (transientRetryBase * 2 ^ n) transientRetryMax := by
  rw [TransientBackoff.delay, Nat.add_sub_cancel]
  rcases Nat.le_total n 16 with hn | hn
  · rw [Nat.min_eq_left hn]
  · have hcap : transientRetryMax ≤ transientRetryBase * 2 ^ 16 := by decide
    have hpow : transientRetryBase * 2 ^ 16 ≤ transientRetryBase * 2 ^ n :=
      Nat.mul_le_mul_left _ (Nat.pow_le_pow_right (by decide) hn)
    rw [Nat.min_eq_right hn, Nat.min_eq_right hcap, Nat.min_eq_right (hcap.trans hpow)]

def backoffEnd (failedAt earlier : ℕ) : ℕ :=
  failedAt + min (transientRetryBase * 2 ^ earlier) transientRetryMax

theorem lastBackoff_cons {failedAt : ℕ} {failure : TransientFailure}
    {rest : List (ℕ × TransientFailure)} (hlen : rest.length + 1 < 2 ^ 32) :
    lastBackoff ((failedAt, failure) :: rest) =
      some ⟨rest.length + 1, backoffEnd failedAt rest.length, failure⟩ := by
  rw [lastBackoff, Nat.mod_eq_of_lt hlen, delay_succ]
  rfl

theorem Inv.check_pending (hs : s.Inv) {b : TransientBackoff}
    (hb : lastBackoff s.transients = some b) {i now : ℕ} (hnow : now < b.retryAt)
    (h : s.step (.check i now) = some t) :
    t.callers i =
      .returning (some (.error (.transient (TransientBackoff.reported b.failure
        (b.retryAt - now))))) := by
  rw [SlotSystem.step] at h
  split_ifs at h with hi
  have hout : s.slot.outcome = none := by
    by_contra hne
    have := hs.elapsed (.inl hne) b hb
    omega
  have hsettled : s.slot.settled now =
      some (.error (.transient (TransientBackoff.reported b.failure (b.retryAt - now)))) := by
    rw [SlotState.settled, hout, hs.backoff hout, hb]
    simp [TransientBackoff.pending, hnow]
  rw [hsettled] at h
  cases h
  exact s.moved_self i _

theorem eq_check_of_running {a : SlotAct} {i : ℕ} (h : s.step a = some t)
    (hs : s.callers i ≠ .running) (ht : t.callers i = .running) : ∃ now, a = .check i now := by
  have hmoved {j : ℕ} {phase : CallerPhase} (hm : s.moved j phase i = .running) :
      i = j ∧ phase = .running := by
    by_cases hj : i = j
    · rw [hj, moved_self] at hm
      exact ⟨hj, hm⟩
    · rw [moved_of_ne s hj] at hm
      exact absurd hm hs
  cases a with
  | check j now =>
    rw [SlotSystem.step] at h
    split_ifs at h
    split at h
    · cases h
      cases (hmoved ht).2
    · cases h
      exact ⟨now, by rw [(hmoved ht).1]⟩
  | call j | acquire j | complete j result now =>
    rw [SlotSystem.step] at h
    split_ifs at h
    cases h
    cases (hmoved ht).2
  | cancel j =>
    rw [SlotSystem.step] at h
    split at h
    · cases h
      cases (hmoved ht).2
    · cases h
      cases (hmoved ht).2
    · cases h
  | release j =>
    rw [SlotSystem.step] at h
    split at h
    · cases h
      cases (hmoved ht).2
    · cases h

/-- **The init slot.** In every state that any callers reach, at most one init runs, and the slot
says so. An outcome that is recorded stays, ends all attempts and answers everybody who returns
after it. For the first `2 ^ 32 - 1` transient failures, no init starts before the backoff of the
last one is over, and those who ask before are answered with that failure. A caller that is dropped
leaves the outcome and the backoff as they were. -/
theorem blockSlot_protocol (acts : List SlotAct) (s : SlotSystem)
    (h : Actions.run step init acts = some s) :
    (∀ i j, s.callers i = .running → s.callers j = .running → i = j) ∧
      (s.slot.inFlight = true ↔ ∃ i, s.callers i = .running) ∧
      (∀ cached, s.slot.outcome = some cached →
        ∀ more t, Actions.run step s more = some t →
          t.slot.outcome = some cached ∧ (∀ i, t.callers i ≠ .running) ∧
            ∀ i answer, t.callers i = .returning (some answer) →
              answer = cached.answer ∨ s.callers i = .returning (some answer)) ∧
      (∀ failedAt failure rest, s.transients = (failedAt, failure) :: rest →
        rest.length + 1 < 2 ^ 32 →
        (∀ a t i, s.step a = some t → s.callers i ≠ .running → t.callers i = .running →
          ∃ now, a = .check i now ∧ backoffEnd failedAt rest.length ≤ now) ∧
          ∀ i now t, s.step (.check i now) = some t → now < backoffEnd failedAt rest.length →
            t.callers i = .returning (some (.error (.transient (TransientBackoff.reported failure
              (backoffEnd failedAt rest.length - now)))))) ∧
      ∀ i t, s.step (.cancel i) = some t →
        t.slot.outcome = s.slot.outcome ∧ t.slot.backoff = s.slot.backoff ∧
          (s.callers i = .running → t.slot.inFlight = false) := by
  have hs := inv_run h
  refine ⟨?_, hs.flight, ?_, ?_, ?_⟩
  · intro i j hi hj
    have h₁ := (hs.locked i).mp (by rw [hi]; rfl)
    have h₂ := (hs.locked j).mp (by rw [hj]; rfl)
    exact Option.some.inj (h₁.symm.trans h₂)
  · intro cached hout more t hmore
    have ht := settled_run hs hout hmore
    exact ⟨ht.outcome, ht.inv.not_running ht.outcome, ht.answers⟩
  · intro failedAt failure rest htr hlen
    have hb : lastBackoff s.transients =
        some ⟨rest.length + 1, backoffEnd failedAt rest.length, failure⟩ := by
      rw [htr]
      exact lastBackoff_cons hlen
    refine ⟨fun a t i hstep hsi hti ↦ ?_, fun i now t hstep hnow ↦ hs.check_pending hb hnow hstep⟩
    obtain ⟨now, rfl⟩ := eq_check_of_running hstep hsi hti
    refine ⟨now, rfl, ?_⟩
    by_contra hlt
    rw [hs.check_pending hb (Nat.lt_of_not_le hlt) hstep] at hti
    cases hti
  · intro i t hstep
    rw [step] at hstep
    split at hstep
    · rename_i hi
      cases hstep
      exact ⟨rfl, rfl, by simp [hi]⟩
    · cases hstep
      exact ⟨rfl, rfl, fun _ ↦ rfl⟩
    · cases hstep

def refused : TransientFailure := ⟨"database is down", some "database.unavailable"⟩

def earlyRetry : List SlotAct :=
  [.call 0, .acquire 0, .check 0 5, .call 1, .complete 0 (.error (.transient refused)) 7,
    .release 0, .acquire 1]

theorem blockSlot_protocol_earlyRetry :
    ∃ s t, Actions.run step init earlyRetry = some s ∧ s.transients = [(7, refused)] ∧
      s.step (.check 1 1000007) = some t ∧
      t.callers 1 = .returning (some (.error (.transient (TransientBackoff.reported refused
        (backoffEnd 7 0 - 1000007))))) :=
  ⟨_, _, rfl, rfl, rfl,
    ((blockSlot_protocol earlyRetry _ rfl).2.2.2.1 7 refused [] rfl (by decide)).2 1 1000007 _ rfl
      (by decide)⟩

/-! ## After `2 ^ 32` failures -/

theorem exists_settled_eq_none (s : SlotSystem) (hout : s.slot.outcome = none) :
    ∃ now, s.now ≤ now ∧ s.slot.settled now = none := by
  refine ⟨max s.now ((s.slot.backoff.map TransientBackoff.retryAt).getD 0), le_max_left _ _, ?_⟩
  rw [SlotState.settled, hout]
  rcases s.slot.backoff with _ | b
  · rfl
  · simp [TransientBackoff.pending]

theorem run_enter (hattempt : s.attempt = none) (hidle : s.callers 0 = .idle) :
    ∃ t, Actions.run step s [.call 0, .acquire 0] = some t ∧ t.callers 0 = .entered ∧
      t.slot = s.slot ∧ t.now = s.now ∧ t.transients = s.transients := by
  simp [Actions.run, step, hidle, hattempt]

theorem check_running {now : ℕ} (hentered : s.callers 0 = .entered) (hnow : s.now ≤ now)
    (hsettled : s.slot.settled now = none) :
    ∃ t, s.step (.check 0 now) = some t ∧ t.callers 0 = .running ∧
      t.slot.outcome = s.slot.outcome ∧ t.now = now ∧ t.transients = s.transients := by
  simp [step, hentered, hnow, hsettled]

theorem run_fail {now : ℕ} (hrunning : s.callers 0 = .running) (hnow : s.now ≤ now) :
    ∃ t, Actions.run step s [.complete 0 (.error (.transient refused)) now, .release 0] = some t ∧
      t.attempt = none ∧ t.callers 0 = .idle ∧ t.slot.outcome = s.slot.outcome ∧ t.now = now ∧
      t.transients = (now, refused) :: s.transients := by
  simp [Actions.run, step, hrunning, hnow, SlotState.record, noted]

theorem exists_failures (n : ℕ) :
    ∃ acts s, Actions.run step init acts = some s ∧ s.attempt = none ∧ s.callers 0 = .idle ∧
      s.slot.outcome = none ∧ s.transients.length = n ∧
      ∀ failedAt failure rest, s.transients = (failedAt, failure) :: rest → failedAt = s.now := by
  induction n with
  | zero => exact ⟨[], init, rfl, rfl, rfl, rfl, rfl, fun _ _ _ h ↦ by cases h⟩
  | succ n ih =>
    obtain ⟨acts, s, hrun, hattempt, hidle, hout, hlen, -⟩ := ih
    obtain ⟨now, hnow, hsettled⟩ := exists_settled_eq_none s hout
    obtain ⟨t, ht, hentered, htslot, htnow, httr⟩ := run_enter hattempt hidle
    obtain ⟨u, hu, hrunning, huout, hunow, hutr⟩ :=
      check_running hentered (htnow.symm ▸ hnow) (htslot.symm ▸ hsettled)
    obtain ⟨v, hv, hvattempt, hvidle, hvout, hvnow, hvtr⟩ := run_fail hrunning hunow.le
    refine ⟨acts ++ ([.call 0, .acquire 0] ++ .check 0 now ::
      [.complete 0 (.error (.transient refused)) now, .release 0]), v, ?_, hvattempt, hvidle, ?_,
      ?_, ?_⟩
    · rw [Actions.run_append, hrun, Option.bind_some, Actions.run_append, ht, Option.bind_some,
        Actions.run, hu, Option.bind_some, hv]
    · rw [hvout, huout, htslot, hout]
    · rw [hvtr, hutr, httr, List.length_cons, hlen]
    · intro failedAt failure rest h
      rw [hvtr] at h
      rw [hvnow, (Prod.mk.inj (List.cons.inj h).1).1]

theorem lastBackoff_of_mod {failedAt : ℕ} {failure : TransientFailure}
    {rest : List (ℕ × TransientFailure)} (hmod : (rest.length + 1) % 2 ^ 32 = 0) :
    lastBackoff ((failedAt, failure) :: rest) =
      some ⟨0, failedAt + transientRetryBase, failure⟩ := by
  have hdelay : TransientBackoff.delay 0 = transientRetryBase := by decide
  rw [lastBackoff, hmod, hdelay]

theorem exists_early_retry {n : ℕ} (hn : 2 ≤ n) (hmod : n % 2 ^ 32 = 0) :
    ∃ acts s failedAt failure rest t, Actions.run step init acts = some s ∧
      s.transients = (failedAt, failure) :: rest ∧
      s.step (.check 0 (failedAt + transientRetryBase)) = some t ∧ t.callers 0 = .running ∧
      failedAt + transientRetryBase < backoffEnd failedAt rest.length := by
  obtain ⟨acts, s, hrun, hattempt, hidle, hout, hlen, hlast⟩ := exists_failures n
  rcases htr : s.transients with _ | ⟨⟨failedAt, failure⟩, rest⟩
  · rw [htr, List.length_nil] at hlen
    omega
  · rw [htr, List.length_cons] at hlen
    have hnow : s.now ≤ failedAt + transientRetryBase := by
      rw [hlast _ _ _ htr]
      exact Nat.le_add_right _ _
    have hbackoff : s.slot.backoff = some ⟨0, failedAt + transientRetryBase, failure⟩ := by
      rw [(inv_run hrun).backoff hout, htr, lastBackoff_of_mod (hlen.symm ▸ hmod)]
    have hsettled := settled_retryAt hout hbackoff
    obtain ⟨t, ht, hentered, htslot, htnow, httr⟩ := run_enter hattempt hidle
    obtain ⟨u, hu, hrunning, -⟩ := check_running hentered (htnow.symm ▸ hnow) (htslot.symm ▸ hsettled)
    refine ⟨acts ++ [.call 0, .acquire 0], t, failedAt, failure, rest, u, ?_, httr.trans htr, hu,
      hrunning, ?_⟩
    · rw [Actions.run_append, hrun, Option.bind_some, ht]
    · have hpow : transientRetryBase * 2 ^ 1 ≤ transientRetryBase * 2 ^ rest.length :=
        Nat.mul_le_mul_left _ (Nat.pow_le_pow_right (by decide) (by omega))
      have hbase : transientRetryBase < transientRetryBase * 2 ^ 1 := by decide
      have hmax : transientRetryBase < transientRetryMax := by decide
      exact Nat.add_lt_add_left (lt_min (hbase.trans_le hpow) hmax) failedAt

/-- The count of failures wraps around. -/
theorem retry_too_early_after_wraparound :
    ∃ acts s failedAt failure rest t, Actions.run step init acts = some s ∧
      s.transients = (failedAt, failure) :: rest ∧
      s.step (.check 0 (failedAt + transientRetryBase)) = some t ∧ t.callers 0 = .running ∧
      failedAt + transientRetryBase < backoffEnd failedAt rest.length :=
  exists_early_retry (n := 2 ^ 32) (by decide) (Nat.mod_self _)

end SlotSystem

end WaferRun

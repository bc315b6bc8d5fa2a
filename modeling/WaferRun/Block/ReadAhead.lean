import WaferRun.Block.Output
import WaferRun.Lib.Rewriting

/-!
# Reading ahead, poll by poll

`OutputStream` says what reading ahead comes to when the producer is there to be waited for. Here a
consumer waits: a call is a future that is polled, finds some events in the channel and then
none, and may be dropped before it has what it waits for. How many events a poll finds is up to the
producer and to the runtime, so it is part of the step (`ReadAction.poll`, `ReadAction.read`).

A rewrite has a state, so it matters in which order and how often it is asked.

What the consumer has read, what it has taken and not put back, what is on the prelude and what
the rewrite will make of the rest never changes (`Consumer.account_step`). So a consumer that reads
to the end has read what it would have read without looking ahead (`readAhead_invisible`).
-/

open List Nat

namespace WaferRun

inductive Poll (α : Type)
  | pending
  | ready (answer : α)

/-- What is to come from the producer: the state of the rewrite, the events its channel will
carry, and the events the rewrite has been asked about. -/
structure Inflow (σ : Type) where
  state : σ
  produced : List StreamEvent
  rewritten : List StreamEvent

inductive ReadCall
  | peek (waiting : Bool)
  | takeLeadingMeta (waiting : Bool)

/-- A consumer and its stream: what it took off the stream and has not put back, what it has read,
and whether it has read to the end. -/
structure Consumer (σ : Type) where
  prelude : List StreamEvent
  inflow : Inflow σ
  call : Option ReadCall
  hand : List MetaEntry
  received : List StreamEvent
  ended : Bool

/-- What a consumer does: start a call, poll it while the channel gives up to `arrived` answers,
drop it, put back what was taken, or read. -/
inductive ReadAction
  | peek
  | takeLeadingMeta
  | poll (arrived : ℕ)
  | dropCall
  | putBack
  | read (arrived : ℕ)

section Polling

variable {σ : Type} (f : Rewriter σ StreamEvent)

def Inflow.ask (w : Inflow σ) (e : StreamEvent) (es : List StreamEvent) : Inflow σ :=
  ⟨(f w.state e).1, es, w.rewritten ++ [e]⟩

/-- Poll the next event from the channel, rewritten, with the answers the channel has left. -/
def pollProduced : ℕ → Inflow σ → Poll (Option StreamEvent) × ℕ × Inflow σ
  | 0, w => (.pending, 0, w)
  | arrived + 1, w =>
    match w.produced with
    | [] => (.ready none, arrived, w)
    | e :: es =>
      match (f w.state e).2 with
      | some e' => (.ready (some e'), arrived, w.ask f e es)
      | none => pollProduced arrived (w.ask f e es)

variable {f}

theorem pollProduced_lt {arrived left : ℕ} {w w' : Inflow σ} {answer : Option StreamEvent}
    (h : pollProduced f arrived w = (.ready answer, left, w')) : left < arrived := by
  induction arrived generalizing w with
  | zero => exact absurd (Prod.mk.inj h).1 nofun
  | succ arrived ih =>
    rw [pollProduced] at h
    split at h
    · exact (Prod.mk.inj (Prod.mk.inj h).2).1 ▸ lt_succ_self _
    · split at h
      · exact (Prod.mk.inj (Prod.mk.inj h).2).1 ▸ lt_succ_self _
      · exact (ih h).trans (lt_succ_self _)

variable (f)

def pollPositioned (arrived : ℕ) (prelude : List StreamEvent) (w : Inflow σ) :
    Bool × List StreamEvent × Inflow σ :=
  match _h : pollProduced f arrived w with
  | (.pending, _, w') => (false, prelude, w')
  | (.ready none, _, w') => (true, prelude, w')
  | (.ready (some e), left, w') =>
    if e.isMeta then pollPositioned left (prelude ++ [e]) w' else (true, prelude ++ [e], w')
termination_by arrived
decreasing_by exact pollProduced_lt _h

def Consumer.pollPeek (c : Consumer σ) (waiting : Bool) (arrived : ℕ) : Consumer σ :=
  if waiting || c.prelude.isEmpty then
    match pollProduced f arrived c.inflow with
    | (.pending, _, w) => { c with inflow := w, call := some (.peek true) }
    | (.ready none, _, w) => { c with inflow := w, call := none }
    | (.ready (some e), _, w) =>
      { c with inflow := w, call := none, prelude := c.prelude ++ [e] }
  else { c with call := none }

def Consumer.takeMeta (c : Consumer σ) : Consumer σ :=
  { c with
    call := none
    hand := c.hand ++ (OutputStream.splitMeta c.prelude).1
    prelude := (OutputStream.splitMeta c.prelude).2 }

def Consumer.pollTakeLeadingMeta (c : Consumer σ) (waiting : Bool) (arrived : ℕ) : Consumer σ :=
  if !waiting && c.prelude.any fun e ↦ !e.isMeta then c.takeMeta
  else
    match pollPositioned f arrived c.prelude c.inflow with
    | (true, prelude, w) => { c with prelude := prelude, inflow := w }.takeMeta
    | (false, prelude, w) =>
      { c with prelude := prelude, inflow := w, call := some (.takeLeadingMeta true) }

def Consumer.pollNext (c : Consumer σ) (arrived : ℕ) : Consumer σ :=
  match c.prelude with
  | e :: es => { c with prelude := es, received := c.received ++ [e] }
  | [] =>
    match pollProduced f arrived c.inflow with
    | (.pending, _, w) => { c with inflow := w }
    | (.ready none, _, w) => { c with inflow := w, ended := true }
    | (.ready (some e), _, w) => { c with inflow := w, received := c.received ++ [e] }

/-- One step. A call borrows the stream until it is finished or dropped, and what was taken is put
back before the consumer reads on. -/
def Consumer.step (c : Consumer σ) : ReadAction → Consumer σ
  | .peek => if c.call.isNone then { c with call := some (.peek false) } else c
  | .takeLeadingMeta =>
    if c.call.isNone then { c with call := some (.takeLeadingMeta false) } else c
  | .poll arrived =>
    match c.call with
    | none => c
    | some (.peek waiting) => c.pollPeek f waiting arrived
    | some (.takeLeadingMeta waiting) => c.pollTakeLeadingMeta f waiting arrived
  | .dropCall => { c with call := none }
  | .putBack =>
    if c.call.isNone then { c with prelude := c.hand.map .metadata ++ c.prelude, hand := [] } else c
  | .read arrived => if c.call.isNone && c.hand.isEmpty then c.pollNext f arrived else c

def Consumer.run (c : Consumer σ) (actions : List ReadAction) : Consumer σ :=
  actions.foldl (Consumer.step f) c

/-- A consumer that has done nothing yet, of a stream that may have had events put back. -/
def Consumer.start (prelude : List StreamEvent) (s : σ) (produced : List StreamEvent) :
    Consumer σ :=
  ⟨prelude, ⟨s, produced, []⟩, none, [], [], false⟩

def readsOnly (prelude produced : List StreamEvent) : List ReadAction :=
  List.replicate (prelude.length + produced.length + 1) (.read (produced.length + 1))

def readsAlone (prelude : List StreamEvent) (s : σ) (produced : List StreamEvent) :
    List StreamEvent :=
  ((Consumer.start prelude s produced).run f (readsOnly prelude produced)).received

end Polling

/-! ## What polls leave -/

section Account

variable {σ : Type} {f : Rewriter σ StreamEvent}

def Inflow.coming (f : Rewriter σ StreamEvent) (w : Inflow σ) : List StreamEvent :=
  f.outputs w.state w.produced

def Inflow.carried (w : Inflow σ) : List StreamEvent := w.rewritten ++ w.produced

def Inflow.Yields (f : Rewriter σ StreamEvent) (w : Inflow σ) :
    Poll (Option StreamEvent) → Inflow σ → Prop
  | .pending, w' => w'.coming f = w.coming f
  | .ready none, w' => w.coming f = [] ∧ w'.produced = []
  | .ready (some e), w' => w.coming f = e :: w'.coming f

theorem Inflow.carried_ask {w : Inflow σ} {e : StreamEvent} {es : List StreamEvent}
    (hp : w.produced = e :: es) : (w.ask f e es).carried = w.carried := by
  rw [carried, carried, hp, ask, append_assoc, singleton_append]

/-- A poll takes what it yields from what is to come, and asks the rewrite about each event it
receives. -/
theorem pollProduced_spec (arrived : ℕ) (w : Inflow σ) :
    (pollProduced f arrived w).2.2.carried = w.carried ∧
      w.Yields f (pollProduced f arrived w).1 (pollProduced f arrived w).2.2 := by
  induction arrived generalizing w with
  | zero => exact ⟨rfl, rfl⟩
  | succ arrived ih =>
    rw [pollProduced]
    split
    next hp =>
      have hend : w.coming f = [] := by
        rw [Inflow.coming, hp]
        rfl
      exact ⟨rfl, hend, hp⟩
    next e es hp =>
      split
      next e' he =>
        refine ⟨Inflow.carried_ask hp, ?_⟩
        rw [Inflow.Yields, Inflow.coming, hp]
        exact Rewriter.outputs_cons_of_eq_some he es
      next he =>
        have hcoming : (w.ask f e es).coming f = w.coming f := by
          rw [Inflow.coming, Inflow.coming, hp]
          exact (Rewriter.outputs_cons_of_eq_none he es).symm
        have hrest := ih (w.ask f e es)
        rw [Inflow.carried_ask hp] at hrest
        refine ⟨hrest.1, ?_⟩
        unfold Inflow.Yields at hrest ⊢
        rw [← hcoming]
        exact hrest.2

theorem pollProduced_of_eq {arrived left : ℕ} {w w' : Inflow σ} {p : Poll (Option StreamEvent)}
    (h : pollProduced f arrived w = (p, left, w')) : w'.carried = w.carried ∧ w.Yields f p w' := by
  have hspec := @pollProduced_spec _ f arrived w
  rwa [h] at hspec

theorem Inflow.Yields.coming_eq {w w' : Inflow σ} (h : w.Yields f (.ready none) w') :
    w'.coming f = w.coming f := by
  rw [h.1, coming, h.2]
  rfl

theorem pollPositioned_spec (arrived : ℕ) (prelude : List StreamEvent) (w : Inflow σ) :
    (pollPositioned f arrived prelude w).2.2.carried = w.carried ∧
      (pollPositioned f arrived prelude w).2.1 ++ (pollPositioned f arrived prelude w).2.2.coming f =
        prelude ++ w.coming f := by
  fun_induction pollPositioned f arrived prelude w with
  | case1 arrived prelude w left w' h =>
    obtain ⟨hcarried, hcoming⟩ := pollProduced_of_eq h
    exact ⟨hcarried, congrArg _ hcoming⟩
  | case2 arrived prelude w left w' h =>
    obtain ⟨hcarried, hend⟩ := pollProduced_of_eq h
    exact ⟨hcarried, congrArg _ hend.coming_eq⟩
  | case3 arrived prelude w e left w' h hm ih =>
    obtain ⟨hcarried, hcoming⟩ := pollProduced_of_eq h
    rw [ih.1, ih.2, hcarried, hcoming, append_assoc, singleton_append]
    exact ⟨rfl, rfl⟩
  | case4 arrived prelude w e left w' h hm =>
    obtain ⟨hcarried, hcoming⟩ := pollProduced_of_eq h
    rw [hcarried, hcoming, append_assoc, singleton_append]
    exact ⟨rfl, rfl⟩

theorem pollProduced_of_nil {w : Inflow σ} (h : w.produced = []) (arrived : ℕ) :
    ∃ left, pollProduced f arrived w = (.pending, left, w) ∨
      pollProduced f arrived w = (.ready none, left, w) := by
  cases arrived with
  | zero => exact ⟨0, .inl rfl⟩
  | succ arrived =>
    refine ⟨arrived, .inr ?_⟩
    rw [pollProduced, h]

theorem pollPositioned_eq (arrived : ℕ) (prelude : List StreamEvent) (w : Inflow σ) :
    pollPositioned f arrived prelude w =
      match pollProduced f arrived w with
      | (.pending, _, w') => (false, prelude, w')
      | (.ready none, _, w') => (true, prelude, w')
      | (.ready (some e), left, w') =>
        if e.isMeta then pollPositioned f left (prelude ++ [e]) w' else (true, prelude ++ [e], w') := by
  rw [pollPositioned]
  split <;> rename_i hpoll <;> rw [hpoll]

theorem pollPositioned_of_nil {w : Inflow σ} (h : w.produced = []) (arrived : ℕ)
    (prelude : List StreamEvent) : (pollPositioned f arrived prelude w).2 = (prelude, w) := by
  obtain ⟨left, hp | hp⟩ := @pollProduced_of_nil _ f _ h arrived
  · rw [pollPositioned_eq, hp]
  · rw [pollPositioned_eq, hp]

namespace Consumer

variable {c : Consumer σ}

def account (f : Rewriter σ StreamEvent) (c : Consumer σ) : List StreamEvent :=
  c.received ++ (c.hand.map .metadata ++ (c.prelude ++ c.inflow.coming f))

/-- Nothing is left to be read. -/
structure Empty (c : Consumer σ) : Prop where
  hand : c.hand = []
  prelude : c.prelude = []
  produced : c.inflow.produced = []

theorem account_takeMeta (c : Consumer σ) : c.takeMeta.account f = c.account f := by
  have hsplit := OutputStream.splitMeta_append c.prelude
  rw [account, account, takeMeta]
  dsimp only
  rw [map_append, append_assoc, ← append_assoc (List.map _ _) _ (Inflow.coming f _),
    hsplit]

/-- **One step leaves the account as it was**, and no event is lost before the rewrite is asked
about it. -/
theorem account_step (c : Consumer σ) (a : ReadAction) :
    (c.step f a).account f = c.account f ∧ (c.step f a).inflow.carried = c.inflow.carried := by
  unfold step
  split
  · split <;> exact ⟨rfl, rfl⟩
  · split <;> exact ⟨rfl, rfl⟩
  next arrived =>
    split
    · exact ⟨rfl, rfl⟩
    next waiting =>
      unfold pollPeek
      split
      · split
        next hpoll =>
          obtain ⟨hcarried, hcoming⟩ := pollProduced_of_eq hpoll
          exact ⟨congrArg (fun l ↦ c.received ++ (_ ++ (c.prelude ++ l))) hcoming, hcarried⟩
        next hpoll =>
          obtain ⟨hcarried, hend⟩ := pollProduced_of_eq hpoll
          exact ⟨congrArg (fun l ↦ c.received ++ (_ ++ (c.prelude ++ l))) hend.coming_eq, hcarried⟩
        next hpoll =>
          obtain ⟨hcarried, hcoming⟩ := pollProduced_of_eq hpoll
          refine ⟨?_, hcarried⟩
          rw [account, account, hcoming, append_assoc c.prelude, singleton_append]
      · exact ⟨rfl, rfl⟩
    next waiting =>
      unfold pollTakeLeadingMeta
      split
      · exact ⟨account_takeMeta c, rfl⟩
      · have hspec := @pollPositioned_spec _ f arrived c.prelude c.inflow
        split
        next hpoll =>
          rw [hpoll] at hspec
          refine ⟨(account_takeMeta _).trans ?_, hspec.1⟩
          exact congrArg (fun l ↦ c.received ++ (_ ++ l)) hspec.2
        next hpoll =>
          rw [hpoll] at hspec
          exact ⟨congrArg (fun l ↦ c.received ++ (_ ++ l)) hspec.2, hspec.1⟩
  · exact ⟨rfl, rfl⟩
  · split
    · refine ⟨?_, rfl⟩
      rw [account, account, map_nil, nil_append, append_assoc]
    · exact ⟨rfl, rfl⟩
  next arrived =>
    split
    next hfree =>
      rw [Bool.and_eq_true, List.isEmpty_iff] at hfree
      unfold pollNext
      split
      next e es hp =>
        refine ⟨?_, rfl⟩
        rw [account, account, hfree.2, hp, append_assoc]
        rfl
      next hp =>
        split
        next hpoll =>
          obtain ⟨hcarried, hcoming⟩ := pollProduced_of_eq hpoll
          exact ⟨congrArg (fun l ↦ c.received ++ (_ ++ (c.prelude ++ l))) hcoming, hcarried⟩
        next hpoll =>
          obtain ⟨hcarried, hend⟩ := pollProduced_of_eq hpoll
          exact ⟨congrArg (fun l ↦ c.received ++ (_ ++ (c.prelude ++ l))) hend.coming_eq, hcarried⟩
        next hpoll =>
          obtain ⟨hcarried, hcoming⟩ := pollProduced_of_eq hpoll
          refine ⟨?_, hcarried⟩
          rw [account, account, hcoming, hfree.2, hp, append_assoc]
          rfl
    · exact ⟨rfl, rfl⟩

/-! ## The end of a stream -/

theorem Empty.step (h : c.Empty) (a : ReadAction) : (c.step f a).Empty := by
  obtain ⟨prelude, w, call, hand, received, ended⟩ := c
  obtain ⟨hhand, hprelude, hproduced⟩ := h
  dsimp only at hhand hprelude hproduced
  subst hhand hprelude
  unfold Consumer.step
  split
  · split <;> exact ⟨rfl, rfl, hproduced⟩
  · split <;> exact ⟨rfl, rfl, hproduced⟩
  next arrived =>
    split
    · exact ⟨rfl, rfl, hproduced⟩
    · obtain ⟨left, hp | hp⟩ := @pollProduced_of_nil _ f _ hproduced arrived
      · rw [pollPeek, hp]
        split <;> exact ⟨rfl, rfl, hproduced⟩
      · rw [pollPeek, hp]
        split <;> exact ⟨rfl, rfl, hproduced⟩
    · have hpos := @pollPositioned_of_nil _ f _ hproduced arrived []
      unfold pollTakeLeadingMeta
      split
      · exact ⟨rfl, rfl, hproduced⟩
      · split
        next hpoll =>
          rw [hpoll] at hpos
          cases hpos
          exact ⟨rfl, rfl, hproduced⟩
        next hpoll =>
          rw [hpoll] at hpos
          cases hpos
          exact ⟨rfl, rfl, hproduced⟩
  · exact ⟨rfl, rfl, hproduced⟩
  · split <;> exact ⟨rfl, rfl, hproduced⟩
  next arrived =>
    split
    · obtain ⟨left, hp | hp⟩ := @pollProduced_of_nil _ f _ hproduced arrived
      · rw [pollNext, hp]
        exact ⟨rfl, rfl, hproduced⟩
      · rw [pollNext, hp]
        exact ⟨rfl, rfl, hproduced⟩
    · exact ⟨rfl, rfl, hproduced⟩

theorem ended_step (c : Consumer σ) (a : ReadAction) :
    (c.step f a).ended = c.ended ∨ (c.step f a).ended = true ∧ (c.step f a).Empty := by
  unfold step
  split
  · split <;> exact .inl rfl
  · split <;> exact .inl rfl
  · split
    · exact .inl rfl
    · unfold pollPeek
      split
      · split <;> exact .inl rfl
      · exact .inl rfl
    · unfold pollTakeLeadingMeta
      split
      · exact .inl rfl
      · split <;> exact .inl rfl
  · exact .inl rfl
  · split <;> exact .inl rfl
  · split
    next hfree =>
      rw [Bool.and_eq_true, List.isEmpty_iff] at hfree
      unfold pollNext
      split
      · exact .inl rfl
      next hp =>
        split
        · exact .inl rfl
        next hpoll => exact .inr ⟨rfl, hfree.2, hp, (pollProduced_of_eq hpoll).2.2⟩
        · exact .inl rfl
    · exact .inl rfl

theorem ended_mono (h : c.ended = true) (a : ReadAction) : (c.step f a).ended = true := by
  rcases c.ended_step (f := f) a with hsame | ⟨hend, -⟩
  · exact hsame.trans h
  · exact hend

theorem empty_of_ended_step (hc : c.ended = true → c.Empty) (a : ReadAction)
    (h : (c.step f a).ended = true) : (c.step f a).Empty := by
  rcases c.ended_step (f := f) a with hsame | ⟨-, hempty⟩
  · exact (hc (hsame ▸ h)).step a
  · exact hempty

/-! ## Runs -/

theorem account_run (c : Consumer σ) (as : List ReadAction) :
    (c.run f as).account f = c.account f ∧ (c.run f as).inflow.carried = c.inflow.carried := by
  induction as generalizing c with
  | nil => exact ⟨rfl, rfl⟩
  | cons a as ih =>
    obtain ⟨haccount, hcarried⟩ := c.account_step (f := f) a
    obtain ⟨ih₁, ih₂⟩ := ih (c.step f a)
    exact ⟨ih₁.trans haccount, ih₂.trans hcarried⟩

theorem ended_run (h : c.ended = true) (as : List ReadAction) : (c.run f as).ended = true := by
  induction as generalizing c with
  | nil => exact h
  | cons a as ih => exact ih (ended_mono h a)

theorem empty_of_ended_run (hc : c.ended = true → c.Empty) (as : List ReadAction)
    (h : (c.run f as).ended = true) : (c.run f as).Empty := by
  induction as generalizing c with
  | nil => exact hc h
  | cons a as ih => exact ih (empty_of_ended_step hc a) h

theorem pollProduced_ready {arrived : ℕ} {w : Inflow σ} (h : w.produced.length < arrived) :
    ∃ answer left w', pollProduced f arrived w = (.ready answer, left, w') ∧
      w'.produced.length ≤ w.produced.length := by
  induction arrived generalizing w with
  | zero => exact absurd h (Nat.not_lt_zero _)
  | succ arrived ih =>
    rw [pollProduced]
    split
    next hp => exact ⟨none, arrived, w, rfl, Nat.le_refl _⟩
    next e es hp =>
      rw [hp, length_cons] at h ⊢
      split
      next e' he => exact ⟨some e', arrived, w.ask f e es, rfl, le_succ _⟩
      next he =>
        obtain ⟨answer, left, w', hpoll, hle⟩ := ih (w := w.ask f e es) (lt_of_succ_lt_succ h)
        exact ⟨answer, left, w', hpoll, hle.trans (le_succ _)⟩

theorem ended_reads {n arrived : ℕ} (hcall : c.call = none) (hhand : c.hand = [])
    (harrived : c.inflow.produced.length < arrived)
    (hn : c.prelude.length + (c.inflow.coming f).length < n) :
    (c.run f (List.replicate n (.read arrived))).ended = true := by
  induction n generalizing c with
  | zero => exact absurd hn (Nat.not_lt_zero _)
  | succ n ih =>
    have hread : c.step f (.read arrived) = c.pollNext f arrived := by
      rw [step, hcall, hhand]
      rfl
    change ((c.step f (.read arrived)).run f (List.replicate n (.read arrived))).ended = true
    rw [hread, pollNext]
    split
    next e es hp =>
      rw [hp, length_cons] at hn
      exact ih hcall hhand harrived (by dsimp only; omega)
    next hp =>
      obtain ⟨answer, left, w, hpoll, hle⟩ := pollProduced_ready (f := f) harrived
      obtain ⟨-, hyields⟩ := pollProduced_of_eq hpoll
      rw [hpoll]
      cases answer with
      | none => exact ended_run rfl _
      | some e =>
        rw [hp, hyields, length_cons, length_nil] at hn
        refine ih hcall hhand (Nat.lt_of_le_of_lt hle harrived) ?_
        dsimp only
        rw [hp, length_nil]
        omega

end Consumer

/-- The consumer that only reads is given what is on the prelude and what the rewrite makes of the
rest. -/
theorem readsAlone_eq (f : Rewriter σ StreamEvent) (prelude : List StreamEvent) (s : σ)
    (produced : List StreamEvent) :
    readsAlone f prelude s produced = prelude ++ f.outputs s produced := by
  have haccount := ((Consumer.start prelude s produced).account_run (f := f)
    (readsOnly prelude produced)).1
  have hend : ((Consumer.start prelude s produced).run f (readsOnly prelude produced)).ended =
      true := by
    refine Consumer.ended_reads rfl rfl (lt_succ_self _) ?_
    have hle := f.length_outputs_le s produced
    exact lt_succ_of_le (Nat.add_le_add_left hle _)
  obtain ⟨hhand, hprelude, hproduced⟩ := Consumer.empty_of_ended_run (c := .start prelude s produced)
    nofun _ hend
  rw [Consumer.account, hhand, hprelude, Inflow.coming, hproduced] at haccount
  rw [Rewriter.outputs, map_nil, append_nil, append_nil, append_nil] at haccount
  exact haccount

/-- **Read-ahead is invisible.** Whatever calls a consumer makes, polls and drops, it has read the
first of the events it would read alone, and all of them once it has read to the end. The rewrite is
asked about each event once, in the order of the producer. From every state of a run the consumer
can go on to the end. -/
theorem readAhead_invisible (f : Rewriter σ StreamEvent) (prelude : List StreamEvent) (s : σ)
    (produced : List StreamEvent) (actions : List ReadAction) :
    let c := (Consumer.start prelude s produced).run f actions
    c.received <+: readsAlone f prelude s produced ∧
      (c.ended = true → c.received = readsAlone f prelude s produced ∧
        c.inflow.rewritten = produced) ∧
      c.inflow.rewritten ++ c.inflow.produced = produced ∧
      ∃ more, (c.run f more).ended = true := by
  dsimp only
  obtain ⟨haccount, hcarried⟩ := (Consumer.start prelude s produced).account_run (f := f) actions
  have hempty := Consumer.empty_of_ended_run (f := f) (c := .start prelude s produced) nofun actions
  generalize (Consumer.start prelude s produced).run f actions = c at *
  have hall : c.account f = readsAlone f prelude s produced :=
    haccount.trans (readsAlone_eq f prelude s produced).symm
  refine ⟨⟨_, hall⟩, fun hend ↦ ?_, hcarried, ?_⟩
  · obtain ⟨hhand, hprelude, hproduced⟩ := hempty hend
    rw [Inflow.carried, hproduced, append_nil] at hcarried
    rw [Consumer.account, hhand, hprelude, Inflow.coming, hproduced, Rewriter.outputs,
      map_nil, append_nil, append_nil, append_nil] at hall
    exact ⟨hall, hcarried⟩
  · -- drop the call, put back what was taken, and read
    have hback : ((c.step f .dropCall).step f .putBack).call = none ∧
        ((c.step f .dropCall).step f .putBack).hand = [] := ⟨rfl, rfl⟩
    exact ⟨.dropCall :: .putBack :: List.replicate _ (.read _),
      Consumer.ended_reads hback.1 hback.2 (lt_succ_self _) (lt_succ_self _)⟩

end Account

end WaferRun

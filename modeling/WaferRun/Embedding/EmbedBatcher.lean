import Mathlib.Algebra.GroupWithZero.Nat
import Mathlib.Data.List.Nodup
import Mathlib.Data.List.Range
import WaferRun.Lib.Actions

/-!
# The embedding worker

One worker thread owns the embedding model. Callers queue their texts, and the worker takes what has
queued up through the model in one forward pass and hands each caller its part of the result.

A caller sees nothing of the batching (`wait_eq_serial`): whatever the other callers do and wherever
the worker stands, it gets what the model makes of its own texts.
-/

open List

namespace WaferRun

/-- The bound on the texts of one forward pass; a request is never split for it. -/
def maxBatchTexts : ℕ := 256

def workerGone : String := "fastembed embedding worker thread has terminated"

/-- An embedding for each text, in order, or the message of a service error. -/
abbrev EmbedResult (V : Type) := Except String (List V)

/-- A queued request. Its answer channel goes by the number of requests queued before it. -/
structure BatchRequest where
  respond : ℕ
  texts : List String

abbrev EmbedAnswer (V : Type) := BatchRequest × EmbedResult V

/-- Where the worker loop stands. -/
inductive EmbedWorker (V : Type)
  | receiving
  | draining (requests : List BatchRequest)
  | embedding (requests : List BatchRequest)
  | responding (answers : List (EmbedAnswer V))
  | terminated

def EmbedWorker.held {V : Type} : EmbedWorker V → List BatchRequest
  | draining requests | embedding requests => requests
  | responding answers => answers.map Prod.fst
  | _ => []

/-- The batcher, its worker and the model's own state. What was accepted and sent is kept in
order; `dropped` is what was lost with the worker. -/
structure EmbedBatcher (V ε : Type) where
  closed : Bool
  queue : List BatchRequest
  worker : EmbedWorker V
  model : ε
  accepted : List BatchRequest
  sent : List (EmbedAnswer V)
  dropped : List BatchRequest

/-- The model's forward pass; `none` when it panics. -/
abbrev EmbedFn (V ε : Type) := ε → List String → Option (EmbedResult V × ε)

namespace EmbedBatcher

variable {V ε : Type} {embed : EmbedFn V ε} {b c d : EmbedBatcher V ε} {requests : List BatchRequest}

def spawn (model : ε) : EmbedBatcher V ε := ⟨false, [], .receiving, model, [], [], []⟩

/-- Queue a request. The pending answer is its channel, or the error of a worker that is gone. -/
def enqueue (b : EmbedBatcher V ε) (texts : List String) :
    EmbedBatcher V ε × Except String ℕ :=
  let req := ⟨b.accepted.length, texts⟩
  match b.worker with
  | .terminated => (b, .error workerGone)
  | _ => ({ b with queue := b.queue ++ [req], accepted := b.accepted ++ [req] }, .ok req.respond)

/-- What the answer channel of a request holds; `none` while its sender is kept. -/
def received (b : EmbedBatcher V ε) (i : ℕ) : Option (EmbedResult V) :=
  match b.sent.find? (·.1.respond = i) with
  | some answer => some answer.2
  | none => if i ∈ b.dropped.map BatchRequest.respond then some (.error workerGone) else none

/-- What a pending answer has come to; `none` while the caller waits. -/
def wait (b : EmbedBatcher V ε) : Except String ℕ → Option (EmbedResult V)
  | .error e => some (.error e)
  | .ok i => b.received i

def total (requests : List BatchRequest) : ℕ := (requests.map (·.texts.length)).sum

def split : List BatchRequest → List V → List (EmbedAnswer V)
  | [], _ => []
  | req :: requests, all =>
    let n := req.texts.length
    (req, .ok (all.take n)) :: split requests (all.drop n)

def answers (requests : List BatchRequest) : EmbedResult V → List (EmbedAnswer V)
  | .ok all =>
    if all.length = total requests then split requests all
    else requests.map (·, .error
      s!"fastembed returned {all.length} embeddings for {total requests} texts")
  | .error e => requests.map (·, .error e)

/-- One step of the worker loop; `none` while it waits for a request, and once it has ended. -/
def work (embed : EmbedFn V ε) (b : EmbedBatcher V ε) : Option (EmbedBatcher V ε) :=
  match b.worker with
  | .receiving =>
    match b.queue with
    | first :: queue => some { b with queue, worker := .draining [first] }
    | [] => if b.closed then some { b with worker := .terminated } else none
  | .draining requests =>
    if total requests < maxBatchTexts then
      match b.queue with
      | req :: queue => some { b with queue, worker := .draining (requests ++ [req]) }
      | [] => some { b with worker := .embedding requests }
    else some { b with worker := .embedding requests }
  | .embedding requests =>
    match embed b.model (requests.flatMap BatchRequest.texts) with
    -- The unwinding thread drops its requests and the channel, and with them their senders.
    | none => some { b with worker := .terminated, queue := [], dropped := requests ++ b.queue }
    | some (result, model) => some { b with model, worker := .responding (answers requests result) }
  | .responding [] => some { b with worker := .receiving }
  | .responding (answer :: rest) =>
    some { b with sent := b.sent ++ [answer], worker := .responding rest }
  | .terminated => none

inductive Action
  | enqueue (texts : List String)
  | close
  | work

/-- One action of a caller, of the owner of the handle or of the worker. -/
def step (embed : EmbedFn V ε) (b : EmbedBatcher V ε) : Action → Option (EmbedBatcher V ε)
  | .enqueue texts => if b.closed then none else some (b.enqueue texts).1
  | .close => if b.closed then none else some { b with closed := true }
  | .work => b.work embed

theorem step_cases {a : Action} (h : step embed b a = some c) :
    (∃ texts, c = (b.enqueue texts).1) ∨ c = { b with closed := true } ∨
      b.work embed = some c := by
  cases a with
  | enqueue texts =>
    obtain ⟨_, h⟩ := Option.ite_none_left_eq_some.mp h
    exact .inl ⟨texts, (Option.some.inj h).symm⟩
  | close =>
    obtain ⟨_, h⟩ := Option.ite_none_left_eq_some.mp h
    exact .inr (.inl (Option.some.inj h).symm)
  | work => exact .inr (.inr h)

/-! ## The answers of a pass -/

theorem split_fst (requests : List BatchRequest) (all : List V) :
    (split requests all).map Prod.fst = requests := by
  induction requests generalizing all with
  | nil => rfl
  | cons req requests ih => rw [split, map_cons, ih]

theorem answers_fst (requests : List BatchRequest) (result : EmbedResult V) :
    (answers requests result).map Prod.fst = requests := by
  unfold answers
  split
  · split
    · exact split_fst requests _
    · simp [Function.comp_def]
  · simp [Function.comp_def]

theorem total_cons (req : BatchRequest) (requests : List BatchRequest) :
    total (req :: requests) = req.texts.length + total requests := by
  rw [total, map_cons, sum_cons, total]

theorem length_of_mem_split {all : List V} (h : all.length = total requests)
    {p : EmbedAnswer V} (hp : p ∈ split requests all) :
    ∃ out, p.2 = .ok out ∧ out.length = p.1.texts.length := by
  induction requests generalizing all with
  | nil => exact absurd hp not_mem_nil
  | cons req requests ih =>
    rw [total_cons] at h
    rcases mem_cons.mp hp with rfl | hp
    · exact ⟨_, rfl, by rw [length_take, Nat.min_eq_left (by omega)]⟩
    · exact ih (by rw [length_drop]; omega) hp

theorem split_map (f : String → V) (requests : List BatchRequest) :
    split requests ((requests.flatMap BatchRequest.texts).map f)
      = requests.map fun req ↦ (req, .ok (req.texts.map f)) := by
  induction requests with
  | nil => rfl
  | cons req requests ih =>
    have hlength : (req.texts.map f).length = req.texts.length := length_map _
    rw [split, flatMap_cons, map_append, ← hlength, take_left, drop_left, ih, map_cons]

/-- Every pass answers each of its requests with `P`. -/
def Answering (embed : EmbedFn V ε) (P : List String → EmbedResult V → Prop) : Prop :=
  ∀ m requests result m', embed m (requests.flatMap BatchRequest.texts) = some (result, m') →
    ∀ p ∈ answers requests result, P p.1.texts p.2

def Complete (texts : List String) (result : EmbedResult V) : Prop :=
  ∀ out, result = .ok out → out.length = texts.length

theorem answering_complete (embed : EmbedFn V ε) : Answering embed Complete := by
  intro m requests result m' _ p hp out hout
  have herror : ∀ e, p ∉ requests.map (·, (.error e : EmbedResult V)) := by
    intro e hp
    obtain ⟨req, _, rfl⟩ := mem_map.mp hp
    contradiction
  unfold answers at hp
  split at hp
  · split at hp
    next h =>
      obtain ⟨_, hp, hlength⟩ := length_of_mem_split h hp
      rw [hp, Except.ok.injEq] at hout
      exact hout ▸ hlength
    · exact absurd hp (herror _)
  · exact absurd hp (herror _)

theorem answering_serial {f : String → V}
    (hembed : ∀ m texts, ∃ m', embed m texts = some (.ok (texts.map f), m')) :
    Answering embed fun texts result ↦ result = .ok (texts.map f) := by
  intro m requests result m' h p hp
  obtain ⟨m'', h'⟩ := hembed m (requests.flatMap BatchRequest.texts)
  obtain ⟨rfl, _⟩ := Prod.mk.inj (Option.some.inj (h'.symm.trans h))
  have hlength : ((requests.flatMap BatchRequest.texts).map f).length = total requests := by
    rw [length_map, length_flatMap, total]
  rw [answers, if_pos hlength, split_map] at hp
  obtain ⟨req, _, rfl⟩ := mem_map.mp hp
  rfl

/-! ## What every run keeps -/

/-- What holds where the worker stands: it has taken a pass that without its last request is under
the bound, its answers have `P`, or it ended with the last handle or in a panic. -/
def Standing (P : List String → EmbedResult V → Prop) (b : EmbedBatcher V ε) : Prop :=
  match b.worker with
  | .receiving => b.dropped = []
  | .draining requests | .embedding requests =>
    b.dropped = [] ∧ requests ≠ [] ∧ total requests.dropLast < maxBatchTexts
  | .responding answers => b.dropped = [] ∧ ∀ p ∈ answers, P p.1.texts p.2
  | .terminated => b.queue = [] ∧ (b.closed = true ∨ b.dropped ≠ [])

/-- The accepted requests are answered, with the worker, queued or dropped, in that order, and an
answer has `P`. -/
structure Inv (P : List String → EmbedResult V → Prop) (b : EmbedBatcher V ε) : Prop where
  order : b.accepted = b.sent.map Prod.fst ++ b.worker.held ++ b.queue ++ b.dropped
  numbered : b.accepted.map BatchRequest.respond = range b.accepted.length
  sent : ∀ p ∈ b.sent, P p.1.texts p.2
  standing : Standing P b

variable {P : List String → EmbedResult V → Prop}

theorem inv_spawn (model : ε) : Inv P (spawn model : EmbedBatcher V ε) :=
  ⟨rfl, rfl, fun _ hp ↦ absurd hp not_mem_nil, rfl⟩

theorem Inv.dropped_eq_nil (h : Inv P b) (hb : b.worker ≠ .terminated) : b.dropped = [] := by
  have hstanding := h.standing
  unfold Standing at hstanding
  split at hstanding
  · exact hstanding
  · exact hstanding.1
  · exact hstanding.1
  · exact hstanding.1
  · contradiction

theorem Inv.queue_eq_nil (h : Inv P b) (hb : b.worker = .terminated) : b.queue = [] := by
  have hstanding := h.standing
  rw [Standing, hb] at hstanding
  exact hstanding.1

theorem Inv.enqueue (h : Inv P b) (texts : List String) : Inv P (b.enqueue texts).1 := by
  unfold EmbedBatcher.enqueue
  split
  · exact h
  next hworker =>
    refine ⟨?_, ?_, h.sent, ?_⟩
    · rw [h.order, h.dropped_eq_nil hworker]
      simp only [append_nil, append_assoc]
    · rw [map_append, h.numbered, length_append, length_singleton, range_succ, map_singleton]
    · have hstanding := h.standing
      unfold Standing at hstanding ⊢
      split at hstanding <;> simp_all

theorem Inv.work (hembed : Answering embed P) (h : Inv P b) (hc : b.work embed = some c) :
    Inv P c := by
  obtain ⟨horder, hnumbered, hsent, hstanding⟩ := h
  unfold Standing at hstanding
  unfold EmbedBatcher.work at hc
  split at hc
  next hw =>
    simp only [hw, EmbedWorker.held] at horder hstanding
    split at hc
    next hq =>
      obtain rfl := Option.some.inj hc
      refine ⟨?_, hnumbered, hsent, hstanding, cons_ne_nil _ _, Nat.zero_lt_succ _⟩
      rw [horder, hq]
      simp [EmbedWorker.held]
    next hq =>
      obtain ⟨hclosed, hc⟩ := Option.ite_none_right_eq_some.mp hc
      obtain rfl := Option.some.inj hc
      exact ⟨horder, hnumbered, hsent, hq, .inl hclosed⟩
  next requests hw =>
    simp only [hw, EmbedWorker.held] at horder hstanding
    have hembedding : Inv P { b with worker := .embedding requests } :=
      ⟨horder, hnumbered, hsent, hstanding⟩
    split at hc
    next hlt =>
      split at hc
      next hq =>
        obtain rfl := Option.some.inj hc
        refine ⟨?_, hnumbered, hsent, hstanding.1, by simp, by simpa using hlt⟩
        rw [horder, hq]
        simp [EmbedWorker.held]
      · exact Option.some.inj hc ▸ hembedding
    · exact Option.some.inj hc ▸ hembedding
  next requests hw =>
    simp only [hw, EmbedWorker.held] at horder hstanding
    split at hc
    · obtain rfl := Option.some.inj hc
      refine ⟨?_, hnumbered, hsent, rfl, .inr (append_ne_nil_of_left_ne_nil hstanding.2.1 _)⟩
      rw [horder, hstanding.1]
      simp [EmbedWorker.held]
    next result model heq =>
      obtain rfl := Option.some.inj hc
      refine ⟨?_, hnumbered, hsent, hstanding.1, hembed _ _ _ _ heq⟩
      rw [horder, EmbedWorker.held, answers_fst]
  next hw =>
    simp only [hw, EmbedWorker.held] at horder hstanding
    obtain rfl := Option.some.inj hc
    exact ⟨horder, hnumbered, hsent, hstanding.1⟩
  next answer rest hw =>
    simp only [hw, EmbedWorker.held] at horder hstanding
    rw [forall_mem_cons] at hstanding
    obtain rfl := Option.some.inj hc
    refine ⟨?_, hnumbered, ?_, hstanding.1, hstanding.2.2⟩
    · rw [horder]
      simp [EmbedWorker.held]
    · rw [forall_mem_append, forall_mem_singleton]
      exact ⟨hsent, hstanding.2.1⟩
  · contradiction

theorem Inv.preserved (hembed : Answering embed P) (b : EmbedBatcher V ε) (a : Action)
    (c : EmbedBatcher V ε) (h : Inv P b) (hc : step embed b a = some c) : Inv P c := by
  rcases step_cases hc with ⟨texts, rfl⟩ | rfl | hc
  · exact h.enqueue texts
  · refine ⟨h.order, h.numbered, h.sent, ?_⟩
    have hstanding := h.standing
    unfold Standing at hstanding ⊢
    split at hstanding <;> simp_all
  · exact h.work hembed hc

/-! ## What a caller sees -/

theorem fate_of_received (h : Inv P b) {req : BatchRequest} (hreq : req ∈ b.accepted)
    {r : EmbedResult V} (hr : b.received req.respond = some r) :
    P req.texts r ∨ r = .error workerGone ∧ b.dropped ≠ [] := by
  unfold received at hr
  split at hr
  next answer hfind =>
    obtain rfl := Option.some.inj hr
    have hsent := mem_of_find?_eq_some hfind
    have haccepted : answer.1 ∈ b.accepted := by
      rw [h.order]
      simp only [mem_append, mem_map]
      exact .inl (.inl (.inl ⟨_, hsent, rfl⟩))
    have hnodup : (b.accepted.map BatchRequest.respond).Nodup := h.numbered ▸ nodup_range
    have heq : answer.1 = req :=
      inj_on_of_nodup_map hnodup haccepted hreq (by simpa using find?_some hfind)
    exact .inl (heq ▸ h.sent _ hsent)
  · obtain ⟨hmem, hr⟩ := Option.ite_none_right_eq_some.mp hr
    refine .inr ⟨(Option.some.inj hr).symm, fun hnil ↦ ?_⟩
    rw [hnil] at hmem
    exact not_mem_nil hmem

theorem exists_received_of_mem_sent {p : EmbedAnswer V} (hp : p ∈ b.sent) :
    ∃ r, b.received p.1.respond = some r := by
  unfold received
  split
  · exact ⟨_, rfl⟩
  next hfind => exact absurd (decide_eq_true rfl) (find?_eq_none.mp hfind p hp)

/-- What no step takes back. -/
structure Later (b c : EmbedBatcher V ε) : Prop where
  accepted : b.accepted <+: c.accepted
  received : ∀ i r, b.received i = some r → c.received i = some r

theorem later_of_sent (haccepted : b.accepted <+: c.accepted) (hsent : b.sent <+: c.sent)
    (hdropped : b.dropped = [] ∨ c.sent = b.sent ∧ c.dropped = b.dropped) : Later b c := by
  refine ⟨haccepted, fun i r hr ↦ ?_⟩
  rcases hdropped with hnil | ⟨hsame, hdropped⟩
  · obtain ⟨l, hl⟩ := hsent
    unfold received at hr ⊢
    rw [← hl, find?_append]
    split at hr
    next hfind => rw [hfind]; exact hr
    · rw [hnil, map_nil, if_neg not_mem_nil] at hr
      contradiction
  · unfold received at hr ⊢
    rw [hsame, hdropped]
    exact hr

theorem Inv.later (h : Inv P b) {a : Action} (hc : step embed b a = some c) : Later b c := by
  rcases step_cases hc with ⟨texts, rfl⟩ | rfl | hc
  · unfold EmbedBatcher.enqueue
    split
    · exact later_of_sent (prefix_refl _) (prefix_refl _) (.inr ⟨rfl, rfl⟩)
    · exact later_of_sent (prefix_append _ _) (prefix_refl _) (.inr ⟨rfl, rfl⟩)
  · exact later_of_sent (prefix_refl _) (prefix_refl _) (.inr ⟨rfl, rfl⟩)
  · have hworker : b.worker ≠ .terminated := by
      intro hb
      simp [EmbedBatcher.work, hb] at hc
    have hkept : c.accepted = b.accepted ∧ b.sent <+: c.sent := by
      unfold EmbedBatcher.work at hc
      repeat' split at hc
      all_goals first
        | contradiction
        | obtain rfl := Option.some.inj hc; exact ⟨rfl, by simp⟩
    exact later_of_sent (hkept.1 ▸ prefix_refl _) hkept.2 (.inl (h.dropped_eq_nil hworker))

theorem Later.trans (h : Later b c) (h' : Later c d) : Later b d :=
  ⟨h.accepted.trans h'.accepted, fun i r hr ↦ h'.received i r (h.received i r hr)⟩

theorem later_of_run (hembed : Answering embed P) {as : List Action} (h : Inv P b)
    (hc : Actions.run (step embed) b as = some c) : Later b c :=
  (Actions.run_invariant (I := fun d ↦ Inv P d ∧ Later b d)
    (fun d a e hd he ↦ ⟨hd.1.preserved hembed d a e he, hd.2.trans (hd.1.later he)⟩)
    ⟨h, prefix_refl _, fun _ _ hr ↦ hr⟩ hc).2

theorem enqueue_of_alive (hb : b.worker ≠ .terminated) (texts : List String) :
    let req : BatchRequest := ⟨b.accepted.length, texts⟩
    b.enqueue texts = ({ b with queue := b.queue ++ [req], accepted := b.accepted ++ [req] },
      .ok req.respond) := by
  unfold enqueue
  split
  next hw => exact absurd hw hb
  · rfl

theorem fate_of_wait (hembed : Answering embed P) (h : Inv P b) {texts : List String}
    {bs : List Action} (hd : Actions.run (step embed) (b.enqueue texts).1 bs = some d)
    {r : EmbedResult V} (hr : d.wait (b.enqueue texts).2 = some r) :
    P texts r ∨ r = .error workerGone ∧ (b.worker = .terminated ∨ d.dropped ≠ []) := by
  have hinv := Actions.run_invariant (Inv.preserved hembed) (h.enqueue texts) hd
  have haccepted := (later_of_run hembed (h.enqueue texts) hd).accepted
  by_cases hb : b.worker = .terminated
  · rw [enqueue, hb] at hr
    exact .inr ⟨(Option.some.inj hr).symm, .inl hb⟩
  · rw [enqueue_of_alive hb texts] at hr haccepted
    have hreq : ⟨b.accepted.length, texts⟩ ∈ d.accepted :=
      haccepted.mem (mem_append_right _ (mem_singleton_self _))
    rcases fate_of_received hinv hreq hr with hP | ⟨hgone, hne⟩
    · exact .inl hP
    · exact .inr ⟨hgone, .inr hne⟩

/-- **Requests are answered once, in the order of the calls.** Whatever the model does, an accepted
request is answered, with the worker, queued or dropped, in the order of the calls; a pass is over
the bound with its last request only; and an answer has an embedding for each text of its caller,
unless it is an error, and stays. -/
theorem answered_in_order {m : ε} {as bs : List Action} {texts : List String}
    (hb : Actions.run (step embed) (spawn m) as = some b)
    (hd : Actions.run (step embed) (b.enqueue texts).1 bs = some d) :
    d.accepted = d.sent.map Prod.fst ++ d.worker.held ++ d.queue ++ d.dropped ∧
      d.accepted.map BatchRequest.respond = range d.accepted.length ∧
      (∀ requests, d.worker = .embedding requests →
        requests ≠ [] ∧ total requests.dropLast < maxBatchTexts) ∧
      ∀ r, d.wait (b.enqueue texts).2 = some r → Complete texts r ∧
        ∀ cs e, Actions.run (step embed) d cs = some e → e.wait (b.enqueue texts).2 = some r := by
  have hembed := answering_complete embed
  have hinv := Actions.run_invariant (Inv.preserved hembed) (inv_spawn m) hb
  have hinv' := Actions.run_invariant (Inv.preserved hembed) (hinv.enqueue texts) hd
  refine ⟨hinv'.order, hinv'.numbered, fun requests hw ↦ ?_, fun r hr ↦ ⟨?_, fun cs e he ↦ ?_⟩⟩
  · have hstanding := hinv'.standing
    rw [Standing, hw] at hstanding
    exact hstanding.2
  · rcases fate_of_wait hembed hinv hd hr with hcomplete | ⟨rfl, _⟩
    · exact hcomplete
    · intro out hout
      contradiction
  · rcases hpending : (b.enqueue texts).2 with _ | i
    · rwa [hpending] at hr
    · rw [hpending] at hr
      exact (later_of_run hembed hinv' he).received i r hr

/-- A model that gives each text its length. -/
def lengths : EmbedFn ℕ Unit := fun m texts ↦ some (.ok (texts.map String.length), m)

theorem answered_in_order_second_call :
    ∃ b d : EmbedBatcher ℕ Unit, Actions.run (step lengths) (spawn ()) [.enqueue ["a"]] = some b ∧
      Actions.run (step lengths) (b.enqueue ["bb"]).1 (replicate 6 .work) = some d ∧
      d.accepted = d.sent.map Prod.fst ++ d.worker.held ++ d.queue ++ d.dropped ∧
      d.accepted.map BatchRequest.respond = range d.accepted.length ∧
      d.wait (b.enqueue ["bb"]).2 = some (.ok [2]) ∧ Complete ["bb"] (.ok [2]) ∧
      ∀ cs e, Actions.run (step lengths) d cs = some e →
        e.wait (b.enqueue ["bb"]).2 = some (.ok [2]) := by
  refine ⟨_, _, rfl, rfl, ?_⟩
  obtain ⟨horder, hnumbered, -, hwait⟩ := @answered_in_order _ _ lengths _ _ ()
    [.enqueue ["a"]] (replicate 6 .work) ["bb"] rfl rfl
  exact ⟨horder, hnumbered, rfl, hwait _ rfl⟩

/-! ## A worker left to itself answers every request -/

/-- The steps the worker takes at most before it waits for a new request. -/
def steps (b : EmbedBatcher V ε) : ℕ :=
  5 * b.queue.length + match b.worker with
    | .receiving | .terminated => 0
    | .draining requests => requests.length + 3
    | .embedding requests => requests.length + 2
    | .responding answers => answers.length + 1

theorem exists_work (hembed : ∀ m texts, embed m texts ≠ none) (b : EmbedBatcher V ε)
    (hb : b.worker = .terminated → b.queue = []) (hbusy : ¬(b.queue = [] ∧ b.worker.held = [])) :
    ∃ c, b.work embed = some c ∧ (c.worker = .terminated → c.queue = []) ∧ c.steps < b.steps := by
  unfold work
  split
  next hw =>
    rcases hq : b.queue with _ | ⟨first, queue⟩
    · exact absurd ⟨hq, by rw [hw]; rfl⟩ hbusy
    · refine ⟨_, rfl, by simp, ?_⟩
      simp only [steps, hw, hq, length_cons, length_nil]
      omega
  next requests hw =>
    have hembedding : (steps { b with worker := .embedding requests }) < b.steps := by
      simp only [steps, hw]
      omega
    split
    · rcases hq : b.queue with _ | ⟨req, queue⟩
      · exact ⟨_, rfl, by simp, by rwa [hq] at hembedding⟩
      · refine ⟨_, rfl, by simp, ?_⟩
        simp only [steps, hw, hq, length_append, length_cons, length_nil]
        omega
    · exact ⟨_, rfl, by simp, hembedding⟩
  next requests hw =>
    rcases hpass : embed b.model (requests.flatMap BatchRequest.texts) with _ | ⟨result, model⟩
    · exact absurd hpass (hembed _ _)
    · refine ⟨_, rfl, by simp, ?_⟩
      have hlength := congrArg length (answers_fst requests result)
      rw [length_map] at hlength
      simp only [steps, hw, hlength]
      omega
  next hw =>
    refine ⟨_, rfl, by simp, ?_⟩
    simp only [steps, hw, length_nil]
    omega
  next answer rest hw =>
    refine ⟨_, rfl, by simp, ?_⟩
    simp only [steps, hw, length_cons]
    omega
  next hw => exact absurd ⟨hb hw, by rw [hw]; rfl⟩ hbusy

theorem exists_drained (hembed : ∀ m texts, embed m texts ≠ none) (b : EmbedBatcher V ε)
    (hb : b.worker = .terminated → b.queue = []) :
    ∃ n c, Actions.run (step embed) b (replicate n .work) = some c ∧ c.queue = [] ∧
      c.worker.held = [] := by
  induction hn : b.steps using Nat.strong_induction_on generalizing b with
  | _ n ih =>
    by_cases hbusy : b.queue = [] ∧ b.worker.held = []
    · exact ⟨0, b, rfl, hbusy⟩
    · obtain ⟨c, hc, hworker, hlt⟩ := exists_work hembed b hb hbusy
      obtain ⟨k, d, hd, hdrained⟩ := ih _ (hn ▸ hlt) c hworker rfl
      exact ⟨k + 1, d, Actions.run_cons_eq_some.mpr ⟨c, hc, hd⟩, hdrained⟩

theorem dropped_eq_nil_of_step (hembed : ∀ m texts, embed m texts ≠ none) (b : EmbedBatcher V ε)
    (a : Action) (c : EmbedBatcher V ε) (h : b.dropped = []) (hc : step embed b a = some c) :
    c.dropped = [] := by
  rcases step_cases hc with ⟨texts, rfl⟩ | rfl | hc
  · unfold enqueue
    split <;> exact h
  · exact h
  · unfold work at hc
    repeat' split at hc
    all_goals first
      | contradiction
      | exact Option.some.inj hc ▸ h
      | exact absurd ‹_› (hembed _ _)

/-- **A caller sees nothing of the batching.** If the model embeds each text by itself, a request
made at any time comes to the embeddings of its own texts or to nothing, and the worker left to
itself comes to them, whatever else was and will be requested. -/
theorem wait_eq_serial {f : String → V}
    (hembed : ∀ m texts, ∃ m', embed m texts = some (.ok (texts.map f), m')) {m : ε}
    {as bs : List Action} {texts : List String}
    (hb : Actions.run (step embed) (spawn m) as = some b) (hopen : b.closed = false)
    (hd : Actions.run (step embed) (b.enqueue texts).1 bs = some d) :
    (∀ r, d.wait (b.enqueue texts).2 = some r → r = .ok (texts.map f)) ∧
      ∃ n c, Actions.run (step embed) d (replicate n .work) = some c ∧
        c.wait (b.enqueue texts).2 = some (.ok (texts.map f)) := by
  have hanswering := answering_serial hembed
  have htotal : ∀ m texts, embed m texts ≠ none := by
    intro m texts
    obtain ⟨m', h⟩ := hembed m texts
    rw [h]
    exact Option.some_ne_none _
  have hinv := Actions.run_invariant (Inv.preserved hanswering) (inv_spawn m) hb
  have hdropped := Actions.run_invariant (dropped_eq_nil_of_step htotal) rfl hb
  have hworker : b.worker ≠ .terminated := by
    intro hw
    have hstanding := hinv.standing
    rw [Standing, hw, hopen, hdropped] at hstanding
    simp at hstanding
  have hkeep : ∀ (cs : List Action) (c : EmbedBatcher V ε),
      Actions.run (step embed) (b.enqueue texts).1 cs = some c → c.dropped = [] := by
    intro cs c hc
    refine Actions.run_invariant (I := fun e ↦ e.dropped = []) (dropped_eq_nil_of_step htotal) ?_ hc
    rw [enqueue_of_alive hworker]
    exact hdropped
  have hserial : ∀ (cs : List Action) (c : EmbedBatcher V ε),
      Actions.run (step embed) (b.enqueue texts).1 cs = some c →
      ∀ r, c.wait (b.enqueue texts).2 = some r → r = .ok (texts.map f) := by
    intro cs c hrun r hr
    rcases fate_of_wait hanswering hinv hrun hr with h | ⟨_, h | h⟩
    · exact h
    · exact absurd h hworker
    · exact absurd (hkeep cs c hrun) h
  refine ⟨hserial bs d hd, ?_⟩
  obtain ⟨n, c, hc, hqueue, hheld⟩ := exists_drained htotal d
    (Actions.run_invariant (Inv.preserved hanswering) (hinv.enqueue texts) hd).queue_eq_nil
  have hrun : Actions.run (step embed) (b.enqueue texts).1 (bs ++ replicate n .work) = some c := by
    rw [Actions.run_append, hd, Option.bind_some, hc]
  have horder := (Actions.run_invariant (Inv.preserved hanswering) (hinv.enqueue texts) hrun).order
  rw [hqueue, hheld, hkeep _ c hrun, append_nil, append_nil, append_nil] at horder
  have haccepted := (later_of_run hanswering (hinv.enqueue texts) hrun).accepted
  have hserial' := hserial _ c hrun
  rw [enqueue_of_alive hworker] at haccepted hserial' ⊢
  have hmem := horder ▸ haccepted.mem (mem_append_right _ (mem_singleton_self _))
  obtain ⟨p, hp, hreq⟩ := mem_map.mp hmem
  obtain ⟨r, hr⟩ := exists_received_of_mem_sent hp
  rw [hreq] at hr
  exact ⟨n, c, hc, hserial' r hr ▸ hr⟩

theorem wait_eq_serial_second_call :
    ∃ d : EmbedBatcher ℕ Unit, ∃ n c, Actions.run (step lengths) d (replicate n .work) = some c ∧
      c.wait (.ok 1) = some (.ok [2]) :=
  ⟨_, (@wait_eq_serial _ _ lengths _ _ String.length (fun m _ ↦ ⟨m, rfl⟩) () [.enqueue ["a"]]
    [.work] ["bb"] rfl rfl rfl).2⟩

end EmbedBatcher

end WaferRun

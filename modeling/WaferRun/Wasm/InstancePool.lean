import WaferRun.Wasm.StreamMoves

/-!
# Warm instances

A block may ask to keep its instances between calls, all in one set or one set for each flow. A call
then takes an idle instance of its set, or a new one if there is none, and gives it back only after
a result that could be read. In between nobody else can have it: what is not idle belongs to one
call, and a call that fails, or is cancelled, takes its instance with it.

The store of an instance holds what a call may touch (`GuestStore`). Some of it is reset when a call
takes the instance, some when the call enters its scope, and some when the instance is given back.
What happens in between is left open: the guest and the host that serves it may leave any streams,
any notes and any memory behind.

Instances have a number here that the source does not give them, so that one can say which call was
served by which.
-/

namespace WaferRun.Wasm

open HandleTable

/-! ## Policy -/

def maxCallsPerInstance : ℕ := 256

def maxPooledInstances : ℕ := 4

inductive InstanceMode
  | perNode
  | singleton
  | perFlow
  | perExecution
deriving DecidableEq, Repr

/-- How the instances of a block are reused. -/
inductive PoolScope
  | cold
  | block
  | flow
deriving DecidableEq, Repr

def PoolScope.of : InstanceMode → PoolScope
  | .singleton => block
  | .perFlow => flow
  | .perNode | .perExecution => cold

/-- The budget of instructions of a call. -/
inductive FuelLimit
  | metered (n : ℕ)
  | unmetered
deriving DecidableEq, Repr

inductive HostCodec
  | rmp
  | json
deriving DecidableEq, Repr

/-- A loaded block. `G` is what the memory and the globals of an instance may be. -/
structure WasmBlock (G : Type*) where
  codec : GuestCodec
  instanceMode : InstanceMode
  poolingEnabled : Bool
  fuel : FuelLimit
  memoryPages : ℕ
  maxHostBytes : ℕ
  maxLiveStreams : ℕ
  /-- The size of the exported memory. -/
  dataSize : G → Option ℕ
  /-- The imports the start functions of the module may call, in order. -/
  startup : List Import → Prop

/-! ## Stores -/

/-- The state of an instance that its host keeps, and its memory. `γ` are the contexts of calls. -/
structure GuestStore (γ G : Type*) where
  context : Option γ
  currentAttachments : Option Attachments
  host : HostState
  hostCodec : HostCodec
  fuel : Option ℕ
  guest : G

variable {γ G : Type*} (block : WasmBlock G)

def applyFuel (fuel : Option ℕ) : Option ℕ :=
  match block.fuel with
  | .metered n => some n
  | .unmetered => fuel

def freshRegistry : StreamRegistry := .withLimits block.maxHostBytes block.maxLiveStreams

def runStartup (host : HostState) : List Import → Option HostState
  | [] => some host
  | i :: is =>
    match callImport block.codec host i with
    | (.ret _, host, _) => runStartup host is
    | (.suspended, _, _) | (.trapped, _, _) => none

def instantiate (caps : BlockCapabilities) (imports : List Import) (hostCodec : HostCodec)
    (guest : G) : Option (GuestStore γ G) :=
  match runStartup block ⟨caps, ⟨[], []⟩, freshRegistry block, none, none, none, none⟩ imports with
  | none => none
  | some host => some ⟨none, none, host, hostCodec, applyFuel block none, guest⟩

structure PooledInstance (γ G : Type*) where
  id : ℕ
  store : GuestStore γ G
  callsServed : ℕ
  set : Option String

/-! ## The pool -/

structure InstancePool (γ G : Type*) where
  shared : List (PooledInstance γ G)
  perFlow : Table String (List (PooledInstance γ G))

namespace InstancePool

variable (pool : InstancePool γ G)

def idle : Option String → List (PooledInstance γ G)
  | none => pool.shared
  | some flow => (pool.perFlow.lookup flow).getD []

def setIdle (l : List (PooledInstance γ G)) : Option String → InstancePool γ G
  | none => { pool with shared := l }
  | some flow => { pool with perFlow := pool.perFlow.insert flow l }

def pop (set : Option String) : Option (PooledInstance γ G × InstancePool γ G) :=
  match (pool.idle set).getLast? with
  | none => none
  | some p => some (p, pool.setIdle (pool.idle set).dropLast set)

def push (leased : PooledInstance γ G) : InstancePool γ G :=
  let l := pool.idle leased.set
  pool.setIdle (if l.length < maxPooledInstances then l ++ [leased] else l) leased.set

end InstancePool

/-! ## Calls -/

/-- What a call brings. -/
structure HandleRequest (γ : Type*) where
  context : γ
  flowId : Option String
  attachments : Option Attachments
  hostOwned : HostOwnedMeta

/-- A call that is served by an instance, with the lease if the instance may be given back. -/
structure ServedCall (γ G : Type*) where
  id : ℕ
  store : GuestStore γ G
  /-- The calls served before, and the set. -/
  lease : Option (ℕ × Option String)

def enterScope (store : GuestStore γ G) (request : HandleRequest γ) : GuestStore γ G :=
  { store with
    context := some request.context
    currentAttachments := request.attachments
    host := { store.host with hostOwnedMeta := request.hostOwned } }

structure CallStart (γ : Type*) where
  context : Option γ
  currentAttachments : Option Attachments
  host : HostState
  fuel : Option ℕ

def GuestStore.start (store : GuestStore γ G) : CallStart γ :=
  ⟨store.context, store.currentAttachments, store.host, store.fuel⟩

/-- The instances of a block, and the calls they serve. -/
structure PoolState (γ G : Type*) where
  capabilities : BlockCapabilities
  poolScope : Option PoolScope
  pool : InstancePool γ G
  calls : List (ServedCall γ G)
  next : ℕ

def PoolState.start (capabilities : BlockCapabilities) : PoolState γ G :=
  ⟨capabilities, none, ⟨[], ∅⟩, [], 0⟩

/-- What is heard of the instances. -/
inductive PoolEvent (γ : Type*)
  | started (id : ℕ) (warm : Bool) (request : HandleRequest γ) (start : CallStart γ)
  | served (id : ℕ)
  | failed (id : ℕ)

/-- A new instance as a call finds it: its number is the next one. -/
structure Startup (G : Type*) where
  imports : List Import
  hostCodec : HostCodec
  guest : G

/-- What may come next. -/
inductive PoolAction (γ G : Type*)
  | setCapabilities (caps : BlockCapabilities)
  /-- A call comes. The declaration of the block may have been read by then, and an instance that
  is created may start up like this. -/
  | handle (request : HandleRequest γ) (informed : Bool) (startup : Startup G)
  /-- The guest and the host go on. -/
  | run (id : ℕ) (streams : StreamRegistry) (finish read takeError : Option Handle)
      (asset : Option String) (spent : ℕ) (guest : G)
  /-- The guest returns a result, which can be read or not. -/
  | complete (id : ℕ) (decodes : Bool)
  /-- The call fails or is cancelled. -/
  | abandon (id : ℕ)

/-- How the instances are reused, once the declaration of the block is known. -/
def poolScope (s : PoolState γ G) (informed : Bool) : PoolScope × Option PoolScope :=
  if block.poolingEnabled = false then (.cold, s.poolScope)
  else
    match s.poolScope with
    | some decided => (decided, some decided)
    | none =>
      -- a declaration that could not be read is not held against the block
      if informed then (.of block.instanceMode, some (.of block.instanceMode)) else (.cold, none)

/-- Take an instance for a call: an idle one, refreshed, or a new one. -/
def checkout (s : PoolState γ G) (set : Option String) (startup : Startup G) :
    Option (Bool × PooledInstance γ G × PoolState γ G) :=
  match s.pool.pop set with
  | some (leased, pool) =>
    let store := { leased.store with
      fuel := applyFuel block leased.store.fuel
      host := { leased.store.host with capabilities := s.capabilities } }
    some (true, { leased with store }, { s with pool })
  | none =>
    match instantiate block s.capabilities startup.imports startup.hostCodec startup.guest with
    | none => none
    | some store => some (false, ⟨s.next, store, 0, set⟩, { s with next := s.next + 1 })

def serve (s : PoolState γ G) (request : HandleRequest γ) (id : ℕ) (warm : Bool)
    (store : GuestStore γ G) (lease : Option (ℕ × Option String)) :
    PoolState γ G × List (PoolEvent γ) :=
  let store := enterScope store request
  ({ s with calls := ⟨id, store, lease⟩ :: s.calls }, [.started id warm request store.start])

def callHandleGuest (s : PoolState γ G) (request : HandleRequest γ) (informed : Bool)
    (startup : Startup G) : PoolState γ G × List (PoolEvent γ) :=
  let (scope, pinned) := poolScope block s informed
  let s := { s with poolScope := pinned }
  let pooled (set : Option String) :=
    match checkout block s set startup with
    | none => (s, [])
    | some (warm, leased, s) =>
      serve s request leased.id warm leased.store (some (leased.callsServed, leased.set))
  match scope with
  | .block => pooled none
  | .flow => pooled request.flowId
  | .cold =>
    match instantiate block s.capabilities startup.imports startup.hostCodec startup.guest with
    | none => (s, [])
    | some store => serve { s with next := s.next + 1 } request s.next false store none

def resetStore (store : GuestStore γ G) : GuestStore γ G :=
  { store with
    context := none
    currentAttachments := none
    host := ⟨store.host.capabilities, ⟨[], []⟩, freshRegistry block, none, none, none, none⟩ }

def checkin (pool : InstancePool γ G) (leased : PooledInstance γ G) : InstancePool γ G :=
  let callsServed := leased.callsServed + 1
  if maxCallsPerInstance ≤ callsServed then pool
  else
    match block.dataSize leased.store.guest with
    | none => pool
    | some size =>
      if block.memoryPages * 65536 ≤ size then pool
      else pool.push { leased with callsServed, store := resetStore block leased.store }

def without (calls : List (ServedCall γ G)) (id : ℕ) : List (ServedCall γ G) :=
  calls.filter fun call ↦ call.id ≠ id

def PoolState.step (s : PoolState γ G) :
    PoolAction γ G → Option (PoolState γ G × List (PoolEvent γ))
  | .setCapabilities capabilities => some ({ s with capabilities }, [])
  | .handle request informed startup => some (callHandleGuest block s request informed startup)
  | .run id streams finish read takeError asset spent guest =>
    match s.calls.find? fun call ↦ call.id = id with
    | none => none
    | some call =>
      let host := ⟨call.store.host.capabilities, call.store.host.hostOwnedMeta, streams, finish,
        read, takeError, asset⟩
      let store := { call.store with host, guest, fuel := call.store.fuel.map (· - spent) }
      some ({ s with calls := { call with store } :: without s.calls id }, [])
  | .complete id decodes =>
    match s.calls.find? fun call ↦ call.id = id with
    | none => none
    | some call =>
      let s := { s with calls := without s.calls id }
      if decodes = false then some (s, [.failed id])
      else
        match call.lease with
        | none => some (s, [.served id])
        | some (callsServed, set) =>
          -- the scope of the call is left before its result is read
          let store := { call.store with context := none }
          some ({ s with pool := checkin block s.pool ⟨id, store, callsServed, set⟩ }, [.served id])
  | .abandon id =>
    match s.calls.find? fun call ↦ call.id = id with
    | none => none
    | some _ => some ({ s with calls := without s.calls id }, [.failed id])

/-! ## What the pool holds -/

namespace InstancePool

variable {γ G : Type*} {pool pool' : InstancePool γ G} {p q : PooledInstance γ G}
  {set other : Option String} {l : List (PooledInstance γ G)} {id : ℕ}

theorem idle_setIdle_self : (pool.setIdle l set).idle set = l := by
  cases set with
  | none => rfl
  | some flow =>
    rw [idle, setIdle]
    dsimp only
    rw [AList.lookup_insert]
    rfl

theorem idle_setIdle_of_ne (h : other ≠ set) :
    (pool.setIdle l set).idle other = pool.idle other := by
  cases set with
  | none =>
    cases other with
    | none => exact absurd rfl h
    | some flow => rfl
  | some flow =>
    cases other with
    | none => rfl
    | some flow' =>
      rw [idle, setIdle]
      dsimp only
      rw [AList.lookup_insert_ne (fun heq ↦ h (congrArg some heq))]
      rfl

def count (pool : InstancePool γ G) (id : ℕ) : ℕ :=
  pool.shared.countP (fun p ↦ p.id = id) +
    total (fun _ l ↦ l.countP fun p ↦ p.id = id) pool.perFlow

theorem count_setIdle :
    (pool.setIdle l set).count id + (pool.idle set).countP (fun p ↦ p.id = id) =
      pool.count id + l.countP (fun p ↦ p.id = id) := by
  cases set with
  | none =>
    simp only [count, setIdle, idle]
    omega
  | some flow =>
    simp only [count, setIdle, idle]
    rcases hl : pool.perFlow.lookup flow with - | l₀
    · rw [total_insert_of_lookup_eq_none hl, Option.getD_none, List.countP_nil]
      omega
    · rw [total_insert, total_of_lookup hl, Option.getD_some]
      omega

theorem countP_le_count :
    (pool.idle set).countP (fun p ↦ p.id = id) ≤ pool.count id := by
  have h := @count_setIdle γ G pool set [] id
  rw [List.countP_nil] at h
  omega

theorem one_le_count (h : p ∈ pool.idle set) : 1 ≤ pool.count p.id :=
  (List.countP_pos_iff.mpr ⟨p, h, decide_eq_true rfl⟩).trans_le countP_le_count

theorem pop_spec (h : pool.pop set = some (p, pool')) :
    p ∈ pool.idle set ∧ (∀ other, ∀ q ∈ pool'.idle other, q ∈ pool.idle other) ∧
      ∀ id, pool'.count id + (if p.id = id then 1 else 0) = pool.count id := by
  rw [pop] at h
  split at h
  · cases h
  · rename_i p' hlast
    obtain ⟨rfl, rfl⟩ := Prod.mk.inj (Option.some.inj h)
    obtain ⟨l, hl⟩ := List.getLast?_eq_some_iff.mp hlast
    have hdrop : (pool.idle set).dropLast = l := by rw [hl, List.dropLast_concat]
    rw [hdrop]
    refine ⟨hl ▸ List.mem_append_right _ List.mem_cons_self, fun other q hq ↦ ?_, fun id ↦ ?_⟩
    · by_cases heq : other = set
      · subst heq
        rw [idle_setIdle_self] at hq
        exact hl ▸ List.mem_append_left _ hq
      · rwa [idle_setIdle_of_ne heq] at hq
    · have hcount := @count_setIdle γ G pool set l id
      rw [hl, List.countP_append, List.countP_singleton] at hcount
      simp only [decide_eq_true_eq] at hcount
      omega

theorem push_spec :
    (∀ other, ∀ q ∈ (pool.push p).idle other,
      q ∈ pool.idle other ∨ (q = p ∧ other = p.set)) ∧
      ∀ id, (pool.push p).count id ≤ pool.count id + (if p.id = id then 1 else 0) := by
  rw [push]
  constructor
  · intro other q hq
    by_cases heq : other = p.set
    · subst heq
      rw [idle_setIdle_self] at hq
      split_ifs at hq
      · rcases List.mem_append.mp hq with hq | hq
        · exact .inl hq
        · exact .inr ⟨List.mem_singleton.mp hq, rfl⟩
      · exact .inl hq
    · rw [idle_setIdle_of_ne heq] at hq
      exact .inl hq
  · intro id
    have hcount := @count_setIdle γ G pool p.set
      (if (pool.idle p.set).length < maxPooledInstances then pool.idle p.set ++ [p]
        else pool.idle p.set) id
    split_ifs at hcount ⊢ with hroom hid
    · rw [List.countP_append, List.countP_singleton] at hcount
      simp only [hid, decide_true, if_true] at hcount
      omega
    · rw [List.countP_append, List.countP_singleton] at hcount
      simp only [hid, decide_false] at hcount
      exact (by simpa using hcount : _ = _).le
    · omega
    · omega

end InstancePool

end WaferRun.Wasm

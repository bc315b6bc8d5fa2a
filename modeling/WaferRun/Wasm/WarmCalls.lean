import WaferRun.Wasm.InstancePool

/-!
# Calls of warm instances

What `PoolFit` says of the instances of a block in every state of a run, and from it what a call
finds when it starts. An instance is in one place only, in its set or with a call
(`PoolState.places`), and nowhere once a call of it failed; the calls it served are counted, and
belong to its flow if the block keeps its instances by flow; and an idle instance holds nothing of
the calls it served.

A new instance is not quite as clean. The start functions of its module run before the call, and a
stream they open is there when it starts (`runStartup`). Giving an instance back clears that too, so
warm and new instances agree if the start functions open nothing.
-/

open List

namespace WaferRun.Wasm

open HandleTable

variable {γ G : Type*}

/-! ## Runs -/

def PoolAction.StartsUp (block : WasmBlock G) : PoolAction γ G → Prop
  | .handle _ _ startup => block.startup startup.imports
  | .setCapabilities _ | .run _ _ _ _ _ _ _ _ | .complete _ _ | .abandon _ => True

/-- The runs of a block, with what was heard of its instances. -/
inductive PoolRun (block : WasmBlock G) (caps : BlockCapabilities) :
    PoolState γ G → List (PoolEvent γ) → Prop
  | start : PoolRun block caps (.start caps) []
  | step {s s' : PoolState γ G} {a : PoolAction γ G} {log events : List (PoolEvent γ)}
      (hrun : PoolRun block caps s log) (hstartup : a.StartsUp block)
      (hstep : s.step block a = some (s', events)) : PoolRun block caps s' (log ++ events)

def flows (id : ℕ) (log : List (PoolEvent γ)) : List (Option String) :=
  log.filterMap fun
    | .started id' _ request _ => if id' = id then some request.flowId else none
    | .served _ | .failed _ => none

def PoolState.places (s : PoolState γ G) (id : ℕ) : ℕ :=
  s.pool.count id + s.calls.countP fun call ↦ call.id = id

section

variable {log events : List (PoolEvent γ)} {id : ℕ}

theorem flows_append : flows id (log ++ events) = flows id log ++ flows id events :=
  filterMap_append ..

theorem flows_started {id' : ℕ} {warm : Bool} {request : HandleRequest γ} {start : CallStart γ} :
    flows id (log ++ [.started id' warm request start]) =
      flows id log ++ if id' = id then [request.flowId] else [] := by
  rw [flows_append]
  congr 1
  by_cases h : id' = id <;> simp [flows, h]

variable {calls : List (ServedCall γ G)} {call : ServedCall γ G}

theorem countP_without {other : ℕ} :
    (without calls id).countP (fun c ↦ c.id = other) =
      if other = id then 0 else calls.countP fun c ↦ c.id = other := by
  rw [without, countP_filter]
  split_ifs with h
  · refine countP_eq_zero.mpr fun c _ hc ↦ ?_
    simp only [Bool.and_eq_true, decide_eq_true_eq] at hc
    exact hc.2 (hc.1.trans h)
  · refine countP_congr fun c _ ↦ ?_
    simp only [Bool.and_eq_true, decide_eq_true_eq]
    exact ⟨fun hc ↦ hc.1, fun hc ↦ ⟨hc, fun hid ↦ h (hc.symm.trans hid)⟩⟩

theorem find_spec (h : calls.find? (fun c ↦ c.id = id) = some call) :
    call ∈ calls ∧ call.id = id := by
  have hid := List.find?_some h
  exact ⟨List.mem_of_find?_eq_some h, of_decide_eq_true hid⟩

theorem one_le_countP (h : call ∈ calls) : 1 ≤ calls.countP fun c ↦ c.id = call.id :=
  countP_pos_iff.mpr ⟨call, h, decide_eq_true rfl⟩

end

/-! ## Start-up -/

section

variable {block : WasmBlock G}

theorem runStartup_spec {imports : List Import} :
    ∀ {host host' : HostState}, host.notes = [] → runStartup block host imports = some host' →
      host'.capabilities = host.capabilities ∧ host'.hostOwnedMeta = host.hostOwnedMeta ∧
        host'.notes = [] := by
  induction imports with
  | nil =>
    intro host host' hnotes h
    obtain rfl := Option.some.inj h
    exact ⟨rfl, rfl, hnotes⟩
  | cons i is ih =>
    intro host host' hnotes h
    rw [runStartup] at h
    have hspec := (@callImport_spec host block.codec i).toHostMove
    have hkept := (@callImport_notes host block.codec i hnotes).2
    generalize callImport block.codec host i = result at h hspec hkept
    obtain ⟨result, host₁, events⟩ := result
    cases result with
    | ret value =>
      obtain ⟨hcaps, howned, hn⟩ := ih (hkept nofun) h
      exact ⟨hcaps.trans hspec.capabilities, howned.trans hspec.hostOwnedMeta, hn⟩
    | suspended => cases h
    | trapped => cases h

theorem eq_of_notes {host : HostState} (h : host.notes = []) :
    host = ⟨host.capabilities, host.hostOwnedMeta, host.streams, none, none, none, none⟩ := by
  obtain ⟨caps, owned, streams, finish, read, takeError, asset⟩ := host
  obtain ⟨⟨⟨rfl, rfl⟩, rfl⟩, rfl⟩ : ((finish = none ∧ read = none) ∧ takeError = none) ∧
      asset = none := by
    simpa only [HostState.notes, append_eq_nil_iff, map_eq_nil_iff,
      Option.toList_eq_nil_iff] using h
  rfl

def StartupStreams (block : WasmBlock G) (caps : BlockCapabilities) (streams : StreamRegistry) :
    Prop :=
  ∃ imports host, block.startup imports ∧
    runStartup block ⟨caps, ⟨[], []⟩, freshRegistry block, none, none, none, none⟩ imports =
      some host ∧ host.streams = streams

def fullFuel (block : WasmBlock G) : Option ℕ := applyFuel block none

/-- What a call starts from: its own context, attachments and metadata, the capabilities of the
block, no notes, the streams given and full fuel. -/
def callStart (block : WasmBlock G) (caps : BlockCapabilities) (request : HandleRequest γ)
    (streams : StreamRegistry) : CallStart γ :=
  ⟨some request.context, request.attachments,
    ⟨caps, request.hostOwned, streams, none, none, none, none⟩, fullFuel block⟩

theorem instantiate_spec {caps : BlockCapabilities} {imports : List Import}
    {hostCodec : HostCodec} {guest : G} {store : GuestStore γ G} (hstartup : block.startup imports)
    (h : instantiate block caps imports hostCodec guest = some store) :
    ∃ streams, StartupStreams block caps streams ∧
      store = ⟨none, none, ⟨caps, ⟨[], []⟩, streams, none, none, none, none⟩, hostCodec,
        fullFuel block, guest⟩ := by
  rw [instantiate] at h
  split at h
  · cases h
  · rename_i host hhost
    obtain rfl := Option.some.inj h
    obtain ⟨hcaps, howned, hnotes⟩ := runStartup_spec rfl hhost
    refine ⟨host.streams, ⟨imports, host, hstartup, hhost, rfl⟩, ?_⟩
    rw [eq_of_notes hnotes, hcaps, howned]
    rfl

end

/-! ## What holds of the instances -/

/-- An idle instance holds nothing of the calls it served. -/
def CleanStore (block : WasmBlock G) (store : GuestStore γ G) : Prop :=
  store.context = none ∧ store.currentAttachments = none ∧
    ∃ caps, store.host = ⟨caps, ⟨[], []⟩, freshRegistry block, none, none, none, none⟩

def FuelFits (block : WasmBlock G) (fuel : Option ℕ) : Prop := block.fuel = .unmetered → fuel = none

def ServesSet (block : WasmBlock G) (set : Option String) (served : List (Option String)) : Prop :=
  block.instanceMode = .perFlow → ∀ flow ∈ served, flow = set

structure PoolFit (block : WasmBlock G) (s : PoolState γ G) (log : List (PoolEvent γ)) : Prop where
  scope : ∀ scope, s.poolScope = some scope → scope = .of block.instanceMode
  places : ∀ id, s.places id ≤ 1
  fresh : ∀ id, s.next ≤ id → s.places id = 0 ∧ flows id log = []
  failed : ∀ id, .failed id ∈ log → id < s.next ∧ s.places id = 0
  idleSet : ∀ set, ∀ p ∈ s.pool.idle set, p.set = set ∧ ServesSet block set (flows p.id log)
  idleCount : ∀ set, ∀ p ∈ s.pool.idle set,
    p.callsServed = (flows p.id log).length ∧ p.callsServed < maxCallsPerInstance
  idleStore : ∀ set, ∀ p ∈ s.pool.idle set, CleanStore block p.store ∧ FuelFits block p.store.fuel
  leased : ∀ call ∈ s.calls, ∀ n set, call.lease = some (n, set) →
    n + 1 = (flows call.id log).length ∧ ServesSet block set (flows call.id log)
  fuel : ∀ call ∈ s.calls, FuelFits block call.store.fuel
  bounded : ∀ id, (flows id log).length ≤ maxCallsPerInstance
  same : block.instanceMode = .perFlow →
    ∀ id, ∀ flow ∈ flows id log, ∀ flow' ∈ flows id log, flow = flow'

section

variable {block : WasmBlock G} {s s' : PoolState γ G} {log events : List (PoolEvent γ)}

theorem applyFuel_eq {fuel : Option ℕ} (h : FuelFits block fuel) :
    applyFuel block fuel = fullFuel block := by
  rw [fullFuel, applyFuel, applyFuel]
  rcases hfuel : block.fuel with n | _
  · rfl
  · exact h hfuel

theorem fuelFits_fullFuel : FuelFits block (fullFuel block) := by
  intro hfuel
  rw [fullFuel, applyFuel, hfuel]

theorem fuelFits_spent {fuel : Option ℕ} (h : FuelFits block fuel) (spent : ℕ) :
    FuelFits block (fuel.map (· - spent)) :=
  fun hfuel ↦ by rw [h hfuel, Option.map_none]

theorem places_eq_zero_of_lt {id : ℕ} (hfit : PoolFit block s log) (h : s.next ≤ id) :
    ¬1 ≤ s.places id := by
  rw [(hfit.fresh id h).1]
  exact Nat.not_succ_le_zero 0

theorem lt_next_of_places {id : ℕ} (hfit : PoolFit block s log) (h : 1 ≤ s.places id) :
    id < s.next :=
  Nat.lt_of_not_le fun hle ↦ places_eq_zero_of_lt hfit hle h

theorem one_le_places_of_idle {set : Option String} {p : PooledInstance γ G}
    (h : p ∈ s.pool.idle set) : 1 ≤ s.places p.id :=
  (InstancePool.one_le_count h).trans (Nat.le_add_right _ _)

theorem one_le_places_of_call {call : ServedCall γ G} (h : call ∈ s.calls) :
    1 ≤ s.places call.id :=
  (one_le_countP h).trans (Nat.le_add_left _ _)

theorem PoolFit.congr (hfit : PoolFit block s log) (hpool : s'.pool = s.pool)
    (hcalls : s'.calls = s.calls) (hnext : s'.next = s.next)
    (hscope : ∀ scope, s'.poolScope = some scope → scope = .of block.instanceMode) :
    PoolFit block s' log := by
  have hplaces : ∀ id, s'.places id = s.places id := fun id ↦ by
    rw [PoolState.places, PoolState.places, hpool, hcalls]
  refine ⟨hscope, fun id ↦ hplaces id ▸ hfit.places id,
    fun id hid ↦ hplaces id ▸ hfit.fresh id (hnext ▸ hid), fun id hid ↦ ?_, ?_, ?_, ?_, ?_, ?_,
    hfit.bounded, hfit.same⟩
  · rw [hplaces, hnext]
    exact hfit.failed id hid
  · rw [hpool]
    exact hfit.idleSet
  · rw [hpool]
    exact hfit.idleCount
  · rw [hpool]
    exact hfit.idleStore
  · rw [hcalls]
    exact hfit.leased
  · rw [hcalls]
    exact hfit.fuel

theorem ne_of_count_eq_zero {pool : InstancePool γ G} {id : ℕ} (h : pool.count id = 0)
    {set : Option String} {q : PooledInstance γ G} (hq : q ∈ pool.idle set) : q.id ≠ id :=
  fun heq ↦ absurd (InstancePool.one_le_count hq) (by rw [heq, h]; exact Nat.not_succ_le_zero 0)

theorem ne_of_countP_eq_zero {calls : List (ServedCall γ G)} {id : ℕ}
    (h : (calls.countP fun call ↦ call.id = id) = 0) {call : ServedCall γ G}
    (hcall : call ∈ calls) : call.id ≠ id :=
  fun heq ↦ countP_eq_zero.mp h call hcall (decide_eq_true heq)

theorem ServesSet.append {set flow : Option String} {served : List (Option String)}
    (h : ServesSet block set served) (hflow : block.instanceMode = .perFlow → flow = set) :
    ServesSet block set (served ++ [flow]) := by
  intro hmode f hf
  rcases mem_append.mp hf with hf | hf
  · exact h hmode f hf
  · exact (mem_singleton.mp hf).trans (hflow hmode)

/-- A call is served by an instance that was created for it, or taken from its set. -/
theorem PoolFit.started (hfit : PoolFit block s log) {id : ℕ} {warm : Bool}
    {request : HandleRequest γ} {start : CallStart γ} {store : GuestStore γ G}
    {lease : Option (ℕ × Option String)} {pool : InstancePool γ G} {next : ℕ}
    (hpool : ∀ set, ∀ q ∈ pool.idle set, q ∈ s.pool.idle set) (hnext : s.next ≤ next)
    (hid : id < next) (hidle : pool.count id = 0)
    (hcount : ∀ other, other ≠ id → pool.count other = s.pool.count other)
    (hcalls : (s.calls.countP fun call ↦ call.id = id) = 0)
    (hfailed : .failed id ∉ log)
    (hserved : (flows id log).length < maxCallsPerInstance)
    (hlease : ∀ n set, lease = some (n, set) → n = (flows id log).length ∧
      ServesSet block set (flows id log) ∧
      (block.instanceMode = .perFlow → request.flowId = set))
    (hsame : block.instanceMode = .perFlow → ∀ flow ∈ flows id log, flow = request.flowId)
    (hfuel : FuelFits block store.fuel) :
    PoolFit block { s with pool, next, calls := ⟨id, store, lease⟩ :: s.calls }
      (log ++ [.started id warm request start]) := by
  have hother : ∀ other, other ≠ id → flows other (log ++ [.started id warm request start]) =
      flows other log := fun other hne ↦ by
    rw [flows_started, if_neg (Ne.symm hne), append_nil]
  have hself : flows id (log ++ [.started id warm request start]) =
      flows id log ++ [request.flowId] := by rw [flows_started, if_pos rfl]
  have hplaces : ∀ other, other ≠ id →
      ({ s with pool, next, calls := ⟨id, store, lease⟩ :: s.calls } : PoolState γ G).places other =
        s.places other := fun other hne ↦ by
    rw [PoolState.places, PoolState.places, hcount other hne, countP_cons_of_neg]
    simpa using hne.symm
  have hplace : ({ s with pool, next, calls := ⟨id, store, lease⟩ :: s.calls } :
      PoolState γ G).places id = 1 := by
    rw [PoolState.places, hidle, countP_cons_of_pos (by simp), hcalls]
  refine ⟨hfit.scope, fun other ↦ ?_, fun other hle ↦ ?_, fun other hf ↦ ?_, fun set q hq ↦ ?_,
    fun set q hq ↦ ?_, fun set q hq ↦ hfit.idleStore set q (hpool set q hq), ?_, ?_,
    fun other ↦ ?_, fun hmode other ↦ ?_⟩
  · by_cases heq : other = id
    · rw [heq, hplace]
    · rw [hplaces other heq]
      exact hfit.places other
  · have hne : other ≠ id := (hid.trans_le hle).ne'
    rw [hplaces other hne, hother other hne]
    exact hfit.fresh other (hnext.trans hle)
  · have hmem : .failed other ∈ log := by
      rcases mem_append.mp hf with hf | hf
      · exact hf
      · exact absurd (mem_singleton.mp hf) nofun
    have hne : other ≠ id := fun heq ↦ hfailed (heq ▸ hmem)
    rw [hplaces other hne]
    exact ⟨(hfit.failed other hmem).1.trans_le hnext, (hfit.failed other hmem).2⟩
  · rw [hother q.id (ne_of_count_eq_zero hidle hq)]
    exact hfit.idleSet set q (hpool set q hq)
  · rw [hother q.id (ne_of_count_eq_zero hidle hq)]
    exact hfit.idleCount set q (hpool set q hq)
  · intro call hcall n set hl
    rcases mem_cons.mp hcall with rfl | hcall
    · obtain ⟨hn, hserves, hset⟩ := hlease n set hl
      rw [hself, length_append, hn]
      exact ⟨rfl, hserves.append hset⟩
    · rw [hother call.id (ne_of_countP_eq_zero hcalls hcall)]
      exact hfit.leased call hcall n set hl
  · intro call hcall
    rcases mem_cons.mp hcall with rfl | hcall
    · exact hfuel
    · exact hfit.fuel call hcall
  · by_cases heq : other = id
    · rw [heq, hself, length_append]
      exact hserved
    · rw [hother other heq]
      exact hfit.bounded other
  · by_cases heq : other = id
    · subst heq
      rw [hself]
      -- all of them are the flow of the new call
      have hall := ServesSet.append hsame fun _ ↦ rfl
      intro flow hflow flow' hflow'
      exact (hall hmode flow hflow).trans (hall hmode flow' hflow').symm
    · rw [hother other heq]
      exact hfit.same hmode other

/-- A call starts well: its instance serves no other call, never failed, has not served too many
calls, and none of another flow if the block keeps its instances by flow. What the call finds is
what a new instance would give it, apart from the streams its start functions opened. -/
structure StartsWell (block : WasmBlock G) (s : PoolState γ G) (log : List (PoolEvent γ)) (id : ℕ)
    (warm : Bool) (request : HandleRequest γ) (start : CallStart γ) : Prop where
  alone : ∀ call ∈ s.calls, call.id ≠ id
  sound : .failed id ∉ log
  served : (flows id log).length < maxCallsPerInstance
  flow : block.instanceMode = .perFlow → ∀ flow ∈ flows id log, flow = request.flowId
  clean : ∃ streams, start = callStart block s.capabilities request streams ∧
    (warm = true → streams = freshRegistry block) ∧
    (warm = false → StartupStreams block s.capabilities streams)

theorem serve_new (hfit : PoolFit block s log) {request : HandleRequest γ} {startup : Startup G}
    {store : GuestStore γ G} {lease : Option (ℕ × Option String)}
    (hlease : ∀ n set, lease = some (n, set) →
      n = 0 ∧ (block.instanceMode = .perFlow → request.flowId = set))
    (hstartup : block.startup startup.imports)
    (hstore : instantiate block s.capabilities startup.imports startup.hostCodec startup.guest =
      some store) :
    PoolFit block
        (serve { s with next := s.next + 1 } request s.next false store lease).1
        (log ++ (serve { s with next := s.next + 1 } request s.next false store lease).2) ∧
      StartsWell block s log s.next false request (enterScope store request).start := by
  obtain ⟨streams, hstreams, rfl⟩ := instantiate_spec hstartup hstore
  obtain ⟨hplaces, hflows⟩ := hfit.fresh s.next le_rfl
  obtain ⟨hidle, hcalls⟩ := Nat.add_eq_zero_iff.mp hplaces
  have hfailed : .failed s.next ∉ log := fun hf ↦ (lt_irrefl _ (hfit.failed s.next hf).1)
  constructor
  · refine hfit.started (fun set q hq ↦ hq) (Nat.le_succ _) (Nat.lt_succ_self _) hidle
      (fun _ _ ↦ rfl) hcalls hfailed ?_ (fun n set hl ↦ ?_) ?_ fuelFits_fullFuel
    · rw [hflows]
      decide
    · rw [hflows]
      exact ⟨(hlease n set hl).1, fun _ flow hflow ↦ absurd hflow not_mem_nil,
        (hlease n set hl).2⟩
    · rw [hflows]
      exact fun _ flow hflow ↦ absurd hflow not_mem_nil
  · refine ⟨fun _ ↦ ne_of_countP_eq_zero hcalls, hfailed, ?_, ?_, streams, rfl, nofun,
      fun _ ↦ hstreams⟩
    · rw [hflows]
      decide
    · rw [hflows]
      exact fun _ flow hflow ↦ absurd hflow not_mem_nil

/-- A call is served by an idle instance. -/
theorem serve_idle (hfit : PoolFit block s log) {request : HandleRequest γ} {set : Option String}
    {p : PooledInstance γ G} {pool : InstancePool γ G} {store : GuestStore γ G}
    (hset : block.instanceMode = .perFlow → request.flowId = set)
    (hpop : s.pool.pop set = some (p, pool))
    (hstore : store = { p.store with
      fuel := applyFuel block p.store.fuel
      host := { p.store.host with capabilities := s.capabilities } }) :
    PoolFit block
        (serve { s with pool } request p.id true store (some (p.callsServed, p.set))).1
        (log ++ (serve { s with pool } request p.id true store (some (p.callsServed, p.set))).2) ∧
      StartsWell block s log p.id true request (enterScope store request).start := by
  obtain ⟨hmem, hsub, hcount⟩ := InstancePool.pop_spec hpop
  obtain ⟨hpset, hserves⟩ := hfit.idleSet set p hmem
  obtain ⟨hserved, hmax⟩ := hfit.idleCount set p hmem
  obtain ⟨⟨hcontext, hattachments, caps, hhost⟩, hfuel⟩ := hfit.idleStore set p hmem
  have hone := one_le_places_of_idle hmem
  -- the instance is idle, and nowhere else
  have hplaces := hfit.places p.id
  have hcountp := hcount p.id
  rw [if_pos rfl] at hcountp
  rw [PoolState.places] at hone hplaces
  have hidle : pool.count p.id = 0 := by omega
  have hcalls : (s.calls.countP fun call ↦ call.id = p.id) = 0 := by omega
  have hfailed : .failed p.id ∉ log := fun hf ↦ by
    have := (hfit.failed p.id hf).2
    rw [PoolState.places] at this
    omega
  have hflow : block.instanceMode = .perFlow → ∀ flow ∈ flows p.id log, flow = request.flowId :=
    fun hmode flow hf ↦ (hserves hmode flow hf).trans (hset hmode).symm
  have hfull : FuelFits block store.fuel := by
    rw [hstore]
    dsimp only
    rw [applyFuel_eq hfuel]
    exact fuelFits_fullFuel
  have hlt : p.id < s.next := lt_next_of_places hfit (one_le_places_of_idle hmem)
  constructor
  · refine @PoolFit.started _ _ block s log hfit p.id true request _ _ _ pool s.next hsub le_rfl hlt
      hidle (fun other hne ↦ ?_) hcalls hfailed (hserved ▸ hmax) (fun n set' hl ↦ ?_) hflow hfull
    · have := hcount other
      rwa [if_neg (Ne.symm hne), Nat.add_zero] at this
    · obtain ⟨rfl, rfl⟩ := Prod.mk.inj (Option.some.inj hl)
      rw [hpset]
      exact ⟨hserved, hserves, hset⟩
  · refine ⟨fun _ ↦ ne_of_countP_eq_zero hcalls, hfailed, hserved ▸ hmax, hflow,
      freshRegistry block, ?_, fun _ ↦ rfl, nofun⟩
    rw [hstore, enterScope, GuestStore.start, callStart]
    dsimp only
    rw [hhost, applyFuel_eq hfuel]

theorem poolScope_spec (hfit : PoolFit block s log) (informed : Bool) :
    ((poolScope block s informed).1 = .cold ∨
      (poolScope block s informed).1 = .of block.instanceMode) ∧
    ∀ scope, (poolScope block s informed).2 = some scope → scope = .of block.instanceMode := by
  rw [poolScope]
  split
  · exact ⟨.inl rfl, hfit.scope⟩
  · split
    · rename_i decided hdecided
      have hof := hfit.scope decided hdecided
      exact ⟨.inr hof, fun scope h ↦ (Option.some.inj h).symm.trans hof⟩
    · split
      · exact ⟨.inr rfl, fun scope h ↦ (Option.some.inj h).symm⟩
      · exact ⟨.inl rfl, nofun⟩

def StepsWell (block : WasmBlock G) (s : PoolState γ G) (log : List (PoolEvent γ))
    (result : PoolState γ G × List (PoolEvent γ)) : Prop :=
  PoolFit block result.1 (log ++ result.2) ∧
    ∀ id warm request start, .started id warm request start ∈ result.2 →
      StartsWell block s log id warm request start

theorem stepsWell_nothing (hfit : PoolFit block s log) : StepsWell block s log (s, []) :=
  ⟨(append_nil log).symm ▸ hfit, fun _ _ _ _ hmem ↦ absurd hmem not_mem_nil⟩

theorem stepsWell_serve {s₁ : PoolState γ G} {request : HandleRequest γ} {id : ℕ} {warm : Bool}
    {store : GuestStore γ G} {lease : Option (ℕ × Option String)}
    (h : PoolFit block (serve s₁ request id warm store lease).1
        (log ++ (serve s₁ request id warm store lease).2) ∧
      StartsWell block s log id warm request (enterScope store request).start) :
    StepsWell block s log (serve s₁ request id warm store lease) := by
  refine ⟨h.1, fun id' warm' request' start hmem ↦ ?_⟩
  injection mem_singleton.mp hmem with h₁ h₂ h₃ h₄
  subst h₁ h₂ h₃ h₄
  exact h.2

theorem stepsWell_checkout (hfit : PoolFit block s log) {request : HandleRequest γ}
    {startup : Startup G} (hstartup : block.startup startup.imports) {set : Option String}
    (hset : block.instanceMode = .perFlow → request.flowId = set) :
    StepsWell block s log
      (match checkout block s set startup with
        | none => (s, [])
        | some (warm, leased, s) =>
          serve s request leased.id warm leased.store (some (leased.callsServed, leased.set))) := by
  rw [checkout]
  rcases hpop : s.pool.pop set with - | ⟨p, pool⟩
  · rcases hstore : instantiate block s.capabilities startup.imports startup.hostCodec
      startup.guest with - | store
    · exact stepsWell_nothing hfit
    · refine stepsWell_serve (serve_new hfit (fun n set' hl ↦ ?_) hstartup hstore)
      obtain ⟨rfl, rfl⟩ := Prod.mk.inj (Option.some.inj hl)
      exact ⟨rfl, hset⟩
  · exact stepsWell_serve (@serve_idle _ _ block s log hfit request set p pool _ hset hpop rfl)

theorem stepsWell_callHandleGuest (hfit : PoolFit block s log) (request : HandleRequest γ)
    (informed : Bool) {startup : Startup G} (hstartup : block.startup startup.imports) :
    StepsWell block s log (callHandleGuest block s request informed startup) := by
  obtain ⟨hscope, hpinned⟩ := poolScope_spec hfit informed
  rw [callHandleGuest]
  generalize poolScope block s informed = decided at hscope hpinned ⊢
  obtain ⟨scope, pinned⟩ := decided
  have hfit' : PoolFit block { s with poolScope := pinned } log := hfit.congr rfl rfl rfl hpinned
  have hkept : ∀ {result}, StepsWell block { s with poolScope := pinned } log result →
      StepsWell block s log result := by
    rintro result ⟨h, hstarts⟩
    refine ⟨h, fun id warm request start hmem ↦ ?_⟩
    obtain ⟨halone, hsound, hserved, hflow, hclean⟩ := hstarts id warm request start hmem
    exact ⟨halone, hsound, hserved, hflow, hclean⟩
  rcases scope with _ | _ | _
  · dsimp only
    rcases hstore : instantiate block s.capabilities startup.imports startup.hostCodec
      startup.guest with - | store
    · exact hkept (stepsWell_nothing hfit')
    · exact hkept (stepsWell_serve (serve_new hfit' nofun hstartup hstore))
  · refine hkept (stepsWell_checkout hfit' hstartup fun hmode ↦ ?_)
    rw [hmode] at hscope
    exact absurd hscope (not_or.mpr ⟨nofun, nofun⟩)
  · exact hkept (stepsWell_checkout hfit' hstartup fun _ ↦ rfl)

/-! ## How a call goes on and ends -/

theorem mem_without {calls : List (ServedCall γ G)} {id : ℕ} {call : ServedCall γ G}
    (h : call ∈ without calls id) : call ∈ calls :=
  mem_of_mem_filter h

theorem pool_count_of_call (hfit : PoolFit block s log) {call : ServedCall γ G}
    (hcall : call ∈ s.calls) :
    s.pool.count call.id = 0 ∧ (s.calls.countP fun c ↦ c.id = call.id) = 1 := by
  have hplaces := hfit.places call.id
  have hone := one_le_countP hcall
  rw [PoolState.places] at hplaces
  omega

theorem not_failed_of_call (hfit : PoolFit block s log) {call : ServedCall γ G}
    (hcall : call ∈ s.calls) : .failed call.id ∉ log := by
  intro hf
  have hzero := (hfit.failed call.id hf).2
  have hone := one_le_places_of_call hcall
  omega

theorem PoolFit.ran (hfit : PoolFit block s log) {call : ServedCall γ G} (hcall : call ∈ s.calls)
    {store : GuestStore γ G} (hfuel : FuelFits block store.fuel) :
    PoolFit block { s with calls := { call with store } :: without s.calls call.id } log := by
  have hplaces : ∀ id, ({ s with calls := { call with store } :: without s.calls call.id } :
      PoolState γ G).places id = s.places id := by
    intro id
    rw [PoolState.places, PoolState.places, countP_cons, countP_without]
    by_cases heq : id = call.id
    · subst heq
      rw [(pool_count_of_call hfit hcall).2]
      simp
    · simp [heq, Ne.symm heq]
  refine ⟨hfit.scope, fun id ↦ hplaces id ▸ hfit.places id, fun id hid ↦ ?_, fun id hf ↦ ?_,
    hfit.idleSet, hfit.idleCount, hfit.idleStore, fun c hc n set hl ↦ ?_, fun c hc ↦ ?_,
    hfit.bounded, hfit.same⟩
  · rw [hplaces]
    exact hfit.fresh id hid
  · rw [hplaces]
    exact hfit.failed id hf
  · rcases mem_cons.mp hc with rfl | hc
    · exact hfit.leased call hcall n set hl
    · exact hfit.leased c (mem_without hc) n set hl
  · rcases mem_cons.mp hc with rfl | hc
    · exact hfuel
    · exact hfit.fuel c (mem_without hc)

/-- A call ends, and its instance is gone. -/
theorem PoolFit.dropped (hfit : PoolFit block s log) {call : ServedCall γ G}
    (hcall : call ∈ s.calls) {e : PoolEvent γ} (he : e = .failed call.id ∨ e = .served call.id) :
    PoolFit block { s with calls := without s.calls call.id } (log ++ [e]) ∧
      ({ s with calls := without s.calls call.id } : PoolState γ G).places call.id = 0 := by
  have hplaces : ∀ id, ({ s with calls := without s.calls call.id } : PoolState γ G).places id =
      if id = call.id then 0 else s.places id := by
    intro id
    rw [PoolState.places, PoolState.places, countP_without]
    split_ifs with heq
    · rw [heq, (pool_count_of_call hfit hcall).1]
    · rfl
  have hflows : ∀ id, flows id (log ++ [e]) = flows id log := by
    intro id
    rw [flows_append]
    rcases he with rfl | rfl <;> exact append_nil _
  have hzero :
      ({ s with calls := without s.calls call.id } : PoolState γ G).places call.id = 0 := by
    rw [hplaces, if_pos rfl]
  have hlt : call.id < s.next := lt_next_of_places hfit (one_le_places_of_call hcall)
  refine ⟨⟨hfit.scope, fun id ↦ ?_, fun id hid ↦ ?_, fun id hf ↦ ?_, fun set p hp ↦ ?_,
    fun set p hp ↦ ?_, hfit.idleStore, fun c hc n set hl ↦ ?_,
    fun c hc ↦ hfit.fuel c (mem_without hc), fun id ↦ ?_, fun hmode id ↦ ?_⟩, hzero⟩
  · rw [hplaces]
    split_ifs
    · exact Nat.zero_le _
    · exact hfit.places id
  · rw [hplaces, hflows]
    obtain ⟨hp, hf⟩ := hfit.fresh id hid
    exact ⟨by rw [hp, ite_self], hf⟩
  · rcases mem_append.mp hf with hf | hf
    · obtain ⟨hlt, hp⟩ := hfit.failed id hf
      exact ⟨hlt, by rw [hplaces, hp, ite_self]⟩
    · rcases he with rfl | rfl
      · injection mem_singleton.mp hf with hid
        subst hid
        exact ⟨hlt, hzero⟩
      · exact absurd (mem_singleton.mp hf) nofun
  · rw [hflows]
    exact hfit.idleSet set p hp
  · rw [hflows]
    exact hfit.idleCount set p hp
  · rw [hflows]
    exact hfit.leased c (mem_without hc) n set hl
  · rw [hflows]
    exact hfit.bounded id
  · rw [hflows]
    exact hfit.same hmode id

theorem PoolFit.pushed (hfit : PoolFit block s log) {p : PooledInstance γ G}
    (hplace : s.places p.id = 0) (hlt : p.id < s.next) (hfailed : .failed p.id ∉ log)
    (hserves : ServesSet block p.set (flows p.id log))
    (hcount : p.callsServed = (flows p.id log).length ∧ p.callsServed < maxCallsPerInstance)
    (hstore : CleanStore block p.store ∧ FuelFits block p.store.fuel) :
    PoolFit block { s with pool := s.pool.push p } log := by
  obtain ⟨hidle, hpush⟩ := @InstancePool.push_spec γ G s.pool p
  have hplaces : ∀ id, ({ s with pool := s.pool.push p } : PoolState γ G).places id ≤
      s.places id + if p.id = id then 1 else 0 := by
    intro id
    have := hpush id
    rw [PoolState.places, PoolState.places]
    dsimp only
    omega
  have hother : ∀ id, p.id ≠ id →
      ({ s with pool := s.pool.push p } : PoolState γ G).places id ≤ s.places id := by
    intro id hne
    have := hplaces id
    rwa [if_neg hne, Nat.add_zero] at this
  refine ⟨hfit.scope, fun id ↦ ?_, fun id hid ↦ ?_, fun id hf ↦ ?_, fun set q hq ↦ ?_,
    fun set q hq ↦ ?_, fun set q hq ↦ ?_, hfit.leased, hfit.fuel, hfit.bounded, hfit.same⟩
  · by_cases heq : p.id = id
    · have := hplaces id
      rw [if_pos heq, ← heq, hplace] at this
      exact heq ▸ this
    · exact (hother id heq).trans (hfit.places id)
  · obtain ⟨hp, hf⟩ := hfit.fresh id hid
    exact ⟨Nat.le_zero.mp (hp ▸ hother id (hlt.trans_le hid).ne), hf⟩
  · obtain ⟨hl, hp⟩ := hfit.failed id hf
    have hne : p.id ≠ id := fun heq ↦ hfailed (heq ▸ hf)
    exact ⟨hl, Nat.le_zero.mp (hp ▸ hother id hne)⟩
  · rcases hidle set q hq with hq | ⟨rfl, rfl⟩
    · exact hfit.idleSet set q hq
    · exact ⟨rfl, hserves⟩
  · rcases hidle set q hq with hq | ⟨rfl, rfl⟩
    · exact hfit.idleCount set q hq
    · exact hcount
  · rcases hidle set q hq with hq | ⟨rfl, rfl⟩
    · exact hfit.idleStore set q hq
    · exact hstore

theorem PoolFit.checkedIn (hfit : PoolFit block s log) {p : PooledInstance γ G}
    (hplace : s.places p.id = 0) (hlt : p.id < s.next) (hfailed : .failed p.id ∉ log)
    (hserves : ServesSet block p.set (flows p.id log))
    (hcount : p.callsServed + 1 = (flows p.id log).length) (hfuel : FuelFits block p.store.fuel) :
    PoolFit block { s with pool := checkin block s.pool p } log := by
  rw [checkin]
  split_ifs with hmax
  · exact hfit
  · split
    · exact hfit
    · split_ifs
      · exact hfit
      · refine hfit.pushed hplace hlt hfailed hserves ⟨hcount, Nat.lt_of_not_le hmax⟩ ⟨?_, hfuel⟩
        exact ⟨rfl, rfl, p.store.host.capabilities, rfl⟩

/-- A step keeps what holds of the instances, and a call it starts starts well. -/
theorem PoolFit.step (hfit : PoolFit block s log) {a : PoolAction γ G}
    (hstartup : a.StartsUp block) (hstep : s.step block a = some (s', events)) :
    StepsWell block s log (s', events) := by
  cases a with
  | setCapabilities caps =>
    obtain ⟨rfl, rfl⟩ := Prod.mk.inj (Option.some.inj hstep)
    have hset : PoolFit block { s with capabilities := caps } log :=
      hfit.congr rfl rfl rfl hfit.scope
    exact ⟨(append_nil log).symm ▸ hset, fun _ _ _ _ hmem ↦ absurd hmem not_mem_nil⟩
  | handle request informed startup =>
    rw [PoolState.step] at hstep
    rw [← Option.some.inj hstep]
    exact stepsWell_callHandleGuest hfit request informed hstartup
  | run id streams finish read takeError asset spent guest =>
    rw [PoolState.step] at hstep
    split at hstep
    · cases hstep
    · rename_i call hfind
      obtain ⟨hcall, rfl⟩ := find_spec hfind
      obtain ⟨rfl, rfl⟩ := Prod.mk.inj (Option.some.inj hstep)
      have hspent := fuelFits_spent (hfit.fuel call hcall) spent
      have hran := @PoolFit.ran _ _ block s log hfit call hcall
        { call.store with
          host := ⟨call.store.host.capabilities, call.store.host.hostOwnedMeta, streams, finish,
            read, takeError, asset⟩
          fuel := call.store.fuel.map (· - spent)
          guest } hspent
      exact ⟨(append_nil log).symm ▸ hran, fun _ _ _ _ hmem ↦ absurd hmem not_mem_nil⟩
  | complete id decodes =>
    rw [PoolState.step] at hstep
    split at hstep
    · cases hstep
    · rename_i call hfind
      obtain ⟨hcall, rfl⟩ := find_spec hfind
      dsimp only at hstep
      split at hstep
      · obtain ⟨rfl, rfl⟩ := Prod.mk.inj (Option.some.inj hstep)
        exact ⟨(hfit.dropped hcall (.inl rfl)).1,
          fun _ _ _ _ hmem ↦ absurd (mem_singleton.mp hmem) nofun⟩
      · obtain ⟨hserved, hzero⟩ := hfit.dropped hcall (.inr rfl)
        split at hstep
        · obtain ⟨rfl, rfl⟩ := Prod.mk.inj (Option.some.inj hstep)
          exact ⟨hserved, fun _ _ _ _ hmem ↦ absurd (mem_singleton.mp hmem) nofun⟩
        · rename_i callsServed set hlease
          obtain ⟨rfl, rfl⟩ := Prod.mk.inj (Option.some.inj hstep)
          refine ⟨?_, fun _ _ _ _ hmem ↦ absurd (mem_singleton.mp hmem) nofun⟩
          obtain ⟨hcount, hserves⟩ := hfit.leased call hcall callsServed set hlease
          have hlt : call.id < s.next := lt_next_of_places hfit (one_le_places_of_call hcall)
          have hflows : flows call.id (log ++ [.served call.id]) = flows call.id log :=
            flows_append.trans (append_nil _)
          have hfailed : .failed call.id ∉ log ++ [.served call.id] := by
            rw [mem_append, not_or]
            exact ⟨not_failed_of_call hfit hcall, fun hmem ↦
              absurd (mem_singleton.mp hmem) nofun⟩
          rw [← hflows] at hcount hserves
          exact hserved.checkedIn hzero hlt hfailed hserves hcount (hfit.fuel call hcall)
  | abandon id =>
    rw [PoolState.step] at hstep
    split at hstep
    · cases hstep
    · rename_i call hfind
      obtain ⟨hcall, rfl⟩ := find_spec hfind
      obtain ⟨rfl, rfl⟩ := Prod.mk.inj (Option.some.inj hstep)
      exact ⟨(hfit.dropped hcall (.inl rfl)).1,
        fun _ _ _ _ hmem ↦ absurd (mem_singleton.mp hmem) nofun⟩

theorem poolFit_start (caps : BlockCapabilities) :
    PoolFit block (.start caps : PoolState γ G) [] where
  scope := nofun
  places := fun _ ↦ Nat.zero_le _
  fresh := fun _ _ ↦ ⟨rfl, rfl⟩
  failed := fun _ hf ↦ absurd hf not_mem_nil
  idleSet := fun set p hp ↦ by cases set <;> exact absurd hp not_mem_nil
  idleCount := fun set p hp ↦ by cases set <;> exact absurd hp not_mem_nil
  idleStore := fun set p hp ↦ by cases set <;> exact absurd hp not_mem_nil
  leased := fun _ hc ↦ absurd hc not_mem_nil
  fuel := fun _ hc ↦ absurd hc not_mem_nil
  bounded := fun _ ↦ Nat.zero_le _
  same := fun _ _ _ hf ↦ absurd hf not_mem_nil

theorem PoolRun.fit {caps : BlockCapabilities} (hrun : PoolRun block caps s log) :
    PoolFit block s log := by
  induction hrun with
  | start => exact poolFit_start caps
  | step _ hstartup hstep ih => exact (ih.step hstartup hstep).1

end

/-- **Warm instances start every call clean.** No instance serves two calls at once or too many in
all, none serves two flows if the block keeps its instances by flow, and a call that starts finds an
instance that serves no other call and never failed, with nothing of the calls before in it. A new
instance may have the streams its start functions opened; a warm one has none. -/
theorem calls_start_clean (block : WasmBlock G) (caps : BlockCapabilities) (s : PoolState γ G)
    (log : List (PoolEvent γ)) (hrun : PoolRun block caps s log) :
    (s.calls.map ServedCall.id).Nodup ∧
    (∀ id, (flows id log).length ≤ maxCallsPerInstance) ∧
    (block.instanceMode = .perFlow →
      ∀ id, ∀ flow ∈ flows id log, ∀ flow' ∈ flows id log, flow = flow') ∧
    ∀ a s' events, a.StartsUp block → s.step block a = some (s', events) →
      ∀ id warm request start, .started id warm request start ∈ events →
        (∀ call ∈ s.calls, call.id ≠ id) ∧ .failed id ∉ log ∧
        ∃ streams, start = callStart block s.capabilities request streams ∧
          (warm = true → streams = freshRegistry block) ∧
          (warm = false → StartupStreams block s.capabilities streams) := by
  have hfit := hrun.fit
  refine ⟨?_, hfit.bounded, hfit.same,
    fun a s' events hstartup hstep id warm request start hmem ↦ ?_⟩
  · refine nodup_iff_count_le_one.mpr fun id ↦ ?_
    have hplaces := hfit.places id
    rw [PoolState.places] at hplaces
    rw [List.count, countP_map]
    refine le_trans (le_of_eq ?_) (Nat.le_of_add_left_le hplaces)
    exact countP_congr fun call _ ↦ by simp
  · have hwell := (hfit.step hstartup hstep).2 id warm request start hmem
    exact ⟨hwell.alone, hwell.sound, hwell.clean⟩

/-- A block that keeps its instances by flow. Its start function tries to open a stream with an
empty message, which is charged for the name of the target. -/
def chargingBlock : WasmBlock Unit where
  codec := ⟨fun _ ↦ none, fun _ ↦ none, fun _ ↦ none⟩
  instanceMode := .perFlow
  poolingEnabled := true
  fuel := .metered 1000
  memoryPages := 256
  maxHostBytes := 100
  maxLiveStreams := 10
  dataSize _ := some 65536
  startup imports := imports = [.streamInit (.within [98]) (.within [])]

def chargingStartup : Startup Unit := ⟨[.streamInit (.within [98]) (.within [])], .rmp, ()⟩

/-- A call in the flow `f`. -/
def flowRequest : HandleRequest Unit := ⟨(), some "f", none, ⟨[], []⟩⟩

def afterCall : PoolState Unit Unit :=
  ((((PoolState.start .none : PoolState Unit Unit).step chargingBlock
      (.handle flowRequest true chargingStartup)).bind fun r ↦
    r.1.step chargingBlock (.complete 0 true)).map Prod.fst).getD (.start .none)

theorem run_afterCall : ∃ log, PoolRun chargingBlock .none afterCall log ∧
    flows 0 log = [some "f"] :=
  ⟨_, .step (.step (a := .handle flowRequest true chargingStartup) .start rfl rfl)
    (a := .complete 0 true) trivial rfl, rfl⟩

theorem step_afterCall : ∃ s' start, afterCall.step chargingBlock
    (.handle flowRequest true chargingStartup) =
      some (s', [.started 0 true flowRequest start]) ∧ start.host.streams.hostBytes = 0 :=
  ⟨_, _, rfl, rfl⟩

theorem calls_start_clean_charging :
    ∃ start : CallStart Unit, start.host.streams.hostBytes = 0 ∧
      ∃ streams, start = callStart chargingBlock .none flowRequest streams ∧
        streams = freshRegistry chargingBlock := by
  obtain ⟨log, hrun, -⟩ := run_afterCall
  obtain ⟨s', start, hstep, hbytes⟩ := step_afterCall
  obtain ⟨-, -, streams, hstart, hwarm, -⟩ :=
    (calls_start_clean chargingBlock .none afterCall log hrun).2.2.2
      (.handle flowRequest true chargingStartup) s' _ rfl hstep 0 true flowRequest start
      mem_cons_self
  exact ⟨start, hbytes, streams, hstart, hwarm rfl⟩

/-- A warm instance does not start as a new one would: what the start function was charged is not
charged to it. -/
theorem not_starts_as_new :
    ¬∀ (block : WasmBlock Unit) (caps : BlockCapabilities) (s : PoolState Unit Unit)
      (log : List (PoolEvent Unit)), PoolRun block caps s log →
        ∀ a s' events, a.StartsUp block → s.step block a = some (s', events) →
          ∀ id warm request start, .started id warm request start ∈ events →
            ∀ streams, StartupStreams block s.capabilities streams →
              start = callStart block s.capabilities request streams := by
  intro h
  obtain ⟨log, hrun, -⟩ := run_afterCall
  obtain ⟨s', start, hstep, hbytes⟩ := step_afterCall
  have heq := h chargingBlock .none afterCall log hrun
    (.handle flowRequest true chargingStartup) s' _ rfl hstep 0 true flowRequest start
    mem_cons_self _ ⟨[.streamInit (.within [98]) (.within [])], _, rfl, rfl, rfl⟩
  rw [heq] at hbytes
  exact absurd hbytes (by decide)

end WaferRun.Wasm

import Mathlib.Data.List.AList
import WaferRun.Lib.Search

/-!
# The wait-for graph of in-flight inits

`runtime/init_waits.rs`. Every run of a block's `lifecycle(Init)` is an *attempt*. The graph
records which attempt owns a block, that is, runs its init now, and which blocks an attempt waits
for. Before a wait edge is added the graph is searched for a way back to the waiter; if there is
one, the wait is refused with the cycle it would close.

The two `HashMap`s are `AList`s and the `HashSet` of the search a `Finset`: nothing depends on an
iteration order. The mutex around the graph makes each operation one atomic step, so an operation
is a function from graph to graph; how the operations of concurrent dispatches interleave is the
subject of `WaferRun.Runtime.InitProtocol`.

An attempt's record of what its database calls saw travels with the attempt but is read by none of
these operations; it is not modelled.
-/

open Relation

namespace WaferRun

/-- One run of a block's `lifecycle(Init)`. -/
structure InitAttempt where
  id : UInt64
  block : String
  deriving DecidableEq, Repr

structure WaitGraph where
  /-- Block name to the attempt running its `lifecycle(Init)` now. -/
  owners : AList fun _ : String ↦ UInt64
  /-- Attempt to the blocks it is waiting on: a list, since one Init can make concurrent calls. -/
  waits : AList fun _ : UInt64 ↦ List String

namespace WaitGraph

/-- The blocks `attempt` waits for, none if it has no entry. -/
def waitsOf (g : WaitGraph) (attempt : UInt64) : List String := (g.waits.lookup attempt).getD []

/-- The attempt that owns `block`. -/
def owner (g : WaitGraph) (block : String) : Option UInt64 := g.owners.lookup block

def ownerIds (g : WaitGraph) : Finset UInt64 := (g.owners.entries.map Sigma.snd).toFinset

/-- Whether `goal` is reachable from `block`'s owner through the recorded waits; on `true`, `path`
has been extended with the blocks walked after `block`. The recursion visits an owner once, so the
fuel handed to `search` is never used up (`reaches_exact`). -/
def reaches (g : WaitGraph) (block : String) (goal : UInt64) (path : List String) (seen : Finset UInt64) :
    Option (Bool × List String × Finset UInt64) :=
  Search.search g.owner g.waitsOf goal (g.ownerIds.card + 1) block path seen

/-- One edge of the wait-for graph: `a` waits for a block that `a'` owns. -/
def Edge (g : WaitGraph) : UInt64 → UInt64 → Prop := Search.Edge g.owner g.waitsOf

/-- One hop of a reported path: the owner of `b` waits for `b'`. -/
def Hop (g : WaitGraph) : String → String → Prop := Search.Hop g.owner g.waitsOf

def addWait (g : WaitGraph) (attempt : UInt64) (target : String) : WaitGraph :=
  { g with waits := g.waits.insert attempt (g.waitsOf attempt ++ [target]) }

theorem mem_ownerIds (g : WaitGraph) {b : String} {k : UInt64} (h : g.owner b = some k) :
    k ∈ g.ownerIds := by
  have hmem : (⟨b, k⟩ : Sigma fun _ : String ↦ UInt64) ∈ g.owners.entries := AList.mem_lookup_iff.mp h
  exact List.mem_toFinset.mpr (List.mem_map.mpr ⟨_, hmem, rfl⟩)

theorem waitsOf_addWait (g : WaitGraph) (attempt : UInt64) (target : String) (k : UInt64) :
    (g.addWait attempt target).waitsOf k
      = if k = attempt then g.waitsOf attempt ++ [target] else g.waitsOf k := by
  by_cases h : k = attempt
  · subst h
    simp [waitsOf, addWait]
  · simp [waitsOf, addWait, AList.lookup_insert_ne h, h]

theorem edge_addWait {g : WaitGraph} {attempt : UInt64} {target : String} {k k' : UInt64} :
    (g.addWait attempt target).Edge k k' ↔
      g.Edge k k' ∨ k = attempt ∧ g.owner target = some k' := by
  simp only [Edge, Search.Edge, waitsOf_addWait]
  change (∃ b, _ ∧ g.owner b = some k') ↔ _
  by_cases h : k = attempt
  · subst h
    simp [or_and_right, exists_or]
  · simp [h]

/-- **The search is exact.** It returns, it answers `true` exactly when the owner of `block` leads
to `goal`, and the path it then returns is a walk to a block of `goal`. -/
theorem reaches_exact (g : WaitGraph) (block : String) (goal : UInt64) (path : List String) :
    ∃ found path' seen', g.reaches block goal path ∅ = some (found, path', seen') ∧
      (found = true ↔ ∃ k, g.owner block = some k ∧ ReflTransGen g.Edge k goal) ∧
      (found = true → ∃ tail, path' = path ++ tail ∧
        List.IsChain g.Hop (block :: tail) ∧
          g.owner ((block :: tail).getLast (List.cons_ne_nil _ _)) = some goal) := by
  obtain ⟨found, path', seen', h, hiff, hpath⟩ :=
    Search.search_exact g.waitsOf goal (fun _ _ ↦ g.mem_ownerIds) (Nat.lt_succ_self _) block path
  exact ⟨found, path', seen', h, hiff.trans Search.exists_witness_iff, hpath⟩

end WaitGraph

/-! ## The operations -/

structure InitWaits where
  graph : WaitGraph
  /-- An `AtomicU64`, which `fetch_add` wraps. -/
  nextAttempt : UInt64

structure OwnerGuard where
  attempt : InitAttempt

structure WaitGuard where
  waiter : UInt64
  target : String

/-- `Vec::swap_remove`: the last element takes the place of the removed one. -/
def swapRemove {α : Type*} (l : List α) (i : ℕ) : List α :=
  match l.getLast? with
  | none => l
  | some last => (l.set i last).dropLast

theorem mem_of_mem_swapRemove {α : Type*} {l : List α} {i : ℕ} {x : α}
    (h : x ∈ swapRemove l i) : x ∈ l := by
  rw [swapRemove] at h
  split at h
  · exact h
  · next last hlast =>
    rcases List.mem_or_eq_of_mem_set (List.mem_of_mem_dropLast h) with hx | rfl
    · exact hx
    · exact List.mem_of_getLast? hlast

namespace InitWaits

/-- `InitWaits::default()`. -/
def default : InitWaits := ⟨⟨∅, ∅⟩, 0⟩

/-- A new attempt at `block`'s init. It becomes the block's owner only when it starts running. -/
def attempt (w : InitWaits) (block : String) : InitAttempt × InitWaits :=
  (⟨w.nextAttempt, block⟩, { w with nextAttempt := w.nextAttempt + 1 })

/-- Whether `attempt` is running its block's init now. -/
def isRunning (w : InitWaits) (attempt : InitAttempt) : Bool :=
  w.graph.owners.lookup attempt.block == some attempt.id

/-- Record `attempt` as running its block's init, until the guard drops. -/
def own (w : InitWaits) (attempt : InitAttempt) : OwnerGuard × InitWaits :=
  (⟨attempt⟩,
    { w with graph := { w.graph with owners := w.graph.owners.insert attempt.block attempt.id } })

/-- Record that `waiter` waits for `target`'s init, until the guard drops, or refuse with the
cycle's path when the wait would close an init cycle. -/
def waitFor (w : InitWaits) (waiter : InitAttempt) (target : String) :
    Except (List String) WaitGuard × InitWaits :=
  match w.graph.reaches target waiter.id [waiter.block, target] ∅ with
  | some (true, path, _) => (.error path, w)
  | _ => (.ok ⟨waiter.id, target⟩, { w with graph := w.graph.addWait waiter.id target })

/-- `Drop for OwnerGuard`. -/
def dropOwner (w : InitWaits) (guard : OwnerGuard) : InitWaits :=
  if w.graph.owners.lookup guard.attempt.block = some guard.attempt.id then
    { w with graph := { w.graph with owners := w.graph.owners.erase guard.attempt.block } }
  else w

/-- `Drop for WaitGuard`. -/
def dropWait (w : InitWaits) (guard : WaitGuard) : InitWaits :=
  match w.graph.waits.lookup guard.waiter with
  | none => w
  | some targets =>
    let left := match targets.idxOf? guard.target with
      | some pos => swapRemove targets pos
      | none => targets
    { w with graph := { w.graph with
        waits := if left.isEmpty then w.graph.waits.erase guard.waiter
          else w.graph.waits.insert guard.waiter left } }

theorem waitFor_spec (w : InitWaits) (waiter : InitAttempt) (target : String) :
    ((∃ k, w.graph.owner target = some k ∧ ReflTransGen w.graph.Edge k waiter.id) ∧
      ∃ tail, w.waitFor waiter target = (.error (waiter.block :: target :: tail), w) ∧
        List.IsChain w.graph.Hop (target :: tail) ∧
        w.graph.owner ((target :: tail).getLast (List.cons_ne_nil _ _)) = some waiter.id) ∨
    ((¬∃ k, w.graph.owner target = some k ∧ ReflTransGen w.graph.Edge k waiter.id) ∧
      w.waitFor waiter target
        = (.ok ⟨waiter.id, target⟩, { w with graph := w.graph.addWait waiter.id target })) := by
  obtain ⟨found, path, seen, h, hiff, hpath⟩ :=
    w.graph.reaches_exact target waiter.id [waiter.block, target]
  cases found with
  | true =>
    obtain ⟨tail, rfl, hchain, hlast⟩ := hpath rfl
    refine .inl ⟨hiff.mp rfl, tail, ?_, hchain, hlast⟩
    rw [waitFor, h]
    rfl
  | false =>
    refine .inr ⟨fun hk ↦ Bool.false_ne_true (hiff.mpr hk), ?_⟩
    rw [waitFor, h]

theorem owner_dropWait (w : InitWaits) (guard : WaitGuard) :
    (w.dropWait guard).graph.owner = w.graph.owner := by
  rw [dropWait]
  split <;> rfl

theorem waitsOf_dropWait_subset (w : InitWaits) (guard : WaitGuard) (k : UInt64) :
    ∀ b ∈ (w.dropWait guard).graph.waitsOf k, b ∈ w.graph.waitsOf k := by
  intro b hb
  rw [dropWait] at hb
  split at hb
  · exact hb
  · next targets htargets =>
    have hsub : ∀ b ∈ (match targets.idxOf? guard.target with
        | some pos => swapRemove targets pos
        | none => targets), b ∈ targets := by
      intro b hb
      split at hb
      · exact mem_of_mem_swapRemove hb
      · exact hb
    generalize (match targets.idxOf? guard.target with
        | some pos => swapRemove targets pos
        | none => targets) = left at hb hsub
    by_cases hk : k = guard.waiter
    · subst hk
      rw [WaitGraph.waitsOf, htargets, Option.getD_some]
      rw [WaitGraph.waitsOf] at hb
      by_cases hempty : left.isEmpty
      · simp [hempty] at hb
      · simp only [hempty, Bool.false_eq_true, if_false, AList.lookup_insert,
          Option.getD_some] at hb
        exact hsub b hb
    · rw [WaitGraph.waitsOf] at hb ⊢
      by_cases hempty : left.isEmpty
      · simpa [hempty, AList.lookup_erase_ne hk] using hb
      · simpa [hempty, AList.lookup_insert_ne hk] using hb

theorem waits_dropOwner (w : InitWaits) (guard : OwnerGuard) :
    (w.dropOwner guard).graph.waits = w.graph.waits := by
  rw [dropOwner]
  split <;> rfl

theorem owner_dropOwner (w : InitWaits) (guard : OwnerGuard) (b : String) :
    (w.dropOwner guard).graph.owner b
      = if b = guard.attempt.block ∧ w.graph.owner b = some guard.attempt.id then none
        else w.graph.owner b := by
  rw [dropOwner, WaitGraph.owner, WaitGraph.owner]
  by_cases hb : b = guard.attempt.block
  · subst hb
    split <;> simp_all
  · split
    · simp [hb, AList.lookup_erase_ne hb]
    · simp [hb]

theorem owner_own (w : InitWaits) (attempt : InitAttempt) (b : String) :
    (w.own attempt).2.graph.owner b
      = if b = attempt.block then some attempt.id else w.graph.owner b := by
  by_cases hb : b = attempt.block
  · subst hb
    simp [own, WaitGraph.owner]
  · simp [own, WaitGraph.owner, hb, AList.lookup_insert_ne hb]

end InitWaits

end WaferRun

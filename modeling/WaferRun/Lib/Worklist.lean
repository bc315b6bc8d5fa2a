import Mathlib.Algebra.Order.BigOperators.Group.Finset

/-!
# Searching a graph with a worklist

A loop that takes the top node off a stack, stops if it is the goal, and otherwise pushes the
successors of a node it has not seen before. The loop is given fuel; over a finite graph a number of
turns read off the graph is enough, and the answer says whether the goal can be reached
(`worklist_exact`).
-/

open List

namespace Worklist

open Relation

variable {κ : Type*} {succ : κ → List κ} {goal : κ} {n : ℕ} {stack : List κ} {seen : Finset κ}

def Swept (succ : κ → List κ) (goal : κ) (stack : List κ) (seen : Finset κ) : Prop :=
  ∀ k ∈ seen, k ≠ goal ∧ ∀ k' ∈ succ k, k' ∈ stack ∨ k' ∈ seen

theorem swept_empty : Swept succ goal stack ∅ := fun k hk ↦ absurd hk (Finset.notMem_empty k)

theorem Swept.skip {k : κ} (h : Swept succ goal (k :: stack) seen) (hk : k ∈ seen) :
    Swept succ goal stack seen := by
  intro a ha
  refine ⟨(h a ha).1, fun b hb ↦ ?_⟩
  rcases (h a ha).2 b hb with hstack | hseen
  · rcases mem_cons.mp hstack with rfl | hstack
    · exact .inr hk
    · exact .inl hstack
  · exact .inr hseen

theorem Swept.not_reaches (h : Swept succ goal [] seen) {k : κ} (hk : k ∈ seen) :
    ¬ReflTransGen (fun a b ↦ b ∈ succ a) k goal := by
  intro hreach
  have hmem : ∀ b, ReflTransGen (fun a b ↦ b ∈ succ a) k b → b ∈ seen := by
    intro b hb
    induction hb with
    | refl => exact hk
    | tail _ hstep ih => exact ((h _ ih).2 _ hstep).resolve_left not_mem_nil
  exact (h goal (hmem goal hreach)).1 rfl

variable [DecidableEq κ]

/-- The loop, with the top of the stack first. -/
def worklist (succ : κ → List κ) (goal : κ) : ℕ → List κ → Finset κ → Option Bool
  | 0, _, _ => none
  | _ + 1, [], _ => some false
  | n + 1, k :: stack, seen =>
    if k = goal then some true
    else if k ∈ seen then worklist succ goal n stack seen
    else worklist succ goal n ((succ k).reverse ++ stack) (insert k seen)

theorem Swept.push {k : κ} (h : Swept succ goal (k :: stack) seen) (hgoal : k ≠ goal) :
    Swept succ goal ((succ k).reverse ++ stack) (insert k seen) := by
  intro a ha
  rcases Finset.mem_insert.mp ha with rfl | ha
  · exact ⟨hgoal, fun b hb ↦ .inl (mem_append_left _ (mem_reverse.mpr hb))⟩
  refine ⟨(h a ha).1, fun b hb ↦ ?_⟩
  rcases (h a ha).2 b hb with hstack | hseen
  · rcases mem_cons.mp hstack with rfl | hstack
    · exact .inr (Finset.mem_insert_self b seen)
    · exact .inl (mem_append_right _ hstack)
  · exact .inr (Finset.mem_insert_of_mem hseen)

theorem reaches_of_worklist (h : worklist succ goal n stack seen = some true) :
    ∃ k ∈ stack, ReflTransGen (fun a b ↦ b ∈ succ a) k goal := by
  induction n generalizing stack seen with
  | zero => cases h
  | succ n ih =>
    rcases stack with - | ⟨k, stack⟩
    · cases h
    rw [worklist] at h
    split_ifs at h with hgoal hseen
    · exact ⟨k, mem_cons_self, hgoal ▸ .refl⟩
    · have ⟨a, ha, hreach⟩ := ih h
      exact ⟨a, mem_cons_of_mem k ha, hreach⟩
    · have ⟨a, ha, hreach⟩ := ih h
      rcases mem_append.mp ha with ha | ha
      · exact ⟨k, mem_cons_self, .head (mem_reverse.mp ha) hreach⟩
      · exact ⟨a, mem_cons_of_mem k ha, hreach⟩

theorem not_reaches_of_worklist (h : worklist succ goal n stack seen = some false)
    (hswept : Swept succ goal stack seen) {k : κ} (hk : k ∈ stack ∨ k ∈ seen) :
    ¬ReflTransGen (fun a b ↦ b ∈ succ a) k goal := by
  induction n generalizing stack seen with
  | zero => cases h
  | succ n ih =>
    rcases stack with - | ⟨a, stack⟩
    · exact hswept.not_reaches (hk.resolve_left not_mem_nil)
    rw [worklist] at h
    split_ifs at h with hgoal hseen
    · cases h
    · apply ih h (hswept.skip hseen)
      rcases hk with hk | hk
      · rcases mem_cons.mp hk with rfl | hk
        · exact .inr hseen
        · exact .inl hk
      · exact .inr hk
    · apply ih h (hswept.push hgoal)
      rcases hk with hk | hk
      · rcases mem_cons.mp hk with rfl | hk
        · exact .inr (Finset.mem_insert_self k seen)
        · exact .inl (mem_append_right _ hk)
      · exact .inr (Finset.mem_insert_of_mem hk)

/-- Over a finite set of nodes the stack and the successors still to be pushed bound the number of
turns. -/
theorem worklist_isSome {nodes : Finset κ} (hclosed : ∀ k ∈ nodes, ∀ k' ∈ succ k, k' ∈ nodes)
    (hstack : ∀ k ∈ stack, k ∈ nodes)
    (hn : stack.length + ∑ k ∈ nodes \ seen, (succ k).length < n) :
    (worklist succ goal n stack seen).isSome = true := by
  induction n generalizing stack seen with
  | zero => omega
  | succ n ih =>
    rcases stack with - | ⟨k, stack⟩
    · rfl
    have hrest : ∀ a ∈ stack, a ∈ nodes := fun a ha ↦ hstack a (mem_cons_of_mem k ha)
    rw [length_cons] at hn
    rw [worklist]
    split_ifs with hgoal hseen
    · rfl
    · exact ih hrest (by omega)
    · have hk : k ∈ nodes := hstack k mem_cons_self
      have hsum : (succ k).length + ∑ a ∈ nodes \ insert k seen, (succ a).length =
          ∑ a ∈ nodes \ seen, (succ a).length := by
        rw [Finset.sdiff_insert]
        exact Finset.add_sum_erase _ (fun a ↦ (succ a).length)
          (Finset.mem_sdiff.mpr ⟨hk, hseen⟩)
      apply ih
      · intro a ha
        rcases mem_append.mp ha with ha | ha
        · exact hclosed k hk a (mem_reverse.mp ha)
        · exact hrest a ha
      · rw [length_append, length_reverse]
        omega

/-- **The search is exact.** -/
theorem worklist_exact {nodes : Finset κ} (hclosed : ∀ k ∈ nodes, ∀ k' ∈ succ k, k' ∈ nodes)
    (hstack : ∀ k ∈ stack, k ∈ nodes) (hn : stack.length + ∑ k ∈ nodes, (succ k).length < n) :
    worklist succ goal n stack ∅ = some true ↔
      ∃ k ∈ stack, ReflTransGen (fun a b ↦ b ∈ succ a) k goal := by
  refine ⟨reaches_of_worklist, fun ⟨k, hk, hreach⟩ ↦ ?_⟩
  have hsome : (worklist succ goal n stack ∅).isSome = true :=
    worklist_isSome hclosed hstack (by rwa [Finset.sdiff_empty])
  have ⟨b, hb⟩ := Option.isSome_iff_exists.mp hsome
  rcases b with - | -
  · exact absurd hreach (not_reaches_of_worklist hb swept_empty (.inl hk))
  · exact hb

end Worklist

import Mathlib.Algebra.Order.BigOperators.Group.Finset

/-!
# Everything that can be reached

A loop that takes a node off a worklist and, if it has not reached it before, keeps it and pushes
its successors. Over a finite graph a number of turns read off the graph is enough to reach all that
can be reached from the worklist (`mem_closure_iff`), each node once (`nodup_closure`).
-/

open List

namespace Closure

open Relation

variable {κ : Type*} [DecidableEq κ] {succ : κ → List κ} {n : ℕ} {frontier reached : List κ}

def closure (succ : κ → List κ) : ℕ → List κ → List κ → List κ
  | 0, _, reached => reached
  | _ + 1, [], reached => reached
  | n + 1, k :: frontier, reached =>
    if k ∈ reached then closure succ n frontier reached
    else closure succ n (succ k ++ frontier) (k :: reached)

/-- Each node is reached once. -/
theorem nodup_closure (h : reached.Nodup) : (closure succ n frontier reached).Nodup := by
  induction n generalizing frontier reached with
  | zero => exact h
  | succ n ih =>
    rcases frontier with - | ⟨k, frontier⟩
    · exact h
    rw [closure]
    split_ifs with hk
    · exact ih h
    · exact ih (nodup_cons.mpr ⟨hk, h⟩)

theorem reaches_of_mem_closure {k : κ} (h : k ∈ closure succ n frontier reached) :
    k ∈ reached ∨ ∃ a ∈ frontier, ReflTransGen (fun a b ↦ b ∈ succ a) a k := by
  induction n generalizing frontier reached with
  | zero => exact Or.inl h
  | succ n ih =>
    rcases frontier with - | ⟨a, frontier⟩
    · exact Or.inl h
    rw [closure] at h
    split_ifs at h with hseen
    · exact (ih h).imp_right fun ⟨b, hb, hreach⟩ ↦ ⟨b, mem_cons_of_mem a hb, hreach⟩
    · rcases ih h with hk | ⟨b, hb, hreach⟩
      · rcases mem_cons.mp hk with rfl | hk
        · exact Or.inr ⟨k, mem_cons_self, .refl⟩
        · exact Or.inl hk
      · rcases mem_append.mp hb with hb | hb
        · exact Or.inr ⟨a, mem_cons_self, .head hb hreach⟩
        · exact Or.inr ⟨b, mem_cons_of_mem a hb, hreach⟩

def Pushed (succ : κ → List κ) (frontier reached : List κ) : Prop :=
  ∀ k ∈ reached, ∀ a ∈ succ k, a ∈ frontier ∨ a ∈ reached

/-- Nothing that can be reached is missing. -/
theorem mem_closure_of_reaches {nodes : Finset κ}
    (hclosed : ∀ k ∈ nodes, ∀ a ∈ succ k, a ∈ nodes) (hfrontier : ∀ k ∈ frontier, k ∈ nodes)
    (hn : frontier.length + ∑ k ∈ nodes \ reached.toFinset, (succ k).length < n)
    (hpushed : Pushed succ frontier reached) {k : κ}
    (hk : k ∈ reached ∨ ∃ a ∈ frontier, ReflTransGen (fun a b ↦ b ∈ succ a) a k) :
    k ∈ closure succ n frontier reached := by
  induction n generalizing frontier reached with
  | zero => omega
  | succ n ih =>
    rcases frontier with - | ⟨a, frontier⟩
    · exact hk.resolve_right fun ⟨_, hmem, _⟩ ↦ not_mem_nil hmem
    have hrest : ∀ b ∈ frontier, b ∈ nodes := fun b hb ↦ hfrontier b (mem_cons_of_mem a hb)
    rw [length_cons] at hn
    rw [closure]
    split_ifs with hseen
    · have hpushed' : Pushed succ frontier reached := by
        intro b hb c hc
        rcases hpushed b hb c hc with hmem | hmem
        · rcases mem_cons.mp hmem with rfl | hmem
          · exact Or.inr hseen
          · exact Or.inl hmem
        · exact Or.inr hmem
      refine ih hrest (by omega) hpushed' ?_
      rcases hk with hk | ⟨b, hb, hreach⟩
      · exact Or.inl hk
      · rcases mem_cons.mp hb with rfl | hb
        · -- a path from what was reached before stays there, or leaves through the worklist
          have hpath : ∀ c, ReflTransGen (fun a b ↦ b ∈ succ a) b c →
              c ∈ reached ∨ ∃ d ∈ frontier, ReflTransGen (fun a b ↦ b ∈ succ a) d c := by
            intro c hc
            induction hc with
            | refl => exact Or.inl hseen
            | tail _ hstep ih =>
              rcases ih with hmem | ⟨d, hd, hdc⟩
              · exact (hpushed' _ hmem _ hstep).symm.imp_right fun hmem ↦ ⟨_, hmem, .refl⟩
              · exact Or.inr ⟨d, hd, hdc.tail hstep⟩
          exact hpath k hreach
        · exact Or.inr ⟨b, hb, hreach⟩
    · have ha : a ∈ nodes := hfrontier a mem_cons_self
      have hsum : (succ a).length + ∑ b ∈ nodes \ (a :: reached).toFinset, (succ b).length =
          ∑ b ∈ nodes \ reached.toFinset, (succ b).length := by
        rw [toFinset_cons, Finset.sdiff_insert]
        exact Finset.add_sum_erase _ (fun b ↦ (succ b).length)
          (Finset.mem_sdiff.mpr ⟨ha, fun h ↦ hseen (mem_toFinset.mp h)⟩)
      apply ih
      · intro b hb
        exact (mem_append.mp hb).elim (hclosed a ha b) (hrest b)
      · rw [length_append]
        omega
      · intro b hb c hc
        rcases mem_cons.mp hb with rfl | hb
        · exact Or.inl (mem_append_left _ hc)
        rcases hpushed b hb c hc with hmem | hmem
        · rcases mem_cons.mp hmem with rfl | hmem
          · exact Or.inr mem_cons_self
          · exact Or.inl (mem_append_right _ hmem)
        · exact Or.inr (mem_cons_of_mem a hmem)
      · rcases hk with hk | ⟨b, hb, hreach⟩
        · exact Or.inl (mem_cons_of_mem a hk)
        rcases mem_cons.mp hb with rfl | hb
        · rcases ReflTransGen.cases_head hreach with rfl | ⟨c, hc, hreach⟩
          · exact Or.inl mem_cons_self
          · exact Or.inr ⟨c, mem_append_left _ hc, hreach⟩
        · exact Or.inr ⟨b, mem_append_right _ hb, hreach⟩

/-- **The closure** of a worklist is what can be reached from it. -/
theorem mem_closure_iff {nodes : Finset κ} (hclosed : ∀ k ∈ nodes, ∀ a ∈ succ k, a ∈ nodes)
    (hfrontier : ∀ k ∈ frontier, k ∈ nodes)
    (hn : frontier.length + ∑ k ∈ nodes, (succ k).length < n) {k : κ} :
    k ∈ closure succ n frontier [] ↔
      ∃ a ∈ frontier, ReflTransGen (fun a b ↦ b ∈ succ a) a k := by
  constructor
  · intro hk
    exact (reaches_of_mem_closure hk).resolve_left not_mem_nil
  · intro hreach
    refine mem_closure_of_reaches hclosed hfrontier ?_ (fun _ h ↦ absurd h not_mem_nil)
      (Or.inr hreach)
    rwa [toFinset_nil, Finset.sdiff_empty]

end Closure

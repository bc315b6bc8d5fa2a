import Mathlib.Data.Option.Basic

/-!
# Unfolding a graph

A graph has a label at each of its nodes and, for each step, at most one node that the step leads
to. A node unfolds into a tree, finite or not: what stands at the end of each path from it
(`Graph.unfold`). Two nodes, of two graphs, unfold into the same tree if a relation between the
nodes keeps the labels and the steps (`Simulates.unfold_eq`), and then each step leads to nodes that
unfold into the same tree again (`rel_next_of_unfold_eq`).
-/

namespace Unfolding

structure Graph (σ α L : Type*) where
  label : σ → L
  next : σ → α → Option σ

variable {σ τ α L : Type*} {G : Graph σ α L} {H : Graph τ α L}

/-- The node at the end of a path. -/
def Graph.follow (G : Graph σ α L) (s : σ) : List α → Option σ
  | [] => some s
  | a :: path => (G.next s a).bind fun t ↦ G.follow t path

def Graph.unfold (G : Graph σ α L) (s : σ) (path : List α) : Option L :=
  (G.follow s path).map G.label

/-- Related nodes have the same label, and each step leads to related nodes or to none. -/
structure Simulates (G : Graph σ α L) (H : Graph τ α L) (R : σ → τ → Prop) : Prop where
  label : ∀ {s t}, R s t → G.label s = H.label t
  next : ∀ {s t}, R s t → ∀ a, Option.Rel R (G.next s a) (H.next t a)

theorem Graph.unfold_nil (G : Graph σ α L) (s : σ) : G.unfold s [] = some (G.label s) := rfl

theorem Graph.unfold_cons (G : Graph σ α L) (s : σ) (a : α) (path : List α) :
    G.unfold s (a :: path) = (G.next s a).bind fun t ↦ G.unfold t path := by
  rw [Graph.unfold, Graph.follow, Option.map_bind]
  rfl

/-- **Related nodes unfold alike.** -/
theorem Simulates.unfold_eq {R : σ → τ → Prop} (h : Simulates G H R) {s : σ} {t : τ}
    (hst : R s t) : G.unfold s = H.unfold t := by
  funext path
  induction path generalizing s t with
  | nil => rw [Graph.unfold_nil, Graph.unfold_nil, h.label hst]
  | cons a path ih =>
    rw [Graph.unfold_cons, Graph.unfold_cons]
    rcases hs : G.next s a with - | s' <;> rcases ht : H.next t a with - | t' <;>
      have hrel := h.next hst a <;> rw [hs, ht] at hrel
    · rfl
    · cases hrel
    · cases hrel
    · apply ih
      cases hrel with
      | some hst => exact hst

theorem label_eq_of_unfold_eq {s : σ} {t : τ} (h : G.unfold s = H.unfold t) :
    G.label s = H.label t :=
  Option.some.inj (congrFun h [])

/-- Nodes that unfold alike step to nodes that do. -/
theorem rel_next_of_unfold_eq {s : σ} {t : τ} (h : G.unfold s = H.unfold t) (a : α) :
    Option.Rel (fun s' t' ↦ G.unfold s' = H.unfold t') (G.next s a) (H.next t a) := by
  have hpath (path : List α) := congrFun h (a :: path)
  simp only [Graph.unfold_cons] at hpath
  rcases hs : G.next s a with - | s' <;> rcases ht : H.next t a with - | t' <;>
    simp only [hs, ht, Option.bind_none, Option.bind_some] at hpath
  · exact .none
  · exact absurd (hpath []) nofun
  · exact absurd (hpath []) nofun
  · exact .some (funext hpath)

theorem exists_next_of_unfold_eq {s : σ} {t : τ} (h : G.unfold s = H.unfold t) {a : α} {s' : σ}
    (hs : G.next s a = some s') :
    ∃ t', H.next t a = some t' ∧ G.unfold s' = H.unfold t' := by
  have hrel := rel_next_of_unfold_eq h a
  rw [hs] at hrel
  rcases ht : H.next t a with - | t' <;> rw [ht] at hrel
  · cases hrel
  · cases hrel with
    | some hrel => exact ⟨t', rfl, hrel⟩

end Unfolding

import Mathlib.Data.List.Basic

/-!
# Rewriting a list item by item

A rewriter has a state. Of each item it makes another or none, and the items that are made are its
output.
-/

/-- What is made of an item, with the state after it. -/
abbrev Rewriter (σ α : Type*) := σ → α → σ × Option α

namespace Rewriter

variable {σ α : Type*} {f : Rewriter σ α}

def outputs (f : Rewriter σ α) : σ → List α → List α
  | _, [] => []
  | s, a :: as => (f s a).2.toList ++ outputs f (f s a).1 as

theorem outputs_cons_of_eq_some {s : σ} {a b : α} (h : (f s a).2 = some b) (as : List α) :
    f.outputs s (a :: as) = b :: f.outputs (f s a).1 as := by
  rw [outputs, h]
  rfl

theorem outputs_cons_of_eq_none {s : σ} {a : α} (h : (f s a).2 = none) (as : List α) :
    f.outputs s (a :: as) = f.outputs (f s a).1 as := by
  rw [outputs, h]
  rfl

theorem length_outputs_le (f : Rewriter σ α) (s : σ) (as : List α) :
    (f.outputs s as).length ≤ as.length := by
  induction as generalizing s with
  | nil => exact Nat.le_refl 0
  | cons a as ih =>
    have hone : (f s a).2.toList.length ≤ 1 := Option.length_toList_le
    have hrest := ih (f s a).1
    rw [outputs, List.length_append, List.length_cons]
    omega

end Rewriter

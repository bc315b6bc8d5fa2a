import Mathlib.Data.List.Sort

/-!
# Orders by several criteria, and pages

Rows are compared by one criterion after another, the first that tells them apart. If the criteria
together tell any two rows of a list apart, the list has exactly one sorted arrangement; whoever
sorts it, and as often as it is sorted anew, the pages of that arrangement fit together.
-/

open List

namespace Paging

variable {α : Type*}

/-- Compare by several criteria in turn. -/
def lexOrder : List (α → α → Ordering) → α → α → Ordering
  | [], _, _ => .eq
  | cmp :: cmps, a, b => (cmp a b).then (lexOrder cmps a b)

theorem lexOrder_eq_eq {cmps : List (α → α → Ordering)} {a b : α} :
    lexOrder cmps a b = .eq ↔ ∀ cmp ∈ cmps, cmp a b = .eq := by
  induction cmps with
  | nil => exact iff_of_true rfl fun _ h ↦ absurd h not_mem_nil
  | cons cmp cmps ih => rw [lexOrder, Ordering.then_eq_eq, ih, forall_mem_cons]

theorem transCmp_lexOrder {cmps : List (α → α → Ordering)} (h : ∀ cmp ∈ cmps, Std.TransCmp cmp) :
    Std.TransCmp (lexOrder cmps) := by
  induction cmps with
  | nil => exact { eq_swap := rfl, isLE_trans := fun _ _ ↦ rfl }
  | cons cmp cmps ih =>
    have : Std.TransCmp cmp := h cmp mem_cons_self
    have : Std.TransCmp (lexOrder cmps) := ih fun c hc ↦ h c (mem_cons_of_mem _ hc)
    have hlex : lexOrder (cmp :: cmps) = compareLex cmp (lexOrder cmps) := rfl
    rw [hlex]
    infer_instance

theorem eq_of_perm_of_sorted {cmp : α → α → Ordering} [Std.TransCmp cmp] {l l₁ l₂ : List α}
    (hties : ∀ a ∈ l, ∀ b ∈ l, cmp a b = .eq → a = b) (h₁ : l₁.Perm l) (h₂ : l₂.Perm l)
    (hs₁ : l₁.Pairwise fun a b ↦ (cmp a b).isLE) (hs₂ : l₂.Pairwise fun a b ↦ (cmp a b).isLE) :
    l₁ = l₂ := by
  refine (h₁.trans h₂.symm).eq_of_pairwise (fun a b ha hb hab hba ↦ ?_) hs₁ hs₂
  exact hties a (h₁.mem_iff.mp ha) b (h₂.mem_iff.mp hb) (Std.OrientedCmp.isLE_antisymm hab hba)

theorem flatMap_pages (l : List α) (n m : ℕ) :
    ((List.range m).flatMap fun i ↦ (l.drop (i * n)).take n) = l.take (m * n) := by
  induction m with
  | zero => rw [Nat.zero_mul, take_zero, range_zero, flatMap_nil]
  | succ m ih =>
    rw [range_succ, flatMap_append, flatMap_singleton, ih, Nat.succ_mul,
      take_add]

end Paging

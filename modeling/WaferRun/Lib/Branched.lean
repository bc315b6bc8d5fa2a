import Mathlib.Data.List.Basic

/-!
# Trees whose nodes have branches

A node carries a value and may have branches, each a list of further nodes. Recursion over such a
tree goes through an option and two lists, so it is done once, in `fold`; what else walks a tree
bottom up is a fold, and is unfolded one node at a time by `fold_mk`.
-/

inductive Branched (α : Type)
  | mk (head : α) (branches : Option (List (List (Branched α))))

open List

namespace Branched

variable {α β γ : Type}

def head : Branched α → α
  | mk head _ => head

def branches : Branched α → Option (List (List (Branched α)))
  | mk _ branches => branches

theorem induct {P : Branched α → Prop}
    (h : ∀ head branches, (∀ bs, branches = some bs → ∀ b ∈ bs, ∀ t ∈ b, P t) →
      P (mk head branches)) : ∀ t, P t := by
  refine @Branched.rec α P (fun p ↦ ∀ bs, p = some bs → ∀ b ∈ bs, ∀ t ∈ b, P t)
    (fun bs ↦ ∀ b ∈ bs, ∀ t ∈ b, P t) (fun ts ↦ ∀ t ∈ ts, P t) h ?_ ?_ ?_ ?_ ?_ ?_
  · intro bs hbs
    exact absurd hbs (Option.some_ne_none bs).symm
  · intro bs ih cs hcs
    obtain rfl := Option.some.inj hcs
    exact ih
  · intro b hb
    exact absurd hb not_mem_nil
  · intro b bs ihb ihbs
    exact forall_mem_cons.mpr ⟨ihb, ihbs⟩
  · intro t ht
    exact absurd ht not_mem_nil
  · intro t ts iht ihts
    exact forall_mem_cons.mpr ⟨iht, ihts⟩

mutual

/-- Put a tree together again from its nodes, bottom up. -/
def fold (f : α → Option (List (List β)) → β) : Branched α → β
  | mk head branches => f head (foldParallel f branches)
termination_by structural t => t

def foldParallel (f : α → Option (List (List β)) → β) :
    Option (List (List (Branched α))) → Option (List (List β))
  | none => none
  | some bs => some (foldBranches f bs)
termination_by structural p => p

def foldBranches (f : α → Option (List (List β)) → β) : List (List (Branched α)) → List (List β)
  | [] => []
  | b :: bs => foldAll f b :: foldBranches f bs
termination_by structural bs => bs

def foldAll (f : α → Option (List (List β)) → β) : List (Branched α) → List β
  | [] => []
  | t :: ts => fold f t :: foldAll f ts
termination_by structural ts => ts

end

theorem foldAll_eq_map (f : α → Option (List (List β)) → β) (ts : List (Branched α)) :
    foldAll f ts = ts.map (fold f) := by
  induction ts with
  | nil => rfl
  | cons t ts ih => rw [foldAll, ih, map_cons]

theorem foldBranches_eq_map (f : α → Option (List (List β)) → β) (bs : List (List (Branched α))) :
    foldBranches f bs = bs.map (List.map (fold f)) := by
  induction bs with
  | nil => rfl
  | cons b bs ih => rw [foldBranches, ih, foldAll_eq_map, map_cons]

@[simp] theorem fold_mk (f : α → Option (List (List β)) → β) (head : α)
    (branches : Option (List (List (Branched α)))) :
    fold f (mk head branches) = f head (branches.map (List.map (List.map (fold f)))) := by
  rw [fold]
  apply congrArg
  cases branches with
  | none => rfl
  | some bs => rw [foldParallel, foldBranches_eq_map, Option.map_some]

/-- Change the value of every node. -/
def map (f : α → β) : Branched α → Branched β :=
  fold fun head branches ↦ mk (f head) branches

@[simp] theorem map_mk (f : α → β) (head : α) (branches : Option (List (List (Branched α)))) :
    map f (mk head branches) = mk (f head) (branches.map (List.map (List.map (map f)))) :=
  fold_mk _ _ _

@[simp] theorem head_map (f : α → β) (t : Branched α) : (map f t).head = f t.head := by
  obtain ⟨head, branches⟩ := t
  rw [map_mk, Branched.head, Branched.head]

/-! ## The nodes of a tree -/

def branchHeads (heads : γ → List α) (branches : Option (List (List γ))) : List α :=
  (branches.getD []).flatMap fun b ↦ b.flatMap heads

/-- The values of a tree, each node before its branches. -/
def heads : Branched α → List α :=
  fold fun head branches ↦ head :: branchHeads id branches

def inner (t : Branched α) : List α := branchHeads heads t.branches

theorem branchHeads_map (heads : β → List α) (f : γ → β) (branches : Option (List (List γ))) :
    branchHeads heads (branches.map (List.map (List.map f))) =
      branchHeads (fun t ↦ heads (f t)) branches := by
  cases branches with
  | none => rfl
  | some bs =>
    rw [branchHeads, Option.map_some, Option.getD_some, flatMap_map]
    simp only [flatMap_map]
    rfl

theorem heads_eq (t : Branched α) : t.heads = t.head :: t.inner := by
  obtain ⟨head, branches⟩ := t
  rw [heads, fold_mk, branchHeads_map]
  rfl

theorem heads_mk (head : α) (branches : Option (List (List (Branched α)))) :
    (mk head branches).heads = head :: branchHeads heads branches := heads_eq _

theorem mem_branchHeads {heads : γ → List α} {bs : List (List γ)} {a : α} :
    a ∈ branchHeads heads (some bs) ↔ ∃ b ∈ bs, ∃ t ∈ b, a ∈ heads t := by
  simp [branchHeads]

theorem branchHeads_congr {heads heads' : γ → List α} {branches : Option (List (List γ))}
    (h : ∀ bs, branches = some bs → ∀ b ∈ bs, ∀ t ∈ b, heads t = heads' t) :
    branchHeads heads branches = branchHeads heads' branches := by
  cases branches with
  | none => rfl
  | some bs =>
    refine flatMap_congr fun b hb ↦ flatMap_congr fun t ht ↦ ?_
    exact h bs rfl b hb t ht

theorem map_branchHeads (f : α → β) (heads : γ → List α) (branches : Option (List (List γ))) :
    (branchHeads heads branches).map f = branchHeads (fun t ↦ (heads t).map f) branches := by
  rw [branchHeads, branchHeads, map_flatMap]
  simp only [map_flatMap]

@[simp] theorem heads_map (f : α → β) (t : Branched α) : (map f t).heads = t.heads.map f := by
  induction t using induct with
  | h head branches ih =>
    rw [map_mk, heads_mk, heads_mk, map_cons, branchHeads_map, map_branchHeads]
    exact congrArg _ (branchHeads_congr ih)

@[simp] theorem inner_map (f : α → β) (t : Branched α) : (map f t).inner = t.inner.map f := by
  have h := heads_map f t
  rw [heads_eq, heads_eq, head_map, map_cons] at h
  exact (cons.inj h).2

end Branched

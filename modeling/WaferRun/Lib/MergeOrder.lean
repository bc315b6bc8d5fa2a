import Mathlib.Data.List.Induction
import WaferRun.Lib.FirstWins

/-!
# What is left of one tree among many

Many trees are merged one after another so that the first writer wins. What stands at a path in the
end is what the first tree has there that has anything there, unless an earlier leaf above it cut it
off (`node_mergeAll_eq`). From this one can tell, without merging anything, when the result is
exactly one of the trees (`mergeAll_eq_iff`): what comes before must have nothing else to say about
the paths that are open in it, and what comes after nothing to add.
-/

open List Option

namespace FirstWins.Tree

variable {κ α : Type*}

def blank : Tree κ α where
  node _ := none
  above _ _ _ _ h := absurd h nofun

def below (t : Tree κ α) (k : κ) : Tree κ α where
  node p := t.node (k :: p)
  above p k' q x h := t.above (k :: p) k' q x h

/-- Everything that stands in one tree stands in another. -/
def Within (t s : Tree κ α) : Prop := ∀ p x, t.node p = some x → s.node p = some x

theorem decided_below_iff {t : Tree κ α} (h : ∀ a, t.node [] ≠ some (.leaf a)) (k : κ) (p : List κ) :
    (t.below k).Decided p ↔ t.Decided (k :: p) := by
  constructor
  · rintro (⟨x, hx⟩ | ⟨q, k', r, a, rfl, ha⟩)
    · exact .inl ⟨x, hx⟩
    · exact .inr ⟨k :: q, k', r, a, rfl, ha⟩
  · rintro (⟨x, hx⟩ | ⟨q, k', r, a, hp, ha⟩)
    · exact .inl ⟨x, hx⟩
    · rcases q with - | ⟨k'', q⟩
      · exact absurd ha (h a)
      · obtain ⟨rfl, rfl⟩ := cons_eq_cons.mp hp
        exact .inr ⟨q, k', r, a, rfl, ha⟩

theorem below_merge {t : Tree κ α} (h : ∀ a, t.node [] ≠ some (.leaf a)) (s : Tree κ α) (k : κ) :
    (t.merge s).below k = (t.below k).merge (s.below k) := by
  ext1
  funext p
  by_cases hd : t.Decided (k :: p)
  · rw [node_merge_of_decided _ ((decided_below_iff h k p).mpr hd)]
    exact node_merge_of_decided s hd
  · rw [node_merge_of_not_decided _ fun hb ↦ hd ((decided_below_iff h k p).mp hb)]
    exact node_merge_of_not_decided s hd

/-! ## When a merge is one of its parts -/

theorem merge_eq_right_iff {t s : Tree κ α} : t.merge s = s ↔ t.Within s := by
  constructor
  · intro h _ x hx
    rw [← h, node_merge_of_decided s (.inl ⟨x, hx⟩), hx]
  · intro h
    ext1
    funext p
    by_cases hd : t.Decided p
    · rw [node_merge_of_decided s hd]
      obtain ⟨x, hx⟩ | ⟨q, k, r, a, rfl, ha⟩ := hd
      · rw [hx, h p x hx]
      · -- below a leaf nothing stands in either tree
        have hnone {u : Tree κ α} (hu : u.node q = some (.leaf a)) : u.node (q ++ k :: r) = none :=
          eq_none_iff_forall_ne_some.mpr fun y hy ↦
            absurd ((u.above q k r y hy).symm.trans hu) nofun
        rw [hnone ha, hnone (h q _ ha)]
    · exact node_merge_of_not_decided s hd

theorem merge_eq_left_iff {t s : Tree κ α} :
    t.merge s = t ↔ ∀ p x, s.node p = some x → t.Decided p := by
  constructor
  · intro h p x hx
    by_contra hd
    have hnode := node_merge_of_not_decided s hd
    rw [h, hx] at hnode
    exact hd (.inl ⟨x, hnode⟩)
  · intro h
    ext1
    funext p
    by_cases hd : t.Decided p
    · exact node_merge_of_decided s hd
    · rw [node_merge_of_not_decided s hd]
      have hs : s.node p = none :=
        eq_none_iff_forall_ne_some.mpr fun x hx ↦ hd (h p x hx)
      have ht : t.node p = none :=
        eq_none_iff_forall_ne_some.mpr fun x hx ↦ hd (.inl ⟨x, hx⟩)
      rw [hs, ht]

theorem within_merge (t s : Tree κ α) : t.Within (t.merge s) :=
  fun _ x hx ↦ (node_merge_of_decided s (.inl ⟨x, hx⟩)).trans hx

theorem Within.trans {t s u : Tree κ α} (h : t.Within s) (h' : s.Within u) : t.Within u :=
  fun p x hx ↦ h' p x (h p x hx)

theorem Within.antisymm {t s : Tree κ α} (h : t.Within s) (h' : s.Within t) : t = s := by
  ext1
  funext p
  rcases ht : t.node p with - | x
  · refine (eq_none_iff_forall_ne_some.mpr fun y hy ↦ ?_).symm
    rw [h' p y hy] at ht
    cases ht
  · exact (h p x ht).symm

/-! ## Merging a list -/

noncomputable def mergeAll (t : Tree κ α) (ts : List (Tree κ α)) : Tree κ α := ts.foldl merge t

theorem mergeAll_append (t : Tree κ α) (ts us : List (Tree κ α)) :
    t.mergeAll (ts ++ us) = (t.mergeAll ts).mergeAll us := foldl_append

theorem within_mergeAll (t : Tree κ α) (ts : List (Tree κ α)) : t.Within (t.mergeAll ts) := by
  induction ts generalizing t with
  | nil => exact fun _ _ hx ↦ hx
  | cons s ts ih => exact (within_merge t s).trans (ih (t.merge s))

theorem Decided.mergeAll {t : Tree κ α} {p : List κ} (h : t.Decided p) (ts : List (Tree κ α)) :
    (t.mergeAll ts).Decided p := by
  induction ts generalizing t with
  | nil => exact h
  | cons s ts ih => exact ih (h.merge s)

def firstNode (ts : List (Tree κ α)) (p : List κ) : Option (Node α) := ts.findSome? fun t ↦ t.node p

theorem decided_mergeAll_of_mem {t s : Tree κ α} {ts : List (Tree κ α)} (hs : s ∈ ts) {p : List κ}
    {x : Node α} (hx : s.node p = some x) : (t.mergeAll ts).Decided p := by
  obtain ⟨us, vs, rfl⟩ := append_of_mem hs
  rw [mergeAll_append]
  refine Decided.mergeAll ?_ vs
  by_cases hd : (t.mergeAll us).Decided p
  · exact hd.merge s
  · exact .inl ⟨x, (node_merge_of_not_decided s hd).trans hx⟩

/-- Whatever stands in the merge is what the first tree has that has anything there. -/
theorem node_mergeAll_eq {ts : List (Tree κ α)} {p : List κ} {x : Node α}
    (h : (blank.mergeAll ts).node p = some x) : firstNode ts p = some x := by
  induction ts using List.reverseRecOn generalizing x with
  | nil => exact absurd h nofun
  | append_singleton ts s ih =>
    have hlast : blank.mergeAll (ts ++ [s]) = (blank.mergeAll ts).merge s := mergeAll_append _ _ _
    rw [hlast] at h
    rw [firstNode, List.findSome?_append]
    by_cases hd : (blank.mergeAll ts).Decided p
    · rw [node_merge_of_decided s hd] at h
      rw [← firstNode, ih h]
      rfl
    · rw [node_merge_of_not_decided s hd] at h
      have hnone : ts.findSome? (fun t ↦ t.node p) = none :=
        List.findSome?_eq_none_iff.mpr fun t ht ↦
          eq_none_iff_forall_ne_some.mpr fun y hy ↦ hd (decided_mergeAll_of_mem ht hy)
      rw [hnone, none_or, List.findSome?_singleton, h]

def Open (t : Tree κ α) (p : List κ) : Prop := ∀ q k r, p = q ++ k :: r → t.node q = some .branch

def Fits (ts : List (Tree κ α)) (v : Tree κ α) : Prop :=
  ∀ p x, v.Open p → firstNode ts p = some x → v.node p = some x

theorem within_mergeAll_iff {ts : List (Tree κ α)} {v : Tree κ α} :
    (blank.mergeAll ts).Within v ↔ Fits ts v := by
  constructor
  · intro h p x hopen hfirst
    obtain ⟨t, ht, hx⟩ := List.exists_of_findSome?_eq_some hfirst
    obtain ⟨y, hy⟩ | ⟨q, k, r, a, hp, ha⟩ := decided_mergeAll_of_mem (t := blank) ht hx
    · rw [node_mergeAll_eq hy, some_inj] at hfirst
      exact hfirst ▸ h p y hy
    · exact absurd ((hopen q k r hp).symm.trans (h q _ ha)) nofun
  · intro h p
    -- above a path where something stands there are shorter paths, where the trees agree
    induction hn : p.length using Nat.strongRecOn generalizing p with
    | ind n ih =>
      intro x hx
      refine h p x (fun q k r hp ↦ ?_) (node_mergeAll_eq hx)
      have hq := (blank.mergeAll ts).above q k r x (hp ▸ hx)
      have hlen : q.length < n := by
        rw [← hn, hp, length_append, length_cons]
        omega
      exact ih q.length hlen q rfl _ hq

def AddsNothing (ts : List (Tree κ α)) (v : Tree κ α) : Prop :=
  ∀ t ∈ ts, ∀ p x, t.node p = some x → v.Decided p

theorem mergeAll_eq_self_iff {ts : List (Tree κ α)} {v : Tree κ α} :
    v.mergeAll ts = v ↔ AddsNothing ts v := by
  induction ts with
  | nil => exact iff_of_true rfl fun t ht ↦ absurd ht not_mem_nil
  | cons t ts ih =>
    rw [AddsNothing, forall_mem_cons]
    constructor
    · intro h
      have h : (v.merge t).mergeAll ts = v := h
      have hback : (v.merge t).Within v := by
        have := within_mergeAll (v.merge t) ts
        rwa [h] at this
      have hfirst : v.merge t = v := hback.antisymm (within_merge v t)
      rw [hfirst] at h
      exact ⟨merge_eq_left_iff.mp hfirst, ih.mp h⟩
    · rintro ⟨ht, hts⟩
      rw [mergeAll, foldl_cons, merge_eq_left_iff.mpr ht]
      exact ih.mpr hts

/-- **When the merge is one of the trees**: those before it fit into it, and those after it add
nothing. -/
theorem mergeAll_eq_iff {ts us : List (Tree κ α)} {v : Tree κ α} :
    blank.mergeAll (ts ++ v :: us) = v ↔ Fits ts v ∧ AddsNothing us v := by
  rw [← within_mergeAll_iff, ← mergeAll_eq_self_iff, mergeAll_append]
  change ((blank.mergeAll ts).merge v).mergeAll us = v ↔ _
  constructor
  · intro h
    have hwithin : (blank.mergeAll ts).Within v := by
      have := (within_merge (blank.mergeAll ts) v).trans (within_mergeAll _ us)
      rwa [h] at this
    rw [merge_eq_right_iff.mpr hwithin] at h
    exact ⟨hwithin, h⟩
  · rintro ⟨hwithin, hafter⟩
    rw [merge_eq_right_iff.mpr hwithin, hafter]

theorem below_mergeAll {t : Tree κ α} (h : t.node [] = some .branch) (ts : List (Tree κ α)) (k : κ) :
    (t.mergeAll ts).below k = (t.below k).mergeAll (ts.map fun s ↦ s.below k) := by
  induction ts generalizing t with
  | nil => rfl
  | cons s ts ih =>
    have hleaf (a : α) : t.node [] ≠ some (.leaf a) := by
      rw [h]
      nofun
    have hbranch : (t.merge s).node [] = some .branch :=
      (node_merge_of_decided s (.inl ⟨_, h⟩)).trans h
    rw [mergeAll, foldl_cons, map_cons, mergeAll, foldl_cons, ← below_merge hleaf]
    exact ih hbranch

end FirstWins.Tree

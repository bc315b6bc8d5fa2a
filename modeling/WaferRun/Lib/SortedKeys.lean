import Mathlib.Data.List.Sort

/-!
# Association lists in the order of their keys

Two association lists with distinct keys hold the same entries if and only if they are equal once
they are sorted by key (`sortKeys_eq_iff`). What a list holds is read by `lookup`, which sorting
does not change.
-/

open List

namespace SortedKeys

variable {κ α : Type*} [LinearOrder κ]

def sortKeys (l : List (κ × α)) : List (κ × α) := l.insertionSort fun a b ↦ a.1 ≤ b.1

theorem sortKeys_perm (l : List (κ × α)) : (sortKeys l).Perm l := perm_insertionSort _ l

theorem mem_sortKeys {l : List (κ × α)} {e : κ × α} : e ∈ sortKeys l ↔ e ∈ l :=
  (sortKeys_perm l).mem_iff

def DistinctKeys (l : List (κ × α)) : Prop := (l.map Prod.fst).Nodup

omit [LinearOrder κ] in
theorem DistinctKeys.of_perm {l m : List (κ × α)} (h : DistinctKeys l) (hperm : l.Perm m) :
    DistinctKeys m :=
  (hperm.map Prod.fst).nodup_iff.mp h

omit [LinearOrder κ] in
theorem DistinctKeys.nodup {l : List (κ × α)} (h : DistinctKeys l) : l.Nodup := List.Nodup.of_map _ h

def Ascending (l : List (κ × α)) : Prop := l.Pairwise fun a b ↦ a.1 < b.1

theorem ascending_sortKeys {l : List (κ × α)} (h : DistinctKeys l) : Ascending (sortKeys l) := by
  have : Std.Total (fun a b : κ × α ↦ a.1 ≤ b.1) := ⟨fun a b ↦ le_total a.1 b.1⟩
  have : IsTrans (κ × α) (fun a b ↦ a.1 ≤ b.1) := ⟨fun _ _ _ ↦ le_trans⟩
  have hsorted := pairwise_insertionSort (fun a b : κ × α ↦ a.1 ≤ b.1) l
  have hnodup := h.of_perm (sortKeys_perm l).symm
  rw [DistinctKeys, List.Nodup, pairwise_map] at hnodup
  exact (hsorted.and hnodup).imp fun h ↦ lt_of_le_of_ne h.1 h.2

theorem Ascending.distinctKeys {l : List (κ × α)} (h : Ascending l) : DistinctKeys l := by
  rw [DistinctKeys, List.Nodup, pairwise_map]
  exact List.Pairwise.imp (fun hlt ↦ ne_of_lt hlt) h

theorem Ascending.eq_of_perm {l m : List (κ × α)} (hl : Ascending l) (hm : Ascending m)
    (h : l.Perm m) : l = m :=
  h.eq_of_pairwise (fun _ _ _ _ hab hba ↦ absurd hba (lt_asymm hab)) hl hm

theorem Ascending.sortKeys_eq {l : List (κ × α)} (h : Ascending l) : sortKeys l = l :=
  (ascending_sortKeys h.distinctKeys).eq_of_perm h (sortKeys_perm l)

/-- **Sorted lists.** They are equal if and only if they hold the same entries. -/
theorem sortKeys_eq_iff {l m : List (κ × α)} (hl : DistinctKeys l) (hm : DistinctKeys m) :
    sortKeys l = sortKeys m ↔ l.Perm m := by
  constructor
  · intro h
    exact (sortKeys_perm l).symm.trans (h ▸ sortKeys_perm m)
  · intro h
    apply (ascending_sortKeys hl).eq_of_perm (ascending_sortKeys hm)
    exact (sortKeys_perm l).trans (h.trans (sortKeys_perm m).symm)

/-! ## Looking up -/

theorem mem_iff_lookup {l : List (κ × α)} (h : DistinctKeys l) {k : κ} {a : α} :
    (k, a) ∈ l ↔ l.lookup k = some a := by
  induction l with
  | nil => exact iff_of_false not_mem_nil (by rintro ⟨⟩)
  | cons e l ih =>
    obtain ⟨k', b⟩ := e
    rw [DistinctKeys, map_cons, nodup_cons] at h
    rw [mem_cons, lookup_cons]
    by_cases hk : k = k'
    · subst hk
      rw [beq_self_eq_true]
      have hnot : (k, a) ∉ l := fun hmem ↦ h.1 (mem_map.mpr ⟨_, hmem, rfl⟩)
      rw [or_iff_left hnot]
      exact ⟨fun heq ↦ congrArg some (Prod.mk.inj heq).2.symm,
        fun heq ↦ congrArg _ (Option.some.inj heq).symm⟩
    · rw [beq_false_of_ne hk]
      have hne : (k, a) ≠ (k', b) := fun heq ↦ hk (Prod.mk.inj heq).1
      rw [or_iff_right hne]
      exact ih h.2

omit [LinearOrder κ] in
theorem lookup_map [DecidableEq κ] {β : Type*} (f : α → β) (l : List (κ × α)) (k : κ) :
    (l.map fun e ↦ (e.1, f e.2)).lookup k = (l.lookup k).map f := by
  induction l with
  | nil => rfl
  | cons e l ih =>
    rw [map_cons, lookup_cons, lookup_cons]
    rcases k == e.1
    · exact ih
    · rfl

theorem perm_iff_lookup {l m : List (κ × α)} (hl : DistinctKeys l) (hm : DistinctKeys m) :
    l.Perm m ↔ ∀ k, l.lookup k = m.lookup k := by
  rw [perm_ext_iff_of_nodup hl.nodup hm.nodup]
  constructor
  · intro h k
    refine Option.ext fun a ↦ ?_
    rw [← mem_iff_lookup hl, ← mem_iff_lookup hm]
    exact h (k, a)
  · rintro h ⟨k, a⟩
    rw [mem_iff_lookup hl, mem_iff_lookup hm, h k]

end SortedKeys

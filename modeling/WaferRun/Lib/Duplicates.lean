import Mathlib.Data.List.Dedup
import Mathlib.Data.List.Sort

/-!
# What is claimed twice

Claims of keys are grouped, and the keys with more than one claimant are told. They and their
claimants are told in order, so it does not matter in which order the claims came in.
-/

open List

namespace Duplicates

variable {κ γ : Type*} [LinearOrder κ] [LinearOrder γ] {claims claims' : List (κ × γ)} {k : κ}

/-- The keys with more than one claimant, in order, each with its claimants in order. -/
def duplicates (claims : List (κ × γ)) : List (κ × List γ) :=
  ((claims.map Prod.fst).dedup.mergeSort (· ≤ ·)).filterMap fun k ↦
    let claimants := (claims.filter (·.1 = k)).map Prod.snd
    if 1 < claimants.length then some (k, claimants.mergeSort (· ≤ ·)) else none

theorem mergeSort_of_perm {l l' : List κ} (h : l.Perm l') :
    l.mergeSort (· ≤ ·) = l'.mergeSort (· ≤ ·) :=
  (((mergeSort_perm _ _).trans h).trans (mergeSort_perm _ _).symm).eq_of_pairwise'
    (pairwise_mergeSort' (· ≤ ·) l) (pairwise_mergeSort' (· ≤ ·) l')

theorem duplicates_of_perm (h : claims.Perm claims') : duplicates claims = duplicates claims' := by
  rw [duplicates, duplicates, mergeSort_of_perm (h.map _).dedup]
  refine filterMap_congr fun k _ ↦ ?_
  have hk := (h.filter (·.1 = k)).map Prod.snd
  simp only [mergeSort_of_perm hk, hk.length_eq]

omit [LinearOrder γ] in
theorem length_claimants (claims : List (κ × γ)) (k : κ) :
    ((claims.filter (·.1 = k)).map Prod.snd).length = (claims.map Prod.fst).count k := by
  rw [length_map, ← countP_eq_length_filter, count, countP_map]
  rfl

/-- What is told of a key: its claimants, if it has more than one. -/
theorem mem_duplicates {group : List γ} : (k, group) ∈ duplicates claims ↔
    1 < group.length ∧ group.Pairwise (· ≤ ·) ∧
      group.Perm ((claims.filter (·.1 = k)).map Prod.snd) := by
  simp only [duplicates, mem_filterMap, mem_mergeSort, mem_dedup]
  constructor
  · rintro ⟨k', -, h⟩
    obtain ⟨hlength, h⟩ := Option.ite_none_right_eq_some.mp h
    obtain ⟨rfl, rfl⟩ := Prod.mk.inj (Option.some.inj h)
    exact ⟨by rwa [length_mergeSort], pairwise_mergeSort' _ _, mergeSort_perm _ _⟩
  · rintro ⟨hlength, hsorted, hperm⟩
    rw [hperm.length_eq] at hlength
    have heq := (hperm.trans (mergeSort_perm _ _).symm).eq_of_pairwise' hsorted
      (pairwise_mergeSort' (· ≤ ·) _)
    refine ⟨k, ?_, by rw [if_pos hlength, heq]⟩
    exact count_pos_iff.mp (length_claimants claims k ▸ by omega)

theorem duplicates_eq_nil_iff : duplicates claims = [] ↔ (claims.map Prod.fst).Nodup := by
  rw [nodup_iff_count_le_one, eq_nil_iff_forall_not_mem]
  constructor
  · intro h k
    by_contra hk
    rw [← length_claimants, not_le] at hk
    refine h (k, _) (mem_duplicates.mpr ⟨?_, pairwise_mergeSort' _ _, mergeSort_perm _ _⟩)
    rwa [length_mergeSort]
  · rintro h ⟨k, group⟩ hmem
    obtain ⟨hlength, -, hperm⟩ := mem_duplicates.mp hmem
    rw [hperm.length_eq, length_claimants] at hlength
    exact absurd hlength (not_lt.mpr (h k))

end Duplicates

import Mathlib.Algebra.BigOperators.Group.List.Basic
import Mathlib.Data.List.AList
import Mathlib.Tactic.Ring

/-!
# Tables of handles and what they weigh

A table gives some handles an entry. Entries have a weight that may depend on their handle, and a
budget bounds the sum (`total`). What an operation does to the sum is decided at the one handle it
works on: the sum splits into the weight there and the sum of the rest (`total_of_lookup`), so an
entry can be replaced, added or removed without looking at the others.
-/

open List

namespace HandleTable

abbrev Table (κ α : Type*) := AList fun _ : κ ↦ α

variable {κ α : Type*}

def total (weight : κ → α → ℕ) (t : Table κ α) : ℕ := (t.entries.map fun e ↦ weight e.1 e.2).sum

variable {weight : κ → α → ℕ} {t : Table κ α} {h : κ} {a b : α}

theorem total_empty : total weight (∅ : Table κ α) = 0 := rfl

theorem total_add (f g : κ → α → ℕ) (t : Table κ α) :
    total (fun k a ↦ f k a + g k a) t = total f t + total g t :=
  List.sum_map_add

theorem total_zero (t : Table κ α) : total (fun _ _ ↦ 0) t = 0 := by
  simp [total]

variable [DecidableEq κ]

/-- The weight at one handle and the weight of the rest. -/
theorem total_of_lookup (hl : t.lookup h = some a) :
    total weight t = weight h a + total weight (t.erase h) := by
  have hkey : h ∈ t.entries.keys :=
    AList.lookup_isSome.mp (Option.isSome_iff_exists.mpr ⟨a, hl⟩)
  obtain ⟨b, l₁, l₂, hnot, hentries, herase⟩ := exists_of_kerase hkey
  have hb : b = a := by
    have hlookup : t.entries.dlookup h = some b := by
      rw [hentries, dlookup_append, dlookup_eq_none.mpr hnot, Option.none_or,
        dlookup_cons_eq]
    exact Option.some.inj (hlookup.symm.trans hl)
  change (t.entries.map fun e ↦ weight e.1 e.2).sum =
    weight h a + ((List.kerase h t.entries).map fun e ↦ weight e.1 e.2).sum
  rw [herase, hentries, hb]
  simp only [map_append, map_cons, List.sum_append, sum_cons]
  ring

theorem total_insert : total weight (t.insert h b) = weight h b + total weight (t.erase h) := by
  rw [total, AList.entries_insert, map_cons, sum_cons]
  rfl

theorem erase_of_lookup_eq_none (hl : t.lookup h = none) : t.erase h = t :=
  AList.ext (kerase_of_notMem_keys (AList.lookup_eq_none.mp hl))

theorem total_insert_of_lookup_eq_none (hl : t.lookup h = none) :
    total weight (t.insert h b) = weight h b + total weight t := by
  rw [total_insert, erase_of_lookup_eq_none hl]

theorem total_erase_le : total weight (t.erase h) ≤ total weight t := by
  rcases hl : t.lookup h with - | a
  · rw [erase_of_lookup_eq_none hl]
  · rw [total_of_lookup hl]
    exact Nat.le_add_left _ _

theorem total_congr {weight' : κ → α → ℕ}
    (h : ∀ k a, t.lookup k = some a → weight k a = weight' k a) :
    total weight t = total weight' t := by
  rw [total, total]
  refine congrArg List.sum (map_congr_left fun e he ↦ ?_)
  exact h e.1 e.2 (mem_dlookup t.nodupKeys he)

/-- A weight at one handle only is counted once at most. -/
theorem total_single_le (h : κ) (n : ℕ) (t : Table κ α) :
    total (fun k _ ↦ if h = k then n else 0) t ≤ n := by
  have hrest : ∀ t : Table κ α, t.lookup h = none →
      total (fun k _ ↦ if h = k then n else 0) t = 0 := by
    intro t hl
    refine (total_congr fun k a hk ↦ if_neg ?_).trans (total_zero t)
    rintro rfl
    exact absurd (hl.symm.trans hk) nofun
  rcases hl : t.lookup h with - | a
  · exact (hrest t hl).trans_le (Nat.zero_le n)
  · rw [total_of_lookup hl, hrest (t.erase h) (AList.lookup_erase _ _), if_pos rfl, Nat.add_zero]

/-! ## How many entries there are -/

/-- The number of entries. -/
def size (t : Table κ α) : ℕ := t.keys.length

theorem size_insert_of_lookup (hl : t.lookup h = some a) : size (t.insert h b) = size t := by
  have hkey : h ∈ t.keys := AList.lookup_isSome.mp (Option.isSome_iff_exists.mpr ⟨a, hl⟩)
  rw [size, AList.keys_insert, length_cons, length_erase_of_mem hkey, size]
  have := length_pos_of_mem hkey
  omega

theorem size_insert_of_lookup_eq_none (hl : t.lookup h = none) :
    size (t.insert h b) = size t + 1 := by
  rw [size, AList.keys_insert, length_cons,
    erase_of_not_mem (AList.lookup_eq_none.mp hl), size]

theorem size_erase_le : size (t.erase h) ≤ size t := by
  rw [size, AList.keys_erase]
  exact length_erase_le

end HandleTable
